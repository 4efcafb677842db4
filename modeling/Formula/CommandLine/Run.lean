import Formula.CommandLine.Arguments
import Formula.CommandLine.Elapsed
import Formula.CommandLine.Log
import Formula.Definitions
import Formula.Expr.Outline
import Formula.Text.Json

/-!
# Running a command

An evaluation has three steps, so that time can be measured in between: `prepare` compiles and
links, `Ready.eval` evaluates, and `finish` reports the result. `Invocation.run` carries out any
command, given the files, the clock and the measured times.
-/

namespace Formula.CommandLine

/-- A piece of what is written to the error stream. -/
inductive Entry where
  | record (r : Record)
  | text (s : String)
deriving Inhabited

namespace Entry

/-- The text that is shown when records up to a level are shown. -/
def shown (level : Level) : Entry → String
  | record r => if r.level.rank ≤ level.rank then r.text else ""
  | text s => s

end Entry

/-- A computation that writes to the error stream and may fail with a message. -/
abbrev Work := ExceptT String (StateM (Array Entry))

namespace Work

/-- Logs records. -/
def log (records : List Record) : Work Unit :=
  modify (· ++ (records.map Entry.record).toArray)

/-- Writes a text to the error stream. -/
def write (s : String) : Work Unit :=
  modify (·.push (.text s))

/-- Goes on with a value, or fails with the text of an error. -/
def require {ε α : Type} (text : ε → String) : Except ε α → Work α
  | .ok a => pure a
  | .error e => throw (text e)

/-- Fails with the text of an error, if there is one. -/
def requireNone {ε : Type} (text : ε → String) : Option ε → Work Unit
  | none => pure ()
  | some e => throw (text e)

end Work

/-- A linked program and the values of its variables. -/
structure Ready where
  program : Program
  store : Store

/-- The world of evaluations from the command line: variables only, and a clock that stands at
`now`. -/
def host (now : Float) : Host Store where
  read cell := return (← get).read cell
  call _ _ := pure Builtin.nan
  clock := pure now

namespace Ready

/-- Evaluates the program. Its variables stay as they are, so every evaluation gives the same. -/
def eval (ready : Ready) (now : Float) : Except RuntimeError Float :=
  (ready.program.eval (host now) ready.store).1

end Ready

/-! ## Preparing an evaluation -/

/-- Where a file can be read: its text, or why there is none. -/
abbrev Files := String → Except String String

/-- The definitions in a file. -/
def readDefinitions (files : Files) (path : String) : Work Definitions := do
  let content ← Work.require (fun reason => "failed to read " ++ path ++ ": " ++ reason) (files path)
  match Definitions.ofString? content with
  | some definitions => return definitions
  | none => throw (path ++ ": " ++ Definitions.invalidText)

/-- The functions of a file that were compiled when its definitions were applied: those that are
registered now, and the one that could not be compiled. -/
def compiledSources (definitions : Definitions) (context : Context) (error : Option ContextError) :
    List String :=
  (definitions.functions.filter fun (name, _) =>
    (context.program? name).isSome ||
      (match error with
        | some (.compile failed _) => failed = name
        | _ => false)).map Prod.snd

/-- Applies definitions to a new context. -/
def applyDefinitions (definitions : Definitions) (context : Context) :
    Work Definitions.Workspace := do
  let (error, w) := definitions.apply context .empty
  Work.log ((compiledSources definitions w.context error).flatMap (Record.ofContextCompiling context))
  Work.requireNone ContextError.text error
  return w

/-- Gives a variable a value: the variable that has the name already, or a new one. -/
def assign (w : Definitions.Workspace) (name : String) (value : Float) :
    Except ContextError Definitions.Workspace :=
  match w.handles.lookup name with
  | some cell => .ok { w with store := w.store.write cell value }
  | none => w.var? name value

/-- Gives variables values, one after the other. -/
def assignAll : List (String × Float) → Definitions.Workspace →
    Except ContextError Definitions.Workspace
  | [], w => .ok w
  | (name, value) :: rest, w =>
    match assign w name value with
    | .ok w => assignAll rest w
    | .error error => .error error

/-- Writes what the options ask to see of an expression. -/
def writeDumps (expression : String) (o : Options) : Work Unit := do
  if .dumpAst ∈ o.flags then
    Work.log (Record.ofParsing expression)
    let tree ← Work.require CompileError.text (Expr.ofString? expression)
    Work.write tree.outline
  if .dumpBytecode ∈ o.flags then
    Work.log (Record.ofCompiling .interpreted o.config.optimize expression)
    let object ← Work.require CompileError.text
      (Object.ofString? .interpreted o.config.optimize expression)
    Work.write object.disassemble
  if .dumpIr ∈ o.flags then
    Work.log (Record.ofCompiling .jit o.config.optimize expression)
    let object ← Work.require CompileError.text
      (Object.ofString? .jit o.config.optimize expression)
    Work.write object.disassemble

/-- Compiles and links an expression with the variables and functions that the options give. -/
def prepare (files : Files) (expression : String) (o : Options) : Work Ready := do
  let context ← Work.require ContextError.text (Context.ofConfig? o.config)
  Work.log [Record.ofContext context]
  let w ← match o.definitions with
    | none => pure ⟨context, .empty, []⟩
    | some path => do applyDefinitions (← readDefinitions files path) context
  let w ← Work.require ContextError.text (assignAll o.assignments w)
  let (error, linker) := w.context.linkAll
  Work.log (linker.events.toList.map Record.ofLinkEvent)
  Work.requireNone LinkError.text error
  let context := linker.context
  writeDumps expression o
  Work.log (Record.ofContextCompiling context expression)
  let program ← Work.require CompileError.text (context.compile expression)
  Work.log ((context.bindingEvents program.object.symbols).map Record.ofLinkEvent)
  let program := context.linkProgram program
  Work.requireNone LinkError.text program.state.error?
  return ⟨program, w.store⟩

/-! ## Reporting a result -/

/-- What a command leaves behind: its exit code and what it wrote to the two streams. -/
structure Output where
  code : Nat
  stdout : String
  stderr : String
deriving DecidableEq, Inhabited

/-- A result as a JSON object. -/
def jsonReport (expression : String) (backend : Backend) (count : Nat) (value : Float)
    (elapsed : Elapsed) : String :=
  "\x7b\n  \"expression\": " ++ Json.quote expression ++ ",\n  \"backend\": " ++
    Json.quote backend.name ++ ",\n  \"result\": " ++ json value ++ ",\n  \"evals\": " ++
    toString count ++ ",\n  \"elapsed_ns\": " ++ elapsed.nanoseconds ++ "\n\x7d"

/-- The line about the times of several evaluations. -/
def timing (backend : Backend) (count : Nat) (elapsed : Elapsed) : String :=
  toString count ++ " evals in " ++ elapsed.total ++ " (" ++ elapsed.perEvaluation ++
    " ns/eval, " ++ backend.name ++ ")\n"

/-- What is written to the standard stream and to the error stream about a result. -/
def report (expression : String) (o : Options) (ready : Ready) (value : Float)
    (elapsed : Elapsed) : String × String :=
  let backend := ready.program.backend
  match o.format.getD .human with
  | .human => (plain value ++ "\n", if 1 < o.count then timing backend o.count elapsed else "")
  | .json => (jsonReport expression backend o.count value elapsed ++ "\n", "")

/-! ## Commands -/

/-- The output of a computation that ends with the text for the standard stream. -/
def Work.output (level : Level) (work : Work String) : Output :=
  match work.run #[] with
  | (result, entries) =>
    let errors := String.join (entries.toList.map (Entry.shown level))
    match result with
    | .ok stdout => ⟨0, stdout, errors⟩
    | .error message => ⟨1, "", errors ++ message ++ "\n"⟩

/-- Reports the result of an evaluation, or fails with its error. -/
def finish (expression : String) (o : Options) (ready : Ready)
    (result : Except RuntimeError Float) (elapsed : Elapsed) : Work String := do
  let value ← Work.require RuntimeError.text result
  let (stdout, stderr) := report expression o ready value elapsed
  Work.write stderr
  return stdout

/-- Prepares, evaluates and reports. -/
def evaluate (files : Files) (now : Float) (elapsed : Elapsed) (expression : String)
    (o : Options) : Work String := do
  let ready ← prepare files expression o
  finish expression o ready (ready.eval now) elapsed

/-- Reads an expression, and says so if that succeeds. -/
def check (expression : String) : Work String := do
  Work.log (Record.ofParsing expression)
  let _ ← Work.require CompileError.text (Expr.ofString? expression)
  return "ok\n"

namespace Invocation

/-- The records that are shown. -/
def level (invocation : Invocation) : Level :=
  match invocation.command with
  | .eval _ o => .shown invocation.verbosity (.traceJit ∈ o.flags)
  | _ => .shown invocation.verbosity false

/-- The output of a command, where files, clock and measured times are given. -/
def run (files : Files) (now : Float) (elapsed : Elapsed) (invocation : Invocation) : Output :=
  Work.output invocation.level <|
    match invocation.command with
    | .eval expression o => evaluate files now elapsed expression o
    | .check expression => check expression
    | .mangle name arity => pure (Signature.symbol ⟨name, arity⟩ ++ "\n")
    | .demangle symbol => pure (Signature.describe symbol ++ "\n")

end Invocation

end Formula.CommandLine
