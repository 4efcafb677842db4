import Formula.Config
import Formula.Number.Reading
import Formula.Text.Terminal

/-!
# Command line arguments

`Invocation.ofArgs` reads the arguments of a run: how much to log, what to do, and with which
options. An option takes its value from the same argument, after an equals sign, or from the next
one; in that case the value is checked when the argument after it turns out to have a meaning, or
at the end. After the argument `--` everything is taken as it is.
-/

namespace Formula.CommandLine

/-- Why arguments are refused. -/
inductive UsageError where
  /-- They do not have the form of a command. -/
  | malformed
  /-- The value of an option that defines a variable cannot be used. -/
  | badAssignment (argument reason : String)
deriving DecidableEq, Inhabited

namespace UsageError

/-- Wording. What a terminal would not show of the argument and of the reason is left out. -/
def text : UsageError → String
  | malformed => "error: malformed command line"
  | badAssignment argument reason =>
    "error: invalid value '" ++ Terminal.visible argument ++ "' for '--var <NAME=VALUE>': " ++
      Terminal.visible reason

end UsageError

/-! ## Values -/

/-- The characters that count as space around names and values. -/
def isSpace (c : Char) : Bool :=
  ('\t' ≤ c && c ≤ '\r') || c = ' ' || c = '\u0085' || c = '\u00a0' || c = '\u1680' ||
    ('\u2000' ≤ c && c ≤ '\u200a') || c = '\u2028' || c = '\u2029' || c = '\u202f' ||
    c = '\u205f' || c = '\u3000'

/-- A text without the space around it. -/
def trim (text : List Char) : List Char :=
  ((text.dropWhile isSpace).reverse.dropWhile isSpace).reverse

/-- A text before and after its first equals sign. -/
def splitEquals (text : List Char) : List Char × Option (List Char) :=
  (text.takeWhile (· ≠ '='), (text.dropWhile (· ≠ '=')).tail?)

/-- The variable and the value that an argument such as `x = 1.5` gives it, or the reason why it
gives none. -/
def readAssignment (argument : String) : Except String (String × Float) :=
  match splitEquals argument.toList with
  | (_, none) => .error ("expected NAME=VALUE, got '" ++ argument ++ "'")
  | (name, some value) =>
    let name := String.ofList (trim name)
    if name.isEmpty then .error ("missing variable name in '" ++ argument ++ "'")
    else
      match readFloat (trim value) with
      | .ok x => .ok (name, x)
      | .error fault => .error ("invalid value for '" ++ name ++ "': " ++ fault.text)

/-- How a result is written. -/
inductive OutputFormat where
  | human
  | json
deriving DecidableEq, Inhabited

/-! ## Options -/

/-- The options that take a value. -/
inductive ValueOption where
  | jit
  | var
  | defs
  | repetitions
  | format
deriving DecidableEq, Inhabited

namespace ValueOption

/-- The option with a name. -/
def ofName? : String → Option ValueOption
  | "jit" => some jit
  | "var" => some var
  | "defs" => some defs
  | "repeat" => some repetitions
  | "format" => some format
  | _ => none

end ValueOption

/-- The options without a value, each of which may be given once. -/
inductive Flag where
  | dumpAst
  | dumpBytecode
  | dumpIr
  | traceJit
  | noOptimize
deriving DecidableEq, Inhabited

namespace Flag

/-- The option with a name. -/
def ofName? : String → Option Flag
  | "dump-ast" => some dumpAst
  | "dump-bytecode" => some dumpBytecode
  | "dump-ir" => some dumpIr
  | "trace-jit" => some traceJit
  | "no-optimize" => some noOptimize
  | _ => none

end Flag

/-- The options of an evaluation that have been given. -/
structure Options where
  mode : Option JitMode
  assignments : List (String × Float)
  definitions : Option String
  repetitions : Option Nat
  format : Option OutputFormat
  flags : List Flag
deriving Inhabited

namespace Options

/-- No options. -/
def empty : Options :=
  ⟨none, [], none, none, none, []⟩

/-- Gives a value to an option that has none yet. -/
def once {α : Type} (old new : Option α) : Except UsageError (Option α) :=
  match old, new with
  | none, some value => .ok (some value)
  | _, _ => .error .malformed

/-- Takes the value of an option. -/
def take (o : Options) (option : ValueOption) (value : String) : Except UsageError Options :=
  match option with
  | .jit => do
    let mode ← once o.mode (match value with
      | "off" => some .off
      | "on" => some .on
      | "auto" => some .auto
      | _ => none)
    return { o with mode := mode }
  | .var =>
    match readAssignment value with
    | .ok assignment => .ok { o with assignments := o.assignments ++ [assignment] }
    | .error reason => .error (.badAssignment value reason)
  | .defs => do
    let path ← once o.definitions (if value.isEmpty then none else some value)
    return { o with definitions := path }
  | .repetitions => do
    let count ← once o.repetitions ((readNat? UInt64.size value.toList).filter (0 < ·))
    return { o with repetitions := count }
  | .format => do
    let format ← once o.format (match value with
      | "human" => some .human
      | "json" => some .json
      | _ => none)
    return { o with format := format }

/-- Sets a flag. -/
def set (o : Options) (flag : Flag) : Except UsageError Options :=
  if flag ∈ o.flags then .error .malformed else .ok { o with flags := flag :: o.flags }

/-- How often to evaluate. -/
def count (o : Options) : Nat :=
  o.repetitions.getD 1

/-- The configuration that the options ask for. -/
def config (o : Options) : RuntimeConfig :=
  ⟨o.mode.getD .auto, .traceJit ∈ o.flags, .noOptimize ∉ o.flags⟩

end Options

/-! ## Reading -/

/-- The commands. -/
inductive CommandName where
  | eval
  | check
  | mangle
  | demangle
deriving DecidableEq, Inhabited

namespace CommandName

/-- The command with a name. -/
def ofName? : String → Option CommandName
  | "eval" => some eval
  | "check" => some check
  | "mangle" => some mangle
  | "demangle" => some demangle
  | _ => none

/-- How many arguments follow the name. -/
def operands : CommandName → Nat
  | mangle => 2
  | _ => 1

end CommandName

/-- The arguments of a command as far as they have been read. -/
structure Draft where
  name : CommandName
  verbosity : Nat
  operands : List String
  options : Options
  /-- The last option, if its value comes from an argument of its own, and that value. -/
  pending : Option (ValueOption × Option String)
  /-- Whether `--` has been read. -/
  literal : Bool

namespace Draft

/-- A command of which only the name has been read. -/
def ofName (name : CommandName) : Draft :=
  ⟨name, 0, [], .empty, none, false⟩

/-- Takes the value of the last option. -/
def settle (d : Draft) : Except UsageError Draft :=
  match d.pending with
  | none => .ok d
  | some (_, none) => .error .malformed
  | some (option, some value) => do
    return { d with options := ← d.options.take option value, pending := none }

/-- Reads an argument that is not an option. -/
def operand (d : Draft) (argument : String) : Except UsageError Draft :=
  if d.operands.length < d.name.operands then do
    let d ← d.settle
    return { d with operands := d.operands ++ [argument] }
  else .error .malformed

/-- Reads letters behind a single dash. -/
def letters : List Char → Draft → Except UsageError Draft
  | [], d => .ok d
  | 'v' :: rest, d => do
    let d ← d.settle
    letters rest { d with verbosity := d.verbosity + 1 }
  | _ :: _, _ => .error .malformed

/-- Reads an option behind two dashes, with the value attached to it if there is one. -/
def long (d : Draft) (name : String) (value : Option String) : Except UsageError Draft :=
  if name = "verbose" ∧ value = none then do
    let d ← d.settle
    return { d with verbosity := d.verbosity + 1 }
  else if d.name ≠ .eval then .error .malformed
  else
    match ValueOption.ofName? name, Flag.ofName? name, value with
    | some option, _, none => do
      let d ← d.settle
      return { d with pending := some (option, none) }
    | some option, _, some value => do
      let d ← d.settle
      return { d with options := ← d.options.take option value }
    | none, some flag, none => do
      let d ← d.settle
      return { d with options := ← d.options.set flag }
    | _, _, _ => .error .malformed

/-- Reads one more argument. -/
def step (d : Draft) (argument : String) : Except UsageError Draft :=
  if d.literal then d.operand argument
  else
    match argument.toList with
    | ['-', '-'] => .ok { d with literal := true }
    | '-' :: '-' :: text =>
      let (name, value) := splitEquals text
      d.long (String.ofList name) (value.map String.ofList)
    | '-' :: c :: rest => letters (c :: rest) d
    | _ =>
      match d.pending with
      | some (option, none) => .ok { d with pending := some (option, some argument) }
      | _ => d.operand argument

/-- Reads the rest of the arguments. -/
def steps : List String → Draft → Except UsageError Draft
  | [], d => d.settle
  | argument :: arguments, d => do
    steps arguments (← d.step argument)

end Draft

/-- What to do. -/
inductive Command where
  | eval (expression : String) (options : Options)
  | check (expression : String)
  | mangle (name : String) (arity : Nat)
  | demangle (symbol : String)
deriving Inhabited

/-- The command that was read. -/
def Draft.command (d : Draft) : Except UsageError Command :=
  match d.name, d.operands with
  | .eval, [expression] => .ok (.eval expression d.options)
  | .check, [expression] => .ok (.check expression)
  | .mangle, [name, arity] =>
    match readNat? UInt64.size arity.toList with
    | some arity => .ok (.mangle name arity)
    | none => .error .malformed
  | .demangle, [symbol] => .ok (.demangle symbol)
  | _, _ => .error .malformed

/-- A command and how much to log. -/
structure Invocation where
  verbosity : Nat
  command : Command
deriving Inhabited

namespace Invocation

/-- Reads the arguments; requests for a more verbose log may stand before the command, and count
if none stand behind it. -/
def ofArgsAfter (verbosity : Nat) : List String → Except UsageError Invocation
  | [] => .error .malformed
  | argument :: arguments =>
    match CommandName.ofName? argument, argument.toList with
    | some name, _ => do
      let draft ← Draft.steps arguments (.ofName name)
      let verbosity := if draft.verbosity = 0 then verbosity else draft.verbosity
      return ⟨verbosity, ← draft.command⟩
    | none, '-' :: c :: rest =>
      if argument = "--verbose" then ofArgsAfter (verbosity + 1) arguments
      else if (c :: rest).all (· = 'v') then
        ofArgsAfter (verbosity + (c :: rest).length) arguments
      else .error .malformed
    | none, _ => .error .malformed

/-- Reads the arguments. -/
def ofArgs (arguments : List String) : Except UsageError Invocation :=
  ofArgsAfter 0 arguments

end Invocation

end Formula.CommandLine
