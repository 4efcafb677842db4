import Formula.Context.Linking
import Formula.Text.Terminal

/-!
# Log records

What the command line writes about its work as it goes. Each record has a level, and only the
records up to a chosen level are shown. The records about compiling and linking are functions of
what is compiled and linked.
-/

namespace Formula.CommandLine

/-- How much a record matters, the most important first. -/
inductive Level where
  | error
  | warn
  | info
  | debug
  | trace
deriving DecidableEq, Inhabited

namespace Level

/-- Place in the order of importance. -/
def rank : Level → Nat
  | error => 0
  | warn => 1
  | info => 2
  | debug => 3
  | trace => 4

/-- The name, five characters wide. -/
def text : Level → String
  | error => "ERROR"
  | warn => "WARN "
  | info => "INFO "
  | debug => "DEBUG"
  | trace => "TRACE"

/-- The least important level shown after so many requests for more; `traced` asks for the
compilations to be shown. -/
def shown (verbosity : Nat) (traced : Bool) : Level :=
  match verbosity with
  | 0 => if traced then info else warn
  | 1 => info
  | 2 => debug
  | _ => trace

end Level

/-- A message about a part of the program. -/
structure Record where
  level : Level
  target : String
  message : String
deriving DecidableEq, Inhabited

namespace Record

/-- The record as text. Further lines of the message are indented, and what a terminal would not
show is left out. -/
def text (r : Record) : String :=
  Terminal.visible <|
    "[" ++ r.level.text ++ " " ++ r.target ++ "] " ++ r.message.replace "\n" "\n    " ++ "\n"

/-- The record about a new context. -/
def ofContext (context : Context) : Record :=
  ⟨.debug, "jitexpr::context", "context created (" ++ context.backend.text ++ " backend, " ++
    toString context.functions.size ++ " builtins)"⟩

/-- The record about an event of linking. -/
def ofLinkEvent : LinkEvent → Record
  | .resolved count =>
    ⟨.debug, "jitexpr::link", "resolved " ++ toString count ++ " symbols"⟩
  | .unresolved error => ⟨.error, "jitexpr::link", error.text⟩
  | .recursion name =>
    ⟨.error, "jitexpr::context", "recursive definition of '" ++ name ++ "'"⟩
  | .linked name => ⟨.debug, "jitexpr::context", "linked '" ++ name ++ "'"⟩

/-- The records about reading a text: an unknown character that was come to. -/
def ofParsing (source : String) : List Record :=
  match Token.ofSource? (.ofString source), Expr.ofString? source with
  | .error unknown, .error error =>
    if error = unknown then
      [⟨.debug, "jitexpr::compiler::lexer", "lexer error: " ++ error.message⟩]
    else []
  | _, _ => []

/-- The records about compiling an expression to bytecode. -/
def ofBytecode (e : Expr) : List Record :=
  match Object.bytecodeOfExpr? e with
  | .error _ => []
  | .ok object =>
    [⟨.debug, "jitexpr::compiler", "compiled " ++ toString e.size ++ " AST nodes into " ++
      toString object.size ++ " bytes of bytecode"⟩]

/-- The records about the peephole pass over native code. -/
def ofPeephole (code : List Native.Inst) : List Record :=
  [⟨.trace, "jitexpr::jit::compiler", "jit ir before optimization:\n" ++ Native.listing code⟩,
    ⟨.debug, "jitexpr::jit::ir", "peephole: " ++ toString code.length ++ " -> " ++
      toString (Native.optimize code).length ++ " instructions"⟩]

/-- The records about finished native code. -/
def ofNativeCode (code : List Native.Inst) : List Record :=
  let bytes := Native.encode code
  [⟨.trace, "jitexpr::jit::compiler", "jit ir:\n" ++ Native.listing code⟩,
    ⟨.debug, "jitexpr::jit::compiler", "jit: " ++ toString code.length ++ " instructions, " ++
      toString bytes.length ++ " bytes, " ++ toString (Native.relocations code).length ++
      " relocations"⟩,
    ⟨.trace, "jitexpr::jit::compiler", "jit code:\n" ++ Hex.dump bytes⟩]

/-- The records about compiling an expression to native code. -/
def ofNative (optimize : Bool) (e : Expr) : List Record :=
  match Native.ofExpr? e with
  | .error _ => []
  | .ok emitted =>
    if optimize then ofPeephole emitted.code ++ ofNativeCode (Native.optimize emitted.code)
    else ofNativeCode emitted.code

/-- The records about compiling a text. -/
def ofCompiling (backend : Backend) (optimize : Bool) (source : String) : List Record :=
  match Expr.ofString? source, backend with
  | .error _, _ => ofParsing source
  | .ok e, .interpreted => ofBytecode e
  | .ok e, .jit => ofNative optimize e

/-- The records about compiling a text for a context, which may ask for native code to be
shown. -/
def ofContextCompiling (context : Context) (source : String) : List Record :=
  ofCompiling context.backend context.config.optimize source ++
    match context.compile source with
    | .ok program =>
      if context.config.traceJit ∧ context.backend = .jit then
        [⟨.info, "jitexpr::context", "compiled \x60" ++ source ++ "\x60:\n" ++
          program.object.disassemble⟩]
      else []
    | .error _ => []

end Record

end Formula.CommandLine
