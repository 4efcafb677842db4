import Std.Data.TreeMap
import Formula.Program

/-!
# Contexts

A context holds the variables, functions and named sub-programs that expressions may refer to.
Variables are known by name, functions by the linker symbol of their signature. The first
registration of a name wins: a later one is refused and changes nothing.
-/

namespace Formula

/-- A function that expressions may call. -/
inductive Function where
  | builtin (b : Builtin)
  | host (f : HostFunction)
  /-- The named sub-program. -/
  | program (name : String)
deriving DecidableEq, Inhabited

namespace Function

/-- Number of parameters. -/
def arity : Function → Nat
  | builtin b => b.arity
  | host f => f.arity
  | program _ => 0

/-- Description. -/
def text : Function → String
  | builtin b => HostKind.native.text ++ "/" ++ toString b.arity
  | host f => f.kind.text ++ "/" ++ toString f.arity
  | program name => "Program(" ++ name ++ ")"

end Function

/-- The names that expressions may refer to, and how they are compiled. -/
structure Context where
  config : RuntimeConfig
  backend : Backend
  vars : Std.TreeMap String Cell
  /-- By linker symbol. -/
  functions : Std.TreeMap String Function
  /-- The named sub-programs, in order of their names. -/
  programs : Std.TreeMap String Program

namespace Context

/-- The context that knows the built-in functions only. -/
def initial (config : RuntimeConfig) (backend : Backend) : Context where
  config := config
  backend := backend
  vars := ∅
  functions := Builtin.all.foldl (fun m b => m.insert b.signature.symbol (.builtin b)) ∅
  programs := ∅

/-- A context for a configuration. -/
def ofConfig? (config : RuntimeConfig) : Except ContextError Context := do
  return initial config (← config.backend?)

/-- A context of the standard configuration. -/
def standard : Context :=
  initial .standard (.jit)

/-- A context of the standard configuration that uses the interpreter all the same. -/
def interpreted : Context :=
  initial .standard .interpreted

instance : Inhabited Context := ⟨interpreted⟩

/-! ## Looking up -/

/-- The named sub-program. -/
def program? (context : Context) (name : String) : Option Program :=
  context.programs[name]?

/-- The names of the sub-programs, in order. -/
def programNames (context : Context) : List String :=
  context.programs.keys

/-! ## Registration -/

/-- Puts a variable under a name. -/
def setVar (context : Context) (name : String) (cell : Cell) : Context :=
  { context with vars := context.vars.insert name cell }

/-- Puts a function under a linker symbol. -/
def setFunction (context : Context) (symbol : String) (f : Function) : Context :=
  { context with functions := context.functions.insert symbol f }

/-- Puts a sub-program under a name. -/
def setProgram (context : Context) (name : String) (program : Program) : Context :=
  { context with programs := context.programs.insert name program }

/-- Registers a variable. -/
def var (context : Context) (name : String) (cell : Cell) : Except ContextError Context :=
  if context.vars.contains name then .error (.alreadyDefined name)
  else .ok (context.setVar name cell)

/-- Registers the variable at a pointer, which may be null. -/
def varAt (context : Context) (name : String) (pointer : Option Cell) :
    Except ContextError Context :=
  match pointer with
  | none => .error (.nullVariable name)
  | some cell => context.var name cell

/-- Registers a function of the host. -/
def func (context : Context) (name : String) (f : HostFunction) : Except ContextError Context :=
  let symbol := Signature.symbol ⟨name, f.arity⟩
  if maxArity < f.arity then .error (.tooManyArguments name f.arity maxArity)
  else if context.functions.contains symbol then .error (.alreadyDefined name)
  else .ok (context.setFunction symbol (.host f))

/-- Compiles a text for this context. -/
def compile (context : Context) (source : String) : Except CompileError Program := do
  return .ofObject (← Object.ofString? context.backend context.config.optimize source)

/-- Registers a sub-program without parameters, given by its text. -/
def funcSource (context : Context) (name source : String) : Except ContextError Context :=
  let symbol := Signature.symbol ⟨name, 0⟩
  if context.functions.contains symbol then .error (.alreadyDefined name)
  else
    match context.compile source with
    | .error error => .error (.compile name error)
    | .ok program =>
      .ok ((context.setFunction symbol (.program name)).setProgram name program)

end Context

end Formula
