import Formula.Context.Linking

/-!
# The C interface

The library as C programs see it: contexts and programs are handles that may be null, texts are
bytes up to a NUL, and the outcome of a call is a code. A context handle keeps the message of the
last call on it that failed, until a call on it succeeds or the message is cleared. A call with a
null context does nothing.
-/

namespace Formula.CInterface

/-- The outcome of a call. -/
inductive ResultCode where
  | ok
  | errorCompile
  | errorLink
  | errorRuntime
  | errorInvalidArg
  | errorAlreadyDefined
  | errorUnsupported
deriving DecidableEq, Inhabited

namespace ResultCode

/-- The name in the header file. -/
def name : ResultCode → String
  | ok => "Ok"
  | errorCompile => "ErrorCompile"
  | errorLink => "ErrorLink"
  | errorRuntime => "ErrorRuntime"
  | errorInvalidArg => "ErrorInvalidArg"
  | errorAlreadyDefined => "ErrorAlreadyDefined"
  | errorUnsupported => "ErrorUnsupported"

/-- The number that C programs receive. -/
def number : ResultCode → Nat
  | ok => 0
  | errorCompile => 1
  | errorLink => 2
  | errorRuntime => 3
  | errorInvalidArg => 4
  | errorAlreadyDefined => 5
  | errorUnsupported => 6

/-- Whether the call succeeded. -/
def isOk (code : ResultCode) : Bool :=
  code = ok

end ResultCode

/-- Why a call failed: its code and its message. -/
structure Failure where
  code : ResultCode
  message : String
deriving DecidableEq, Inhabited

namespace Failure

/-- An argument that cannot be used. -/
def invalid (message : String) : Failure :=
  ⟨.errorInvalidArg, message⟩

/-- A registration that was refused. -/
def ofContextError (error : ContextError) : Failure :=
  let code : ResultCode := match error with
    | .alreadyDefined _ => .errorAlreadyDefined
    | .compile .. => .errorCompile
    | .jitUnavailable => .errorUnsupported
    | .tooManyArguments .. => .errorInvalidArg
    | .nullVariable _ => .errorInvalidArg
  ⟨code, error.text⟩

/-- Linking that failed. -/
def ofLinkError (error : LinkError) : Failure :=
  ⟨if error = .unsupportedTarget then .errorUnsupported else .errorLink, error.text⟩

/-- An evaluation that gave no value. -/
def ofRuntimeError (error : RuntimeError) : Failure :=
  ⟨.errorRuntime, error.text⟩

/-- A text that is no expression. -/
def ofCompileError (error : CompileError) : Failure :=
  ⟨.errorCompile, error.text⟩

end Failure

/-- The version of the interface: as text, and its three numbers. -/
def version : String × Nat × Nat × Nat :=
  ("0.1.0", 0, 1, 0)

/-- A text argument: the bytes in memory, or null. -/
abbrev TextArg := Option (List UInt8)

/-- The text of an argument: the bytes before the first NUL, if they are UTF-8. -/
def TextArg.text? (arg : TextArg) : Option String :=
  arg.bind fun bytes => String.fromUTF8? ⟨(bytes.takeWhile (· ≠ 0)).toArray⟩

/-- The text of an argument, or the complaint that it has none. -/
def TextArg.require (arg : TextArg) (complaint : String) : Except Failure String :=
  match arg.text? with
  | some text => .ok text
  | none => .error (.invalid complaint)

/-- A context and the message of the last call that failed. -/
structure Handle where
  context : Context
  lastError : Option String

namespace Handle

/-- A new context; `mode` is 0 for the interpreter, 1 for native code, and anything else for
native code where it is available. -/
def new? (mode : Nat) : Option Handle :=
  let mode : JitMode := match mode with
    | 0 => .off
    | 1 => .on
    | _ => .auto
  match Context.ofConfig? { RuntimeConfig.standard with mode := mode } with
  | .ok context => some ⟨context, none⟩
  | .error _ => none

/-- A message with blanks for its NULs. -/
def spaced (message : String) : String :=
  message.map fun c => if c = '\x00' then ' ' else c

/-- A text as C has it, where a NUL would end it. -/
def cText? (text : String) : Option String :=
  if '\x00' ∈ text.toList then none else some text

/-- Keeps the message of a call that failed, and forgets any after one that succeeded. -/
def report (h : Handle) (failure : Option Failure) : Handle :=
  { h with lastError := failure.bind fun f => cText? (spaced f.message) }

/-- The code of an attempt to change the context, and the handle after it. -/
def settle (h : Handle) : Except Failure Context → ResultCode × Handle
  | .ok context => (.ok, { h with context := context }.report none)
  | .error failure => (failure.code, h.report (some failure))

/-- Whether there is a message. -/
def hasError (h : Handle) : Bool :=
  h.lastError.isSome

/-- The message, or null. -/
def getError (h : Handle) : Option String :=
  h.lastError

/-- Forgets the message. -/
def clearError (h : Handle) : Handle :=
  { h with lastError := none }

/-- Whether expressions are compiled to native code. -/
def usesJit (h : Handle) : Bool :=
  h.context.backend = .jit

/-- Registers the variable at an address. -/
def var (h : Handle) (name : TextArg) (pointer : Option Cell) : ResultCode × Handle :=
  h.settle do
    let name ← name.require "name is NULL or not UTF-8"
    (h.context.varAt name pointer).mapError .ofContextError

/-- Registers a function of the host; the function may be null. -/
def func (h : Handle) (name : TextArg) (arity : Nat) (id : Option Nat) : ResultCode × Handle :=
  h.settle do
    let complaint := "name or function is NULL"
    let name ← name.require complaint
    match id with
    | none => throw (.invalid complaint)
    | some id => (h.context.func name ⟨.closure, arity, id⟩).mapError .ofContextError

/-- Registers a sub-program. -/
def funcSource (h : Handle) (name source : TextArg) : ResultCode × Handle :=
  h.settle do
    let complaint := "name or source is NULL or not UTF-8"
    let name ← name.require complaint
    let source ← source.require complaint
    (h.context.funcSource name source).mapError .ofContextError

/-- Links all sub-programs. -/
def linkAll (h : Handle) : ResultCode × Handle :=
  let (error, context) := h.context.link
  let linked := { h with context := context }
  match error with
  | none => (.ok, linked.report none)
  | some error =>
    let failure := Failure.ofLinkError error
    (failure.code, linked.report (some failure))

/-- Compiles a text; null if that fails. -/
def compile (h : Handle) (source : TextArg) : Option Program × Handle :=
  let result : Except Failure Program := do
    let source ← source.require "source is NULL or not UTF-8"
    (h.context.compile source).mapError .ofCompileError
  match result with
  | .ok program => (some program, h.report none)
  | .error failure => (none, h.report (some failure))

/-- What is said of a null program. -/
def nullProgram : Failure :=
  .invalid "program is NULL"

/-- Links a program. -/
def link (h : Handle) (program : Option Program) : ResultCode × Option Program × Handle :=
  match program with
  | none => (nullProgram.code, none, h.report (some nullProgram))
  | some program =>
    let linked := h.context.linkProgram program
    match linked.state.error? with
    | none => (.ok, some linked, h.report none)
    | some error =>
      let failure := Failure.ofLinkError error
      (failure.code, some linked, h.report (some failure))

/-- Evaluates a program. The value is there if and only if it was written to the place for it,
which may be null. -/
def eval {σ : Type} (host : Host σ) (h : Handle) (program : Option Program) (hasPlace : Bool) :
    StateM σ (ResultCode × Option Float × Handle) := do
  let fail (failure : Failure) := (failure.code, none, h.report (some failure))
  match program with
  | none => return fail nullProgram
  | some program =>
    if hasPlace then
      match ← program.eval host with
      | .ok value => return (.ok, some value, h.report none)
      | .error error => return fail (.ofRuntimeError error)
    else return fail (.invalid "out pointer is NULL")

end Handle

/-- The effect of a call on a handle that may be null: with a null handle the answer is
`absent`. -/
def onHandle {α : Type} (absent : α) (call : Handle → α × Handle) :
    Option Handle → α × Option Handle
  | none => (absent, none)
  | some h =>
    let (answer, h) := call h
    (answer, some h)

end Formula.CInterface
