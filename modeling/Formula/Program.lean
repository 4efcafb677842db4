import Formula.Evaluation

/-!
# Programs

A program is an object with the outcome of its last linking. Only a program that is linked can be
evaluated.
-/

namespace Formula

/-- The outcome of the last linking, if any. -/
inductive LinkState (α : Type) where
  | unlinked
  | ready (linked : α)
  | failed (error : LinkError)
deriving Inhabited

namespace LinkState

variable {α : Type}

/-- The outcome of an attempt to link. -/
def ofResult : Except LinkError α → LinkState α
  | .ok linked => ready linked
  | .error error => failed error

/-- What linking gave, if it succeeded. -/
def linked? : LinkState α → Option α
  | ready linked => some linked
  | _ => none

/-- Whether linking succeeded. -/
def isReady (state : LinkState α) : Bool :=
  state.linked?.isSome

/-- Why linking failed, if it did. -/
def error? : LinkState α → Option LinkError
  | failed error => some error
  | _ => none

/-- What linking gave, or why there is nothing to run. -/
def require : LinkState α → Except RuntimeError α
  | ready linked => .ok linked
  | unlinked => .error .notLinked
  | failed error => .error (.linkFailed error)

end LinkState

/-- A compiled expression and the outcome of its last linking. -/
structure Program where
  object : Object
  state : LinkState Linked
deriving Inhabited

namespace Program

/-- A program that has not been linked. -/
def ofObject (object : Object) : Program :=
  ⟨object, .unlinked⟩

/-- Whether the program can be evaluated. -/
def isReady (p : Program) : Bool :=
  p.state.isReady

/-- The machine that the program is compiled for. -/
def backend (p : Program) : Backend :=
  p.object.code.backend

/-- Description. -/
def text (p : Program) : String :=
  "Program \x7b backend: \"" ++ p.backend.name ++ "\", size: " ++ toString p.object.size ++
    ", ready: " ++ toString p.isReady ++ " \x7d"

/-- The value, on the stack of a caller. -/
def evalOn {σ : Type} (host : Host σ) (p : Program) : Bytecode.Run σ Float :=
  match p.state.require with
  | .ok linked => linked.evalOn host
  | .error error => throw error

/-- The value, on a stack of its own. -/
def eval {σ : Type} (host : Host σ) (p : Program) : StateM σ (Except RuntimeError Float) :=
  (p.evalOn host).onEmptyStack

end Program

end Formula
