import Formula.Builtin
import Formula.Bytecode.Instr
import Formula.Bytecode.Stack

/-!
# Running bytecode

Linked bytecode refers to its bindings by address. An address is a position in the list of
`Callee`s that the program is bound to; a call also names its convention, which tells whether the
callee is a function that takes its arguments off the stack or a sub-program that runs on the
stack. `evalOn` runs a whole program on a stack and leaves the stack as it was.
-/

namespace Formula.Bytecode

/-- An evaluation stack, and the state that variables and host functions live in. -/
structure Machine (σ : Type) where
  stack : Stack
  state : σ

/-- A computation of the machine. What an error leaves behind is kept. -/
abbrev Run (σ α : Type) := EStateM RuntimeError (Machine σ) α

/-- What a symbol is bound to, as a running program sees it. -/
structure Callee (σ : Type) where
  /-- Number of parameters of the function. -/
  arity : Nat
  /-- Reads the variable. -/
  read : StateM σ Float
  /-- Calls the function. -/
  call : List Float → StateM σ Float
  /-- Runs the sub-program on the stack of its caller. -/
  enter : Run σ Float

namespace Callee

/-- Reads and returns NaN. -/
def absent {σ : Type} : Callee σ :=
  ⟨0, pure Builtin.nan, fun _ => pure Builtin.nan, pure Builtin.nan⟩

end Callee

/-- How a function is called. -/
inductive Convention where
  /-- It takes so many arguments off the stack and puts its value there. -/
  | arguments (count : Nat)
  /-- It is a program that runs on the stack itself. -/
  | subprogram
deriving DecidableEq

namespace Convention

/-- The word that stands for a convention in linked code. -/
def word : Convention → UInt64
  | arguments count => UInt64.ofNat (count + 1)
  | subprogram => 0

/-- The convention that a word stands for. -/
def ofWord (word : UInt64) : Convention :=
  match word.toNat with
  | 0 => subprogram
  | count + 1 => arguments count

end Convention

/-- Instructions of linked code: a variable by its address, a function by its address and the word
of its convention. -/
abbrev LinkedInstr := Instr UInt64 (UInt64 × UInt64)

namespace Run

variable {σ : Type}

/-- An effect on the state. -/
def effect {α : Type} (x : StateM σ α) : Run σ α := fun ⟨stack, state⟩ =>
  let (value, state) := x state
  .ok value ⟨stack, state⟩

/-- The result on an empty stack, and the state after it. -/
def onEmptyStack {α : Type} (x : Run σ α) : StateM σ (Except RuntimeError α) := fun state =>
  match x ⟨.empty, state⟩ with
  | .ok value m => (.ok value, m.state)
  | .error error m => (.error error, m.state)

/-- A computation on the stack. -/
def onStack {α : Type} (x : EStateM RuntimeError Stack α) : Run σ α := fun ⟨stack, state⟩ =>
  match x stack with
  | .ok value stack => .ok value ⟨stack, state⟩
  | .error error stack => .error error ⟨stack, state⟩

/-- Pushes a value. -/
def push (value : Float) : Run σ Unit :=
  onStack (Stack.push (Double.ofFloat value))

/-- Pops a value. -/
def pop : Run σ Float :=
  Double.toFloat <$> onStack Stack.pop

/-- Pops `count` arguments, the last of them first, in front of those already popped. -/
def popArguments : Nat → List Float → Run σ (List Float)
  | 0, args => pure args
  | count + 1, args => do
    let arg ← pop
    popArguments count (arg :: args)

/-- Runs a sub-program on the stack, counted among the running ones while it runs. -/
def subprogram (callee : Callee σ) : Run σ Float := do
  onStack Stack.enterCall
  fun m =>
    match callee.enter m with
    | .ok value ⟨stack, state⟩ => .ok value ⟨stack.leaveCall, state⟩
    | .error error ⟨stack, state⟩ => .error error ⟨stack.leaveCall, state⟩

/-- Calls a function by a convention. -/
def invoke (callee : Callee σ) : Convention → Run σ Unit
  | .arguments count => do
    let args ← popArguments count []
    push (← effect (callee.call args))
  | .subprogram => do
    push (← subprogram callee)

/-- Executes one instruction. -/
def step (callees : Array (Callee σ)) : LinkedInstr → Run σ Unit
  | .pushConst value => onStack (Stack.push value)
  | .loadVar address => do
    push (← effect (callees[address.toNat]?.getD .absent).read)
  | .invoke (address, convention) =>
    invoke (callees[address.toNat]?.getD .absent) (.ofWord convention)
  | .binary op => do
    let right ← pop
    let left ← pop
    push (op.apply left right)
  | .neg => do
    let value ← pop
    push (-value)
  | .discard => do
    let _ ← pop
    pure ()

/-- Executes instructions in order. -/
def steps (callees : Array (Callee σ)) : List (Nat × LinkedInstr) → Run σ Unit
  | [] => pure ()
  | (_, i) :: rest => do
    step callees i
    steps callees rest

/-- Executes linked code to its end. -/
def execute (callees : Array (Callee σ)) (bytes : List UInt8) : Run σ Unit := do
  let (instrs, broken) := Instr.decodeAll bytes
  steps callees instrs
  match broken with
  | some (_, error) => throw error
  | none => pure ()

/-- The value of linked code, run on the stack of the machine. Whatever happens, the stack is left
as deep as it was. -/
def evalOn (callees : Array (Callee σ)) (bytes : List UInt8) : Run σ Float := fun m =>
  let base := m.stack.depth
  let restored : Machine σ → Machine σ := fun ⟨stack, state⟩ => ⟨stack.truncate base, state⟩
  match (do execute callees bytes; pop) m with
  | .error error m => .error error (restored m)
  | .ok value m =>
    let left := m.stack.depth - base
    if left = 0 then .ok value (restored m) else .error (.unbalancedStack left) (restored m)

end Run

end Formula.Bytecode
