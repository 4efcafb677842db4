import Formula.Binding
import Formula.Native.Machine

/-!
# Evaluating linked code

Linked code runs in the world of a `Host`, which knows the values of variables and what the
functions of the host do. A sub-program called from bytecode runs on the stack of its caller. A
sub-program called from native code has a stack of its own, and since native code cannot fail, an
error in it gives NaN.
-/

namespace Formula

/-- The world that linked code runs in, with state `σ`. -/
structure Host (σ : Type) where
  /-- The value of a variable. -/
  read : Cell → StateM σ Float
  /-- Calls a function of the host. -/
  call : HostFunction → List Float → StateM σ Float
  /-- Reads the processor clock, in ticks of a microsecond. -/
  clock : StateM σ Float

variable {σ : Type}

/-- Calls a built-in function. -/
def Host.builtin (host : Host σ) (b : Builtin) (args : List Float) : StateM σ Float :=
  match b with
  | .clock => host.clock
  | b => pure (b.apply args)

/-- The world of native code whose symbols are bound to `callees`. -/
def Native.Linkage.ofCallees (callees : Array (Bytecode.Callee σ)) : Native.Linkage σ where
  word := SymbolId.word
  load address := Float.toBits <$> (callees[address.toNat]?.getD .absent).read
  call address registers := do
    let callee := callees[address.toNat]?.getD .absent
    let value ← callee.call (registers.arguments callee.arity)
    return Native.Registers.zero.setXmm 0 value.toBits

namespace Image

/-- The value of native code; code that does not keep its stack in order has none, shown as
NaN. -/
def nativeValue (callees : Array (Bytecode.Callee σ)) (code : List Native.Inst) :
    StateM σ Float := fun state =>
  (Native.call? (.ofCallees callees) code state).getD (Builtin.nan, state)

/-- The value of code that runs on the stack of its caller. Native code needs no stack. -/
def runOn (callees : Array (Bytecode.Callee σ)) : Image → Bytecode.Run σ Float
  | bytecode bytes => Bytecode.Run.evalOn callees bytes
  | native code _ => Bytecode.Run.effect (nativeValue callees code)

/-- The value of code on a stack of its own. -/
def run (callees : Array (Bytecode.Callee σ)) (image : Image) :
    StateM σ (Except RuntimeError Float) :=
  (image.runOn callees).onEmptyStack

/-- A sub-program as a running program sees it. -/
def callee (callees : Unit → Array (Bytecode.Callee σ)) (image : Image) : Bytecode.Callee σ :=
  { Bytecode.Callee.absent with
    call := fun _ state =>
      let (result, state) := image.run (callees ()) state
      (result.toOption.getD Builtin.nan, state)
    enter := fun m => image.runOn (callees ()) m }

end Image

mutual

/-- What a symbol is bound to, as a running program sees it. -/
def Binding.callee (host : Host σ) : Binding → Bytecode.Callee σ
  | .var cell => { Bytecode.Callee.absent with read := host.read cell }
  | .builtin b => { Bytecode.Callee.absent with arity := b.arity, call := host.builtin b }
  | .host f => { Bytecode.Callee.absent with arity := f.arity, call := host.call f }
  | .program _ image bindings => image.callee fun _ => (callees host bindings).toArray

/-- What several symbols are bound to. -/
def Binding.callees (host : Host σ) : List Binding → List (Bytecode.Callee σ)
  | [] => []
  | b :: bs => b.callee host :: callees host bs

end

/-- The value of linked code on the stack of its caller. -/
def Linked.evalOn (host : Host σ) (linked : Linked) : Bytecode.Run σ Float :=
  linked.image.runOn (Binding.callees host linked.bindings).toArray

end Formula
