import Formula.Native.Inst

/-!
# Running native code

A machine with the registers `rax`, `rdi` and `xmm0` to `xmm7`, of which only the low words count,
and a stack of words. The world outside the code is a `Linkage`: the addresses of symbols, what is
read at an address, and what a call does. A run ends at the first `ret`; an instruction that pops
from an empty stack, or code that ends without `ret`, has no result.
-/

namespace Formula.Native

/-- The scratch registers. -/
structure Registers where
  rax : UInt64
  rdi : UInt64
  xmm : Vector UInt64 8
deriving DecidableEq

namespace Registers

/-- All registers zero. -/
def zero : Registers :=
  ⟨0, 0, Vector.replicate 8 0⟩

/-- The index of a register in an instruction. -/
def index (register : UInt8) : Fin 8 :=
  Fin.ofNat 8 register.toNat

/-- The word in an `xmm` register. -/
def getXmm (r : Registers) (register : UInt8) : UInt64 :=
  r.xmm[index register]

/-- Sets an `xmm` register. -/
def setXmm (r : Registers) (register : UInt8) (word : UInt64) : Registers :=
  { r with xmm := r.xmm.set (index register) word }

/-- The doubles in the first `count` of the `xmm` registers. -/
def arguments (r : Registers) (count : Nat) : List Float :=
  (r.xmm.toList.take count).map Float.ofBits

/-- Combines `xmm0` with `xmm1` as doubles. -/
def arithmetic (r : Registers) (op : Float → Float → Float) : Registers :=
  r.setXmm 0 (op (Float.ofBits (r.getXmm 0)) (Float.ofBits (r.getXmm 1))).toBits

end Registers

/-- The world outside native code, with state `σ`. -/
structure Linkage (σ : Type) where
  /-- The word that linking puts in the place of a symbol. -/
  word : SymbolId → RelocationKind → UInt64
  /-- Reads the word at an address. -/
  load : UInt64 → StateM σ UInt64
  /-- Calls the code at an address; its result is in `xmm0`. -/
  call : UInt64 → Registers → StateM σ Registers

/-- Registers, stack with the top first, and the state outside. -/
structure Machine (σ : Type) where
  registers : Registers
  stack : List UInt64
  state : σ

namespace Machine

variable {σ : Type}

/-- The word of an operand. -/
def operand (linkage : Linkage σ) (kind : RelocationKind) : Imm → UInt64
  | .value word => word
  | .symbol id => linkage.word id kind

/-- Executes one instruction. -/
def step (linkage : Linkage σ) (m : Machine σ) : Inst → Option (Machine σ)
  | .movAbsRax imm =>
    some { m with registers := { m.registers with rax := operand linkage .address imm } }
  | .movAbsRdi imm =>
    some { m with registers := { m.registers with rdi := operand linkage .environment imm } }
  | .raxToXmm register =>
    some { m with registers := m.registers.setXmm register m.registers.rax }
  | .xmmToRax register =>
    some { m with registers := { m.registers with rax := m.registers.getXmm register } }
  | .pushRax => some { m with stack := m.registers.rax :: m.stack }
  | .popRax =>
    match m.stack with
    | [] => none
    | word :: stack =>
      some { m with registers := { m.registers with rax := word }, stack := stack }
  | .pushMemRax =>
    let (word, state) := linkage.load m.registers.rax m.state
    some { m with stack := word :: m.stack, state := state }
  | .addSd => some { m with registers := m.registers.arithmetic (· + ·) }
  | .subSd => some { m with registers := m.registers.arithmetic (· - ·) }
  | .mulSd => some { m with registers := m.registers.arithmetic (· * ·) }
  | .divSd => some { m with registers := m.registers.arithmetic (· / ·) }
  | .xorPd =>
    some { m with
      registers := m.registers.setXmm 0 (m.registers.getXmm 0 ^^^ m.registers.getXmm 1) }
  | .callRax =>
    let (registers, state) := linkage.call m.registers.rax m.registers m.state
    some { m with registers := registers, state := state }
  | .ret => some m
  | .alignStack => some { m with stack := 0 :: m.stack }
  | .restoreStack =>
    match m.stack with
    | [] => none
    | _ :: stack => some { m with stack := stack }

/-- Executes instructions up to the first `ret`. -/
def run (linkage : Linkage σ) : List Inst → Machine σ → Option (Machine σ)
  | [], _ => none
  | .ret :: _, m => some m
  | i :: rest, m =>
    match m.step linkage i with
    | none => none
    | some m => run linkage rest m

end Machine

/-- Calls native code: it starts with an empty stack and leaves its value in `xmm0`. -/
def call? {σ : Type} (linkage : Linkage σ) (code : List Inst) (state : σ) : Option (Float × σ) :=
  (Machine.run linkage code ⟨.zero, [], state⟩).map fun m =>
    (Float.ofBits (m.registers.getXmm 0), m.state)

end Formula.Native
