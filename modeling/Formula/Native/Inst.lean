import Formula.Symbol
import Formula.Text.Hex

/-!
# Native instructions

The instructions that native code is made of. Values live on the hardware stack between operations;
`rax` and the registers `xmm0` to `xmm7` are scratch, and `rdi` carries the environment of a call.
-/

namespace Formula.Native

/-- A 64-bit operand: known, or the address of a symbol that linking fills in. -/
inductive Imm where
  | value (word : UInt64)
  | symbol (id : SymbolId)
deriving DecidableEq, Inhabited

/-- One machine instruction. Arithmetic combines `xmm0` with `xmm1` into `xmm0`. -/
inductive Inst where
  | movAbsRax (imm : Imm)
  | movAbsRdi (imm : Imm)
  | raxToXmm (register : UInt8)
  | xmmToRax (register : UInt8)
  | pushRax
  | popRax
  /-- Pushes the word that `rax` points at. -/
  | pushMemRax
  | addSd
  | subSd
  | mulSd
  | divSd
  | xorPd
  | callRax
  | ret
  /-- Reserves a word of the stack, so that a call finds it aligned. -/
  | alignStack
  /-- Releases the reserved word. -/
  | restoreStack
deriving DecidableEq, Inhabited

namespace Imm

/-- Assembly text. -/
def text : Imm → String
  | value word => "0x" ++ Hex.digits word.toNat
  | symbol id => "<#" ++ toString id.toNat ++ ">"

end Imm

namespace Inst

/-- Whether an instruction depends on `rax`. -/
def readsRax : Inst → Bool
  | raxToXmm _ | pushRax | pushMemRax | callRax => true
  | _ => false

/-- Assembly text. -/
def text : Inst → String
  | movAbsRax imm => "movabs rax, " ++ imm.text
  | movAbsRdi imm => "movabs rdi, " ++ imm.text
  | raxToXmm register => "movq xmm" ++ toString register.toNat ++ ", rax"
  | xmmToRax register => "movq rax, xmm" ++ toString register.toNat
  | pushRax => "push rax"
  | popRax => "pop rax"
  | pushMemRax => "push qword [rax]"
  | addSd => "addsd xmm0, xmm1"
  | subSd => "subsd xmm0, xmm1"
  | mulSd => "mulsd xmm0, xmm1"
  | divSd => "divsd xmm0, xmm1"
  | xorPd => "xorpd xmm0, xmm1"
  | callRax => "call rax"
  | ret => "ret"
  | alignStack => "sub rsp, 8"
  | restoreStack => "add rsp, 8"

end Inst

/-- Assembly text of a list of instructions, one a line. -/
def listing (code : List Inst) : String :=
  String.join (code.map fun i => i.text ++ "\n")

end Formula.Native
