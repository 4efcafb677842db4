import Formula.Expr

/-!
# Opcodes

One byte selects an instruction of the stack machine.
-/

namespace Formula.Bytecode

/-- The operations of the stack machine. -/
inductive Opcode where
  | pushConst
  | loadVar
  | invoke
  | add
  | sub
  | mul
  | div
  | neg
  | discard
deriving DecidableEq, Inhabited

namespace Opcode

/-- The byte of an opcode. -/
def byte : Opcode → UInt8
  | pushConst => 1
  | loadVar => 2
  | invoke => 3
  | add => 4
  | sub => 5
  | mul => 6
  | div => 7
  | neg => 8
  | discard => 9

/-- The opcode of a byte. -/
def ofByte? (byte : UInt8) : Option Opcode :=
  match byte.toNat with
  | 1 => some pushConst
  | 2 => some loadVar
  | 3 => some invoke
  | 4 => some add
  | 5 => some sub
  | 6 => some mul
  | 7 => some div
  | 8 => some neg
  | 9 => some discard
  | _ => none

/-- The opcode of an arithmetic operation. -/
def ofBinary : BinaryOp → Opcode
  | .add => add
  | .sub => sub
  | .mul => mul
  | .div => div

/-- The name in listings. -/
def mnemonic : Opcode → String
  | pushConst => "PUSH_CONST"
  | loadVar => "LOAD_VAR"
  | invoke => "INVOKE"
  | add => "ADD"
  | sub => "SUB"
  | mul => "MUL"
  | div => "DIV"
  | neg => "NEG"
  | discard => "DISCARD"

theorem ofByte?_byte (op : Opcode) : ofByte? op.byte = some op := by
  cases op <;> rfl

end Opcode

end Formula.Bytecode
