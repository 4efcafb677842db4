import Formula.Bytecode.Opcode
import Formula.Error
import Formula.Number.Double
import Formula.Symbol

/-!
# Instructions of the stack machine

An instruction is an opcode and its operand. The operands that refer to variables and functions
differ before and after linking, so their types are parameters: `Code` refers by symbol number, and
linked code by addresses. `encode` writes an instruction as bytes and `decode` reads one back;
`decodeAll` splits whole code into instructions with their offsets.
-/

namespace Formula.Bytecode

/-- An instruction whose variable operands are `v` and whose function operands are `f`. -/
inductive Instr (v f : Type) where
  | pushConst (value : Double)
  | loadVar (ref : v)
  | invoke (ref : f)
  | binary (op : BinaryOp)
  | neg
  | discard
deriving DecidableEq

/-- Instructions that refer to names by symbol number. -/
abbrev Code := List (Instr SymbolId SymbolId)

namespace Instr

variable {v f : Type}

/-- The opcode. -/
def opcode : Instr v f → Opcode
  | pushConst _ => .pushConst
  | loadVar _ => .loadVar
  | invoke _ => .invoke
  | binary op => .ofBinary op
  | neg => .neg
  | discard => .discard

/-- The symbol number that an unlinked instruction refers to. -/
def symbol? : Instr SymbolId SymbolId → Option SymbolId
  | loadVar id => some id
  | invoke id => some id
  | _ => none

section Encoding

variable [Packed v] [Packed f]

/-- The operand field. -/
def operand : Instr v f → List UInt8
  | pushConst value => Packed.pack value
  | loadVar ref => Packed.pack ref
  | invoke ref => Packed.pack ref
  | _ => []

/-- The bytes of an instruction. -/
def encode (i : Instr v f) : List UInt8 :=
  i.opcode.byte :: i.operand

/-- Completes an instruction with the operand at the front of `rest`, which is at `offset`. -/
def withOperand {α : Type} [Packed α] (make : α → Instr v f) (offset : Nat) (rest : List UInt8) :
    Except RuntimeError (Instr v f × List UInt8) :=
  match Packed.unpack? rest with
  | some (value, rest) => .ok (make value, rest)
  | none => .error (.truncatedCode offset)

/-- The instruction with the given opcode byte; the bytes after it are at `offset + 1`. -/
def decode (offset : Nat) (byte : UInt8) (rest : List UInt8) :
    Except RuntimeError (Instr v f × List UInt8) :=
  match Opcode.ofByte? byte with
  | none => .error (.invalidOpcode byte offset)
  | some .pushConst => withOperand pushConst (offset + 1) rest
  | some .loadVar => withOperand loadVar (offset + 1) rest
  | some .invoke => withOperand invoke (offset + 1) rest
  | some .add => .ok (binary .add, rest)
  | some .sub => .ok (binary .sub, rest)
  | some .mul => .ok (binary .mul, rest)
  | some .div => .ok (binary .div, rest)
  | some .neg => .ok (neg, rest)
  | some .discard => .ok (discard, rest)

omit [Packed v] [Packed f] in
theorem length_le_of_withOperand {α : Type} [Packed α] {make : α → Instr v f} {offset : Nat}
    {bytes rest : List UInt8} {i : Instr v f}
    (h : withOperand make offset bytes = .ok (i, rest)) : rest.length ≤ bytes.length := by
  unfold withOperand Packed.unpack? at h
  dsimp only at h
  split at h
  · rename_i value tail found
    split at found
    · simp only [Option.some.injEq, Prod.mk.injEq] at found
      simp only [Except.ok.injEq, Prod.mk.injEq] at h
      rw [← h.2, ← found.2, List.length_drop]
      omega
    · simp at found
  · simp at h

/-- Decoding leaves no more bytes than it was given. -/
theorem length_le_of_decode {offset : Nat} {byte : UInt8} {bytes rest : List UInt8}
    {i : Instr v f} (h : decode offset byte bytes = .ok (i, rest)) :
    rest.length ≤ bytes.length := by
  unfold decode at h
  split at h
  · simp at h
  · exact length_le_of_withOperand h
  · exact length_le_of_withOperand h
  · exact length_le_of_withOperand h
  all_goals
    simp only [Except.ok.injEq, Prod.mk.injEq] at h
    simp [h.2]

/-- The instructions of the code at `offset` with their offsets, after those already collected in
reverse, and the offset and error at which decoding stops early. -/
def decodeAllAfter (collected : List (Nat × Instr v f)) (offset : Nat) :
    List UInt8 → List (Nat × Instr v f) × Option (Nat × RuntimeError)
  | [] => (collected.reverse, none)
  | byte :: bytes =>
    match _h : decode offset byte bytes with
    | .error error => (collected.reverse, some (offset, error))
    | .ok (i, rest) =>
      decodeAllAfter ((offset, i) :: collected) (offset + i.encode.length) rest
termination_by bytes => bytes.length
decreasing_by
  have := length_le_of_decode _h
  simp only [List.length_cons]
  omega

/-- The instructions of whole code with their offsets, and the offset and error at which decoding
stops early. -/
def decodeAll (bytes : List UInt8) : List (Nat × Instr v f) × Option (Nat × RuntimeError) :=
  decodeAllAfter [] 0 bytes

end Encoding

end Instr

namespace Code

/-- The bytes of the instructions. -/
def bytes (code : Code) : List UInt8 :=
  code.flatMap Instr.encode

/-- The places of the symbol numbers in the bytes. -/
def relocations (code : Code) : List Relocation :=
  (code.foldl (fun (offset, found) (i : Instr SymbolId SymbolId) =>
    (offset + i.encode.length,
      match i.symbol? with
      | some id => found.push ⟨id, offset + 1, .address⟩
      | none => found)) (0, (#[] : Array Relocation))).2.toList

/-- Copies bytes, of which the first is at offset `cursor`, with the symbol number at each
relocation replaced by the operand of its symbol. -/
def relocateFrom (operand : SymbolId → List UInt8) (cursor : Nat) :
    List Relocation → List UInt8 → List UInt8
  | [], bytes => bytes
  | r :: relocations, bytes =>
    bytes.take (r.offset - cursor) ++ (operand r.symbol ++
      relocateFrom operand (r.offset + Packed.width SymbolId) relocations
        (bytes.drop (r.offset - cursor + Packed.width SymbolId)))

/-- Linked bytes: each symbol number is replaced by the operand of its symbol. -/
def relocate (operand : SymbolId → List UInt8) (relocations : List Relocation)
    (bytes : List UInt8) : List UInt8 :=
  relocateFrom operand 0 relocations bytes

end Code

end Formula.Bytecode
