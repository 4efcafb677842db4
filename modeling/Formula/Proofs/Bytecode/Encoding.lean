import Formula.Bytecode.Instr
import Mathlib.Algebra.Group.Nat.Defs
import Mathlib.Data.List.Basic

/-!
# Bytecode as bytes

A field is read back as the value that was written (`unpack?_pack`), so whole code is decoded as it
was encoded (`decodeAll_encode`). Linking copies the bytes of unlinked code and replaces symbol
numbers; the result is the encoding of the linked instructions (`relocate_bytes`).
-/

namespace Formula

namespace LittleEndian

theorem number_lt (field : List UInt8) : number field < 256 ^ field.length := by
  induction field with
  | nil => exact Nat.one_pos
  | cons byte field ih =>
    have hByte : byte.toNat < 256 := byte.toNat_lt
    rw [number, List.length_cons, Nat.pow_succ']
    omega

/-- A field is that of the number that it holds. -/
theorem bytes_number (field : List UInt8) : bytes field.length (number field) = field := by
  induction field with
  | nil => rfl
  | cons byte field ih =>
    have hByte : byte.toNat < 256 := byte.toNat_lt
    have hRest : (byte.toNat + 256 * number field) / 256 = number field := by omega
    have hFirst : UInt8.ofNat (byte.toNat + 256 * number field) = byte := by
      rw [← UInt8.toNat_inj, UInt8.toNat_ofNat', Nat.add_mul_mod_self_left,
        Nat.mod_eq_of_lt hByte]
    rw [number, List.length_cons, bytes, hRest, hFirst, ih]

end LittleEndian

namespace Packed

/-- A type whose values are told apart by their fields. -/
class Lawful (α : Type) [Packed α] : Prop where
  ofNat_toNat : ∀ value : α, ofNat (toNat value % 256 ^ width α) = value

instance : Lawful UInt16 where
  ofNat_toNat value := by
    show UInt16.ofNat (value.toNat % 2 ^ 16) = value
    rw [Nat.mod_eq_of_lt value.toNat_lt, UInt16.ofNat_toNat]

instance : Lawful UInt32 where
  ofNat_toNat value := by
    show UInt32.ofNat (value.toNat % 2 ^ 32) = value
    rw [Nat.mod_eq_of_lt value.toNat_lt, UInt32.ofNat_toNat]

instance : Lawful UInt64 where
  ofNat_toNat value := by
    show UInt64.ofNat (value.toNat % 2 ^ 64) = value
    rw [Nat.mod_eq_of_lt value.toNat_lt, UInt64.ofNat_toNat]

instance : Lawful Double where
  ofNat_toNat value := by
    show (⟨UInt64.ofNat (value.bits.toNat % 2 ^ 64)⟩ : Double) = value
    rw [Nat.mod_eq_of_lt value.bits.toNat_lt, UInt64.ofNat_toNat]

instance : Lawful (UInt64 × UInt64) where
  ofNat_toNat value := by
    obtain ⟨low, high⟩ := value
    have hLow : low.toNat < 2 ^ 64 := low.toNat_lt
    have hHigh : high.toNat < 2 ^ 64 := high.toNat_lt
    show (UInt64.ofNat ((low.toNat + 2 ^ 64 * high.toNat) % 2 ^ 128),
      UInt64.ofNat ((low.toNat + 2 ^ 64 * high.toNat) % 2 ^ 128 / 2 ^ 64)) = (low, high)
    rw [Nat.mod_eq_of_lt (by omega), Nat.add_mul_div_left _ _ (by decide),
      Nat.div_eq_of_lt hLow, Nat.zero_add, UInt64.ofNat_toNat]
    congr 1
    rw [← UInt64.toNat_inj, UInt64.toNat_ofNat', Nat.add_mul_mod_self_left,
      Nat.mod_eq_of_lt hLow]

variable {α : Type} [Packed α] [Lawful α]

theorem unpack_pack (value : α) : unpack (pack value) = value := by
  rw [unpack, pack, LittleEndian.number_bytes]
  exact Lawful.ofNat_toNat value

theorem unpack?_pack (value : α) (rest : List UInt8) :
    unpack? (pack value ++ rest) = some (value, rest) := by
  have hLength := length_pack value
  rw [unpack?, List.take_left' hLength, List.drop_left' hLength, if_pos hLength, unpack_pack]

end Packed

namespace Bytecode

namespace Instr

/-! ## Decoding -/

section Decoding

variable {v f : Type} [Packed v] [Packed f] [Packed.Lawful v] [Packed.Lawful f]

omit [Packed v] [Packed f] [Packed.Lawful v] [Packed.Lawful f] in
theorem withOperand_pack {α : Type} [Packed α] [Packed.Lawful α] (make : α → Instr v f)
    (offset : Nat) (value : α) (rest : List UInt8) :
    withOperand make offset (Packed.pack value ++ rest) = .ok (make value, rest) := by
  rw [withOperand, Packed.unpack?_pack]

/-- An instruction is decoded as it was encoded. -/
theorem decode_operand (i : Instr v f) (offset : Nat) (rest : List UInt8) :
    decode offset i.opcode.byte (i.operand ++ rest) = .ok (i, rest) := by
  unfold decode
  rw [Opcode.ofByte?_byte]
  cases i with
  | pushConst value => exact withOperand_pack ..
  | loadVar ref => exact withOperand_pack ..
  | invoke ref => exact withOperand_pack ..
  | binary op => cases op <;> rfl
  | neg => rfl
  | discard => rfl

/-- Instructions with the offsets of their encodings. -/
def withOffsets (offset : Nat) : List (Instr v f) → List (Nat × Instr v f)
  | [] => []
  | i :: is => (offset, i) :: withOffsets (offset + i.encode.length) is

omit [Packed.Lawful v] [Packed.Lawful f] in
theorem map_snd_withOffsets (offset : Nat) (is : List (Instr v f)) :
    (withOffsets offset is).map Prod.snd = is := by
  induction is generalizing offset with
  | nil => rfl
  | cons i is ih => rw [withOffsets, List.map_cons, ih]

theorem decodeAllAfter_encode (is : List (Instr v f)) :
    ∀ (collected : List (Nat × Instr v f)) (offset : Nat),
      decodeAllAfter collected offset (is.flatMap encode) =
        (collected.reverse ++ withOffsets offset is, none) := by
  induction is with
  | nil =>
    intro collected offset
    rw [List.flatMap_nil, decodeAllAfter, withOffsets, List.append_nil]
  | cons i is ih =>
    intro collected offset
    rw [List.flatMap_cons, encode, List.cons_append, decodeAllAfter]
    split
    · rename_i error hDecode
      rw [decode_operand] at hDecode
      cases hDecode
    · rename_i j rest hDecode
      rw [decode_operand] at hDecode
      cases hDecode
      rw [ih, List.reverse_cons, List.append_assoc]
      rfl

/-- Whole code is decoded as it was encoded. -/
theorem decodeAll_encode (is : List (Instr v f)) :
    decodeAll (is.flatMap encode) = (withOffsets 0 is, none) :=
  decodeAllAfter_encode is [] 0

end Decoding

/-! ## Relocation -/

/-- The bytes of an instruction with the operand of its symbol in place of the number. -/
def relocated (operand : SymbolId → List UInt8) (i : Instr SymbolId SymbolId) : List UInt8 :=
  match i.symbol? with
  | some id => i.opcode.byte :: operand id
  | none => i.encode

end Instr

namespace Code

/-- The places of symbol numbers in code that starts at an offset. -/
def relocationsFrom (offset : Nat) : Code → List Relocation
  | [] => []
  | i :: code =>
    match i.symbol? with
    | some id => ⟨id, offset + 1, .address⟩ :: relocationsFrom (offset + i.encode.length) code
    | none => relocationsFrom (offset + i.encode.length) code

/-- What `relocations` does at an instruction. -/
def relocationsStep (state : Nat × Array Relocation) (i : Instr SymbolId SymbolId) :
    Nat × Array Relocation :=
  (state.1 + i.encode.length,
    match i.symbol? with
    | some id => state.2.push ⟨id, state.1 + 1, .address⟩
    | none => state.2)

theorem foldl_relocationsStep (code : Code) :
    ∀ (offset : Nat) (found : Array Relocation),
      (code.foldl relocationsStep (offset, found)).2.toList =
        found.toList ++ relocationsFrom offset code := by
  induction code with
  | nil =>
    intro offset found
    exact (List.append_nil _).symm
  | cons i code ih =>
    intro offset found
    rw [List.foldl_cons, relocationsStep, ih]
    cases hSymbol : i.symbol? with
    | none => simp only [relocationsFrom, hSymbol]
    | some id =>
      simp only [relocationsFrom, hSymbol, Array.toList_push, List.append_assoc,
        List.singleton_append]

theorem relocations_eq (code : Code) : code.relocations = relocationsFrom 0 code :=
  foldl_relocationsStep code 0 #[]

/-- An instruction that refers to a symbol is its opcode and the symbol number. -/
theorem encode_of_symbol? {i : Instr SymbolId SymbolId} {id : SymbolId} (h : i.symbol? = some id) :
    i.encode = i.opcode.byte :: Packed.pack id := by
  cases i with
  | loadVar | invoke =>
    cases h
    rfl
  | pushConst | binary | neg | discard => cases h

/-- Relocation copies what lies before the code and relocates each instruction. -/
theorem relocateFrom_bytes (operand : SymbolId → List UInt8) (code : Code) :
    ∀ (before : List UInt8) (cursor : Nat),
      relocateFrom operand cursor (relocationsFrom (cursor + before.length) code)
          (before ++ code.bytes) =
        before ++ code.flatMap (Instr.relocated operand) := by
  induction code with
  | nil => intro before cursor; rfl
  | cons i code ih =>
    intro before cursor
    have hBytes : bytes (i :: code) = i.encode ++ bytes code := rfl
    rw [relocationsFrom, hBytes, List.flatMap_cons, Instr.relocated]
    cases hSymbol : i.symbol? with
    | none =>
      have h := ih (before ++ i.encode) cursor
      rw [List.length_append, ← Nat.add_assoc, List.append_assoc, List.append_assoc] at h
      exact h
    | some id =>
      have hEncode := encode_of_symbol? hSymbol
      have hField := Packed.length_pack id
      generalize Packed.pack id = field at hEncode hField
      have hOpcode : (before ++ [i.opcode.byte]).length = before.length + 1 :=
        List.length_append
      have hSplit : before ++ (i.opcode.byte :: field ++ bytes code) =
          (before ++ [i.opcode.byte]) ++ (field ++ bytes code) := by simp
      have hCursor : cursor + before.length + 1 - cursor = before.length + 1 := by omega
      have hEnd : cursor + before.length + (field.length + 1) =
          cursor + before.length + 1 + field.length + ([] : List UInt8).length := by
        rw [List.length_nil]
        omega
      simp only [relocateFrom, hEncode, hSplit, hCursor, List.length_cons]
      rw [List.take_left' hOpcode, ← List.drop_drop, List.drop_left' hOpcode,
        List.drop_left' hField, ← hField, hEnd]
      have h := ih [] (cursor + before.length + 1 + field.length)
      rw [List.nil_append, List.nil_append] at h
      rw [h]
      simp

/-- Relocated bytes are those of the relocated instructions. -/
theorem relocate_bytes (operand : SymbolId → List UInt8) (code : Code) :
    relocate operand code.relocations code.bytes = code.flatMap (Instr.relocated operand) := by
  rw [relocate, relocations_eq]
  exact relocateFrom_bytes operand code [] 0

end Code

end Bytecode

end Formula
