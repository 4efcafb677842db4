import Formula.Binding
import Formula.Proofs.Bytecode.Encoding

/-!
# Instruction boundaries

Bytecode splits into instructions in one way only (`splits_encode`), before and after linking,
although operands are two bytes wide in one and eight or sixteen in the other, and may look like
opcodes.

* `Code.relocations_eq_filterMap`: a relocation is the operand of one instruction that refers to a
  symbol.
* `Code.relocateFrom?_eq`: copying bytes between ascending places stays inside the bytes.
* `Code.relocated_eq_encode`: relocated bytes are the encoding of the instructions with addresses
  for operands.
-/

namespace Formula.Bytecode

namespace Instr

/-! ## One way to split bytes -/

section Splits

variable {v f : Type} [Packed v] [Packed f]

/-- The bytes are those of the instructions `is` and of no others, and reading them finds each
instruction at its offset and stops at the last byte. -/
structure Splits (bytes : List UInt8) (is : List (Instr v f)) : Prop where
  eq_iff : ∀ js : List (Instr v f), js.flatMap encode = bytes ↔ js = is
  decodeAll : Instr.decodeAll bytes = (withOffsets 0 is, none)

theorem splits_encode [Packed.Lawful v] [Packed.Lawful f] (is : List (Instr v f)) :
    Splits (is.flatMap encode) is := by
  have hDecode := decodeAll_encode is
  refine ⟨fun js => ⟨fun h => ?_, congrArg _⟩, hDecode⟩
  -- decoding leads back to the instructions, so their bytes determine them
  rw [← h, decodeAll_encode] at hDecode
  have hOffsets : withOffsets 0 js = withOffsets 0 is := congrArg Prod.fst hDecode
  rw [← map_snd_withOffsets 0 js, hOffsets, map_snd_withOffsets]

/-- An instruction is found where the encodings of those before it end. -/
theorem exists_of_mem_withOffsets {is : List (Instr v f)} {place : Nat} {i : Instr v f} :
    ∀ {offset : Nat}, (place, i) ∈ withOffsets offset is → ∃ before after,
      is = before ++ i :: after ∧ place = offset + (before.flatMap encode).length := by
  induction is with
  | nil => exact fun h => nomatch h
  | cons first is ih =>
    intro offset h
    rw [withOffsets] at h
    rcases List.mem_cons.mp h with h | h
    · cases h
      exact ⟨[], is, rfl, rfl⟩
    · obtain ⟨before, after, rfl, rfl⟩ := ih h
      refine ⟨first :: before, after, rfl, ?_⟩
      rw [List.flatMap_cons, List.length_append, Nat.add_assoc]

/-- How wide the operand is. -/
def operandWidth (var function : Nat) : Instr v f → Nat
  | pushConst _ => 8
  | loadVar _ => var
  | invoke _ => function
  | _ => 0

theorem length_encode (i : Instr v f) :
    i.encode.length = 1 + i.operandWidth (Packed.width v) (Packed.width f) := by
  rw [encode, List.length_cons, Nat.add_comm]
  cases i with
  | pushConst | loadVar | invoke => exact congrArg _ (Packed.length_pack _)
  | binary | neg | discard => rfl

end Splits

/-! ## Other operands -/

section Map

variable {v v' f f' : Type}

/-- The same instruction with other operands. -/
def map (var : v → v') (function : f → f') : Instr v f → Instr v' f'
  | pushConst value => pushConst value
  | loadVar ref => loadVar (var ref)
  | invoke ref => invoke (function ref)
  | binary op => binary op
  | neg => neg
  | discard => discard

/-- Whether the operand, if it refers to a variable or a function, is as required. -/
def Refers (var : v → Prop) (function : f → Prop) : Instr v f → Prop
  | loadVar ref => var ref
  | invoke ref => function ref
  | _ => True

/-- The place of the symbol number in an instruction at an offset. -/
def relocation? (offset : Nat) (i : Instr SymbolId SymbolId) : Option Relocation :=
  i.symbol?.map fun id => ⟨id, offset + 1, .address⟩

theorem relocated_eq_encode {operand : SymbolId → List UInt8} {var : SymbolId → v'}
    {function : SymbolId → f'} [Packed v'] [Packed f'] {i : Instr SymbolId SymbolId}
    (h : i.Refers (fun id => operand id = Packed.pack (var id))
      (fun id => operand id = Packed.pack (function id))) :
    i.relocated operand = (i.map var function).encode := by
  cases i with
  | loadVar | invoke => exact congrArg _ h
  | pushConst | binary | neg | discard => rfl

end Map

end Instr

/-! ## Relocations -/

namespace Code

theorem relocationsFrom_eq_filterMap (code : Code) : ∀ offset, relocationsFrom offset code =
    (Instr.withOffsets offset code).filterMap fun (place, i) => i.relocation? place := by
  induction code with
  | nil => exact fun _ => rfl
  | cons i code ih =>
    intro offset
    rw [relocationsFrom, Instr.withOffsets, List.filterMap_cons, ih]
    dsimp only [Instr.relocation?]
    cases i.symbol? <;> rfl

/-- The relocations are the operands that refer to symbols, in order. -/
theorem relocations_eq_filterMap (code : Code) : code.relocations =
    (Instr.withOffsets 0 code).filterMap fun (place, i) => i.relocation? place :=
  (relocations_eq code).trans (relocationsFrom_eq_filterMap code 0)

theorem exists_of_mem_relocationsFrom {code : Code} {offset : Nat} {r : Relocation}
    (h : r ∈ relocationsFrom offset code) : ∃ before i after, code = before ++ i :: after ∧
      i.symbol? = some r.symbol ∧ r.offset = offset + (bytes before).length + 1 := by
  rw [relocationsFrom_eq_filterMap] at h
  obtain ⟨⟨place, i⟩, hMem, hRelocation⟩ := List.mem_filterMap.mp h
  obtain ⟨before, after, rfl, rfl⟩ := Instr.exists_of_mem_withOffsets hMem
  obtain ⟨id, hSymbol, rfl⟩ := Option.map_eq_some_iff.mp hRelocation
  exact ⟨before, i, after, rfl, hSymbol, rfl⟩

theorem length_encode_of_symbol? {i : Instr SymbolId SymbolId} {id : SymbolId}
    (h : i.symbol? = some id) : i.encode.length = 1 + Packed.width SymbolId := by
  rw [encode_of_symbol? h, List.length_cons, Packed.length_pack, Nat.add_comm]

/-- The places are in order and do not overlap. -/
theorem pairwise_relocationsFrom (code : Code) : ∀ offset, (relocationsFrom offset code).Pairwise
    fun r s => r.offset + Packed.width SymbolId ≤ s.offset := by
  induction code with
  | nil => exact fun _ => .nil
  | cons i code ih =>
    intro offset
    rw [relocationsFrom]
    cases hSymbol : i.symbol? with
    | none => exact ih _
    | some id =>
      refine .cons (fun r hMem => ?_) (ih _)
      -- a later number is in a later instruction, so the whole of this one lies before it
      obtain ⟨before, j, after, -, -, hPlace⟩ := exists_of_mem_relocationsFrom hMem
      rw [length_encode_of_symbol? hSymbol] at hPlace
      dsimp only
      omega

/-- The number at a relocation is that of its symbol. -/
theorem unpack?_of_mem_relocations {code : Code} {r : Relocation} (h : r ∈ code.relocations) :
    Packed.unpack? (code.bytes.drop r.offset) =
      some (r.symbol, code.bytes.drop (r.offset + Packed.width SymbolId)) := by
  rw [relocations_eq] at h
  obtain ⟨before, i, after, rfl, hSymbol, hPlace⟩ := exists_of_mem_relocationsFrom h
  have hBytes : bytes (before ++ i :: after) =
      (bytes before ++ [i.opcode.byte]) ++ (Packed.pack r.symbol ++ bytes after) := by
    rw [bytes, List.flatMap_append, List.flatMap_cons, encode_of_symbol? hSymbol]
    simp [bytes]
  have hOpcode : (bytes before ++ [i.opcode.byte]).length = r.offset := by
    rw [hPlace, List.length_append, List.length_singleton, Nat.zero_add]
  rw [← List.drop_drop, hBytes, List.drop_left' hOpcode, Packed.unpack?_pack,
    List.drop_left' (Packed.length_pack r.symbol)]

theorem le_length_of_mem_relocations {code : Code} {r : Relocation} (h : r ∈ code.relocations) :
    r.offset + Packed.width SymbolId ≤ code.bytes.length := by
  have hField := unpack?_of_mem_relocations h
  unfold Packed.unpack? at hField
  dsimp only at hField
  split at hField
  · rename_i hLength
    have hWidth : 0 < Packed.width SymbolId := by decide
    rw [List.length_take, List.length_drop] at hLength
    omega
  · cases hField

/-! ## Rewriting -/

/-- Copies the bytes from offset `cursor` on, with an operand in the place of each symbol number.
There is no result if a cut lies outside the bytes, or ends before it starts, or if a symbol has no
operand. -/
def relocateFrom? (operand? : SymbolId → Option (List UInt8)) (bytes : List UInt8) (cursor : Nat) :
    List Relocation → Option (List UInt8)
  | [] => if cursor ≤ bytes.length then some (bytes.drop cursor) else none
  | r :: relocations =>
    if cursor ≤ r.offset ∧ r.offset ≤ bytes.length then do
      let operand ← operand? r.symbol
      let rest ← relocateFrom? operand? bytes (r.offset + Packed.width SymbolId) relocations
      return bytes.extract cursor r.offset ++ (operand ++ rest)
    else none

/-- Every cut lies inside the bytes if the places are in order, do not overlap and lie inside. -/
theorem relocateFrom?_eq {operand? : SymbolId → Option (List UInt8)}
    {operand : SymbolId → List UInt8} {bytes : List UInt8} {relocations : List Relocation}
    (hOperand : ∀ r ∈ relocations, operand? r.symbol = some (operand r.symbol))
    (hOrder : relocations.Pairwise fun r s => r.offset + Packed.width SymbolId ≤ s.offset)
    (hInside : ∀ r ∈ relocations, r.offset + Packed.width SymbolId ≤ bytes.length) :
    ∀ {cursor : Nat}, cursor ≤ bytes.length → (∀ r ∈ relocations, cursor ≤ r.offset) →
      relocateFrom? operand? bytes cursor relocations =
        some (relocateFrom operand cursor relocations (bytes.drop cursor)) := by
  induction relocations with
  | nil => exact fun hCursor _ => if_pos hCursor
  | cons r relocations ih =>
    intro cursor hCursor hFirst
    obtain ⟨hOperand, hOperands⟩ := List.forall_mem_cons.mp hOperand
    obtain ⟨hNext, hOrder⟩ := List.pairwise_cons.mp hOrder
    obtain ⟨hInside, hAllInside⟩ := List.forall_mem_cons.mp hInside
    have hStart : cursor ≤ r.offset := hFirst r (List.mem_cons_self ..)
    have hStop : r.offset ≤ bytes.length := by omega
    have hRest := ih hOperands hOrder hAllInside hInside hNext
    -- offsets count from the start of the bytes here, and from the cursor there
    have hDrop : (bytes.drop cursor).drop (r.offset - cursor + Packed.width SymbolId) =
        bytes.drop (r.offset + Packed.width SymbolId) := by
      rw [List.drop_drop]
      congr 1
      omega
    rw [relocateFrom?, if_pos ⟨hStart, hStop⟩, hOperand, hRest, relocateFrom, hDrop]
    rfl

/-- Relocating the bytes of code cuts nothing outside of them. -/
theorem relocateFrom?_bytes {operand? : SymbolId → Option (List UInt8)}
    {operand : SymbolId → List UInt8} (code : Code)
    (h : ∀ r ∈ code.relocations, operand? r.symbol = some (operand r.symbol)) :
    relocateFrom? operand? code.bytes 0 code.relocations =
      some (relocate operand code.relocations code.bytes) := by
  have hOrder := pairwise_relocationsFrom code 0
  rw [← relocations_eq] at hOrder
  exact relocateFrom?_eq h hOrder (fun r => le_length_of_mem_relocations) (Nat.zero_le _)
    (fun r _ => Nat.zero_le _)

/-- Relocated code is the encoding of the same instructions with other operands. -/
theorem relocate_eq_encode {v f : Type} [Packed v] [Packed f] {operand : SymbolId → List UInt8}
    {var : SymbolId → v} {function : SymbolId → f} {code : Code}
    (h : ∀ i ∈ code, i.Refers (fun id => operand id = Packed.pack (var id))
      (fun id => operand id = Packed.pack (function id))) :
    relocate operand code.relocations code.bytes =
      (code.map (Instr.map var function)).flatMap Instr.encode := by
  rw [relocate_bytes, List.flatMap_map]
  exact List.flatMap_congr fun i hMem => Instr.relocated_eq_encode (h i hMem)

theorem exists_symbol?_of_mem_relocations {code : Code} {r : Relocation}
    (h : r ∈ code.relocations) : ∃ i ∈ code, i.symbol? = some r.symbol := by
  rw [relocations_eq] at h
  obtain ⟨before, i, after, rfl, hSymbol, -⟩ := exists_of_mem_relocationsFrom h
  exact ⟨i, by simp, hSymbol⟩

end Code

end Formula.Bytecode
