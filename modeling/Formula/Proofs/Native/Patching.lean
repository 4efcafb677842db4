import Formula.Native.Encoding
import Mathlib.Data.List.Basic

/-!
# Patched native code

Linking overwrites the places of symbols in machine code with words. This gives the code of the
instructions that have these words for operands from the start
(`patch_relocations_eq_encode_resolved`): every relocation is the operand of one instruction that
refers to a symbol (`exists_of_mem_relocationsFrom`), operands have one width, and so no instruction
moves and no two places overlap.
-/

namespace Formula.Native

/-- The instruction with the word of its symbol as operand. -/
def Inst.resolve (word : SymbolId → RelocationKind → UInt64) : Inst → Inst
  | movAbsRax (.symbol id) => movAbsRax (.value (word id .address))
  | movAbsRdi (.symbol id) => movAbsRdi (.value (word id .environment))
  | i => i

/-- The bytes in front of the operand of an instruction that refers to a symbol. -/
def symbolOpcode : RelocationKind → List UInt8
  | .address => [0x48, 0xb8]
  | .environment => [0x48, 0xbf]

variable {word : SymbolId → RelocationKind → UInt64} {i : Inst} {id : SymbolId}
  {kind : RelocationKind}

@[simp]
theorem length_symbolOpcode (kind : RelocationKind) : (symbolOpcode kind).length = 2 := by
  cases kind <;> rfl

@[simp]
theorem encode_cons (i : Inst) (code : List Inst) : encode (i :: code) = i.encode ++ encode code :=
  rfl

theorem encode_append (code more : List Inst) : encode (code ++ more) = encode code ++ encode more :=
  List.flatMap_append

namespace Inst

theorem encode_of_symbol? (h : i.symbol? = some (id, kind)) :
    i.encode = symbolOpcode kind ++ List.replicate 8 0 := by
  unfold symbol? at h
  split at h <;> cases h <;> rfl

theorem encode_resolve_of_symbol? (h : i.symbol? = some (id, kind)) :
    (i.resolve word).encode = symbolOpcode kind ++ Packed.pack (word id kind) := by
  unfold symbol? at h
  split at h <;> cases h <;> rfl

theorem resolve_of_symbol?_eq_none (h : i.symbol? = none) : i.resolve word = i := by
  unfold resolve
  split
  · cases h
  · cases h
  · rfl

end Inst

/-! ## Relocations -/

/-- The places of symbols in code that starts at an offset. -/
def relocationsFrom (offset : Nat) : List Inst → List Relocation
  | [] => []
  | i :: code =>
    match i.symbol? with
    | some (id, kind) => ⟨id, offset + 2, kind⟩ :: relocationsFrom (offset + i.encode.length) code
    | none => relocationsFrom (offset + i.encode.length) code

/-- What `relocations` does at an instruction. -/
def relocationsStep (state : Nat × Array Relocation) (i : Inst) : Nat × Array Relocation :=
  (state.1 + i.encode.length,
    match i.symbol? with
    | some (id, kind) => state.2.push ⟨id, state.1 + 2, kind⟩
    | none => state.2)

theorem foldl_relocationsStep (code : List Inst) :
    ∀ (offset : Nat) (found : Array Relocation),
      (code.foldl relocationsStep (offset, found)).2.toList =
        found.toList ++ relocationsFrom offset code := by
  induction code with
  | nil =>
    intro offset found
    exact (List.append_nil _).symm
  | cons i code ih =>
    intro offset found
    rw [List.foldl_cons, relocationsStep, ih]
    cases hSymbol : i.symbol? with
    | none => simp only [relocationsFrom, hSymbol]
    | some use =>
      simp only [relocationsFrom, hSymbol, Array.toList_push, List.append_assoc,
        List.singleton_append]

theorem relocations_eq (code : List Inst) : relocations code = relocationsFrom 0 code :=
  foldl_relocationsStep code 0 #[]

theorem relocationsFrom_cons_some (offset : Nat) (code : List Inst)
    (h : i.symbol? = some (id, kind)) : relocationsFrom offset (i :: code) =
      ⟨id, offset + 2, kind⟩ :: relocationsFrom (offset + i.encode.length) code := by
  simp only [relocationsFrom, h]

theorem relocationsFrom_cons_none (offset : Nat) (code : List Inst) (h : i.symbol? = none) :
    relocationsFrom offset (i :: code) = relocationsFrom (offset + i.encode.length) code := by
  simp only [relocationsFrom, h]

/-- The relocations are, in order, the uses of symbols in the instructions. -/
theorem map_relocations (code : List Inst) :
    (relocations code).map (fun r => (r.symbol, r.kind)) = code.filterMap Inst.symbol? := by
  suffices general : ∀ offset, (relocationsFrom offset code).map (fun r => (r.symbol, r.kind)) =
      code.filterMap Inst.symbol? by
    rw [relocations_eq]
    exact general 0
  induction code with
  | nil => exact fun _ => rfl
  | cons i code ih =>
    intro offset
    cases hSymbol : i.symbol? with
    | none => rw [relocationsFrom_cons_none offset code hSymbol, ih, List.filterMap_cons_none hSymbol]
    | some use =>
      rw [relocationsFrom_cons_some offset code hSymbol, List.map_cons, ih,
        List.filterMap_cons_some hSymbol]

/-- A relocation is the operand of an instruction, behind the opcode. -/
theorem exists_of_mem_relocationsFrom {code : List Inst} {r : Relocation} :
    ∀ {offset : Nat}, r ∈ relocationsFrom offset code → ∃ earlier i later,
      code = earlier ++ i :: later ∧ i.symbol? = some (r.symbol, r.kind) ∧
        r.offset = offset + (encode earlier).length + 2 := by
  induction code with
  | nil => exact fun h => nomatch h
  | cons i code ih =>
    intro offset h
    have hLater {offset' : Nat} (hOffset : offset' = offset + i.encode.length)
        (hMem : r ∈ relocationsFrom offset' code) : ∃ earlier j later,
          i :: code = earlier ++ j :: later ∧ j.symbol? = some (r.symbol, r.kind) ∧
            r.offset = offset + (encode earlier).length + 2 := by
      obtain ⟨earlier, j, later, rfl, hUse, hPlace⟩ := ih hMem
      refine ⟨i :: earlier, j, later, rfl, hUse, ?_⟩
      rw [encode_cons, List.length_append]
      omega
    cases hSymbol : i.symbol? with
    | none =>
      rw [relocationsFrom_cons_none offset code hSymbol] at h
      exact hLater rfl h
    | some use =>
      rw [relocationsFrom_cons_some offset code hSymbol] at h
      rcases List.mem_cons.mp h with rfl | h
      · exact ⟨[], i, code, rfl, hSymbol, rfl⟩
      · exact hLater rfl h

/-- The places do not overlap and are in order. -/
theorem pairwise_relocationsFrom (code : List Inst) : ∀ offset,
    (relocationsFrom offset code).Pairwise fun r s => r.offset + 8 ≤ s.offset := by
  induction code with
  | nil => exact fun _ => .nil
  | cons i code ih =>
    intro offset
    cases hSymbol : i.symbol? with
    | none =>
      rw [relocationsFrom_cons_none offset code hSymbol]
      exact ih _
    | some use =>
      rw [relocationsFrom_cons_some offset code hSymbol]
      refine .cons (fun r hMem => ?_) (ih _)
      obtain ⟨earlier, j, later, -, -, hPlace⟩ := exists_of_mem_relocationsFrom hMem
      have hLength : i.encode.length = 10 := by
        rw [Inst.encode_of_symbol? hSymbol, List.length_append, length_symbolOpcode,
          List.length_replicate]
      show offset + 2 + 8 ≤ r.offset
      omega

/-! ## Overwriting -/

/-- A field takes the place of one of the same length. -/
theorem overwrite_toArray (field : List UInt8) : ∀ (before old after : List UInt8),
    old.length = field.length →
    overwrite (before ++ (old ++ after)).toArray before.length field =
      (before ++ (field ++ after)).toArray := by
  induction field with
  | nil =>
    intro before old after hLength
    rw [List.eq_nil_of_length_eq_zero hLength]
    rfl
  | cons byte field ih =>
    intro before old after hLength
    cases old with
    | nil => cases hLength
    | cons first old =>
      have hSet : (before ++ (first :: old ++ after)).toArray.setIfInBounds before.length byte =
          ((before ++ [byte]) ++ (old ++ after)).toArray := by
        simp
      have h := ih (before ++ [byte]) old after (Nat.succ.inj hLength)
      rw [List.length_append, List.length_singleton] at h
      rw [overwrite, hSet, h]
      simp

theorem size_overwrite (field : List UInt8) : ∀ (bytes : Array UInt8) (offset : Nat),
    (overwrite bytes offset field).size = bytes.size := by
  induction field with
  | nil => exact fun _ _ => rfl
  | cons byte field ih =>
    intro bytes offset
    rw [overwrite, ih, Array.size_setIfInBounds]

/-- Bytes outside the field stay. -/
theorem getElem?_overwrite (field : List UInt8) : ∀ (bytes : Array UInt8) (offset : Nat) {place : Nat},
    ¬(offset ≤ place ∧ place < offset + field.length) →
    (overwrite bytes offset field)[place]? = bytes[place]? := by
  induction field with
  | nil => exact fun _ _ _ _ => rfl
  | cons byte field ih =>
    intro bytes offset place hOutside
    rw [List.length_cons] at hOutside
    rw [overwrite, ih _ _ (by omega), Array.getElem?_setIfInBounds_ne (by omega)]

/-- Patches the places of relocations in turn. -/
def patchAll (word : SymbolId → RelocationKind → UInt64) (bytes : Array UInt8)
    (relocations : List Relocation) : Array UInt8 :=
  relocations.foldl (fun bytes r => overwrite bytes r.offset (Packed.pack (word r.symbol r.kind)))
    bytes

theorem patchAll_cons (bytes : Array UInt8) (r : Relocation) (relocations : List Relocation) :
    patchAll word bytes (r :: relocations) =
      patchAll word (overwrite bytes r.offset (Packed.pack (word r.symbol r.kind))) relocations := by
  rw [patchAll, List.foldl_cons, patchAll]

theorem length_patch (word : SymbolId → RelocationKind → UInt64) (relocations : List Relocation)
    (bytes : List UInt8) : (patch word relocations bytes).length = bytes.length := by
  suffices general : ∀ array : Array UInt8, (patchAll word array relocations).size = array.size from
    general bytes.toArray
  induction relocations with
  | nil => exact fun _ => rfl
  | cons r relocations ih =>
    intro array
    rw [patchAll_cons, ih, size_overwrite]

theorem getElem?_patchAll (relocations : List Relocation) : ∀ (bytes : Array UInt8) {place : Nat},
    (∀ r ∈ relocations, ¬(r.offset ≤ place ∧ place < r.offset + 8)) →
    (patchAll word bytes relocations)[place]? = bytes[place]? := by
  induction relocations with
  | nil => exact fun _ _ _ => rfl
  | cons r relocations ih =>
    intro bytes place hOutside
    obtain ⟨hHere, hLater⟩ := List.forall_mem_cons.mp hOutside
    have hField : (Packed.pack (word r.symbol r.kind)).length = 8 := Packed.length_pack _
    have hSame := getElem?_overwrite (Packed.pack (word r.symbol r.kind)) bytes r.offset
      (by rw [hField]; exact hHere)
    rw [patchAll_cons, ih _ hLater, hSame]

/-- Patched code is the code of the resolved instructions, whatever lies before it. -/
theorem patchAll_encode (code : List Inst) : ∀ before : List UInt8,
    patchAll word (before ++ encode code).toArray (relocationsFrom before.length code) =
      (before ++ encode (code.map (Inst.resolve word))).toArray := by
  induction code with
  | nil => exact fun _ => rfl
  | cons i code ih =>
    intro before
    have h := ih (before ++ (i.resolve word).encode)
    rw [List.length_append, List.append_assoc, List.append_assoc] at h
    rw [List.map_cons, encode_cons, encode_cons]
    cases hSymbol : i.symbol? with
    | none =>
      rw [Inst.resolve_of_symbol?_eq_none hSymbol] at h ⊢
      rw [relocationsFrom_cons_none _ code hSymbol]
      exact h
    | some use =>
      obtain ⟨id, kind⟩ := use
      have hField : (Packed.pack (word id kind)).length = 8 := Packed.length_pack _
      -- the opcode belongs to what lies before the operand
      have hOverwrite := overwrite_toArray (Packed.pack (word id kind)) (before ++ symbolOpcode kind)
        (List.replicate 8 0) (encode code) (by rw [hField, List.length_replicate])
      rw [List.length_append, length_symbolOpcode] at hOverwrite
      rw [Inst.encode_resolve_of_symbol? hSymbol] at h ⊢
      rw [relocationsFrom_cons_some _ code hSymbol, Inst.encode_of_symbol? hSymbol,
        patchAll_cons]
      simp only [List.append_assoc, List.length_append, hField, List.length_replicate,
        length_symbolOpcode] at h hOverwrite ⊢
      rw [hOverwrite]
      exact h

theorem patch_eq (code : List Inst) :
    patch word (relocations code) (encode code) = encode (code.map (Inst.resolve word)) := by
  have h : patchAll word (encode code).toArray (relocationsFrom 0 code) =
      (encode (code.map (Inst.resolve word))).toArray := patchAll_encode code []
  rw [relocations_eq]
  exact congrArg Array.toList h

/-- Patching the places of symbols gives the code of the instructions with the words as operands.
The places lie behind the opcodes for their kinds, hold zeros, do not overlap and are in order, and
no other byte changes. -/
theorem patch_relocations_eq_encode_resolved (code : List Inst)
    (word : SymbolId → RelocationKind → UInt64) :
    let patched := patch word (relocations code) (encode code)
    patched = encode (code.map (Inst.resolve word)) ∧
    (relocations code).map (fun r => (r.symbol, r.kind)) = code.filterMap Inst.symbol? ∧
    (∀ r ∈ relocations code, r.offset + 8 ≤ (encode code).length ∧
      ∃ before after, before.length + 2 = r.offset ∧
        encode code = before ++ (symbolOpcode r.kind ++ (List.replicate 8 0 ++ after))) ∧
    (relocations code).Pairwise (fun r s => r.offset + 8 ≤ s.offset) ∧
    patched.length = (encode code).length ∧
    ∀ place : Nat, (∀ r ∈ relocations code, ¬(r.offset ≤ place ∧ place < r.offset + 8)) →
      patched[place]? = (encode code)[place]? := by
  intro patched
  refine ⟨patch_eq code, map_relocations code, fun r hMem => ?_, ?_, ?_, fun place hOutside => ?_⟩
  · rw [relocations_eq] at hMem
    obtain ⟨earlier, i, later, rfl, hUse, hPlace⟩ := exists_of_mem_relocationsFrom hMem
    have hCode : encode (earlier ++ i :: later) =
        encode earlier ++ (symbolOpcode r.kind ++ (List.replicate 8 0 ++ encode later)) := by
      rw [encode_append, encode_cons, Inst.encode_of_symbol? hUse, List.append_assoc]
    refine ⟨?_, encode earlier, encode later, by omega, hCode⟩
    simp only [hCode, List.length_append, length_symbolOpcode, List.length_replicate]
    omega
  · rw [relocations_eq]
    exact pairwise_relocationsFrom code 0
  · exact length_patch ..
  · have h : (patchAll word (encode code).toArray (relocations code))[place]? =
        (encode code).toArray[place]? := getElem?_patchAll _ _ hOutside
    rw [← Array.getElem?_toList, List.getElem?_toArray] at h
    exact h

end Formula.Native
