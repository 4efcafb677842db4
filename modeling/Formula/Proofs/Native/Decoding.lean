import Formula.Proofs.Bytecode.Encoding
import Formula.Proofs.Native.Patching

/-!
# Reading machine code back

The bytes of an instruction do not begin those of a different one, and an immediate operand takes
eight bytes, whatever they are. So machine code can be read from the front, one instruction at a
time (`Inst.decode?`). The bytes do not show which operands are addresses that linking has yet to
fill in, since these are zeros, which a number may be as well; the places of symbols show it.

`decodeAll?` recovers instructions from their bytes and the places of their symbols, and it accepts
nothing else (`decodeAll?_eq_some_iff`). So no two lists of instructions have both in common
(`machine_code_determines_instructions`).
-/

namespace Formula

/-! ## Fields -/

namespace Packed

/-- A word that has been read leaves its field where it was. -/
theorem eq_append_of_unpack? {field rest : List UInt8} {word : UInt64}
    (h : unpack? field = some (word, rest)) : field = pack word ++ rest := by
  simp only [unpack?] at h
  split at h
  · rename_i hLength
    cases h
    have hWidth : (field.take 8).length = 8 := hLength
    have hBound := LittleEndian.number_lt (field.take 8)
    have hBytes := LittleEndian.bytes_number (field.take 8)
    rw [hWidth] at hBound hBytes
    have hWord : (UInt64.ofNat (LittleEndian.number (field.take 8))).toNat =
        LittleEndian.number (field.take 8) := Nat.mod_eq_of_lt hBound
    show field = LittleEndian.bytes 8 (UInt64.ofNat (LittleEndian.number (field.take 8))).toNat ++
      field.drop 8
    rw [hWord, hBytes, List.take_append_drop]
  · cases h

end Packed

namespace Native

/-! ## One instruction -/

/-- The register that a byte selects in a move between `rax` and `xmm`. -/
def register? (byte : UInt8) : Option UInt8 :=
  if byte &&& 0xc7 = 0xc0 then some ((byte >>> 3) &&& 7) else none

namespace Inst

/-- Whether the register of a move is one of `xmm0` to `xmm7`. -/
def Encodable : Inst → Prop
  | raxToXmm register => register < 8
  | xmmToRax register => register < 8
  | _ => True

/-- The instruction that fetches the address or the environment of a symbol. -/
def ofSymbol (id : SymbolId) : RelocationKind → Inst
  | .address => movAbsRax (.symbol id)
  | .environment => movAbsRdi (.symbol id)

/-- The instruction that the bytes show, with zero for an address that is not filled in. -/
def shown (i : Inst) : Inst :=
  i.resolve fun _ _ => 0

/-- The instruction at the front of machine code, and the bytes after it. -/
def decode? : List UInt8 → Option (Inst × List UInt8)
  | 0x48 :: 0xb8 :: rest =>
    (Packed.unpack? rest).map fun (word, rest) => (movAbsRax (.value word), rest)
  | 0x48 :: 0xbf :: rest =>
    (Packed.unpack? rest).map fun (word, rest) => (movAbsRdi (.value word), rest)
  | 0x66 :: 0x48 :: 0x0f :: 0x6e :: byte :: rest =>
    (register? byte).map fun register => (raxToXmm register, rest)
  | 0x66 :: 0x48 :: 0x0f :: 0x7e :: byte :: rest =>
    (register? byte).map fun register => (xmmToRax register, rest)
  | 0x50 :: rest => some (pushRax, rest)
  | 0x58 :: rest => some (popRax, rest)
  | 0xff :: 0x30 :: rest => some (pushMemRax, rest)
  | 0xf2 :: 0x0f :: 0x58 :: 0xc1 :: rest => some (addSd, rest)
  | 0xf2 :: 0x0f :: 0x5c :: 0xc1 :: rest => some (subSd, rest)
  | 0xf2 :: 0x0f :: 0x59 :: 0xc1 :: rest => some (mulSd, rest)
  | 0xf2 :: 0x0f :: 0x5e :: 0xc1 :: rest => some (divSd, rest)
  | 0x66 :: 0x0f :: 0x57 :: 0xc1 :: rest => some (xorPd, rest)
  | 0xff :: 0xd0 :: rest => some (callRax, rest)
  | 0xc3 :: rest => some (ret, rest)
  | 0x48 :: 0x83 :: 0xec :: 0x08 :: rest => some (alignStack, rest)
  | 0x48 :: 0x83 :: 0xc4 :: 0x08 :: rest => some (restoreStack, rest)
  | _ => none

end Inst

/-! ## Registers -/

theorem register?_registerBits {register : UInt8} (h : register < 8) :
    register? (registerBits register) = some register := by
  have hAll : ∀ n < 8, register? (registerBits (UInt8.ofNat n)) = some (UInt8.ofNat n) := by
    decide
  have hRegister := hAll register.toNat (UInt8.lt_iff_toNat_lt.mp h)
  rwa [UInt8.ofNat_toNat] at hRegister

theorem registerBits_of_register? {byte register : UInt8} (h : register? byte = some register) :
    register < 8 ∧ registerBits register = byte := by
  have hAll : ∀ n < 256, ∀ register ∈ register? (UInt8.ofNat n),
      register < 8 ∧ registerBits register = UInt8.ofNat n := by
    decide +kernel
  have hByte := hAll byte.toNat byte.toNat_lt
  rw [UInt8.ofNat_toNat] at hByte
  exact hByte register h

/-! ## Instructions and their symbols -/

namespace Inst

variable {i j : Inst} {id : SymbolId} {kind : RelocationKind}

theorem symbol?_eq_some_iff : i.symbol? = some (id, kind) ↔ i = ofSymbol id kind := by
  constructor
  · intro h
    unfold symbol? at h
    split at h <;> cases h <;> rfl
  · rintro rfl
    cases kind <;> rfl

theorem shown_of_symbol?_eq_none (h : i.symbol? = none) : i.shown = i :=
  resolve_of_symbol?_eq_none h

theorem symbol?_shown (i : Inst) : i.shown.symbol? = none := by
  cases i with
  | movAbsRax imm | movAbsRdi imm => cases imm <;> rfl
  | _ => rfl

@[simp]
theorem encode_shown (i : Inst) : i.shown.encode = i.encode := by
  cases i with
  | movAbsRax imm | movAbsRdi imm => cases imm <;> rfl
  | _ => rfl

theorem encodable_shown_iff : i.shown.Encodable ↔ i.Encodable := by
  cases i with
  | movAbsRax imm | movAbsRdi imm => cases imm <;> rfl
  | _ => rfl

/-- What the bytes show and the symbol make up the instruction. -/
theorem eq_of_shown (hShown : i.shown = j.shown) (hSymbol : i.symbol? = j.symbol?) : i = j := by
  cases hUse : i.symbol? with
  | none =>
    rw [shown_of_symbol?_eq_none hUse, shown_of_symbol?_eq_none (hSymbol ▸ hUse)] at hShown
    exact hShown
  | some use =>
    exact (symbol?_eq_some_iff.mp hUse).trans (symbol?_eq_some_iff.mp (hSymbol ▸ hUse)).symm

/-! ## Reading one instruction -/

theorem decode?_encode_of_symbol?_eq_none (h : i.Encodable) (hSymbol : i.symbol? = none)
    (rest : List UInt8) : decode? (i.encode ++ rest) = some (i, rest) := by
  cases i with
  | movAbsRax imm | movAbsRdi imm =>
    cases imm with
    | value word =>
      have hWord : Packed.unpack? (Packed.pack word ++ rest) = some (word, rest) :=
        Packed.unpack?_pack word rest
      simp only [encode, Imm.encode, List.cons_append, decode?, hWord]
      rfl
    | symbol id => cases hSymbol
  | raxToXmm register => exact congrArg (Option.map _) (register?_registerBits h)
  | xmmToRax register => exact congrArg (Option.map _) (register?_registerBits h)
  | _ => rfl

/-- The instruction at the front is found, whatever follows it. -/
theorem decode?_encode (h : i.Encodable) (rest : List UInt8) :
    decode? (i.encode ++ rest) = some (i.shown, rest) := by
  rw [← encode_shown]
  exact decode?_encode_of_symbol?_eq_none (encodable_shown_iff.mpr h) (symbol?_shown i) rest

/-- What is found is at the front. -/
theorem of_decode? {bytes rest : List UInt8} (h : decode? bytes = some (i, rest)) :
    bytes = i.encode ++ rest ∧ i.Encodable ∧ i.symbol? = none := by
  unfold decode? at h
  split at h
  case h_1 | h_2 =>
    obtain ⟨⟨word, rest'⟩, hWord, h⟩ := Option.map_eq_some_iff.mp h
    cases h
    rw [Packed.eq_append_of_unpack? hWord]
    exact ⟨rfl, trivial, rfl⟩
  case h_3 | h_4 =>
    obtain ⟨register, hRegister, h⟩ := Option.map_eq_some_iff.mp h
    cases h
    obtain ⟨hLess, hBits⟩ := registerBits_of_register? hRegister
    refine ⟨?_, hLess, rfl⟩
    rw [encode, hBits]
    rfl
  case h_17 => cases h
  all_goals
    cases h
    exact ⟨rfl, trivial, rfl⟩

theorem encode_ne_nil (i : Inst) : i.encode ≠ [] := by
  cases i <;> exact List.cons_ne_nil _ _

theorem length_lt_of_decode? {bytes rest : List UInt8} (h : decode? bytes = some (i, rest)) :
    rest.length < bytes.length := by
  have hPos := List.length_pos_iff.mpr i.encode_ne_nil
  rw [(of_decode? h).1, List.length_append]
  omega

/-- An instruction whose bytes begin those of another has the same bytes, and shows the same. -/
theorem shown_eq_of_prefix (hI : i.Encodable) (hJ : j.Encodable) (h : i.encode <+: j.encode) :
    i.shown = j.shown := by
  obtain ⟨more, hMore⟩ := h
  have hFirst := decode?_encode hI more
  have hSecond := decode?_encode hJ []
  rw [hMore] at hFirst
  rw [List.append_nil, hFirst] at hSecond
  exact congrArg Prod.fst (Option.some.inj hSecond)

end Inst

/-! ## Whole code -/

/-- The instruction with the symbol at the first of the places, if that is in the instruction, and
the places after it. The operand has to be zero then. -/
def Inst.withSymbol? (offset : Nat) (i : Inst) : List Relocation → Option (Inst × List Relocation)
  | [] => some (i, [])
  | r :: places =>
    if r.offset = offset + 2 then
      if i = (ofSymbol r.symbol r.kind).shown then some (ofSymbol r.symbol r.kind, places) else none
    else some (i, r :: places)

/-- The instructions of machine code at an offset, with symbols at the places. -/
def decodeFrom? (offset : Nat) (places : List Relocation) : List UInt8 → Option (List Inst)
  | [] => if places.isEmpty then some [] else none
  | byte :: bytes =>
    match _h : Inst.decode? (byte :: bytes) with
    | none => none
    | some (i, rest) =>
      (i.withSymbol? offset places).bind fun (i, later) =>
        (decodeFrom? (offset + i.encode.length) later rest).map (i :: ·)
termination_by bytes => bytes.length
decreasing_by exact Inst.length_lt_of_decode? _h

/-- The instructions of machine code with symbols at the places. -/
def decodeAll? (bytes : List UInt8) (places : List Relocation) : Option (List Inst) :=
  decodeFrom? 0 places bytes

theorem decodeFrom?_of_decode? {bytes rest : List UInt8} {i : Inst}
    (h : Inst.decode? bytes = some (i, rest)) (offset : Nat) (places : List Relocation) :
    decodeFrom? offset places bytes = (i.withSymbol? offset places).bind fun (i, later) =>
      (decodeFrom? (offset + i.encode.length) later rest).map (i :: ·) := by
  cases bytes with
  | nil => cases h
  | cons byte bytes =>
    rw [decodeFrom?]
    split
    · rename_i hNone
      rw [h] at hNone
      cases hNone
    · rename_i hSome
      rw [h] at hSome
      cases hSome
      rfl

/-- An instruction is given its own symbol. -/
theorem Inst.withSymbol?_shown (i : Inst) (offset : Nat) (code : List Inst) :
    i.shown.withSymbol? offset (relocationsFrom offset (i :: code)) =
      some (i, relocationsFrom (offset + i.encode.length) code) := by
  cases hSymbol : i.symbol? with
  | some use =>
    obtain rfl := symbol?_eq_some_iff.mp hSymbol
    rw [relocationsFrom_cons_some offset code hSymbol, withSymbol?, if_pos rfl, if_pos rfl]
  | none =>
    rw [relocationsFrom_cons_none offset code hSymbol, shown_of_symbol?_eq_none hSymbol]
    cases hPlaces : relocationsFrom (offset + i.encode.length) code with
    | nil => rfl
    | cons r places =>
      -- the first place lies in a later instruction
      obtain ⟨earlier, j, later, -, -, hPlace⟩ :=
        exists_of_mem_relocationsFrom (hPlaces ▸ List.mem_cons_self ..)
      have hPos := List.length_pos_iff.mpr i.encode_ne_nil
      rw [withSymbol?, if_neg (by omega)]

/-- An instruction is given a symbol only where one is to be. -/
theorem Inst.of_withSymbol? {offset : Nat} {i j : Inst} {places later : List Relocation}
    (hSymbol : i.symbol? = none) (h : i.withSymbol? offset places = some (j, later)) :
    j.shown = i ∧ ∀ code, relocationsFrom (offset + j.encode.length) code = later →
      relocationsFrom offset (j :: code) = places := by
  have hSame : i.shown = i ∧ ∀ code, relocationsFrom (offset + i.encode.length) code = places →
      relocationsFrom offset (i :: code) = places :=
    ⟨shown_of_symbol?_eq_none hSymbol, fun code hCode =>
      (relocationsFrom_cons_none offset code hSymbol).trans hCode⟩
  cases places with
  | nil =>
    cases h
    exact hSame
  | cons r places =>
    simp only [withSymbol?] at h
    split at h
    · rename_i hOffset
      split at h
      · rename_i hShown
        cases h
        refine ⟨hShown.symm, fun code hCode => ?_⟩
        rw [relocationsFrom_cons_some offset code (symbol?_eq_some_iff.mpr rfl), hCode, ← hOffset]
      · cases h
    · cases h
      exact hSame

theorem decodeFrom?_encode {code : List Inst} (h : ∀ i ∈ code, i.Encodable) : ∀ offset,
    decodeFrom? offset (relocationsFrom offset code) (encode code) = some code := by
  induction code with
  | nil =>
    intro offset
    rw [encode, List.flatMap_nil, decodeFrom?]
    rfl
  | cons i code ih =>
    intro offset
    obtain ⟨hFirst, hRest⟩ := List.forall_mem_cons.mp h
    rw [encode_cons, decodeFrom?_of_decode? (Inst.decode?_encode hFirst _), i.withSymbol?_shown,
      Option.bind_some]
    show (decodeFrom? _ _ (encode code)).map _ = _
    rw [ih hRest]
    rfl

theorem of_decodeFrom? {offset : Nat} {places : List Relocation} {bytes : List UInt8}
    {code : List Inst} (h : decodeFrom? offset places bytes = some code) :
    (∀ i ∈ code, i.Encodable) ∧ encode code = bytes ∧ relocationsFrom offset code = places := by
  induction hLength : bytes.length using Nat.strongRecOn generalizing offset places bytes code with
  | ind n ih =>
    cases bytes with
    | nil =>
      rw [decodeFrom?] at h
      split at h
      · rename_i hEmpty
        cases h
        exact ⟨nofun, rfl, (List.isEmpty_iff.mp hEmpty).symm⟩
      · cases h
    | cons byte bytes =>
      cases hDecode : Inst.decode? (byte :: bytes) with
      | none =>
        rw [decodeFrom?] at h
        split at h
        · cases h
        · rename_i hSome
          rw [hDecode] at hSome
          cases hSome
      | some found =>
        obtain ⟨i, rest⟩ := found
        obtain ⟨hBytes, hEncodable, hSymbol⟩ := Inst.of_decode? hDecode
        have hShorter := Inst.length_lt_of_decode? hDecode
        rw [decodeFrom?_of_decode? hDecode] at h
        obtain ⟨⟨j, later⟩, hName, h⟩ := Option.bind_eq_some_iff.mp h
        obtain ⟨code, hCode, rfl⟩ := Option.map_eq_some_iff.mp h
        obtain ⟨rfl, hPlaces⟩ := Inst.of_withSymbol? hSymbol hName
        obtain ⟨hRest, hEncode, hLater⟩ := ih _ (hLength ▸ hShorter) hCode rfl
        refine ⟨List.forall_mem_cons.mpr ⟨Inst.encodable_shown_iff.mp hEncodable, hRest⟩, ?_,
          hPlaces code hLater⟩
        rw [encode_cons, hEncode, hBytes, Inst.encode_shown]

/-- Exactly the machine code of instructions is read, with the places of their symbols, and as these
instructions. -/
theorem decodeAll?_eq_some_iff {bytes : List UInt8} {places : List Relocation} {code : List Inst} :
    decodeAll? bytes places = some code ↔
      (∀ i ∈ code, i.Encodable) ∧ encode code = bytes ∧ relocations code = places := by
  rw [relocations_eq]
  constructor
  · exact of_decodeFrom?
  · rintro ⟨hEncodable, rfl, rfl⟩
    exact decodeFrom?_encode hEncodable 0

/-- The bytes and the places of symbols determine the instructions, and reading recovers them: it
takes one instruction after the other from the front, whatever follows, because the bytes of an
instruction do not begin those of one with other bytes and each operand is eight bytes wide. -/
theorem machine_code_determines_instructions :
    (∀ code other : List Inst, (∀ i ∈ code, i.Encodable) → (∀ i ∈ other, i.Encodable) →
      encode code = encode other → relocations code = relocations other → code = other) ∧
    (∀ bytes places code, decodeAll? bytes places = some code ↔
      (∀ i ∈ code, i.Encodable) ∧ encode code = bytes ∧ relocations code = places) ∧
    (∀ i : Inst, i.Encodable → ∀ rest, Inst.decode? (i.encode ++ rest) = some (i.shown, rest)) ∧
    (∀ i j : Inst, i.Encodable → j.Encodable → i.encode <+: j.encode →
      i.encode = j.encode ∧ (i.symbol? = j.symbol? → i = j)) ∧
    ∀ imm : Imm, imm.encode.length = 8 := by
  refine ⟨fun code other hCode hOther hBytes hPlaces => ?_, fun _ _ _ => decodeAll?_eq_some_iff,
    fun i h rest => Inst.decode?_encode h rest, fun i j hI hJ hPrefix => ?_, fun imm => ?_⟩
  · have hRead := decodeAll?_eq_some_iff.mpr ⟨hCode, hBytes, hPlaces⟩
    rw [decodeAll?_eq_some_iff.mpr ⟨hOther, rfl, rfl⟩] at hRead
    exact (Option.some.inj hRead).symm
  · have hShown := Inst.shown_eq_of_prefix hI hJ hPrefix
    refine ⟨?_, Inst.eq_of_shown hShown⟩
    rw [← i.encode_shown, hShown, j.encode_shown]
  · cases imm <;> exact Packed.length_pack _

/-- The address of a symbol and the number zero have the same bytes, and are told apart. -/
theorem machine_code_of_symbol_and_zero :
    let code : List Inst := [.movAbsRax (.symbol 1), .movAbsRax (.value 0), .raxToXmm 7]
    decodeAll? (encode code) (relocations code) = some code ∧
      Inst.decode? ((Inst.raxToXmm 7).encode ++ [0xc3]) = some (.raxToXmm 7, [0xc3]) ∧
      encode [.movAbsRax (.symbol 1)] = encode [.movAbsRax (.value 0)] ∧
      relocations [.movAbsRax (.symbol 1)] ≠ relocations [.movAbsRax (.value 0)] := by
  intro code
  obtain ⟨hDetermines, hReads, hFront, -⟩ := machine_code_determines_instructions
  have hEncodable : ∀ i ∈ code, i.Encodable := by
    simp [code, Inst.Encodable]
  refine ⟨(hReads _ _ _).mpr ⟨hEncodable, rfl, rfl⟩, hFront _ (by simp [Inst.Encodable]) _, rfl,
    fun hSame => ?_⟩
  have hEq := hDetermines [.movAbsRax (.symbol 1)] [.movAbsRax (.value 0)]
    (by simp [Inst.Encodable]) (by simp [Inst.Encodable]) rfl hSame
  cases hEq

end Native

end Formula
