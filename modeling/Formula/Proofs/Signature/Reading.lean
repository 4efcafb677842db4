import Formula.Proofs.Signature
import Formula.Proofs.Splitting
import Formula.Proofs.Text.Utf8

/-!
# Reading linker symbols back

`Signature.ofSymbol?` takes as many digits as there are for the length of the name, so it finds the
name it was written from unless that name goes on with a digit. The texts it reads are those that
spell a signature (`ofSymbol?_eq_some_iff`): the length may have leading zeros, but has to end where
the name begins. A signature spells its own symbol if and only if its name does not begin with a
digit (`spells_symbol_iff`).

Only the part before the name is cut where digits end; the name is cut at the length that was read,
which may lie behind the end of the text or inside a character. Where the name can be cut off, what
is left of the text can be as well (`exists_dropBytes`).
-/

namespace Formula

/-! ## Cuts -/

namespace Text

/-- The bytes of decimal digits. -/
def isDigitByte (byte : UInt8) : Bool :=
  48 ≤ byte ∧ byte ≤ 57

theorem isDigitByte_eq {c : Char} (h : c.toNat < 128) :
    isDigitByte (UInt8.ofNat c.toNat) = c.isDigit := by
  have hAscii : ∀ n < 128, isDigitByte (UInt8.ofNat n) = (Char.ofNat n).isDigit := by decide
  rw [hAscii c.toNat h, Char.ofNat_toNat]

theorem isDigitByte_eq_false {byte : UInt8} (h : 128 ≤ byte.toNat) : isDigitByte byte = false := by
  rw [isDigitByte, decide_eq_false_iff_not]
  rintro ⟨-, hLast⟩
  exact absurd (Nat.le_trans h hLast) (by decide)

/-- The digits in front of a text, counted in bytes. -/
theorem length_takeWhile_isDigitByte (text : List Char) :
    ((bytes text).takeWhile isDigitByte).length = byteLength (text.takeWhile Char.isDigit) := by
  rw [← length_bytes, bytes_takeWhile (fun _ => isDigitByte_eq) (fun _ => isDigitByte_eq_false)
    fun c hLarge => ?_]
  by_contra hDigit
  have hWord := Token.isWord_of_isDigit (by simpa using hDigit)
  exact absurd (Token.toNat_lt_of_isWord hWord) (Nat.not_lt.mpr hLarge)

/-- What can be cut off at an offset leaves the rest of the text. -/
theorem exists_dropBytes {n : Nat} {text front : List Char} (h : takeBytes n text = some front) :
    ∃ back, dropBytes n text = some back ∧ text = front ++ back := by
  obtain ⟨back, rfl, rfl⟩ := takeBytes_eq_some_iff.mp h
  exact ⟨back, dropBytes_append front back, rfl⟩

end Text

theorem Decimal.ofDigits_eq (digits : List Char) :
    Decimal.ofDigits digits = Nat.ofDigitChars 10 digits 0 := rfl

namespace Signature

/-! ## Spelling -/

/-- A text that is read as a signature: the length of the name, a name that does not begin with a
digit, and a letter for each parameter. -/
def Spells (text : String) (s : Signature) : Prop :=
  ∃ digits : List Char, digits ≠ [] ∧ (∀ c ∈ digits, c.isDigit = true) ∧
    text.toList = '_' :: 'Z' :: (digits ++ (s.name.toList ++ List.replicate s.arity 'd')) ∧
    Decimal.ofDigits digits = Text.byteLength s.name.toList ∧
    Decimal.ofDigits digits ≤ maxLength ∧ Plain s.name

/-- Neither the name nor a parameter goes on with the digits of the length. -/
theorem Plain.not_digit {s : Signature} (h : Plain s.name) :
    ∀ c ∈ (s.name.toList ++ List.replicate s.arity 'd').head?, c.isDigit = false := by
  intro c hHead
  cases hName : s.name.toList with
  | cons d name =>
    rw [hName] at hHead
    obtain rfl := Option.some.inj hHead
    exact h d (by rw [hName]; rfl)
  | nil =>
    rw [hName, List.nil_append] at hHead
    rw [List.eq_of_mem_replicate (List.mem_of_mem_head? hHead)]
    rfl

theorem ofSymbol?_of_spells {text : String} {s : Signature} (h : Spells text s) :
    ofSymbol? text = some s := by
  obtain ⟨digits, hSome, hDigits, hText, hLength, hMax, hPlain⟩ := h
  rw [hLength] at hMax
  have hGuard : ¬(digits.isEmpty = true ∨ maxLength < Text.byteLength s.name.toList) := by
    rw [List.isEmpty_iff]
    exact not_or.mpr ⟨hSome, Nat.not_lt.mpr hMax⟩
  have hParams : (List.replicate s.arity 'd').all (· = 'd') = true := by simp
  rw [ofSymbol?, hText]
  simp only [ofSymbolChars?, Token.takeWhile_front hDigits hPlain.not_digit,
    Token.dropWhile_front hDigits hPlain.not_digit, hLength, if_neg hGuard,
    Text.takeBytes_append, Text.dropBytes_append, if_pos hParams, String.ofList_toList,
    List.length_replicate]

theorem spells_of_ofSymbol? {text : String} {s : Signature} (h : ofSymbol? text = some s) :
    Spells text s := by
  unfold ofSymbol? ofSymbolChars? at h
  split at h
  case h_2 => cases h
  case h_1 more hText =>
    simp only at h
    split_ifs at h with hGuard
    obtain ⟨hSome, hMax⟩ := not_or.mp hGuard
    split at h
    case h_2 => cases h
    case h_1 name params hName hParams =>
      split_ifs at h with hAll
      obtain rfl := Option.some.inj h
      obtain ⟨back, hRest, hLength⟩ := Text.takeBytes_eq_some_iff.mp hName
      rw [hRest, ← hLength, Text.dropBytes_append, Option.some.injEq] at hParams
      subst hParams
      have hLetters : back = List.replicate back.length 'd' :=
        List.eq_replicate_length.mpr fun c hMem => by simpa using List.all_eq_true.mp hAll c hMem
      have hPlain : ∀ c ∈ name.head?, c.isDigit = false := by
        intro c hHead
        have hStop := List.head?_dropWhile_not Char.isDigit more
        rw [hRest, List.head?_append, Option.mem_def.mp hHead] at hStop
        exact hStop
      refine ⟨more.takeWhile Char.isDigit, mt List.isEmpty_iff.mpr hSome,
        fun c => List.mem_takeWhile_imp, ?_, ?_, Nat.not_lt.mp hMax, ?_⟩
      · rw [hText, String.toList_ofList, ← hLetters, ← hRest, List.takeWhile_append_dropWhile]
      · rw [String.toList_ofList, hLength]
      · rw [Plain, String.toList_ofList]
        exact hPlain

/-- The reader accepts the texts that spell a signature, and returns that signature. -/
theorem ofSymbol?_eq_some_iff {text : String} {s : Signature} :
    ofSymbol? text = some s ↔ Spells text s :=
  ⟨spells_of_ofSymbol?, ofSymbol?_of_spells⟩

/-- A signature is read back from its symbol unless its name begins with a digit; no text in memory
is longer than `maxLength`. -/
theorem spells_symbol_iff {s : Signature} :
    Spells s.symbol s ↔ Plain s.name ∧ Text.byteLength s.name.toList ≤ maxLength := by
  constructor
  · rintro ⟨digits, -, -, -, hLength, hMax, hPlain⟩
    exact ⟨hPlain, hLength ▸ hMax⟩
  · rintro ⟨hPlain, hMax⟩
    have hLength : Decimal.ofDigits (Nat.toDigits 10 (Text.byteLength s.name.toList)) =
        Text.byteLength s.name.toList := by
      rw [Decimal.ofDigits_eq, Nat.ofDigitChars_ten_toDigits]
    refine ⟨Nat.toDigits 10 (Text.byteLength s.name.toList), Nat.toDigits_ne_nil,
      fun c => Nat.isDigit_of_mem_toDigits (by decide) (by decide), ?_, hLength, ?_, hPlain⟩
    · rw [symbol, String.toList_ofList, symbolChars]
    · rw [hLength]
      exact hMax

/-! ## Descriptions -/

theorem describe_of_ofSymbol? {text : String} {s : Signature} (h : ofSymbol? text = some s) :
    describe text = s.declaration := by
  rw [describe, h]

theorem describe_eq_self {text : String} (h : ∀ s, ¬Spells text s) : describe text = text := by
  cases hRead : ofSymbol? text with
  | none => rw [describe, hRead]
  | some s => exact absurd (spells_of_ofSymbol? hRead) (h s)

/-- Linker symbols are different where they have to be, and are read back. Two signatures have the
same symbol only if they are the same, as far as both have few enough parameters or names that do
not begin with a digit. The symbol of a signature is read back as that signature if and only if its
name does not begin with a digit, and is then described as its declaration. The texts that are read
are those that spell a signature, every other text describes itself, and no text is cut past its end
or inside a character: not where the digits end, and not behind a name of any length. -/
theorem symbols_are_readable (s t : Signature) (text : String) :
    (s.symbol = t.symbol → s.arity ≤ maxArity ∧ t.arity ≤ maxArity ∨ Plain s.name ∧ Plain t.name →
      s = t) ∧
    (ofSymbol? s.symbol = some s ↔ Plain s.name ∧ Text.byteLength s.name.toList ≤ maxLength) ∧
    (ofSymbol? s.symbol = some s → describe s.symbol =
      "double " ++ s.name ++ "(" ++ String.intercalate ", " (List.replicate s.arity "double") ++
        ")") ∧
    (ofSymbol? text = some s ↔ Spells text s) ∧
    ((∀ other, ¬Spells text other) → describe text = text) ∧
    ∀ rest, text.toList = '_' :: 'Z' :: rest →
      let digits := ((Text.bytes rest).takeWhile Text.isDigitByte).length
      Text.takeBytes digits rest = some (rest.takeWhile Char.isDigit) ∧
      Text.dropBytes digits rest = some (rest.dropWhile Char.isDigit) ∧
      ∀ length name, Text.takeBytes length (rest.dropWhile Char.isDigit) = some name →
        ∃ params, Text.dropBytes length (rest.dropWhile Char.isDigit) = some params ∧
          rest.dropWhile Char.isDigit = name ++ params := by
  refine ⟨?_, ?_, describe_of_ofSymbol?, ofSymbol?_eq_some_iff, describe_eq_self, ?_⟩
  · rintro h (⟨hS, hT⟩ | ⟨hS, hT⟩)
    · exact (symbol_inj hS hT).mp h
    · exact eq_of_symbol_eq_of_plain h hS hT
  · rw [ofSymbol?_eq_some_iff, spells_symbol_iff]
  · intro rest _ digits
    have hDigits : digits = Text.byteLength (rest.takeWhile Char.isDigit) :=
      Text.length_takeWhile_isDigitByte rest
    have hTake := Text.takeBytes_append (rest.takeWhile Char.isDigit) (rest.dropWhile Char.isDigit)
    have hDrop := Text.dropBytes_append (rest.takeWhile Char.isDigit) (rest.dropWhile Char.isDigit)
    rw [List.takeWhile_append_dropWhile, ← hDigits] at hTake hDrop
    exact ⟨hTake, hDrop, fun length name => Text.exists_dropBytes⟩

/-- A length may have a leading zero. One that ends inside a character makes no symbol. -/
theorem symbols_are_readable_leadingZero :
    ofSymbol? "_Z03powdd" = some ⟨"pow", 2⟩ ∧
      describe (⟨"pow", 2⟩ : Signature).symbol = "double pow(double, double)" ∧
      describe "_Z1é" = "_Z1é" := by
  obtain ⟨-, hOwn, hDescribe, hRead, -⟩ := symbols_are_readable ⟨"pow", 2⟩ ⟨"pow", 2⟩ "_Z03powdd"
  obtain ⟨-, -, -, -, hOther, -⟩ := symbols_are_readable ⟨"", 0⟩ ⟨"", 0⟩ "_Z1é"
  have hPlain : Plain "pow" := by
    rintro c ⟨⟩
    decide
  refine ⟨hRead.mpr ⟨['0', '3'], by decide, by simp, by decide, by decide, by decide, hPlain⟩,
    ?_, hOther fun s hSpells => ?_⟩
  · rw [hDescribe (hOwn.mpr ⟨hPlain, by decide⟩)]
    decide +kernel
  · have hNone : ofSymbol? "_Z1é" = none := by decide +kernel
    rw [ofSymbol?_of_spells hSpells] at hNone
    cases hNone

end Signature

end Formula
