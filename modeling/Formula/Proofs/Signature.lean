import Formula.CompileError
import Formula.Signature
import Formula.Token
import Mathlib

/-!
# Linker symbols are unambiguous

A linker symbol writes the length of the name in front of the name, and one letter for each
parameter behind it. Since names may begin with a digit and the letter may belong to the name, two
signatures can have the same symbol. A longer number in front means a name at least ten times as
long, and the missing length has to be made up by ten parameters or more (`arity_of_longer`). So
the symbols are different if both signatures have few enough parameters to be registered
(`symbol_inj`), if neither name begins with a digit (`eq_of_symbol_eq_of_plain`), and also if only
one has so few and the name of the other does not begin with a digit (`eq_of_symbol_eq`).
-/

namespace Formula

namespace Text

theorem byteLength_cons (c : Char) (text : List Char) :
    byteLength (c :: text) = c.utf8Size + byteLength text := rfl

theorem byteLength_append (text more : List Char) :
    byteLength (text ++ more) = byteLength text + byteLength more := by
  induction text with
  | nil => simp [byteLength]
  | cons c text ih => rw [List.cons_append, byteLength_cons, byteLength_cons, ih, Nat.add_assoc]

theorem eq_nil_of_byteLength {text : List Char} (h : byteLength text = 0) : text = [] := by
  cases text with
  | nil => rfl
  | cons c text =>
    have hPos := c.utf8Size_pos
    rw [byteLength_cons] at h
    omega

/-- Two beginnings of a text that have the same length are the same. -/
theorem append_inj {text text' more more' : List Char} (h : text ++ more = text' ++ more')
    (hLength : byteLength text = byteLength text') : text = text' ∧ more = more' := by
  rcases List.append_eq_append_iff.mp h with ⟨middle, rfl, rfl⟩ | ⟨middle, rfl, rfl⟩
  · rw [byteLength_append] at hLength
    have hMiddle : middle = [] := eq_nil_of_byteLength (by omega)
    simp [hMiddle]
  · rw [byteLength_append] at hLength
    have hMiddle : middle = [] := eq_nil_of_byteLength (by omega)
    simp [hMiddle]

theorem byteLength_of_ascii {text : List Char} (h : ∀ c ∈ text, c.utf8Size = 1) :
    byteLength text = text.length := by
  induction text with
  | nil => rfl
  | cons c text ih =>
    rw [byteLength_cons, h c (List.mem_cons_self ..), List.length_cons,
      ih fun d hd => h d (List.mem_cons_of_mem _ hd)]
    omega

end Text

namespace Decimal

/-! ## Decimal digits -/

theorem ofDigitChars_lt {digits : List Char} (h : ∀ c ∈ digits, c.isDigit) :
    Nat.ofDigitChars 10 digits 0 < 10 ^ digits.length := by
  induction digits with
  | nil => simp
  | cons c digits ih =>
    have hDigit := h c (List.mem_cons_self ..)
    have hRest := ih fun d hd => h d (List.mem_cons_of_mem _ hd)
    have hVal : c.toNat ≤ 57 := by
      simp only [Char.isDigit, Bool.and_eq_true, decide_eq_true_eq] at hDigit
      exact hDigit.2
    have hFirst : c.toNat - '0'.toNat ≤ 9 := by
      have hZero : '0'.toNat = 48 := rfl
      omega
    have hMul := Nat.mul_le_mul_left (10 ^ digits.length) hFirst
    rw [Nat.ofDigitChars_cons, Nat.mul_zero, Nat.zero_add,
      Nat.ofDigitChars_eq_ofDigitChars_zero, List.length_cons, Nat.pow_succ]
    omega

theorem toDigits_inj {m n : Nat} (h : Nat.toDigits 10 m = Nat.toDigits 10 n) : m = n := by
  rw [← Nat.ofDigitChars_ten_toDigits (n := m), h, Nat.ofDigitChars_ten_toDigits]

/-- A number whose digits continue those of another is at least ten times as large. -/
theorem mul_le_of_toDigits {m n : Nat} {more : List Char} (hMore : more ≠ [])
    (h : Nat.toDigits 10 m = Nat.toDigits 10 n ++ more) : 0 < n ∧ 10 * n ≤ m := by
  have hDigits : ∀ c ∈ more, c.isDigit := fun c hc =>
    Nat.isDigit_of_mem_toDigits (by decide) (by decide) (h ▸ List.mem_append_right _ hc)
  have hLength : 0 < more.length := List.length_pos_iff.mpr hMore
  have hValue : m = 10 ^ more.length * n + Nat.ofDigitChars 10 more 0 := by
    rw [← Nat.ofDigitChars_eq_ofDigitChars_zero]
    conv_lhs => rw [← Nat.ofDigitChars_ten_toDigits (n := m)]
    rw [h, Nat.ofDigitChars_append, Nat.ofDigitChars_ten_toDigits]
  constructor
  · rw [Nat.pos_iff_ne_zero]
    rintro rfl
    -- the digits of `m` would begin with a zero and be too many
    have hShort := (Nat.length_toDigits_le_iff (by decide) hLength).mpr
      (show m < 10 ^ more.length by rw [hValue]; simpa using ofDigitChars_lt hDigits)
    rw [h, List.length_append, Nat.toDigits_zero, List.length_singleton] at hShort
    omega
  · have hPow : 10 ≤ 10 ^ more.length := Nat.le_self_pow (by omega) 10
    have hMul := Nat.mul_le_mul_right n hPow
    omega

end Decimal

namespace Signature

/-! ## Symbols -/

/-- Whether a name does not begin with a digit. -/
def Plain (name : String) : Prop :=
  ∀ c ∈ name.toList.head?, c.isDigit = false

theorem plain_of_isWordStart {name : String} {c : Char} {rest : List Char}
    (hName : name.toList = c :: rest) (h : Token.isWordStart c) : Plain name := by
  intro d hd
  rw [hName] at hd
  obtain rfl := Option.some.inj hd
  simp only [Token.isWordStart, Char.isAlpha, Char.isUpper, Char.isLower, Char.isDigit,
    Bool.or_eq_true, Bool.and_eq_true, decide_eq_true_eq, Bool.and_eq_false_iff,
    decide_eq_false_iff_not, UInt32.le_iff_toNat_le, ge_iff_le] at h ⊢
  rcases h with (⟨h, -⟩ | ⟨h, -⟩) | rfl
  · exact .inr fun hSmall => absurd (Nat.le_trans h hSmall) (by decide)
  · exact .inr fun hSmall => absurd (Nat.le_trans h hSmall) (by decide)
  · decide

/-- The length in front of a name that does not begin with a digit cannot go on. -/
theorem eq_nil_of_digits {digits name rest : List Char} (hDigits : ∀ c ∈ digits, c.isDigit)
    (hName : ∀ c ∈ name.head?, c.isDigit = false) (arity : Nat)
    (h : name ++ List.replicate arity 'd' = digits ++ rest) : digits = [] := by
  cases digits with
  | nil => rfl
  | cons c digits =>
    have hDigit := hDigits c (List.mem_cons_self ..)
    cases name with
    | nil =>
      cases arity with
      | zero => cases h
      | succ arity =>
        obtain ⟨rfl, -⟩ := List.cons.inj h
        cases hDigit
    | cons d name =>
      obtain ⟨rfl, -⟩ := List.cons.inj h
      rw [hName d rfl] at hDigit
      cases hDigit

theorem byteLength_params (arity : Nat) : Text.byteLength (List.replicate arity 'd') = arity := by
  rw [Text.byteLength_of_ascii, List.length_replicate]
  intro c hc
  rw [List.eq_of_mem_replicate hc]
  rfl

/-- Symbols with the same length in front are those of the same signature. -/
theorem eq_of_symbol_eq_of_length {s t : Signature} (h : s.symbol = t.symbol)
    (hSame : Text.byteLength s.name.toList = Text.byteLength t.name.toList) : s = t := by
  obtain ⟨name, arity⟩ := s
  obtain ⟨name', arity'⟩ := t
  have hChars := congrArg String.toList h
  simp only [symbol, symbolChars, String.toList_ofList, List.cons.injEq, true_and] at hChars
  rw [hSame] at hChars
  obtain ⟨hName, hParameters⟩ := Text.append_inj (List.append_cancel_left hChars) hSame
  have hCount := congrArg List.length hParameters
  rw [List.length_replicate, List.length_replicate] at hCount
  rw [String.ext_iff.mpr hName, hCount]

/-- If the length in one symbol goes on where that in the other ends, then the other signature has
many more parameters. -/
theorem arity_of_longer {s t : Signature} {more : List Char} (hMore : more ≠ [])
    (hLength : Nat.toDigits 10 (Text.byteLength s.name.toList) =
      Nat.toDigits 10 (Text.byteLength t.name.toList) ++ more)
    (hRest : t.name.toList ++ List.replicate t.arity 'd' =
      more ++ (s.name.toList ++ List.replicate s.arity 'd')) : s.arity + 10 ≤ t.arity := by
  obtain ⟨hPos, hLong⟩ := Decimal.mul_le_of_toDigits hMore hLength
  have hSome : Text.byteLength more ≠ 0 := mt Text.eq_nil_of_byteLength hMore
  have hTotal := congrArg Text.byteLength hRest
  simp only [Text.byteLength_append, byteLength_params] at hTotal
  omega

/-- One of two equal symbols has the length of the other in front, and perhaps more digits. -/
theorem append_of_symbol_eq {s t : Signature} (h : s.symbol = t.symbol) :
    (∃ more, Nat.toDigits 10 (Text.byteLength t.name.toList) =
        Nat.toDigits 10 (Text.byteLength s.name.toList) ++ more ∧
      s.name.toList ++ List.replicate s.arity 'd' =
        more ++ (t.name.toList ++ List.replicate t.arity 'd')) ∨
    ∃ more, Nat.toDigits 10 (Text.byteLength s.name.toList) =
        Nat.toDigits 10 (Text.byteLength t.name.toList) ++ more ∧
      t.name.toList ++ List.replicate t.arity 'd' =
        more ++ (s.name.toList ++ List.replicate s.arity 'd') := by
  have hChars := congrArg String.toList h
  simp only [symbol, symbolChars, String.toList_ofList, List.cons.injEq, true_and] at hChars
  exact List.append_eq_append_iff.mp hChars

/-- Signatures whose numbers of parameters are less than ten apart have different symbols. -/
theorem eq_of_symbol_eq_of_near {s t : Signature} (h : s.symbol = t.symbol)
    (hLess : s.arity < t.arity + 10) (hMore : t.arity < s.arity + 10) : s = t := by
  refine eq_of_symbol_eq_of_length h ?_
  rcases append_of_symbol_eq h with ⟨more, hLength, hRest⟩ | ⟨more, hLength, hRest⟩
  · by_cases hNil : more = []
    · rw [hNil, List.append_nil] at hLength
      exact (Decimal.toDigits_inj hLength).symm
    · exact absurd (arity_of_longer hNil hLength hRest) (Nat.not_le.mpr hLess)
  · by_cases hNil : more = []
    · rw [hNil, List.append_nil] at hLength
      exact Decimal.toDigits_inj hLength
    · exact absurd (arity_of_longer hNil hLength hRest) (Nat.not_le.mpr hMore)

/-- The length in one symbol cannot go on where a name that does not begin with a digit begins. -/
theorem length_eq_of_plain {s t : Signature} {more : List Char} (hPlain : Plain t.name)
    (hLength : Nat.toDigits 10 (Text.byteLength s.name.toList) =
      Nat.toDigits 10 (Text.byteLength t.name.toList) ++ more)
    (hRest : t.name.toList ++ List.replicate t.arity 'd' =
      more ++ (s.name.toList ++ List.replicate s.arity 'd')) :
    Text.byteLength s.name.toList = Text.byteLength t.name.toList := by
  have hDigits : ∀ c ∈ more, c.isDigit := fun c hc =>
    Nat.isDigit_of_mem_toDigits (by decide) (by decide) (hLength ▸ List.mem_append_right _ hc)
  rw [eq_nil_of_digits hDigits hPlain _ hRest, List.append_nil] at hLength
  exact Decimal.toDigits_inj hLength

/-- A call's signature has the symbol of a registered one only if it is the same. -/
theorem eq_of_symbol_eq {s t : Signature} (h : s.symbol = t.symbol) (hArity : s.arity ≤ maxArity)
    (hPlain : Plain t.name) : s = t := by
  have hMax : s.arity ≤ 8 := hArity
  refine eq_of_symbol_eq_of_length h ?_
  rcases append_of_symbol_eq h with ⟨more, hLength, hRest⟩ | ⟨more, hLength, hRest⟩
  · by_cases hNil : more = []
    · rw [hNil, List.append_nil] at hLength
      exact (Decimal.toDigits_inj hLength).symm
    · have hMany := arity_of_longer hNil hLength hRest
      omega
  · exact length_eq_of_plain hPlain hLength hRest

/-- Functions whose names do not begin with a digit have different symbols. -/
theorem eq_of_symbol_eq_of_plain {s t : Signature} (h : s.symbol = t.symbol) (hS : Plain s.name)
    (hT : Plain t.name) : s = t := by
  refine eq_of_symbol_eq_of_length h ?_
  rcases append_of_symbol_eq h with ⟨more, hLength, hRest⟩ | ⟨more, hLength, hRest⟩
  · exact (length_eq_of_plain hS hLength hRest).symm
  · exact length_eq_of_plain hT hLength hRest

/-- Functions that can be registered have different symbols. -/
theorem symbol_inj {s t : Signature} (hS : s.arity ≤ maxArity) (hT : t.arity ≤ maxArity) :
    s.symbol = t.symbol ↔ s = t := by
  have hMax : maxArity = 8 := rfl
  exact ⟨fun h => eq_of_symbol_eq_of_near h (by omega) (by omega), congrArg _⟩

/-- With more parameters, a digit that a name begins with may be taken for a part of the length. -/
example : (⟨"0", 10⟩ : Signature).symbol = (⟨"dddddddddd", 0⟩ : Signature).symbol := by
  decide +kernel

end Signature

end Formula
