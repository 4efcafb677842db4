import Formula.Number.Reading
import Formula.Token.Lexer
import Mathlib.Data.List.TakeWhile
import Mathlib.Tactic.SplitIfs

/-!
# Tokens of a text

A property of every token that can stand first holds of all tokens of a text (`forall_scanAll`).
The number tokens are numerals: digits, and if a point follows them also the point and any digits
after it (`isNumeral_of_mem_scanAll`), also when the text ends in an unknown character. A numeral
can be read as a double (`IsNumeral.exists_readFloat`).
-/

namespace Formula

/-- Digits, and if a point follows them also the point and the digits after it. -/
def IsNumeral (text : List Char) : Prop :=
  ∃ whole tail, text = whole ++ tail ∧ whole ≠ [] ∧ (∀ c ∈ whole, c.isDigit = true) ∧
    (tail = [] ∨ ∃ fraction, tail = '.' :: fraction ∧ ∀ c ∈ fraction, c.isDigit = true)

/-! ## Numerals -/

section Numerals

variable {whole tail text : List Char}

theorem takeWhile_whole (hWhole : ∀ c ∈ whole, c.isDigit = true)
    (hTail : tail = [] ∨ ∃ fraction, tail = '.' :: fraction) :
    (whole ++ tail).takeWhile Char.isDigit = whole := by
  rw [List.takeWhile_append_of_pos hWhole]
  rcases hTail with rfl | ⟨fraction, rfl⟩ <;> exact List.append_nil whole

theorem dropWhile_whole (hWhole : ∀ c ∈ whole, c.isDigit = true)
    (hTail : tail = [] ∨ ∃ fraction, tail = '.' :: fraction) :
    (whole ++ tail).dropWhile Char.isDigit = tail := by
  rw [List.dropWhile_append_of_pos hWhole]
  rcases hTail with rfl | ⟨fraction, rfl⟩ <;> rfl

theorem toLower_of_isDigit {c : Char} (h : c.isDigit = true) : c.toLower = c := by
  unfold Char.toLower
  simp only [Char.isDigit, Bool.and_eq_true, decide_eq_true_eq] at h
  grind

/-- A text that begins with a digit is no word for a number. -/
theorem map_toLower_ne {first : Char} {rest word : List Char} (hFirst : first.isDigit = true)
    (hWord : ∀ c ∈ word.head?, c.isDigit = false) : (first :: rest).map Char.toLower ≠ word := by
  rintro rfl
  have hFalse := hWord first.toLower rfl
  rw [toLower_of_isDigit hFirst, hFirst] at hFalse
  cases hFalse

theorem splitSign_of_isDigit {first : Char} {rest : List Char} (hFirst : first.isDigit = true) :
    splitSign (first :: rest) = (none, first :: rest) := by
  unfold splitSign
  split
  · rename_i hPlus
    cases hPlus
    cases hFirst
  · rename_i hMinus
    cases hMinus
    cases hFirst
  · rfl

/-- A tail is read as a fraction, and nothing is left for an exponent. -/
theorem splitFraction_eq
    (hTail : tail = [] ∨ ∃ fraction, tail = '.' :: fraction ∧ ∀ c ∈ fraction, c.isDigit = true) :
    splitFraction tail = (tail.drop 1, []) := by
  rcases hTail with rfl | ⟨fraction, rfl, hDigits⟩
  · rfl
  · exact Prod.ext (List.takeWhile_eq_self_iff.mpr hDigits) (List.dropWhile_eq_nil_iff.mpr hDigits)

namespace IsNumeral

theorem exists_cons (h : IsNumeral text) :
    ∃ first rest, text = first :: rest ∧ first.isDigit = true := by
  obtain ⟨whole, tail, rfl, hWhole, hDigits, -⟩ := h
  obtain ⟨first, rest, rfl⟩ := List.exists_cons_of_ne_nil hWhole
  exact ⟨first, rest ++ tail, rfl, hDigits first (List.mem_cons_self ..)⟩

theorem exists_readMagnitude? (h : IsNumeral text) : ∃ value, readMagnitude? text = some value := by
  obtain ⟨first, rest, hText, hFirst⟩ := h.exists_cons
  have hWord (word : List Char) (hWord : ∀ c ∈ word.head?, c.isDigit = false) :
      text.map Char.toLower ≠ word := by
    rw [hText]
    exact map_toLower_ne hFirst hWord
  have hInf := hWord "inf".toList (by simp)
  have hInfinity := hWord "infinity".toList (by simp)
  have hNan := hWord "nan".toList (by simp)
  obtain ⟨whole, tail, rfl, hWhole, hDigits, hTail⟩ := h
  have hPoint : tail = [] ∨ ∃ fraction, tail = '.' :: fraction :=
    hTail.imp_right fun ⟨fraction, hEq, _⟩ => ⟨fraction, hEq⟩
  have hTake := takeWhile_whole hDigits hPoint
  have hDrop := dropWhile_whole hDigits hPoint
  refine ⟨(Decimal.ofParts whole (tail.drop 1) 0).toFloat, ?_⟩
  simp only [readMagnitude?, hInf, hInfinity, hNan, hTake, hDrop, splitFraction_eq hTail, hWhole,
    readPower?, or_self, false_and, if_false, Option.map_some]

/-- A numeral is a number. -/
theorem exists_readFloat (h : IsNumeral text) : ∃ value, readFloat text = .ok value := by
  obtain ⟨value, hMagnitude⟩ := h.exists_readMagnitude?
  obtain ⟨first, rest, rfl, hFirst⟩ := h.exists_cons
  refine ⟨value, ?_⟩
  simp only [readFloat, splitSign_of_isDigit hFirst, hMagnitude]
  rfl

end IsNumeral

end Numerals

/-! ## Tokens -/

namespace Token

/-- What holds of every first token holds of all tokens of a text. -/
theorem forall_scanAll {p : Token → Prop}
    (hScan : ∀ {offset text token rest}, scan offset text = .token token rest → p token)
    (offset : Nat) (text : List Char) : ∀ token ∈ (scanAll offset text).1, p token := by
  induction hLength : text.length using Nat.strongRecOn generalizing offset text with
  | ind n ih =>
    intro token hToken
    rw [scanAll_eq] at hToken
    split at hToken
    · rename_i first rest hFirst
      rcases List.mem_cons.mp hToken with rfl | hLater
      · exact hScan hFirst
      · exact ih _ (hLength ▸ length_lt_of_scan hFirst) _ rest rfl token hLater
    · cases hToken
    · cases hToken

/-- An operator is neither a number nor a word. -/
theorem operator?_ne {c : Char} {kind : TokenKind}
    (h : TokenKind.operator? c = some kind) :
    kind ≠ .identifier ∧ kind ≠ .float ∧ kind ≠ .int := by
  unfold TokenKind.operator? at h
  split at h <;> cases h <;> decide

/-- Whether the token is a numeral if it is a number. -/
def Numeral (token : Token) : Prop :=
  token.kind = .float ∨ token.kind = .int → IsNumeral token.text.toList

theorem numeral_of_scanNumber {start : Nat} {c : Char} {text rest : List Char} {token : Token}
    (hDigit : c.isDigit = true) (h : scanNumber start (c :: text) = .token token rest) :
    IsNumeral token.text.toList := by
  have hWhole : (c :: text).takeWhile Char.isDigit ≠ [] := by
    rw [List.takeWhile_cons_of_pos hDigit]
    exact List.cons_ne_nil _ _
  have hDigits : ∀ d ∈ (c :: text).takeWhile Char.isDigit, d.isDigit = true :=
    fun d hd => List.mem_takeWhile_imp hd
  unfold scanNumber at h
  dsimp only at h
  split at h
  · rename_i tail hTail
    cases h
    exact ⟨_, _, String.toList_ofList .., hWhole, hDigits,
      .inr ⟨_, rfl, fun d hd => List.mem_takeWhile_imp hd⟩⟩
  · cases h
    exact ⟨_, [], by rw [String.toList_ofList, List.append_nil], hWhole, hDigits, .inl rfl⟩

theorem numeral_of_scan {offset : Nat} {text rest : List Char} {token : Token}
    (h : scan offset text = .token token rest) : token.Numeral := by
  unfold scan scanSolid at h
  split at h
  · cases h
  · split at h
    · rename_i kind hKind
      cases h
      obtain ⟨-, hFloat, hInt⟩ := operator?_ne hKind
      exact fun hNumber => absurd hNumber (not_or.mpr ⟨hFloat, hInt⟩)
    · split_ifs at h with hWord hDigit
      · cases h
        rintro (hKind | hKind) <;> cases hKind
      · exact fun _ => numeral_of_scanNumber hDigit h

theorem isNumeral_of_mem_scanAll {offset : Nat} {text : List Char} {token : Token}
    (hMem : token ∈ (scanAll offset text).1) (hKind : token.kind = .float ∨ token.kind = .int) :
    IsNumeral token.text.toList :=
  forall_scanAll (p := Numeral) numeral_of_scan offset text token hMem hKind

end Token

end Formula
