import Formula.Proofs.Text.Utf8
import Formula.Proofs.Tokens

/-!
# How a text splits into tokens

A text is blanks and lexemes up to its end, or up to a character that belongs to neither
(`splits_scanAll`), and no longer text that starts where a token does is a lexeme (`Longest`). So,
by induction on how the text splits, the tokens cover exactly the bytes that are not blank, and the
error is at the first byte that no token can have (`ofSource?_splits`).
-/

namespace Formula

namespace Token

/-! ## Lexemes -/

/-- What tokens of a kind look like. The end of the input looks like nothing. -/
def Lexeme : TokenKind → List Char → Prop
  | .identifier, text => ∃ c rest, text = c :: rest ∧ isWordStart c = true ∧
    ∀ d ∈ rest, isWord d = true
  | .int, text => text ≠ [] ∧ ∀ c ∈ text, c.isDigit = true
  | .float, text => ∃ whole fraction, text = whole ++ '.' :: fraction ∧ whole ≠ [] ∧
    (∀ c ∈ whole, c.isDigit = true) ∧ ∀ c ∈ fraction, c.isDigit = true
  | .endOfInput, _ => False
  | kind, text => text = [kind.tag]

/-- No lexeme of any kind goes on with what follows. -/
def Longest (lexeme rest : List Char) : Prop :=
  ∀ d more later, rest = d :: (more ++ later) → ∀ kind, ¬Lexeme kind (lexeme ++ d :: more)

/-- Space, tab, line feed, form feed and carriage return. -/
def isBlankByte (byte : UInt8) : Bool :=
  byte = 0x20 || byte = 0x09 || byte = 0x0a || byte = 0x0c || byte = 0x0d

/-- A blank, an operator, an ASCII letter, an ASCII digit or an underscore. -/
def isLexicalByte (byte : UInt8) : Bool :=
  isBlankByte byte || "=+-*/()%^.,;".toList.any (fun c => byte.toNat = c.toNat) ||
    ('A'.toNat ≤ byte.toNat && byte.toNat ≤ 'Z'.toNat) ||
    ('a'.toNat ≤ byte.toNat && byte.toNat ≤ 'z'.toNat) ||
    ('0'.toNat ≤ byte.toNat && byte.toNat ≤ '9'.toNat) || byte.toNat = '_'.toNat

/-- The same of a character. -/
def isLexical (c : Char) : Bool :=
  isBlank c || (TokenKind.operator? c).isSome || isWord c

/-! ## Characters -/

section Characters

variable {c : Char} {kind : TokenKind}

theorem toNat_lt_of_isWord (h : isWord c = true) : c.toNat < 128 := by
  simp only [isWord, Char.isAlphanum, Char.isAlpha, Char.isUpper, Char.isLower, Char.isDigit,
    Bool.or_eq_true, Bool.and_eq_true, decide_eq_true_eq, UInt32.le_iff_toNat_le, ge_iff_le] at h
  have hVal : c.toNat = c.val.toNat := rfl
  rw [hVal]
  rcases h with ((⟨-, h⟩ | ⟨-, h⟩) | ⟨-, h⟩) | rfl
  · exact Nat.lt_of_le_of_lt h (by decide)
  · exact Nat.lt_of_le_of_lt h (by decide)
  · exact Nat.lt_of_le_of_lt h (by decide)
  · decide

theorem toNat_lt_of_isBlank (h : isBlank c = true) : c.toNat < 128 := by
  simp only [isBlank, Bool.or_eq_true, decide_eq_true_eq] at h
  rcases h with (((rfl | rfl) | rfl) | rfl) | rfl <;> decide

theorem toNat_lt_of_operator? (h : TokenKind.operator? c = some kind) : c.toNat < 128 := by
  unfold TokenKind.operator? at h
  split at h
  all_goals first | decide | cases h

theorem toNat_lt_of_isLexical (h : isLexical c = true) : c.toNat < 128 := by
  simp only [isLexical, Bool.or_eq_true] at h
  rcases h with (hBlank | hOperator) | hWord
  · exact toNat_lt_of_isBlank hBlank
  · obtain ⟨kind, hKind⟩ := Option.isSome_iff_exists.mp hOperator
    exact toNat_lt_of_operator? hKind
  · exact toNat_lt_of_isWord hWord

/-- What holds of each ASCII character by its number holds of a lexical character. -/
theorem of_forall_ascii {P : Char → Prop} (hAscii : ∀ n < 128, P (Char.ofNat n))
    (h : isLexical c = true) : P c := by
  have hChar := hAscii c.toNat (toNat_lt_of_isLexical h)
  rwa [Char.ofNat_toNat] at hChar

theorem isLexical_of_isBlank (h : isBlank c = true) : isLexical c = true := by
  rw [isLexical, h]
  rfl

theorem isLexical_of_solid (h : (TokenKind.operator? c).isSome = true ∨ isWord c = true) :
    isLexical c = true := by
  rw [isLexical]
  rcases h with h | h <;> simp [h]

theorem isWord_of_isWordStart (h : isWordStart c = true) : isWord c = true := by
  simp only [isWordStart, isWord, Char.isAlphanum, Bool.or_eq_true] at h ⊢
  exact h.imp_left .inl

theorem isWord_of_isDigit (h : c.isDigit = true) : isWord c = true := by
  simp only [isWord, Char.isAlphanum, h, Bool.or_true, Bool.true_or]

/-- A number does not begin like a word. -/
theorem isDigit_of_isWordStart (h : isWordStart c = true) : c.isDigit = false := by
  have hAscii : ∀ n < 128, isWordStart (Char.ofNat n) = true →
      (Char.ofNat n).isDigit = false := by decide
  exact of_forall_ascii (P := fun c => isWordStart c = true → c.isDigit = false) hAscii
    (isLexical_of_solid (.inr (isWord_of_isWordStart h))) h

/-- An operator is no part of a word or number. -/
theorem isWord_of_operator? (h : TokenKind.operator? c = some kind) : isWord c = false := by
  have hAscii : ∀ n < 128, (TokenKind.operator? (Char.ofNat n)).isSome = true →
      isWord (Char.ofNat n) = false := by decide
  have hSome := Option.isSome_iff_exists.mpr ⟨kind, h⟩
  exact of_forall_ascii (P := fun c => (TokenKind.operator? c).isSome = true → isWord c = false)
    hAscii (isLexical_of_solid (.inl hSome)) hSome

theorem isBlank_eq_false (h : (TokenKind.operator? c).isSome = true ∨ isWord c = true) :
    isBlank c = false := by
  have hAscii : ∀ n < 128, ((TokenKind.operator? (Char.ofNat n)).isSome = true ∨
      isWord (Char.ofNat n) = true) → isBlank (Char.ofNat n) = false := by decide
  exact of_forall_ascii (P := fun c => ((TokenKind.operator? c).isSome = true ∨
    isWord c = true) → isBlank c = false) hAscii (isLexical_of_solid h) h

theorem isBlankByte_iff (h : c.toNat < 128) :
    isBlankByte (UInt8.ofNat c.toNat) = true ↔ isBlank c = true := by
  have hAscii : ∀ n < 128, isBlankByte (UInt8.ofNat n) = isBlank (Char.ofNat n) := by decide
  rw [hAscii c.toNat h, Char.ofNat_toNat]

theorem isLexicalByte_iff (h : c.toNat < 128) :
    isLexicalByte (UInt8.ofNat c.toNat) = true ↔ isLexical c = true := by
  have hAscii : ∀ n < 128, isLexicalByte (UInt8.ofNat n) = isLexical (Char.ofNat n) := by decide
  rw [hAscii c.toNat h, Char.ofNat_toNat]

theorem isLexicalByte_of_le {byte : UInt8} (h : 128 ≤ byte.toNat) :
    isLexicalByte byte ≠ true := by
  have hLarge : ∀ n < 128, isLexicalByte (UInt8.ofNat (128 + n)) = false := by decide
  have hByte := hLarge (byte.toNat - 128) (by have := byte.toNat_lt; omega)
  rw [Nat.add_sub_cancel' h, UInt8.ofNat_toNat] at hByte
  rw [hByte]
  decide

theorem forall_isLexicalByte_iff (text : List Char) :
    (∀ byte ∈ Text.bytes text, isLexicalByte byte = true) ↔ ∀ c ∈ text, isLexical c = true :=
  Text.forall_bytes_iff (fun _ h => isLexicalByte_iff h) (fun _ => isLexicalByte_of_le)
    fun _ hLarge h => absurd (toNat_lt_of_isLexical h) (Nat.not_lt.mpr hLarge)

/-- The first byte of a character that is not lexical is not either. -/
theorem exists_byte_of_isLexical_eq_false (h : isLexical c = false) :
    ∃ byte more, String.utf8EncodeChar c = byte :: more ∧ isLexicalByte byte = false := by
  by_cases hSmall : c.toNat < 128
  · refine ⟨_, [], Text.utf8EncodeChar_of_ascii hSmall, ?_⟩
    rw [← Bool.not_eq_true, isLexicalByte_iff hSmall, h]
    decide
  · obtain ⟨byte, more, hBytes, hLarge⟩ :=
      Text.exists_utf8EncodeChar (Nat.le_of_not_lt hSmall)
    exact ⟨byte, more, hBytes, Bool.not_eq_true _ ▸ isLexicalByte_of_le hLarge⟩

end Characters

/-! ## The longest lexeme -/

section Longest

variable {kind : TokenKind} {first c : Char} {text rest : List Char}

theorem lexeme_operator (h : TokenKind.operator? c = some kind) : Lexeme kind [c] := by
  unfold TokenKind.operator? at h
  split at h <;> cases h <;> rfl

/-- A lexeme of two characters or more is a word or a number. -/
theorem Lexeme.cases_cons (h : Lexeme kind (first :: text)) (hText : text ≠ []) :
    (isWordStart first = true ∧ ∀ d ∈ text, isWord d = true) ∨
      (first.isDigit = true ∧ ((∀ d ∈ text, d.isDigit = true) ∨
        ∃ whole fraction, text = whole ++ '.' :: fraction ∧
          (∀ d ∈ whole, d.isDigit = true) ∧ ∀ d ∈ fraction, d.isDigit = true)) := by
  cases kind with
  | identifier =>
    obtain ⟨c, rest, hSame, hFirst, hRest⟩ := h
    cases hSame
    exact .inl ⟨hFirst, hRest⟩
  | int =>
    obtain ⟨hFirst, hRest⟩ := List.forall_mem_cons.mp h.2
    exact .inr ⟨hFirst, .inl hRest⟩
  | float =>
    obtain ⟨whole, fraction, hSame, hWhole, hDigits, hFraction⟩ := h
    cases whole with
    | nil => exact absurd rfl hWhole
    | cons c whole =>
      rw [List.cons_append] at hSame
      obtain ⟨rfl, rfl⟩ := List.cons.inj hSame
      obtain ⟨hFirst, hDigits⟩ := List.forall_mem_cons.mp hDigits
      exact .inr ⟨hFirst, .inr ⟨whole, fraction, rfl, hDigits, hFraction⟩⟩
  | endOfInput => exact h.elim
  | _ => exact absurd (List.cons.inj h).2 hText

theorem longest_operator (h : TokenKind.operator? c = some kind) : Longest [c] rest := by
  intro d more later _ other hLexeme
  have hWord := isWord_of_operator? h
  rcases hLexeme.cases_cons (List.cons_ne_nil d more) with ⟨hStart, -⟩ | ⟨hDigit, -⟩
  · rw [isWord_of_isWordStart hStart] at hWord
    cases hWord
  · rw [isWord_of_isDigit hDigit] at hWord
    cases hWord

/-- What follows the characters that satisfy a condition begins with one that does not. -/
theorem eq_false_of_dropWhile {p : Char → Bool} {d : Char}
    (h : text.dropWhile p = d :: rest) : p d = false := by
  have hHead := List.head?_dropWhile_not p text
  rw [h] at hHead
  exact hHead

theorem longest_identifier (hFirst : isWordStart first = true) :
    Longest (first :: text.takeWhile isWord) (text.dropWhile isWord) := by
  intro d more later hRest other hLexeme
  have hWord := eq_false_of_dropWhile hRest
  rw [List.cons_append] at hLexeme
  rcases hLexeme.cases_cons (by simp) with ⟨-, hAll⟩ | ⟨hDigit, -⟩
  · rw [hAll d (by simp)] at hWord
    cases hWord
  · rw [isDigit_of_isWordStart hFirst] at hDigit
    cases hDigit

/-- Digits and what follows them, if it begins with no digit. -/
theorem dropWhile_digits {whole : List Char} {d : Char} (hWhole : ∀ c ∈ whole, c.isDigit = true)
    (h : d.isDigit = false) : (whole ++ d :: rest).dropWhile Char.isDigit = d :: rest := by
  rw [List.dropWhile_append_of_pos hWhole, List.dropWhile_cons_of_neg (by rw [h]; decide)]

theorem longest_int (hFirst : first.isDigit = true) {whole : List Char}
    (hWhole : ∀ c ∈ whole, c.isDigit = true)
    (hRest : ∀ d later, rest = d :: later → d.isDigit = false ∧ d ≠ '.') :
    Longest (first :: whole) rest := by
  intro d more later hSplit other hLexeme
  obtain ⟨hDigit, hPoint⟩ := hRest d _ hSplit
  rw [List.cons_append] at hLexeme
  rcases hLexeme.cases_cons (by simp) with
    ⟨hStart, -⟩ | ⟨-, hAll | ⟨whole', fraction, hText, hWhole', -⟩⟩
  · rw [isDigit_of_isWordStart hStart] at hFirst
    cases hFirst
  · rw [hAll d (by simp)] at hDigit
    cases hDigit
  · -- the point of a float would have to be the first character behind the digits
    have hTail := congrArg (List.dropWhile Char.isDigit) hText
    rw [dropWhile_digits hWhole hDigit, dropWhile_digits hWhole' (by decide)] at hTail
    exact hPoint (List.cons.inj hTail).1

theorem longest_float (hFirst : first.isDigit = true) {whole fraction : List Char}
    (hWhole : ∀ c ∈ whole, c.isDigit = true)
    (hRest : ∀ d later, rest = d :: later → d.isDigit = false) :
    Longest (first :: whole ++ '.' :: fraction) rest := by
  intro d more later hSplit other hLexeme
  have hDigit := hRest d _ hSplit
  rw [List.cons_append, List.cons_append, List.append_assoc, List.cons_append] at hLexeme
  rcases hLexeme.cases_cons (by simp) with
    ⟨hStart, -⟩ | ⟨-, hAll | ⟨whole', fraction', hText, hWhole', hFraction⟩⟩
  · rw [isDigit_of_isWordStart hStart] at hFirst
    cases hFirst
  · have hPoint := hAll '.' (by simp)
    cases hPoint
  · -- the first point is where it was, so what follows belongs to the fraction
    have hTail := congrArg (List.dropWhile Char.isDigit) hText
    rw [dropWhile_digits hWhole (by decide), dropWhile_digits hWhole' (by decide)] at hTail
    rw [hFraction d ((List.cons.inj hTail).2 ▸ by simp)] at hDigit
    cases hDigit

end Longest

/-! ## One token -/

section Scan

variable {offset stop : Nat} {c : Char} {text rest : List Char} {token : Token}

/-- A number is the longest one at the front of a text that begins with a digit. -/
theorem scanNumber_cases {start : Nat} (hFirst : c.isDigit = true)
    (h : scanNumber start (c :: text) = .token token rest) :
    ∃ kind lexeme, c :: text = lexeme ++ rest ∧
      token = ⟨kind, ⟨start, start + lexeme.length⟩, String.ofList lexeme⟩ ∧
      Lexeme kind lexeme ∧ Longest lexeme rest := by
  have hWhole : ∀ d ∈ text.takeWhile Char.isDigit, d.isDigit = true :=
    fun d hMem => List.mem_takeWhile_imp hMem
  have hText := List.takeWhile_append_dropWhile (p := Char.isDigit) (l := text)
  simp only [scanNumber, List.takeWhile_cons_of_pos hFirst, List.dropWhile_cons_of_pos hFirst] at h
  split at h
  · rename_i tail hTail
    cases h
    refine ⟨.float, c :: text.takeWhile Char.isDigit ++ '.' :: tail.takeWhile Char.isDigit, ?_, rfl,
      ⟨_, _, rfl, List.cons_ne_nil _ _, List.forall_mem_cons.mpr ⟨hFirst, hWhole⟩,
        fun d hMem => List.mem_takeWhile_imp hMem⟩,
      longest_float hFirst hWhole fun d later hRest => eq_false_of_dropWhile hRest⟩
    conv_lhs =>
      rw [← hText, hTail, ← List.takeWhile_append_dropWhile (p := Char.isDigit) (l := tail)]
    simp
  · rename_i hPoint
    cases h
    refine ⟨.int, c :: text.takeWhile Char.isDigit, ?_, rfl,
      ⟨List.cons_ne_nil _ _, List.forall_mem_cons.mpr ⟨hFirst, hWhole⟩⟩,
      longest_int hFirst hWhole fun d later hRest => ⟨eq_false_of_dropWhile hRest, ?_⟩⟩
    · rw [List.cons_append, hText]
    · rintro rfl
      exact hPoint later hRest

/-- A token that is found stands behind blanks and is the longest there. -/
theorem scan_token (h : scan offset text = .token token rest) :
    ∃ blanks kind lexeme, text = blanks ++ (lexeme ++ rest) ∧ (∀ d ∈ blanks, isBlank d = true) ∧
      token = ⟨kind, ⟨offset + blanks.length, offset + blanks.length + lexeme.length⟩,
        String.ofList lexeme⟩ ∧ Lexeme kind lexeme ∧ Longest lexeme rest := by
  have hBlanks : ∀ d ∈ text.takeWhile isBlank, isBlank d = true :=
    fun d hMem => List.mem_takeWhile_imp hMem
  have hText := List.takeWhile_append_dropWhile (p := isBlank) (l := text)
  suffices hSolid : ∃ kind lexeme, text.dropWhile isBlank = lexeme ++ rest ∧
      token = ⟨kind, ⟨offset + (text.takeWhile isBlank).length,
        offset + (text.takeWhile isBlank).length + lexeme.length⟩, String.ofList lexeme⟩ ∧
      Lexeme kind lexeme ∧ Longest lexeme rest by
    obtain ⟨kind, lexeme, hRest, hToken⟩ := hSolid
    exact ⟨text.takeWhile isBlank, kind, lexeme, by rw [← hRest, hText], hBlanks, hToken⟩
  unfold scan scanSolid at h
  split at h
  · cases h
  · rename_i c tail hSolid
    rw [hSolid]
    split at h
    · rename_i kind hKind
      cases h
      exact ⟨kind, [c], rfl, rfl, lexeme_operator hKind, longest_operator hKind⟩
    · split_ifs at h with hStart hDigit
      · cases h
        refine ⟨.identifier, c :: tail.takeWhile isWord, ?_, rfl,
          ⟨c, _, rfl, hStart, fun d hMem => List.mem_takeWhile_imp hMem⟩, longest_identifier hStart⟩
        rw [List.cons_append, List.takeWhile_append_dropWhile]
      · exact scanNumber_cases hDigit h

theorem scan_finished (h : scan offset text = .finished stop) :
    (∀ d ∈ text, isBlank d = true) ∧ stop = offset + text.length := by
  unfold scan scanSolid at h
  split at h
  · rename_i hNil
    cases h
    have hBlanks := List.dropWhile_eq_nil_iff.mp hNil
    rw [List.takeWhile_eq_self_iff.mpr hBlanks]
    exact ⟨hBlanks, rfl⟩
  · split at h
    · cases h
    · unfold scanNumber at h
      split_ifs at h
      dsimp only at h
      split at h <;> cases h

theorem scan_unknown (h : scan offset text = .unknown stop c rest) :
    ∃ blanks, text = blanks ++ c :: rest ∧ (∀ d ∈ blanks, isBlank d = true) ∧
      isLexical c = false ∧ stop = offset + blanks.length := by
  have hBlanks : ∀ d ∈ text.takeWhile isBlank, isBlank d = true :=
    fun d hMem => List.mem_takeWhile_imp hMem
  have hText := List.takeWhile_append_dropWhile (p := isBlank) (l := text)
  unfold scan scanSolid at h
  split at h
  · cases h
  · rename_i first tail hSolid
    split at h
    · cases h
    · rename_i hOperator
      unfold scanNumber at h
      split_ifs at h with hStart hDigit
      · dsimp only at h
        split at h <;> cases h
      · cases h
        refine ⟨text.takeWhile isBlank, ?_, hBlanks, ?_, rfl⟩
        · rw [← hSolid, hText]
        · have hBlank := eq_false_of_dropWhile hSolid
          simp only [isWordStart, Bool.or_eq_true, not_or, Bool.not_eq_true] at hStart hDigit
          simp only [isLexical, isWord, Char.isAlphanum, hBlank, hOperator, hStart, hDigit,
            Option.isSome_none, Bool.or_false]

end Scan

/-! ## All tokens -/

/-- How a text at an offset splits into blanks and tokens, and how it ends. -/
inductive Splits : Nat → List Char → List Token → Ending → Prop where
  | finished {offset : Nat} {blanks : List Char} (hBlanks : ∀ d ∈ blanks, isBlank d = true) :
    Splits offset blanks [] (.finished (offset + blanks.length))
  | unknown {offset : Nat} {blanks rest : List Char} {c : Char}
    (hBlanks : ∀ d ∈ blanks, isBlank d = true) (hOther : isLexical c = false) :
    Splits offset (blanks ++ c :: rest) [] (.unknown (offset + blanks.length) c)
  | token {offset : Nat} {blanks lexeme rest : List Char} {kind : TokenKind} {tokens : List Token}
    {ending : Ending} (hBlanks : ∀ d ∈ blanks, isBlank d = true) (hLexeme : Lexeme kind lexeme)
    (hLongest : Longest lexeme rest)
    (hRest : Splits (offset + blanks.length + lexeme.length) rest tokens ending) :
    Splits offset (blanks ++ (lexeme ++ rest))
      (⟨kind, ⟨offset + blanks.length, offset + blanks.length + lexeme.length⟩,
        String.ofList lexeme⟩ :: tokens) ending

theorem splits_scanAll (offset : Nat) (text : List Char) :
    Splits offset text (scanAll offset text).1 (scanAll offset text).2 := by
  induction hLength : text.length using Nat.strongRecOn generalizing offset text with
  | ind n ih =>
    rw [scanAll_eq]
    split
    · rename_i token rest hScan
      have hShorter := length_lt_of_scan hScan
      obtain ⟨blanks, kind, lexeme, rfl, hBlanks, rfl, hLexeme, hLongest⟩ := scan_token hScan
      exact .token hBlanks hLexeme hLongest (ih _ (hLength ▸ hShorter) _ rest rfl)
    · rename_i stop hScan
      obtain ⟨hBlanks, rfl⟩ := scan_finished hScan
      exact .finished hBlanks
    · rename_i stop c rest hScan
      obtain ⟨blanks, rfl, hBlanks, hOther, rfl⟩ := scan_unknown hScan
      exact .unknown hBlanks hOther

/-! ## What follows from how a text splits -/

theorem Lexeme.ne_nil {kind : TokenKind} {text : List Char} (h : Lexeme kind text) : text ≠ [] := by
  rintro rfl
  cases kind with
  | identifier =>
    obtain ⟨c, rest, hSame, -⟩ := h
    cases hSame
  | int => exact h.1 rfl
  | float =>
    obtain ⟨whole, fraction, hSame, -⟩ := h
    simp at hSame
  | endOfInput => exact h
  | _ => cases h

/-- A lexeme consists of operators or of what words consist of. -/
theorem Lexeme.solid {kind : TokenKind} {text : List Char} (h : Lexeme kind text) :
    ∀ c ∈ text, (TokenKind.operator? c).isSome = true ∨ isWord c = true := by
  cases kind with
  | identifier =>
    obtain ⟨c, rest, rfl, hFirst, hRest⟩ := h
    exact List.forall_mem_cons.mpr
      ⟨.inr (isWord_of_isWordStart hFirst), fun d hMem => .inr (hRest d hMem)⟩
  | int => exact fun c hMem => .inr (isWord_of_isDigit (h.2 c hMem))
  | float =>
    obtain ⟨whole, fraction, rfl, -, hWhole, hFraction⟩ := h
    refine List.forall_mem_append.mpr ⟨fun c hMem => .inr (isWord_of_isDigit (hWhole c hMem)), ?_⟩
    exact List.forall_mem_cons.mpr
      ⟨.inl rfl, fun c hMem => .inr (isWord_of_isDigit (hFraction c hMem))⟩
  | endOfInput => exact h.elim
  | _ =>
    cases h
    exact List.forall_mem_singleton.mpr (.inl rfl)

/-- What is neither an operator nor part of a word is in no lexeme. -/
theorem Lexeme.not_mem {kind : TokenKind} {text : List Char} {c : Char} (h : Lexeme kind text)
    (hOther : ¬((TokenKind.operator? c).isSome = true ∨ isWord c = true)) : c ∉ text :=
  fun hMem => hOther (h.solid c hMem)

namespace Splits

variable {offset : Nat} {text : List Char} {tokens : List Token} {ending : Ending}

/-- A text without unknown characters splits to its end, and one with unknown characters up to the
first of them. -/
theorem ends (h : Splits offset text tokens ending) :
    (ending = .finished (offset + text.length) ∧ ∀ c ∈ text, isLexical c = true) ∨
      ∃ before c after, text = before ++ c :: after ∧ (∀ d ∈ before, isLexical d = true) ∧
        isLexical c = false ∧ ending = .unknown (offset + before.length) c := by
  induction h with
  | finished hBlanks => exact .inl ⟨rfl, fun c hMem => isLexical_of_isBlank (hBlanks c hMem)⟩
  | @unknown _ blanks rest c hBlanks hOther =>
    exact .inr
      ⟨blanks, c, rest, rfl, fun d hMem => isLexical_of_isBlank (hBlanks d hMem), hOther, rfl⟩
  | @token offset blanks lexeme rest kind tokens ending hBlanks hLexeme hLongest hRest ih =>
    have hFront : ∀ d ∈ blanks ++ lexeme, isLexical d = true := List.forall_mem_append.mpr
      ⟨fun d hMem => isLexical_of_isBlank (hBlanks d hMem),
        fun d hMem => isLexical_of_solid (hLexeme.solid d hMem)⟩
    rcases ih with ⟨rfl, hAll⟩ | ⟨before, c, after, rfl, hBefore, hOther, rfl⟩
    · refine .inl ⟨?_, ?_⟩
      · rw [List.length_append, List.length_append, ← Nat.add_assoc, ← Nat.add_assoc]
      · rw [← List.append_assoc]
        exact List.forall_mem_append.mpr ⟨hFront, hAll⟩
    · refine .inr ⟨blanks ++ lexeme ++ before, c, after, ?_,
        List.forall_mem_append.mpr ⟨hFront, hBefore⟩, hOther, ?_⟩
      · simp only [List.append_assoc]
      · rw [List.length_append, List.length_append, ← Nat.add_assoc, ← Nat.add_assoc]

/-- Every token is a longest lexeme, at its place, and only known characters are before it. -/
theorem placed (h : Splits offset text tokens ending) :
    ∀ token ∈ tokens, ∃ before kind lexeme after, text = before ++ (lexeme ++ after) ∧
      token = ⟨kind, ⟨offset + before.length, offset + before.length + lexeme.length⟩,
        String.ofList lexeme⟩ ∧ Lexeme kind lexeme ∧ Longest lexeme after ∧
      ∀ c ∈ before, isLexical c = true := by
  induction h with
  | finished => nofun
  | unknown => nofun
  | @token offset blanks lexeme rest kind tokens ending hBlanks hLexeme hLongest hRest ih =>
    have hBlank : ∀ c ∈ blanks, isLexical c = true :=
      fun c hMem => isLexical_of_isBlank (hBlanks c hMem)
    refine List.forall_mem_cons.mpr
      ⟨⟨blanks, kind, lexeme, rest, rfl, rfl, hLexeme, hLongest, hBlank⟩, ?_⟩
    intro token hMem
    obtain ⟨before, kind', lexeme', after, rfl, rfl, hLexeme', hLongest', hBefore⟩ := ih token hMem
    refine ⟨blanks ++ lexeme ++ before, kind', lexeme', after, ?_, ?_, hLexeme', hLongest',
      List.forall_mem_append.mpr ⟨List.forall_mem_append.mpr ⟨hBlank, ?_⟩, hBefore⟩⟩
    · simp only [List.append_assoc]
    · simp only [List.length_append, Nat.add_assoc]
    · exact fun c hMem => isLexical_of_solid (hLexeme.solid c hMem)

theorem le_start (h : Splits offset text tokens ending) :
    ∀ token ∈ tokens, offset ≤ token.span.start := by
  intro token hMem
  obtain ⟨before, kind, lexeme, after, -, rfl, -⟩ := h.placed token hMem
  exact Nat.le_add_right ..

theorem ordered (h : Splits offset text tokens ending) :
    tokens.Pairwise fun first second => first.span.stop ≤ second.span.start := by
  induction h with
  | finished => exact .nil
  | unknown => exact .nil
  | token hBlanks hLexeme hLongest hRest ih =>
    exact .cons (fun token hMem => hRest.le_start token hMem) ih

/-- Whether a place is in none of the tokens. -/
def Gap (tokens : List Token) (place : Nat) : Prop :=
  ∀ token ∈ tokens, ¬(token.span.start ≤ place ∧ place < token.span.stop)

/-- In a text that splits to its end, the blanks are between the tokens and nothing else is. -/
theorem isBlank_iff_gap (h : Splits offset text tokens ending) {stop : Nat}
    (hEnding : ending = .finished stop) :
    ∀ (i : Nat) c, text[i]? = some c → (isBlank c = true ↔ Gap tokens (offset + i)) := by
  induction h with
  | finished hBlanks =>
    exact fun i c hGet => iff_of_true (hBlanks c (List.mem_of_getElem? hGet)) nofun
  | unknown => cases hEnding
  | @token offset blanks lexeme rest kind tokens ending hBlanks hLexeme hLongest hRest ih =>
    intro i c hGet
    have hFirst (place : Nat) : Gap (⟨kind, ⟨offset + blanks.length,
        offset + blanks.length + lexeme.length⟩, String.ofList lexeme⟩ :: tokens) place ↔
          ¬(offset + blanks.length ≤ place ∧ place < offset + blanks.length + lexeme.length) ∧
            Gap tokens place := List.forall_mem_cons
    have hLater (place : Nat) (hLt : place < offset + blanks.length + lexeme.length) :
        Gap tokens place := fun token hMem hInside =>
      absurd (Nat.le_trans (hRest.le_start token hMem) hInside.1) (Nat.not_le.mpr hLt)
    rw [hFirst]
    -- the place is in the blanks, in the lexeme, or behind both
    by_cases hBlank : i < blanks.length
    · rw [List.getElem?_append_left hBlank] at hGet
      exact iff_of_true (hBlanks c (List.mem_of_getElem? hGet)) ⟨by omega, hLater _ (by omega)⟩
    · rw [List.getElem?_append_right (Nat.le_of_not_lt hBlank)] at hGet
      by_cases hInside : i - blanks.length < lexeme.length
      · rw [List.getElem?_append_left hInside] at hGet
        have hSolid := isBlank_eq_false (hLexeme.solid c (List.mem_of_getElem? hGet))
        exact iff_of_false (by simp [hSolid]) fun hGap => hGap.1 (by omega)
      · rw [List.getElem?_append_right (Nat.le_of_not_lt hInside)] at hGet
        have hPlace : offset + blanks.length + lexeme.length +
            (i - blanks.length - lexeme.length) = offset + i := by omega
        have hTail := ih hEnding _ c hGet
        rw [hPlace] at hTail
        rw [hTail]
        exact (and_iff_right (by omega)).symm

end Splits

/-! ## Whole texts -/

/-- The tokens of a source, apart from the end of the input: lexemes of their kinds, no longer text
at the same place is a lexeme, and what is between them is blank. -/
structure Cover (source : Source) (tokens : List Token) : Prop where
  bounds : ∀ token ∈ tokens,
    token.span.start < token.span.stop ∧ token.span.stop ≤ source.length
  ordered : tokens.Pairwise fun first second => first.span.stop ≤ second.span.start
  gaps : ∀ (i : Nat) byte, source.bytes[i]? = some byte →
    (isBlankByte byte = true ↔
      ∀ token ∈ tokens, ¬(token.span.start ≤ i ∧ i < token.span.stop))
  text : ∀ token ∈ tokens, token.text = source.slice token.span
  lexeme : ∀ token ∈ tokens, Lexeme token.kind token.text.toList
  longest : ∀ token ∈ tokens, ∀ stop, token.span.stop < stop → stop ≤ source.length →
    ∀ kind, ¬Lexeme kind (source.slice ⟨token.span.start, stop⟩).toList

/-- A source without unknown characters is covered by its tokens. -/
theorem cover_of_splits {source : Source} {tokens : List Token} {stop : Nat}
    (h : Splits 0 source.chars tokens (.finished stop))
    (hAll : ∀ c ∈ source.chars, isLexical c = true) : Cover source tokens := by
  obtain ⟨chars⟩ := source
  have hAscii : ∀ c ∈ chars, c.toNat < 128 := fun c hMem => toNat_lt_of_isLexical (hAll c hMem)
  -- places in the text count characters and bytes alike
  have hLength : (⟨chars⟩ : Source).length = chars.length := Text.byteLength_ascii hAscii
  have hSlice {before lexeme after : List Char} (hText : chars = before ++ (lexeme ++ after)) :
      (⟨chars⟩ : Source).slice ⟨before.length, before.length + lexeme.length⟩ =
        String.ofList lexeme := by
    subst hText
    have hSame := Source.slice_append before lexeme after
    rw [Text.byteLength_ascii fun c hMem => hAscii c (by simp [hMem]),
      Text.byteLength_ascii fun c hMem => hAscii c (by simp [hMem])] at hSame
    exact hSame
  have hPlaced := h.placed
  simp only [Nat.zero_add] at hPlaced
  refine ⟨?_, h.ordered, ?_, ?_, ?_, ?_⟩
  · intro token hMem
    obtain ⟨before, kind, lexeme, after, hText, rfl, hLexeme, -⟩ := hPlaced token hMem
    have hPos := List.length_pos_iff.mpr hLexeme.ne_nil
    have hTotal := congrArg List.length hText
    rw [List.length_append, List.length_append] at hTotal
    rw [hLength]
    dsimp only
    omega
  · intro i byte hGet
    rw [Source.bytes, Text.bytes_of_ascii hAscii, List.getElem?_map] at hGet
    obtain ⟨c, hChar, rfl⟩ := Option.map_eq_some_iff.mp hGet
    have hGap := h.isBlank_iff_gap rfl i c hChar
    rw [Nat.zero_add] at hGap
    exact (isBlankByte_iff (hAscii c (List.mem_of_getElem? hChar))).trans hGap
  · intro token hMem
    obtain ⟨before, kind, lexeme, after, hText, rfl, -⟩ := hPlaced token hMem
    exact (hSlice hText).symm
  · intro token hMem
    obtain ⟨before, kind, lexeme, after, -, rfl, hLexeme, -⟩ := hPlaced token hMem
    rw [String.toList_ofList]
    exact hLexeme
  · intro token hMem stop hMore hStop kind
    obtain ⟨before, _, lexeme, after, hText, rfl, -, hLongest, -⟩ := hPlaced token hMem
    have hTotal := congrArg List.length hText
    rw [List.length_append, List.length_append] at hTotal
    rw [hLength] at hStop
    dsimp only at hMore hStop ⊢
    -- the longer text goes on with the first characters of what follows
    obtain ⟨count, rfl⟩ := Nat.exists_eq_add_of_lt hMore
    cases after with
    | nil => simp only [List.length_nil] at hTotal; omega
    | cons d after =>
      have hSplit := List.take_append_drop count after
      have hWhole : chars = before ++ ((lexeme ++ d :: after.take count) ++ after.drop count) := by
        rw [hText, List.append_assoc, List.cons_append, hSplit]
      have hCount : before.length + (lexeme ++ d :: after.take count).length =
          before.length + lexeme.length + count + 1 := by
        rw [List.length_cons] at hTotal
        rw [List.length_append, List.length_cons, List.length_take_of_le (by omega)]
        omega
      have hLonger := hSlice hWhole
      rw [hCount] at hLonger
      rw [hLonger, String.toList_ofList]
      exact hLongest d _ _ (by rw [hSplit]) kind

/-- A text has tokens if and only if its bytes are lexical. They cover it and are closed by the end
of the input. Otherwise the error is that of the first other byte, and of the character there. -/
theorem ofSource?_splits (text : String) :
    let source := Source.ofString text
    source.bytes = (Text.bytes text.toList).takeWhile (· ≠ 0) ∧
    ((∃ tokens, ofSource? source = .ok tokens) ↔
      ∀ byte ∈ source.bytes, isLexicalByte byte = true) ∧
    (∀ tokens, ofSource? source = .ok tokens → ∃ covering,
      tokens = covering ++ [.endOfInput source.length] ∧ Cover source covering) ∧
    ∀ error, ofSource? source = .error error → ∃ offset byte c rest,
      source.bytes[offset]? = some byte ∧ isLexicalByte byte = false ∧
      (∀ earlier ∈ source.bytes.take offset, isLexicalByte earlier = true) ∧
      Text.dropBytes offset source.chars = some (c :: rest) ∧
      error = .ofFault source ⟨offset, offset + 1⟩ (.unknownSymbol c) ∧ error.position = offset ∧
      error.message = "Error, unknown symbol \"" ++ c.toString ++ "\" at position " ++
        toString offset ++ "." := by
  intro source
  have hSplits := splits_scanAll 0 source.chars
  have hLexical := forall_isLexicalByte_iff source.chars
  refine ⟨Source.bytes_ofString text, ?_⟩
  rcases hSplits.ends with ⟨hEnding, hAll⟩ | ⟨before, c, after, hText, hBefore, hOther, hEnding⟩
  · have hAscii : ∀ c ∈ source.chars, c.toNat < 128 :=
      fun c hMem => toNat_lt_of_isLexical (hAll c hMem)
    have hTokens : ofSource? source =
        .ok ((scanAll 0 source.chars).1 ++ [.endOfInput source.length]) := by
      rw [Source.length, Text.byteLength_ascii hAscii]
      simp only [ofSource?, hEnding, Ending.error?, Ending.token, Nat.zero_add]
    rw [hEnding] at hSplits
    refine ⟨iff_of_true ⟨_, hTokens⟩ (hLexical.mpr hAll), fun tokens hOk => ?_,
      fun error hError => ?_⟩
    · rw [hTokens] at hOk
      cases hOk
      exact ⟨_, rfl, cover_of_splits hSplits hAll⟩
    · rw [hTokens] at hError
      cases hError
  · rw [Nat.zero_add] at hEnding
    have hFault : ofSource? source = .error
        (.ofFault source ⟨before.length, before.length + 1⟩ (.unknownSymbol c)) := by
      simp only [ofSource?, hEnding, Ending.error?]
    refine ⟨?_, fun tokens hOk => ?_, fun error hError => ?_⟩
    · refine iff_of_false ?_ fun hAll => ?_
      · rintro ⟨tokens, hOk⟩
        rw [hFault] at hOk
        cases hOk
      · have hChar := hLexical.mp hAll c (by rw [hText]; simp)
        rw [hOther] at hChar
        cases hChar
    · rw [hFault] at hOk
      cases hOk
    · rw [hFault] at hError
      cases hError
      have hAscii : ∀ d ∈ before, d.toNat < 128 :=
        fun d hMem => toNat_lt_of_isLexical (hBefore d hMem)
      have hLength : before.length = Text.byteLength before := (Text.byteLength_ascii hAscii).symm
      have hBytes : source.bytes = Text.bytes before ++ Text.bytes (c :: after) := by
        rw [Source.bytes, hText, Text.bytes_append]
      obtain ⟨byte, more, hFirst, hByte⟩ := exists_byte_of_isLexical_eq_false hOther
      refine ⟨before.length, byte, c, after, ?_, hByte, ?_, ?_, rfl, rfl, rfl⟩
      · rw [hBytes, hLength, ← Text.length_bytes, List.getElem?_append_right (Nat.le_refl _),
          Nat.sub_self, Text.bytes_cons, hFirst]
        rfl
      · rw [hBytes, hLength, ← Text.length_bytes, List.take_left]
        exact (forall_isLexicalByte_iff before).mpr hBefore
      · rw [hText, hLength]
        exact Text.dropBytes_append before (c :: after)

end Token

end Formula
