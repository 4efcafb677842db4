import Formula.Proofs.Lexing

/-!
# Texts made of lexemes

The lexer finds the tokens that a text splits into, and no others (`scanAll_of_splits`). So the
tokens at the front of a text stay what they are when something else follows that begins with a
blank (`Splits.replace`), and lexemes of any kinds are the tokens of some text
(`splits_spaced`).
-/

namespace Formula.Token

/-! ## One token -/

section While

variable {α : Type} {p : α → Bool} {front rest : List α}

theorem takeWhile_front (hFront : ∀ c ∈ front, p c = true) (hRest : ∀ c ∈ rest.head?, p c = false) :
    (front ++ rest).takeWhile p = front := by
  rw [List.takeWhile_append_of_pos hFront]
  cases rest with
  | nil => simp
  | cons c rest => simp [hRest c rfl]

theorem dropWhile_front (hFront : ∀ c ∈ front, p c = true) (hRest : ∀ c ∈ rest.head?, p c = false) :
    (front ++ rest).dropWhile p = rest := by
  rw [List.dropWhile_append_of_pos hFront]
  cases rest with
  | nil => rfl
  | cons c rest => simp [hRest c rfl]

/-- A text has only one part at its front that ends where the characters of a kind do. -/
theorem front_inj {front' rest' : List α} (hFront : ∀ c ∈ front, p c = true)
    (hFront' : ∀ c ∈ front', p c = true) (hRest : ∀ c ∈ rest.head?, p c = false)
    (hRest' : ∀ c ∈ rest'.head?, p c = false) (h : front ++ rest = front' ++ rest') :
    front = front' ∧ rest = rest' := by
  have hTake := congrArg (List.takeWhile p) h
  have hDrop := congrArg (List.dropWhile p) h
  rw [takeWhile_front hFront hRest, takeWhile_front hFront' hRest'] at hTake
  rw [dropWhile_front hFront hRest, dropWhile_front hFront' hRest'] at hDrop
  exact ⟨hTake, hDrop⟩

/-- What stands before and behind the first of an element. -/
theorem front_cons_inj [DecidableEq α] {front' rest' : List α} {c : α} (hFront : c ∉ front)
    (hFront' : c ∉ front') (h : front ++ c :: rest = front' ++ c :: rest') :
    front = front' ∧ rest = rest' := by
  have hOther {front : List α} (hFront : c ∉ front) : ∀ d ∈ front, (d != c) = true :=
    fun d hMem => bne_iff_ne.mpr fun hSame => hFront (hSame ▸ hMem)
  have hStop (rest : List α) : ∀ d ∈ (c :: rest).head?, (d != c) = false := by
    rintro d ⟨⟩
    exact bne_self_eq_false _
  obtain ⟨hSame, hRest⟩ := front_inj (hOther hFront) (hOther hFront') (hStop _) (hStop _) h
  exact ⟨hSame, (List.cons.inj hRest).2⟩

end While

section Scan

variable {start : Nat} {kind : TokenKind} {c : Char} {lexeme rest : List Char}

theorem operator?_of_isWord (h : isWord c = true) : TokenKind.operator? c = none := by
  by_contra hOperator
  obtain ⟨kind, hKind⟩ := Option.ne_none_iff_exists'.mp hOperator
  rw [isWord_of_operator? hKind] at h
  cases h

/-- What follows a longest lexeme does not go on with it. -/
theorem Longest.not_lexeme (h : Longest lexeme rest) {d : Char} (hHead : d ∈ rest.head?)
    (kind : TokenKind) : ¬Lexeme kind (lexeme ++ [d]) := by
  obtain ⟨later, rfl⟩ := List.head?_eq_some_iff.mp hHead
  exact h d [] later rfl kind

theorem scanNumber_int (hDigits : ∀ d ∈ lexeme, d.isDigit = true) (hNonempty : lexeme ≠ [])
    (hLongest : Longest lexeme rest) : scanNumber start (lexeme ++ rest) =
      .token ⟨.int, ⟨start, start + lexeme.length⟩, String.ofList lexeme⟩ rest := by
  have hRest : ∀ d ∈ rest.head?, d.isDigit = false := by
    intro d hHead
    by_contra hDigit
    refine hLongest.not_lexeme hHead .int ⟨by simp, List.forall_mem_append.mpr ⟨hDigits, ?_⟩⟩
    exact List.forall_mem_singleton.mpr (by simpa using hDigit)
  have hPoint : ∀ tail, rest ≠ '.' :: tail := by
    rintro tail rfl
    exact hLongest.not_lexeme rfl .float ⟨lexeme, [], rfl, hNonempty, hDigits, nofun⟩
  simp only [scanNumber, takeWhile_front hDigits hRest, dropWhile_front hDigits hRest]

theorem scanNumber_float {whole fraction : List Char} (hWhole : ∀ d ∈ whole, d.isDigit = true)
    (hNonempty : whole ≠ []) (hFraction : ∀ d ∈ fraction, d.isDigit = true)
    (hLongest : Longest (whole ++ '.' :: fraction) rest) :
    scanNumber start (whole ++ '.' :: fraction ++ rest) =
      .token ⟨.float, ⟨start, start + (whole ++ '.' :: fraction).length⟩,
        String.ofList (whole ++ '.' :: fraction)⟩ rest := by
  have hRest : ∀ d ∈ rest.head?, d.isDigit = false := by
    intro d hHead
    by_contra hDigit
    refine hLongest.not_lexeme hHead .float
      ⟨whole, fraction ++ [d], by simp, hNonempty, hWhole,
        List.forall_mem_append.mpr ⟨hFraction, ?_⟩⟩
    exact List.forall_mem_singleton.mpr (by simpa using hDigit)
  have hPoint : ∀ d ∈ ('.' :: (fraction ++ rest)).head?, d.isDigit = false := by
    rintro d ⟨⟩
    rfl
  rw [List.append_assoc, List.cons_append]
  simp only [scanNumber, takeWhile_front hWhole hPoint, dropWhile_front hWhole hPoint,
    takeWhile_front hFraction hRest, dropWhile_front hFraction hRest]

/-- A longest lexeme is found. -/
theorem scanSolid_of_longest (hLexeme : Lexeme kind lexeme) (hLongest : Longest lexeme rest) :
    scanSolid start (lexeme ++ rest) =
      .token ⟨kind, ⟨start, start + lexeme.length⟩, String.ofList lexeme⟩ rest := by
  have hNumber {c : Char} {text : List Char} (hDigit : c.isDigit = true) :
      scanSolid start (c :: text) = scanNumber start (c :: text) := by
    have hStart : ¬isWordStart c = true := by
      intro hStart
      rw [isDigit_of_isWordStart hStart] at hDigit
      cases hDigit
    simp only [scanSolid, operator?_of_isWord (isWord_of_isDigit hDigit), if_neg hStart,
      if_pos hDigit]
  cases kind with
  | identifier =>
    obtain ⟨c, word, rfl, hFirst, hWord⟩ := hLexeme
    have hRest : ∀ d ∈ rest.head?, isWord d = false := by
      intro d hHead
      by_contra hMore
      refine hLongest.not_lexeme hHead .identifier
        ⟨c, word ++ [d], rfl, hFirst, List.forall_mem_append.mpr ⟨hWord, ?_⟩⟩
      exact List.forall_mem_singleton.mpr (by simpa using hMore)
    simp only [List.cons_append, scanSolid, operator?_of_isWord (isWord_of_isWordStart hFirst),
      if_pos hFirst, takeWhile_front hWord hRest, dropWhile_front hWord hRest]
  | int =>
    obtain ⟨hNonempty, hDigits⟩ := hLexeme
    rw [← scanNumber_int hDigits hNonempty hLongest]
    obtain ⟨c, digits, rfl⟩ := List.exists_cons_of_ne_nil hNonempty
    exact hNumber (hDigits c (List.mem_cons_self ..))
  | float =>
    obtain ⟨whole, fraction, rfl, hNonempty, hWhole, hFraction⟩ := hLexeme
    rw [← scanNumber_float hWhole hNonempty hFraction hLongest]
    obtain ⟨c, digits, rfl⟩ := List.exists_cons_of_ne_nil hNonempty
    exact hNumber (hWhole c (List.mem_cons_self ..))
  | endOfInput => exact hLexeme.elim
  | _ =>
    cases hLexeme
    rfl

end Scan

/-! ## All tokens -/

section Splits

variable {offset : Nat} {text : List Char} {tokens : List Token} {ending : Ending}

theorem scan_front {blanks rest : List Char} (hBlanks : ∀ d ∈ blanks, isBlank d = true)
    (hRest : ∀ c ∈ rest.head?, isBlank c = false) :
    scan offset (blanks ++ rest) = scanSolid (offset + blanks.length) rest := by
  rw [scan, takeWhile_front hBlanks hRest, dropWhile_front hBlanks hRest]

/-- The lexer finds what a text splits into. -/
theorem scanAll_of_splits (h : Splits offset text tokens ending) :
    scanAll offset text = (tokens, ending) := by
  induction h with
  | @finished offset blanks hBlanks =>
    have hScan : scan offset blanks = .finished (offset + blanks.length) := by
      have hNone : ∀ c ∈ ([] : List Char).head?, isBlank c = false := nofun
      rw [← List.append_nil blanks, scan_front hBlanks hNone, List.append_nil]
      rfl
    rw [scanAll_eq, hScan]
  | @unknown offset blanks rest c hBlanks hOther =>
    simp only [isLexical, isWord, Char.isAlphanum, Bool.or_eq_false_iff] at hOther
    obtain ⟨⟨hBlank, hOperator⟩, ⟨hAlpha, hDigit⟩, hUnderscore⟩ := hOther
    have hScan : scan offset (blanks ++ c :: rest) = .unknown (offset + blanks.length) c rest := by
      rw [scan_front hBlanks (by rintro d ⟨⟩; exact hBlank)]
      simp [scanSolid, isWordStart, hAlpha, hDigit, hUnderscore,
        Option.not_isSome_iff_eq_none.mp (by simpa using hOperator)]
    rw [scanAll_eq, hScan]
  | @token offset blanks lexeme rest kind tokens ending hBlanks hLexeme hLongest hRest ih =>
    have hSolid : ∀ c ∈ (lexeme ++ rest).head?, isBlank c = false := by
      obtain ⟨c, more, rfl⟩ := List.exists_cons_of_ne_nil hLexeme.ne_nil
      rintro d ⟨⟩
      exact isBlank_eq_false (hLexeme.solid c (List.mem_cons_self ..))
    rw [scanAll_eq, scan_front hBlanks hSolid, scanSolid_of_longest hLexeme hLongest]
    simp only [ih]

/-! ## Other texts -/

/-- What a token is and how it is written, wherever it stands. -/
def written (token : Token) : TokenKind × List Char :=
  (token.kind, token.text.toList)

/-- A text that can be put behind anything: it is empty or begins with a blank. -/
def Detached (text : List Char) : Prop :=
  ∀ c ∈ text.head?, isBlank c = true

/-- A lexeme that is the longest one stays so if the text behind it changes from a blank on. -/
theorem Longest.replace {lexeme front back other : List Char} (h : Longest lexeme (front ++ back))
    (hOther : Detached other) : Longest lexeme (front ++ other) := by
  intro d more later hSplit kind hLexeme
  rw [← List.cons_append, List.append_eq_append_iff] at hSplit
  rcases hSplit with ⟨extra, hMore, rfl⟩ | ⟨extra, rfl, -⟩
  · cases extra with
    | nil =>
      rw [List.append_nil] at hMore
      refine h d more back ?_ kind hLexeme
      rw [← hMore, List.cons_append]
    | cons c extra =>
      -- a lexeme has no blanks in it
      have hSolid := hLexeme.solid c (by rw [hMore]; simp)
      have hBlank := hOther c rfl
      rw [isBlank_eq_false hSolid] at hBlank
      cases hBlank
  · exact h d more (extra ++ back) (by simp) kind hLexeme

/-- The tokens at the front of a text stay what they are, whatever else follows them. -/
theorem Splits.replace {before after : List Token} (h : Splits offset text tokens ending)
    (hTokens : tokens = before ++ after) : ∃ front back stop, text = front ++ back ∧
      ∀ {other tokens' ending'}, Detached other → Splits stop other tokens' ending' →
        Splits offset (front ++ other) (before ++ tokens') ending' := by
  induction before generalizing offset text tokens with
  | nil => exact ⟨[], text, offset, rfl, fun _ hSplits => hSplits⟩
  | cons token before ih =>
    rw [List.cons_append] at hTokens
    cases h with
    | finished => cases hTokens
    | unknown => cases hTokens
    | @token _ blanks lexeme rest kind tokens _ hBlanks hLexeme hLongest hRest =>
      cases hTokens
      obtain ⟨front, back, stop, rfl, hReplace⟩ := ih hRest rfl
      refine ⟨blanks ++ (lexeme ++ front), back, stop, by simp only [List.append_assoc],
        fun hOther hSplits => ?_⟩
      rw [List.append_assoc, List.append_assoc]
      exact .token hBlanks hLexeme (hLongest.replace hOther) (hReplace hOther hSplits)

/-- Lexemes, with a blank before each. -/
def spaced (lexemes : List (TokenKind × List Char)) : List Char :=
  lexemes.flatMap fun lexeme => ' ' :: lexeme.2

theorem detached_spaced (lexemes : List (TokenKind × List Char)) : Detached (spaced lexemes) := by
  cases lexemes with
  | nil => exact nofun
  | cons lexeme lexemes =>
    rintro c ⟨⟩
    rfl

/-- Lexemes with blanks before them are the tokens of the text. -/
theorem splits_spaced {lexemes : List (TokenKind × List Char)}
    (hLexemes : ∀ lexeme ∈ lexemes, Lexeme lexeme.1 lexeme.2) (offset : Nat) :
    ∃ tokens stop, Splits offset (spaced lexemes) tokens (.finished stop) ∧
      tokens.map written = lexemes := by
  induction lexemes generalizing offset with
  | nil =>
    have hNone : ∀ c ∈ ([] : List Char), isBlank c = true := nofun
    exact ⟨[], _, .finished hNone, rfl⟩
  | cons lexeme lexemes ih =>
    obtain ⟨kind, text⟩ := lexeme
    obtain ⟨hLexeme, hLexemes⟩ := List.forall_mem_cons.mp hLexemes
    obtain ⟨tokens, stop, hSplits, hWritten⟩ := ih hLexemes (offset + 1 + text.length)
    have hBlank : ∀ d ∈ [' '], isBlank d = true := List.forall_mem_singleton.mpr rfl
    have hAlone : Longest text ([] ++ []) := nofun
    have hLongest : Longest text (spaced lexemes) := hAlone.replace (detached_spaced lexemes)
    refine ⟨_, stop, .token hBlank hLexeme hLongest hSplits, ?_⟩
    rw [List.map_cons, hWritten, written, String.toList_ofList]

end Splits

end Formula.Token
