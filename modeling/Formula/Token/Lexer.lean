import Formula.CompileError
import Formula.Token

/-!
# Lexing

`Token.scan` reads one token from the front of a text. `Token.scanAll` repeats it until the text
ends or shows a character that starts no token, and `Token.ofSource?` is the whole token list or
the error of that character. `Lexer` hands out the same tokens one at a time and keeps the first
error until it is taken.
-/

namespace Formula

namespace Token

/-- The result of looking for a token: the token and the text after it, or why there is none. -/
inductive Scan where
  | token (token : Token) (rest : List Char)
  | finished (offset : Nat)
  | unknown (offset : Nat) (symbol : Char) (rest : List Char)

/-- A number: digits, and if a point follows them also the point and the digits after it. -/
def scanNumber (start : Nat) (text : List Char) : Scan :=
  let whole := text.takeWhile Char.isDigit
  match text.dropWhile Char.isDigit with
  | '.' :: tail =>
    let digits := whole ++ '.' :: tail.takeWhile Char.isDigit
    .token ⟨.float, ⟨start, start + digits.length⟩, String.ofList digits⟩
      (tail.dropWhile Char.isDigit)
  | rest => .token ⟨.int, ⟨start, start + whole.length⟩, String.ofList whole⟩ rest

/-- The token at the front of `text`, which does not start with a blank. -/
def scanSolid (start : Nat) : List Char → Scan
  | [] => .finished start
  | c :: tail =>
    match TokenKind.operator? c with
    | some kind => .token ⟨kind, ⟨start, start + 1⟩, c.toString⟩ tail
    | none =>
      if isWordStart c then
        let word := c :: tail.takeWhile isWord
        .token ⟨.identifier, ⟨start, start + word.length⟩, String.ofList word⟩
          (tail.dropWhile isWord)
      else if c.isDigit then scanNumber start (c :: tail)
      else .unknown start c tail

/-- The first token of `text`, which stands at byte offset `offset`. -/
def scan (offset : Nat) (text : List Char) : Scan :=
  scanSolid (offset + (text.takeWhile isBlank).length) (text.dropWhile isBlank)

theorem length_lt_of_scanNumber {start : Nat} {c : Char} {text rest : List Char} {token : Token}
    (digit : c.isDigit = true) (h : scanNumber start (c :: text) = .token token rest) :
    rest.length < (c :: text).length := by
  have shorter := (List.dropWhile_suffix (l := text) Char.isDigit).length_le
  have first : (c :: text).dropWhile Char.isDigit = text.dropWhile Char.isDigit := by simp [digit]
  simp only [scanNumber, first] at h
  split at h
  · rename_i tail point
    have := (List.dropWhile_suffix (l := tail) Char.isDigit).length_le
    simp only [point, List.length_cons] at shorter
    simp only [Scan.token.injEq] at h
    simp only [← h.2, List.length_cons]
    omega
  · simp only [Scan.token.injEq] at h
    simp only [← h.2, List.length_cons]
    omega

/-- A token takes at least one character. -/
theorem length_lt_of_scan {offset : Nat} {text rest : List Char} {token : Token}
    (h : scan offset text = .token token rest) : rest.length < text.length := by
  have shorter := (List.dropWhile_suffix (l := text) isBlank).length_le
  unfold scan at h
  cases solid : text.dropWhile isBlank with
  | nil => simp [solid, scanSolid] at h
  | cons c tail =>
    simp only [solid, List.length_cons] at shorter
    simp only [solid, scanSolid] at h
    split at h
    · simp only [Scan.token.injEq] at h
      simp only [← h.2]
      omega
    · split at h
      · simp only [Scan.token.injEq] at h
        have := (List.dropWhile_suffix (l := tail) isWord).length_le
        simp only [← h.2]
        omega
      · split at h
        · rename_i digit
          have := length_lt_of_scanNumber digit h
          simp only [List.length_cons] at this
          omega
        · simp at h

/-- How a token sequence ends: with the text, or at a character that starts no token. -/
inductive Ending where
  | finished (offset : Nat)
  | unknown (offset : Nat) (symbol : Char)
deriving DecidableEq

namespace Ending

/-- The token that stands for the ending. -/
def token : Ending → Token
  | finished offset => endOfInput offset
  | unknown offset _ => endOfInput offset

/-- The error of a text that ends in an unknown character. -/
def error? (source : Source) : Ending → Option CompileError
  | finished _ => none
  | unknown offset symbol =>
    some (.ofFault source ⟨offset, offset + 1⟩ (.unknownSymbol symbol))

end Ending

/-- All tokens of a text at byte offset `offset`, after those already collected in reverse, and how
they end. -/
def scanAllAfter (collected : List Token) (offset : Nat) (text : List Char) :
    List Token × Ending :=
  match _h : scan offset text with
  | .token token rest => scanAllAfter (token :: collected) token.span.stop rest
  | .finished stop => (collected.reverse, .finished stop)
  | .unknown stop symbol _ => (collected.reverse, .unknown stop symbol)
termination_by text.length
decreasing_by exact length_lt_of_scan _h

/-- All tokens of a text at byte offset `offset`, and how they end. -/
def scanAll (offset : Nat) (text : List Char) : List Token × Ending :=
  scanAllAfter [] offset text

theorem scanAllAfter_eq (collected : List Token) (offset : Nat) (text : List Char) :
    scanAllAfter collected offset text =
      (collected.reverse ++ (scanAll offset text).1, (scanAll offset text).2) := by
  suffices general : ∀ n : Nat, ∀ text : List Char, text.length = n → ∀ collected offset,
      scanAllAfter collected offset text =
        (collected.reverse ++ (scanAllAfter [] offset text).1,
          (scanAllAfter [] offset text).2) from general _ text rfl collected offset
  intro n
  induction n using Nat.strongRecOn with
  | ind n ih =>
    intro text size collected offset
    rw [scanAllAfter.eq_def collected, scanAllAfter.eq_def []]
    split
    · rename_i token rest found
      have shorter := length_lt_of_scan found
      rw [ih _ (size ▸ shorter) rest rfl (token :: collected),
        ih _ (size ▸ shorter) rest rfl [token]]
      simp
    · simp
    · simp

/-- The tokens of a text, by its first token. -/
theorem scanAll_eq (offset : Nat) (text : List Char) :
    scanAll offset text =
      match scan offset text with
      | .token token rest =>
        (token :: (scanAll token.span.stop rest).1, (scanAll token.span.stop rest).2)
      | .finished stop => ([], .finished stop)
      | .unknown stop symbol _ => ([], .unknown stop symbol) := by
  rw [scanAll, scanAllAfter.eq_def]
  split <;> simp [scanAllAfter_eq, *]

/-- The tokens of a source, closed by the end of the input. -/
def ofSource? (source : Source) : Except CompileError (List Token) :=
  let (tokens, ending) := scanAll 0 source.chars
  match ending.error? source with
  | some error => .error error
  | none => .ok (tokens ++ [ending.token])

end Token

/-- A source read token by token. -/
structure Lexer where
  source : Source
  offset : Nat
  rest : List Char
  error : Option CompileError
deriving DecidableEq

namespace Lexer

/-- The lexer at the start of a source. -/
def ofSource (source : Source) : Lexer :=
  ⟨source, 0, source.chars, none⟩

/-- The next token. At the end of the source, and from an unknown character on, it is the end of
the input again and again; the unknown character leaves its error unless one is already kept. -/
def next (lexer : Lexer) : Token × Lexer :=
  match Token.scan lexer.offset lexer.rest with
  | .token token rest => (token, { lexer with offset := token.span.stop, rest := rest })
  | .finished stop => (.endOfInput stop, { lexer with offset := stop, rest := [] })
  | .unknown stop symbol rest =>
    let error := (Token.Ending.unknown stop symbol).error? lexer.source
    (.endOfInput stop,
      { lexer with offset := stop, rest := symbol :: rest, error := lexer.error <|> error })

/-- Whether an error is kept. -/
def hasError (lexer : Lexer) : Bool :=
  lexer.error.isSome

/-- The kept error, and the lexer that has forgotten it. -/
def takeError (lexer : Lexer) : Option CompileError × Lexer :=
  (lexer.error, { lexer with error := none })

end Lexer

end Formula
