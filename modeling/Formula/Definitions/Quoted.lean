import Formula.Definitions.Number

/-!
# Quoted texts in definitions files

A text stands between double quotes, where a backslash starts an escape, or between single quotes,
where it does not. Between three quotes a text may have several lines; a line break right after the
opening quotes does not belong to it, and one or two quotes may stand inside.

Every function here reads what follows the opening quotes and returns the text and what comes after
the closing ones.
-/

namespace Formula.Definitions

/-- Space and tab. -/
def isBlank (c : Char) : Bool :=
  c = ' ' || c = '\t'

/-- Whether a character may stand in a text, a comment or a quotation as it is. -/
def isPrintable (c : Char) : Bool :=
  c = '\t' || (' ' ≤ c && c ≠ '\x7f')

/-- The text after a line break. -/
def lineBreak? : List Char → Option (List Char)
  | '\n' :: text => some text
  | '\r' :: '\n' :: text => some text
  | _ => none

/-- The character with a code point written in `count` hexadecimal digits. -/
def codePoint? (count : Nat) (text : List Char) : Option (Char × List Char) :=
  let digits := text.take count
  let code := inBase 16 digits
  if digits.length = count ∧ digits.all isHexDigit ∧ code.isValidChar then
    some (Char.ofNat code, text.drop count)
  else none

/-- The character that an escape stands for; its backslash has been read. -/
def escape? : List Char → Option (Char × List Char)
  | 'b' :: text => some ('\x08', text)
  | 't' :: text => some ('\t', text)
  | 'n' :: text => some ('\n', text)
  | 'f' :: text => some ('\x0c', text)
  | 'r' :: text => some ('\r', text)
  | '"' :: text => some ('"', text)
  | '\\' :: text => some ('\\', text)
  | 'u' :: text => codePoint? 4 text
  | 'U' :: text => codePoint? 8 text
  | _ => none

theorem length_le_of_codePoint? {count : Nat} {text rest : List Char} {c : Char}
    (h : codePoint? count text = some (c, rest)) : rest.length ≤ text.length := by
  simp only [codePoint?] at h
  split at h
  · simp only [Option.some.injEq, Prod.mk.injEq] at h
    rw [← h.2, List.length_drop]
    omega
  · simp at h

theorem length_lt_of_escape? {text rest : List Char} {c : Char}
    (h : escape? text = some (c, rest)) : rest.length < text.length := by
  unfold escape? at h
  split at h
  all_goals try (simp only [Option.some.injEq, Prod.mk.injEq] at h; simp [← h.2])
  · exact Nat.lt_succ_of_le (length_le_of_codePoint? h)
  · exact Nat.lt_succ_of_le (length_le_of_codePoint? h)
  · simp at h

/-- A text in double quotes. -/
def basic? (text : List Char) : Option (List Char × List Char) :=
  match text with
  | [] => none
  | '"' :: rest => some ([], rest)
  | '\\' :: rest =>
    match _h : escape? rest with
    | none => none
    | some (c, rest) => (basic? rest).map fun (quoted, rest) => (c :: quoted, rest)
  | c :: rest =>
    if isPrintable c then (basic? rest).map fun (quoted, rest) => (c :: quoted, rest) else none
termination_by text.length
decreasing_by
  · have := length_lt_of_escape? _h
    simp only [List.length_cons]
    omega
  · simp

/-- A text in single quotes. -/
def literal? : List Char → Option (List Char × List Char)
  | [] => none
  | '\'' :: rest => some ([], rest)
  | c :: rest =>
    if isPrintable c then (literal? rest).map fun (quoted, rest) => (c :: quoted, rest) else none

/-- The text after blanks and line breaks. -/
def skipLines : List Char → List Char
  | ' ' :: text => skipLines text
  | '\t' :: text => skipLines text
  | '\n' :: text => skipLines text
  | '\r' :: '\n' :: text => skipLines text
  | text => text

/-- The text after a backslash at the end of a line, the line break and all blanks and line breaks
that follow. -/
def joinLines? (text : List Char) : Option (List Char) :=
  (lineBreak? (text.dropWhile isBlank)).map skipLines

/-- Whether a character may stand inside three quotes as it is. -/
def isPrintableOrBreak (c : Char) : Bool :=
  isPrintable c || c = '\n'

theorem length_skipLines_le (text : List Char) : (skipLines text).length ≤ text.length := by
  fun_induction skipLines text <;> grind

theorem length_lt_of_lineBreak? {text rest : List Char} (h : lineBreak? text = some rest) :
    rest.length < text.length := by
  unfold lineBreak? at h
  split at h
  · simp_all
  · simp only [Option.some.injEq] at h
    simp only [← h, List.length_cons]
    omega
  · simp at h

theorem length_lt_of_joinLines? {text rest : List Char} (h : joinLines? text = some rest) :
    rest.length < text.length := by
  simp only [joinLines?, Option.map_eq_some_iff] at h
  obtain ⟨after, found, rfl⟩ := h
  have shorter := length_lt_of_lineBreak? found
  have skipped := length_skipLines_le after
  have dropped := (List.dropWhile_sublist isBlank (l := text)).length_le
  omega

/-- A text between three double quotes. -/
def basicLines? (text : List Char) : Option (List Char × List Char) :=
  match text with
  | [] => none
  | '"' :: '"' :: '"' :: '"' :: '"' :: rest => some (['"', '"'], rest)
  | '"' :: '"' :: '"' :: '"' :: rest => some (['"'], rest)
  | '"' :: '"' :: '"' :: rest => some ([], rest)
  | '\\' :: rest =>
    match _h : joinLines? rest with
    | some rest => basicLines? rest
    | none =>
      match _h' : escape? rest with
      | none => none
      | some (c, rest) => (basicLines? rest).map fun (quoted, rest) => (c :: quoted, rest)
  | '\r' :: '\n' :: rest => (basicLines? rest).map fun (quoted, rest) => ('\n' :: quoted, rest)
  | c :: rest =>
    if isPrintableOrBreak c then
      (basicLines? rest).map fun (quoted, rest) => (c :: quoted, rest)
    else none
termination_by text.length
decreasing_by
  · have := length_lt_of_joinLines? _h
    simp only [List.length_cons]
    omega
  · have := length_lt_of_escape? _h'
    simp only [List.length_cons]
    omega
  · simp only [List.length_cons]
    omega
  · simp

/-- A text between three single quotes. -/
def literalLines? : List Char → Option (List Char × List Char)
  | [] => none
  | '\'' :: '\'' :: '\'' :: '\'' :: '\'' :: rest => some (['\'', '\''], rest)
  | '\'' :: '\'' :: '\'' :: '\'' :: rest => some (['\''], rest)
  | '\'' :: '\'' :: '\'' :: rest => some ([], rest)
  | '\r' :: '\n' :: rest => (literalLines? rest).map fun (quoted, rest) => ('\n' :: quoted, rest)
  | c :: rest =>
    if isPrintableOrBreak c then
      (literalLines? rest).map fun (quoted, rest) => (c :: quoted, rest)
    else none

/-- The text after a line break, if it starts with one. -/
def afterBreak (text : List Char) : List Char :=
  (lineBreak? text).getD text

/-- A quotation of any kind. -/
def quoted? (text : List Char) : Option (List Char × List Char) :=
  match text with
  | '"' :: '"' :: '"' :: rest => basicLines? (afterBreak rest)
  | '"' :: rest => basic? rest
  | '\'' :: '\'' :: '\'' :: rest => literalLines? (afterBreak rest)
  | '\'' :: rest => literal? rest
  | _ => none

end Formula.Definitions
