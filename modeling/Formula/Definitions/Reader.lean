import Formula.Definitions.Moment
import Formula.Definitions.Quoted

/-!
# Reading definitions files

A definitions file is a TOML document, and a line of it is a `Statement`: a header that names a
table, or an entry of a table. `statements?` reads all lines. Only what definitions can consist of
is read: numbers, texts, tables of those, and moments. A document that holds anything else is
refused.
-/

namespace Formula.Definitions

/-- A number or a text. -/
inductive Scalar where
  | number (value : Float)
  | text (value : String)
deriving DecidableEq, Inhabited

/-- What a key is given: a scalar, or a table that is written as a value. -/
inductive Value where
  | scalar (value : Scalar)
  | table (entries : List (String × Scalar))
deriving DecidableEq, Inhabited

/-- A line that is neither empty nor a comment. -/
inductive Statement where
  | header (path : List String)
  | entry (path : List String) (value : Value)
deriving DecidableEq, Inhabited

/-- The text after blanks. -/
def skipBlanks (text : List Char) : List Char :=
  text.dropWhile isBlank

/-- The text after a comment, if it starts with one. -/
def skipComment (text : List Char) : List Char :=
  match text with
  | '#' :: rest => rest.dropWhile isPrintable
  | _ => text

/-- The text after the rest of a line, which may hold blanks and a comment. -/
def endOfLine? (text : List Char) : Option (List Char) :=
  match skipComment (skipBlanks text) with
  | [] => some []
  | text => lineBreak? text

/-- Whether a character may stand in a key without quotes. -/
def isBareKey (c : Char) : Bool :=
  c.isAlphanum || c = '_' || c = '-'

/-- A single key: bare, or quoted on one line. -/
def key? (text : List Char) : Option (String × List Char) :=
  match text with
  | '"' :: rest => (basic? rest).map fun (key, rest) => (String.ofList key, rest)
  | '\'' :: rest => (literal? rest).map fun (key, rest) => (String.ofList key, rest)
  | _ =>
    let key := text.takeWhile isBareKey
    if key.isEmpty then none else some (String.ofList key, text.dropWhile isBareKey)

/-- A key with blanks around it. -/
def spacedKey? (text : List Char) : Option (String × List Char) :=
  (key? (skipBlanks text)).map fun (key, rest) => (key, skipBlanks rest)

/-- Keys with points between them, at most `fuel` of them. -/
def path? : Nat → List Char → Option (List String × List Char)
  | 0, _ => none
  | fuel + 1, text =>
    match spacedKey? text with
    | none => none
    | some (key, '.' :: rest) => (path? fuel rest).map fun (keys, rest) => (key :: keys, rest)
    | some (key, rest) => some ([key], rest)

/-- Whether a character may stand in a number. -/
def isNumeric (c : Char) : Bool :=
  c.isAlphanum || c = '_' || c = '+' || c = '-' || c = '.'

/-- A number or a text. -/
def scalar? (text : List Char) : Option (Scalar × List Char) :=
  match text with
  | '"' :: _ | '\'' :: _ =>
    (quoted? text).map fun (quoted, rest) => (.text (String.ofList quoted), rest)
  | _ =>
    (number? (text.takeWhile isNumeric)).map fun value =>
      (.number value, text.dropWhile isNumeric)

/-- A key and its scalar inside braces, with blanks around them. -/
def member? (text : List Char) : Option ((String × Scalar) × List Char) := do
  let (key, rest) ← spacedKey? text
  let rest ← expect? '=' rest
  let (value, rest) ← scalar? (skipBlanks rest)
  return ((key, value), skipBlanks rest)

/-- The members of a table up to its closing brace, at most `fuel` of them. -/
def members? : Nat → List Char → Option (List (String × Scalar) × List Char)
  | 0, _ => none
  | fuel + 1, text =>
    match member? text with
    | none => none
    | some (entry, ',' :: rest) =>
      (members? fuel rest).map fun (entries, rest) => (entry :: entries, rest)
    | some (entry, '\x7d' :: rest) => some ([entry], rest)
    | some _ => none

/-- The key under which a moment that stands for a table holds its text. -/
def momentKey : String :=
  "$__toml_private_datetime"

/-- A scalar, a table in braces, or a moment, which counts as a table of one text. -/
def value? (text : List Char) : Option (Value × List Char) :=
  match text with
  | '\x7b' :: inside =>
    match skipBlanks inside with
    | '\x7d' :: rest => some (.table [], rest)
    | _ =>
      (members? inside.length inside).map fun (entries, rest) => (.table entries, rest)
  | _ =>
    match moment? text with
    | some (moment, rest) => some (.table [(momentKey, .text (String.ofList moment))], rest)
    | none => (scalar? text).map fun (value, rest) => (.scalar value, rest)

/-- A header whose opening bracket has been read, up to the end of its line. -/
def header? (text : List Char) : Option (Statement × List Char) := do
  let (path, rest) ← path? text.length text
  let rest ← expect? ']' rest
  return (.header path, ← endOfLine? rest)

/-- An entry up to the end of its line. -/
def entry? (text : List Char) : Option (Statement × List Char) := do
  let (path, rest) ← path? text.length text
  let rest ← expect? '=' rest
  let (value, rest) ← value? (skipBlanks rest)
  return (.entry path value, ← endOfLine? rest)

/-- The statements of a text that starts with a line, after those already collected in reverse.
Each step takes at least one character of the text, so `fuel` above its length suffices. -/
def statementsAfter? (collected : List Statement) : Nat → List Char → Option (List Statement)
  | 0, _ => none
  | fuel + 1, text =>
    match skipBlanks text with
    | [] => some collected.reverse
    | '[' :: rest =>
      match header? rest with
      | none => none
      | some (statement, rest) => statementsAfter? (statement :: collected) fuel rest
    | c :: rest =>
      if c = '#' ∨ c = '\n' ∨ c = '\r' then
        match endOfLine? (c :: rest) with
        | none => none
        | some rest => statementsAfter? collected fuel rest
      else
        match entry? (c :: rest) with
        | none => none
        | some (statement, rest) => statementsAfter? (statement :: collected) fuel rest

/-- All statements of a document, which may start with a byte order mark. -/
def statements? (text : List Char) : Option (List Statement) :=
  match text with
  | '\ufeff' :: rest => statementsAfter? [] (rest.length + 1) rest
  | _ => statementsAfter? [] (text.length + 1) text

end Formula.Definitions
