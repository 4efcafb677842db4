import Formula.Number.Decimal

/-!
# Reading doubles

`readFloat` reads a number of an expression or of the command line: a sign if wanted, then digits
with at most one point among them and an exponent if wanted, or one of the words `inf`, `infinity`
and `nan` in any case.
-/

namespace Formula

/-- The sign of a number, if one is written, and the text after it. -/
def splitSign : List Char → Option Char × List Char
  | '+' :: text => (some '+', text)
  | '-' :: text => (some '-', text)
  | text => (none, text)

/-- Why a text is not a number. -/
inductive FloatFault where
  | empty
  | malformed
deriving DecidableEq, Inhabited

namespace FloatFault

/-- Wording. -/
def text : FloatFault → String
  | empty => "cannot parse float from empty string"
  | malformed => "invalid float literal"

end FloatFault

/-- The power of ten in an exponent, whose mark has been read; no exponent is the power zero. -/
def readPower? : List Char → Option Int
  | [] => some 0
  | mark :: text =>
    let (sign, digits) := splitSign text
    if (mark = 'e' ∨ mark = 'E') ∧ digits ≠ [] ∧ digits.all Char.isDigit then
      let power : Int := Decimal.ofDigits digits
      some (if sign = some '-' then -power else power)
    else none

/-- The digits after the point, if there is a point, and the text after them. -/
def splitFraction : List Char → List Char × List Char
  | '.' :: text => (text.takeWhile Char.isDigit, text.dropWhile Char.isDigit)
  | text => ([], text)

/-- The number without a sign that a text denotes. -/
def readMagnitude? (text : List Char) : Option Float :=
  let word := text.map Char.toLower
  if word = "inf".toList ∨ word = "infinity".toList then some (1.0 / 0.0)
  else if word = "nan".toList then some (0.0 / 0.0)
  else
    let whole := text.takeWhile Char.isDigit
    let (fraction, rest) := splitFraction (text.dropWhile Char.isDigit)
    if whole = [] ∧ fraction = [] then none
    else (readPower? rest).map fun power => (Decimal.ofParts whole fraction power).toFloat

/-- The number that a text denotes. -/
def readFloat (text : List Char) : Except FloatFault Float :=
  let (sign, body) := splitSign text
  if text = [] then .error .empty
  else
    match readMagnitude? body with
    | none => .error .malformed
    | some magnitude => .ok (if sign = some '-' then -magnitude else magnitude)

/-- The whole number below `limit` that a text of decimal digits denotes; a plus sign may stand
before them. -/
def readNat? (limit : Nat) (text : List Char) : Option Nat :=
  let digits := match text with
    | '+' :: digits => digits
    | _ => text
  if digits ≠ [] ∧ digits.all Char.isDigit ∧ Decimal.ofDigits digits < limit then
    some (Decimal.ofDigits digits)
  else none

end Formula
