import Formula.Number.Reading

/-!
# Numbers in definitions files

A number is a decimal integer, an integer in base 16, 8 or 2, a decimal number with a fraction or
an exponent, or one of the words `inf` and `nan`. Single underscores may stand between digits. An
integer fits into 64 bits; a number too large for a double is refused, unless it is negative.
-/

namespace Formula.Definitions

/-- The digits after a digit, without the underscores, each of which stands between two digits. -/
def moreDigits? (isDigit : Char → Bool) : List Char → Option (List Char)
  | [] => some []
  | '_' :: c :: text => if isDigit c then (moreDigits? isDigit text).map (c :: ·) else none
  | c :: text => if isDigit c then (moreDigits? isDigit text).map (c :: ·) else none

/-- The digits of a text that holds nothing else, at least one. -/
def digits? (isDigit : Char → Bool) : List Char → Option (List Char)
  | [] => none
  | c :: text => if isDigit c then (moreDigits? isDigit text).map (c :: ·) else none

/-- The digits of a whole number without needless zeros in front. -/
def wholeDigits? (text : List Char) : Option (List Char) :=
  match text with
  | ['0'] => some text
  | '0' :: _ => none
  | _ => digits? Char.isDigit text

/-- The value of a hexadecimal digit. -/
def hexValue (c : Char) : Nat :=
  if c.isDigit then c.toNat - '0'.toNat else c.toLower.toNat - 'a'.toNat + 10

/-- Whether a character is a hexadecimal digit. -/
def isHexDigit (c : Char) : Bool :=
  c.isDigit || ('a' ≤ c && c ≤ 'f') || ('A' ≤ c && c ≤ 'F')

/-- The number that digits denote in a base. -/
def inBase (base : Nat) (digits : List Char) : Nat :=
  digits.foldl (fun n c => base * n + hexValue c) 0

/-- The double nearest to an integer, if the integer fits into 64 bits. -/
def ofInteger? (negative : Bool) (n : Nat) : Option Float :=
  let magnitude := (Decimal.mk n 0).toFloat
  if n = 0 then some 0
  else if negative then if n ≤ 0x8000000000000000 then some (-magnitude) else none
  else if n < 0x8000000000000000 then some magnitude else none

/-- An integer after the mark of its base. -/
def based? (base : Nat) (isDigit : Char → Bool) (text : List Char) : Option Float :=
  (digits? isDigit text).bind fun digits => ofInteger? false (inBase base digits)

/-- The power of ten in an exponent. -/
def exponent? (text : List Char) : Option Int :=
  let (sign, text) := splitSign text
  (digits? Char.isDigit text).map fun digits =>
    let power : Int := Decimal.ofDigits digits
    if sign = some '-' then -power else power

/-- A decimal number that is not an integer; `scale` is the text after the exponent mark. -/
def decimal? (negative : Bool) (whole fraction : List Char) (scale : Option (List Char)) :
    Option Float := do
  let power ← match scale with
    | none => some 0
    | some text => exponent? text
  let magnitude := (Decimal.ofParts whole fraction power).toFloat
  if negative then some (-magnitude)
  else if magnitude.isInf then none
  else some magnitude

/-- Whether a character marks an exponent. -/
def isExponentMark (c : Char) : Bool :=
  c = 'e' || c = 'E'

/-- A decimal number without its sign. -/
def unsigned? (negative : Bool) (text : List Char) : Option Float := do
  let mantissa := text.takeWhile (! isExponentMark ·)
  let scale := (text.dropWhile (! isExponentMark ·)).tail?
  let whole ← wholeDigits? (mantissa.takeWhile (· ≠ '.'))
  match mantissa.dropWhile (· ≠ '.'), scale with
  | [], none => ofInteger? negative (Decimal.ofDigits whole)
  | [], some _ => decimal? negative whole [] scale
  | _ :: fraction, _ => decimal? negative whole (← digits? Char.isDigit fraction) scale

/-- The number that a text denotes. -/
def number? (text : List Char) : Option Float :=
  match text with
  | '0' :: 'x' :: digits => based? 16 isHexDigit digits
  | '0' :: 'o' :: digits => based? 8 (fun c => '0' ≤ c && c ≤ '7') digits
  | '0' :: 'b' :: digits => based? 2 (fun c => c = '0' || c = '1') digits
  | _ =>
    let (sign, body) := splitSign text
    let negative := sign = some '-'
    if body = ['i', 'n', 'f'] then some (if negative then -(1.0 / 0.0) else 1.0 / 0.0)
    else if body = ['n', 'a', 'n'] then some (0.0 / 0.0)
    else unsigned? negative body

end Formula.Definitions
