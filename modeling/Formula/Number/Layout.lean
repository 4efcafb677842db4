import Formula.Number.Shortest

/-!
# Written forms of doubles

Three written forms of the shortest digits of a double: `plain` never uses an exponent, `tagged`
always shows that the number is not an integer and uses an exponent far from one, and `json` is the
form used in JSON reports.
-/

namespace Formula

/-- A digit as a character. -/
def digitChar (d : Nat) : Char :=
  Char.ofNat ('0'.toNat + d)

namespace Layout

/-- Digits as characters. -/
def chars (digits : List Nat) : List Char :=
  digits.map digitChar

/-- So many zeros. -/
def zeros (n : Nat) : List Char :=
  List.replicate n '0'

/-- Positional notation; `whole` is written after a number without a fraction. -/
def positional (d : Shortest.Digits) (whole : List Char) : List Char :=
  if d.point ≤ 0 then '0' :: '.' :: (zeros d.point.natAbs ++ chars d.digits)
  else if d.digits.length ≤ d.point.toNat then
    chars d.digits ++ zeros (d.point.toNat - d.digits.length) ++ whole
  else chars (d.digits.take d.point.toNat) ++ '.' :: chars (d.digits.drop d.point.toNat)

/-- The first digit, a point before the others, and the power of ten; `positive` is written before
a power that is not negative. -/
def scientific (d : Shortest.Digits) (positive : List Char) : List Char :=
  let fraction := chars (d.digits.drop 1)
  let power := d.point - 1
  chars (d.digits.take 1) ++ (if fraction.isEmpty then [] else '.' :: fraction) ++
    'e' :: (if power < 0 then '-' :: (toString power.natAbs).toList
      else positive ++ (toString power.natAbs).toList)

/-- Writes a double, given how its digits are chosen and laid out. -/
def write (tie : Shortest.Tie) (zero : String) (finite : Shortest.Digits → List Char)
    (x : Float) : String :=
  let sign := if Magnitude.isNegative x then "-" else ""
  match Magnitude.ofFloat x with
  | .nan => "NaN"
  | .infinite => sign ++ "inf"
  | .zero => sign ++ zero
  | .finite m q => sign ++ String.ofList (finite (Shortest.digits tie m q))

end Layout

/-- The plain form: positional notation, and no point after a whole number. -/
def plain (x : Float) : String :=
  Layout.write .up "0" (fun d => Layout.positional d []) x

/-- The tagged form: a whole number ends in `.0`, and from `1e16` on and below `1e-4` there is an
exponent. -/
def tagged (x : Float) : String :=
  Layout.write .up "0.0" (fun d =>
    if -4 < d.point ∧ d.point ≤ 16 then Layout.positional d ['.', '0']
    else Layout.scientific d []) x

/-- The form in JSON: a whole number ends in `.0`, from `1e16` on and below `1e-5` there is an
exponent with its sign, and what is not finite is `null`. -/
def json (x : Float) : String :=
  match Magnitude.ofFloat x with
  | .nan | .infinite => "null"
  | _ =>
    Layout.write .even "0.0" (fun d =>
      if -5 < d.point ∧ d.point ≤ 16 then Layout.positional d ['.', '0']
      else Layout.scientific d ['+']) x

end Formula
