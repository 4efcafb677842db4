/-!
# Decimal numbers

A `Decimal` is a natural number times a power of ten. `Decimal.toFloat` is the nearest double, ties
to even.
-/

namespace Formula

/-- The number `significand * 10 ^ exponent`. -/
structure Decimal where
  significand : Nat
  exponent : Int
deriving DecidableEq

namespace Decimal

/-- The number that a list of decimal digits denotes. -/
def ofDigits (digits : List Char) : Nat :=
  digits.foldl (fun n c => 10 * n + (c.toNat - '0'.toNat)) 0

/-- A whole part and the digits after the point, times a power of ten. -/
def ofParts (whole fraction : List Char) (exponent : Int) : Decimal :=
  ⟨ofDigits (whole ++ fraction), exponent - fraction.length⟩

/-- The nearest double. A power of ten that decides the result alone is never computed. -/
def toFloat (d : Decimal) : Float :=
  if d.significand = 0 then 0
  else if d.exponent > 400 then 1.0 / 0.0
  else if d.exponent < -(400 + d.significand.log2 : Int) then 0
  else Float.ofScientific d.significand (d.exponent < 0) d.exponent.natAbs

end Decimal

end Formula
