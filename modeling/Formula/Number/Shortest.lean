/-!
# Shortest decimal digits of a double

`Float.toDigits?` finds the fewest decimal digits that read back to a given double, and of those
the nearest to it. A double is decoded into `m * 2 ^ q`; the reals that round to it form an
interval, ends included when `m` is even. For one digit, two digits and so on, the two neighbours of
the double on that decimal grid are tested against the interval, and the first grid with a hit wins.
-/

namespace Formula.Shortest

/-- A positive rational number. -/
structure Ratio where
  num : Nat
  den : Nat

/-- Which of two equally near neighbours is taken. -/
inductive Tie where
  | up
  | even
deriving DecidableEq

/-- The reals that round to a positive double, with the double itself; all three share the
denominator `den`. -/
structure Interval where
  low : Nat
  value : Nat
  high : Nat
  den : Nat
  closed : Bool

/-- The interval of the double `m * 2 ^ q`. Below a power of two the next double is only half as
far away as above it. -/
def Interval.of (m : Nat) (q : Int) : Interval :=
  let below := if m = 0x10000000000000 ∧ q > -1074 then 1 else 2
  let scale := Nat.pow 2 (q - 2).toNat
  ⟨(4 * m - below) * scale, 4 * m * scale, (4 * m + 2) * scale, Nat.pow 2 (2 - q).toNat, m % 2 = 0⟩

/-- Whether `num / den` rounds to the double. -/
def Interval.contains (i : Interval) (r : Ratio) : Bool :=
  if i.closed then i.low * r.den ≤ r.num * i.den && r.num * i.den ≤ i.high * r.den
  else i.low * r.den < r.num * i.den && r.num * i.den < i.high * r.den

/-- The number `digits * 10 ^ exponent`. -/
def grid (digits : Nat) (exponent : Int) : Ratio :=
  ⟨digits * Nat.pow 10 exponent.toNat, Nat.pow 10 (-exponent).toNat⟩

/-- The number of times that `exponent` can be raised by one, at most `fuel` times, while the power
of ten stays below `num / den`. -/
def raise (num den : Nat) : Nat → Int → Int
  | 0, exponent => exponent
  | fuel + 1, exponent =>
    let next := grid 1 (exponent + 1)
    if next.num * den ≤ num * next.den then raise num den fuel (exponent + 1) else exponent

/-- The greatest exponent of ten that does not exceed `num / den`. -/
def magnitude (num den : Nat) : Int :=
  raise num den 5 (((num.log2 : Int) - den.log2) * 30103 / 100000 - 2)

/-- The best decimal with the given exponent of ten in the interval of a double, if there is
one. -/
def onGrid? (tie : Tie) (i : Interval) (exponent : Int) : Option Nat :=
  let unit := grid 1 exponent
  let num := i.value * unit.den
  let den := i.den * unit.num
  let down := num / den
  let remainder := num % den
  let downFits := 0 < down && i.contains (grid down exponent)
  let upFits := i.contains (grid (down + 1) exponent)
  let preferUp :=
    den < 2 * remainder || (2 * remainder = den && (tie = .up || down % 2 = 1))
  if downFits && upFits then some (if preferUp then down + 1 else down)
  else if downFits then some down
  else if upFits then some (down + 1)
  else none

/-- The first grid with a hit, of those with the exponents `exponent`, `exponent - 1`, …; at most
`fuel` of them. -/
def search (tie : Tie) (i : Interval) : Nat → Int → Nat × Int
  | 0, exponent => (i.value / i.den, exponent)
  | fuel + 1, exponent =>
    match onGrid? tie i exponent with
    | some digits => (digits, exponent)
    | none => search tie i fuel (exponent - 1)

/-- The digits of a number, last digit first. -/
def digitsBackwards : Nat → Nat → List Nat
  | 0, _ => []
  | fuel + 1, n => if n = 0 then [] else n % 10 :: digitsBackwards fuel (n / 10)

/-- Decimal digits and a power of ten: the number is `0.d₁d₂… * 10 ^ point`. -/
structure Digits where
  digits : List Nat
  point : Int
deriving DecidableEq

/-- The digits of `n * 10 ^ exponent`, without trailing zeros. -/
def Digits.of (n : Nat) (exponent : Int) : Digits :=
  let all := digitsBackwards 400 n
  let kept := all.dropWhile (· = 0)
  ⟨kept.reverse, all.length + exponent⟩

/-- The shortest digits of the double `m * 2 ^ q`, where `m` is not zero. -/
def digits (tie : Tie) (m : Nat) (q : Int) : Digits :=
  let i := Interval.of m q
  let (n, exponent) := search tie i 18 (magnitude i.value i.den)
  Digits.of n exponent

end Formula.Shortest

namespace Formula

/-- What a double is, apart from its sign. -/
inductive Magnitude where
  | nan
  | infinite
  | zero
  /-- The number `m * 2 ^ q`. -/
  | finite (m : Nat) (q : Int)
deriving DecidableEq

namespace Magnitude

/-- Whether the sign bit of a double is set. -/
def isNegative (x : Float) : Bool :=
  x.toBits >>> 63 = 1

/-- The magnitude of a double. -/
def ofFloat (x : Float) : Magnitude :=
  let fraction := (x.toBits &&& 0x000fffffffffffff).toNat
  let exponent := ((x.toBits >>> 52) &&& 0x7ff).toNat
  if exponent = 0x7ff then (if fraction = 0 then infinite else nan)
  else if exponent = 0 then (if fraction = 0 then zero else finite fraction (-1074))
  else finite (fraction + 0x10000000000000) (exponent - 1075)

end Magnitude

end Formula
