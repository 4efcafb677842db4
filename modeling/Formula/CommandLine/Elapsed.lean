/-!
# Elapsed time

`Elapsed.of` writes a measured time in the three ways in which reports show it. Only the texts
matter to a report, so a report can be made for any texts.
-/

namespace Formula.CommandLine

/-- Measured times as they are to be written: the whole in a unit that suits it, nanoseconds for
each evaluation, and the whole in nanoseconds. -/
structure Elapsed where
  total : String
  perEvaluation : String
  nanoseconds : String
deriving DecidableEq, Inhabited

/-- The number `n / 10 ^ places`, with all its decimal places. -/
def fixed (places n : Nat) : List Char × List Char :=
  let digits := (toString n).toList
  let padded := List.replicate (places + 1 - digits.length) '0' ++ digits
  (padded.take (padded.length - places), padded.drop (padded.length - places))

/-- A number of nanoseconds in a unit of `10 ^ places` nanoseconds, without zeros at the end of the
fraction. -/
def inUnit (name : String) (places n : Nat) : String :=
  let (whole, fraction) := fixed places n
  let kept := (fraction.reverse.dropWhile (· = '0')).reverse
  String.ofList (whole ++ (if kept = [] then [] else '.' :: kept)) ++ name

/-- A number of nanoseconds in the greatest unit that it reaches. -/
def duration (n : Nat) : String :=
  if 1000000000 ≤ n then inUnit "s" 9 n
  else if 1000000 ≤ n then inUnit "ms" 6 n
  else if 1000 ≤ n then inUnit "µs" 3 n
  else inUnit "ns" 0 n

/-- The natural number nearest to `num / den`, of two the even one. -/
def nearest (num den : Nat) : Nat :=
  let down := num / den
  let remainder := num % den
  if den < 2 * remainder ∨ (2 * remainder = den ∧ down % 2 = 1) then down + 1 else down

namespace Elapsed

/-- The time that some evaluations took together. -/
def of (evaluations nanoseconds : Nat) : Elapsed :=
  let (whole, tenth) := fixed 1 (nearest (10 * nanoseconds) evaluations)
  ⟨duration nanoseconds, String.ofList (whole ++ '.' :: tenth), toString nanoseconds⟩

end Elapsed

end Formula.CommandLine
