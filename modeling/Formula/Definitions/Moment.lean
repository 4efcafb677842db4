import Formula.Number.Decimal

/-!
# Dates and times in definitions files

A moment is a date, a time of day, or a date with a time, which may have an offset from universal
time. `moment?` reads one in any of its written forms and returns its standard form: `T` before the
time, `Z` for universal time, and a fraction of a second of at most nine digits that does not end in
a zero.
-/

namespace Formula.Definitions

/-- The text after a certain character. -/
def expect? (c : Char) : List Char → Option (List Char)
  | [] => none
  | d :: text => if d = c then some text else none

/-- A number of exactly `count` digits between two bounds. -/
def field? (count low high : Nat) (text : List Char) : Option (List Char × List Char) :=
  let digits := text.take count
  let n := Decimal.ofDigits digits
  if digits.length = count ∧ digits.all Char.isDigit ∧ low ≤ n ∧ n ≤ high then
    some (digits, text.drop count)
  else none

/-- Number of days of a month. -/
def daysInMonth (year month : Nat) : Nat :=
  if month = 2 then
    if year % 4 = 0 ∧ (year % 100 ≠ 0 ∨ year % 400 = 0) then 29 else 28
  else if month = 4 ∨ month = 6 ∨ month = 9 ∨ month = 11 then 30
  else 31

/-- A day of the calendar. -/
def date? (text : List Char) : Option (List Char × List Char) := do
  let (year, rest) ← field? 4 0 9999 text
  let (month, rest) ← field? 2 1 12 (← expect? '-' rest)
  let days := daysInMonth (Decimal.ofDigits year) (Decimal.ofDigits month)
  let (day, rest) ← field? 2 1 days (← expect? '-' rest)
  return (year ++ '-' :: (month ++ '-' :: day), rest)

/-- A fraction of a second, if there is one. -/
def secondFraction (text : List Char) : List Char × List Char :=
  match text with
  | '.' :: c :: rest =>
    if c.isDigit then
      let digits := ((c :: rest.takeWhile Char.isDigit).take 9).reverse.dropWhile (· = '0')
      (if digits.isEmpty then [] else '.' :: digits.reverse, rest.dropWhile Char.isDigit)
    else ([], text)
  | _ => ([], text)

/-- A time of day. The last second of a day may be the sixty-first of its minute. -/
def time? (text : List Char) : Option (List Char × List Char) := do
  let (hour, rest) ← field? 2 0 23 text
  let (minute, rest) ← field? 2 0 59 (← expect? ':' rest)
  let (second, rest) ← field? 2 0 60 (← expect? ':' rest)
  let (fraction, rest) := secondFraction rest
  return (hour ++ ':' :: (minute ++ ':' :: (second ++ fraction)), rest)

/-- An offset from universal time; there is no negative zero. -/
def offset? (text : List Char) : Option (List Char × List Char) :=
  match text with
  | 'Z' :: rest | 'z' :: rest => some (['Z'], rest)
  | sign :: rest => do
    if sign = '+' ∨ sign = '-' then
      let (hour, rest) ← field? 2 0 23 rest
      let (minute, rest) ← field? 2 0 59 (← expect? ':' rest)
      let zero := Decimal.ofDigits (hour ++ minute) = 0
      return ((if zero then '+' else sign) :: (hour ++ ':' :: minute), rest)
    else none
  | [] => none

/-- The time behind a date, with its offset if it has one. -/
def timeOfDate? (text : List Char) : Option (List Char × List Char) :=
  match text with
  | 'T' :: rest | 't' :: rest | ' ' :: rest => do
    let (time, rest) ← time? rest
    match offset? rest with
    | some (offset, rest) => return (time ++ offset, rest)
    | none => return (time, rest)
  | _ => none

/-- The standard form of a moment. -/
def moment? (text : List Char) : Option (List Char × List Char) :=
  match date? text with
  | some (date, rest) =>
    match timeOfDate? rest with
    | some (time, rest) => some (date ++ 'T' :: time, rest)
    | none => some (date, rest)
  | none => time? text

end Formula.Definitions
