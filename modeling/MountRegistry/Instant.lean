import MountRegistry.Text.Blank
import MountRegistry.Text.Digit

/-
  Points in time, written as in RFC 3339 and always in UTC. Reading is lenient: numbers need no
  padding, blanks may stand between the parts, a blank or a small `t` may stand for the `T`, and
  the offset may be `Z`, `UTC`, or hours and minutes with or without a colon. A sixtieth second
  counts as part of the fifty-ninth. Both the date that is written and the date in UTC are in the
  range of dates.
-/

namespace MountRegistry

/-- A moment, to the nanosecond. -/
structure Instant where
  /-- Whole seconds since the start of 1970. -/
  seconds : Int
  /-- The fraction; a whole second or more in a leap second. -/
  nanoseconds : Nat
  deriving DecidableEq, Repr, Inhabited

namespace Instant

/-- The start of 1970. -/
def epoch : Instant := ⟨0, 0⟩

/-- A day of the Gregorian calendar, also before it was introduced. -/
structure Date where
  year : Int
  month : Nat
  day : Nat
  deriving DecidableEq, Repr

/-- Every fourth year, less the full centuries that 400 does not divide. -/
def isLeapYear (y : Int) : Bool := y % 4 == 0 && (y % 100 != 0 || y % 400 == 0)

/-- The length of a month, by its number from 1 on. -/
def daysInMonth (y : Int) (month : Nat) : Nat :=
  if month = 2 then (if isLeapYear y then 29 else 28)
  else if month = 4 ∨ month = 6 ∨ month = 9 ∨ month = 11 then 30
  else 31

/-- The years that have dates. -/
def yearInRange (y : Int) : Bool := -262143 ≤ y && y ≤ 262142

/-- Whether there is such a day, in a year that can be written. -/
def Date.isValid (d : Date) : Bool :=
  yearInRange d.year && 1 ≤ d.month && d.month ≤ 12 && 1 ≤ d.day &&
    d.day ≤ daysInMonth d.year d.month

/-- Days since the start of 1970. Years are taken to begin in March, so that a leap day is the last
of its year. -/
def Date.toDays (d : Date) : Int :=
  let y := if d.month ≤ 2 then d.year - 1 else d.year
  let m := (d.month + 9) % 12
  let era := y / 400
  let yearOfEra := y % 400
  let dayOfYear : Int := ((153 * m + 2) / 5 + (d.day - 1) : Nat)
  era * 146097 + (yearOfEra * 365 + yearOfEra / 4 - yearOfEra / 100 + dayOfYear) - 719468

/-- The day so many days after the start of 1970. Years are counted from March here, so that a
leap day is the last of its year. -/
def Date.ofDays (days : Int) : Date :=
  let z := days + 719468
  let era := z / 146097
  let dayOfEra := (z % 146097).toNat
  let yearOfEra := (dayOfEra - dayOfEra / 1460 + dayOfEra / 36524 - dayOfEra / 146096) / 365
  let dayOfYear := dayOfEra - (365 * yearOfEra + yearOfEra / 4 - yearOfEra / 100)
  let m := (5 * dayOfYear + 2) / 153
  let month := if m < 10 then m + 3 else m - 9
  let year := era * 400 + yearOfEra + (if month ≤ 2 then 1 else 0)
  ⟨year, month, dayOfYear - (153 * m + 2) / 5 + 1⟩

/-- The day of an instant. -/
def date (t : Instant) : Date := .ofDays (t.seconds / 86400)

namespace Reader

/-- At least one digit and at most `width`. -/
def digits? (width : Nat) (s : List Char) : Option (List Char × List Char) :=
  let ds := (s.take width).takeWhile Text.isDigit
  if ds.isEmpty then none else some (ds, s.drop ds.length)

/-- A number of up to so many digits, after any blanks. -/
def number? (width : Nat) (s : List Char) : Option (Nat × List Char) := do
  let (ds, rest) ← digits? width (Text.trimLeft s)
  return (Text.valueOf ds, rest)

/-- A year has four digits at most, unless it has a sign. -/
def year? (s : List Char) : Option (Int × List Char) :=
  match Text.trimLeft s with
  | '-' :: rest => (digits? rest.length rest).map fun (ds, rest) => (-(Text.valueOf ds : Int), rest)
  | '+' :: rest => (digits? rest.length rest).map fun (ds, rest) => ((Text.valueOf ds : Int), rest)
  | s => (digits? 4 s).map fun (ds, rest) => ((Text.valueOf ds : Int), rest)

/-- A mark, after any blanks. -/
def mark? (c : Char) (s : List Char) : Option (List Char) :=
  match Text.trimLeft s with
  | d :: rest => if d = c then some rest else none
  | [] => none

/-- Billionths after a point; digits beyond the ninth are passed over. -/
def fraction? (s : List Char) : Option (Nat × List Char) :=
  match s with
  | '.' :: rest => do
    let (ds, rest) ← digits? 9 rest
    return (Text.valueOf ds * Nat.pow 10 (9 - ds.length), rest.dropWhile Text.isDigit)
  | _ => some (0, s)

/-- A number of exactly two digits. -/
def twoDigits? : List Char → Option (Nat × List Char)
  | a :: b :: rest =>
    if Text.isDigit a && Text.isDigit b then some (Text.valueOf [a, b], rest) else none
  | _ => none

/-- Seconds east of UTC. -/
def offset? (s : List Char) : Option (Int × List Char) :=
  if (s.take 3).map Char.toUpper = ['U', 'T', 'C'] then some (0, s.drop 3)
  else match s with
    | [] => none
    | c :: rest =>
      if c = 'Z' ∨ c = 'z' then some (0, rest)
      else if c = '+' ∨ c = '-' ∨ c = '\u2212' then do
        let (hours, rest) ← twoDigits? rest
        let rest := rest.dropWhile fun c => c == ':' || Text.isBlank c
        let (minutes, rest) ← twoDigits? rest
        if minutes < 60 then
          let seconds : Int := (hours * 3600 + minutes * 60 : Nat)
          some (if c = '+' then seconds else -seconds, rest)
        else none
      else none

end Reader

open Reader in
/-- The instant that a text writes. -/
def parse? (text : String) : Option Instant := do
  let s := text.toList
  let (year, s) ← year? s
  let s ← mark? '-' s
  let (month, s) ← number? 2 s
  let s ← mark? '-' s
  let (day, s) ← number? 2 s
  let s ← match s with
    | 't' :: r | 'T' :: r | ' ' :: r => some r
    | _ => none
  let (hour, s) ← number? 2 s
  let s ← mark? ':' s
  let (minute, s) ← number? 2 s
  let s ← mark? ':' s
  let (second, s) ← number? 2 s
  let (nanos, s) ← fraction? s
  let (offset, s) ← offset? (Text.trimLeft s)
  let date : Date := ⟨year, month, day⟩
  if (Text.trimLeft s).isEmpty && date.isValid && hour < 24 && minute < 60 && second ≤ 60 &&
      offset.natAbs < 86400 then
    let second' := min second 59
    let t : Instant :=
      ⟨date.toDays * 86400 + (hour * 3600 + minute * 60 + second' : Nat) - offset,
        nanos + (second - second') * 1000000000⟩
    if yearInRange t.date.year then some t else none
  else none

/-- Decimal digits, padded with zeros to a width. -/
def padded (width n : Nat) : String :=
  let digits := (Nat.repr n).toList
  String.ofList (List.replicate (width - digits.length) '0' ++ digits)

/-- The year in four digits at least, with a sign before it outside the years 0 to 9999. -/
def yearText (y : Int) : String :=
  if 0 ≤ y ∧ y ≤ 9999 then padded 4 y.toNat
  else (if y < 0 then "-" else "+") ++ padded 4 y.natAbs

/-- A fraction in none, three, six or nine digits, as many as it needs. -/
def fractionText (n : Nat) : String :=
  if n = 0 then ""
  else if n % 1000000 = 0 then "." ++ padded 3 (n / 1000000)
  else if n % 1000 = 0 then "." ++ padded 6 (n / 1000)
  else "." ++ padded 9 n

/-- The moment as a text in UTC. A leap second shows as second 60. -/
def toString (t : Instant) : String :=
  let date := t.date
  let s := (t.seconds % 86400).toNat
  let leap := t.nanoseconds / 1000000000
  yearText date.year ++ "-" ++ padded 2 date.month ++ "-" ++ padded 2 date.day ++ "T" ++
    padded 2 (s / 3600) ++ ":" ++ padded 2 (s / 60 % 60) ++ ":" ++ padded 2 (s % 60 + leap) ++
    fractionText (t.nanoseconds % 1000000000) ++ "Z"

end Instant

end MountRegistry
