/-!
# Points in time

A timestamp counts seconds from the beginning of 1970 in universal time, and
nanoseconds within the second. A leap second has no count of its own: it is the
second before it with the nanoseconds running on past a full second, so the
nanoseconds are below two seconds, not one.

Dates follow the Gregorian calendar, extended to all years. `daysFromCivil` and
`civilFromDays` are its two directions; both count from 0000-03-01, so that a leap
day is the last day of its year.
-/

namespace Statechart

/-- A point in time: seconds since 1970, and nanoseconds, a second or more within a leap second. -/
structure Timestamp where
  seconds : Int
  nanos : Nat
deriving DecidableEq

namespace Timestamp

instance : Inhabited Timestamp := ⟨⟨0, 0⟩⟩

/-- The point so many milliseconds after the beginning of 1970. -/
def ofMillis (ms : Int) : Timestamp :=
  ⟨Int.fdiv ms 1000, (Int.fmod ms 1000).toNat * 1000000⟩

/-- Whole milliseconds since the beginning of 1970. -/
def toMillis (t : Timestamp) : Int := t.seconds * 1000 + t.nanos / 1000000

/-- The nanoseconds from `b` to `a`. -/
def nanosSince (a b : Timestamp) : Int :=
  (a.seconds - b.seconds) * 1000000000 + (a.nanos - b.nanos : Int)

/-- The nanoseconds from `a` to `b`, if `b` is not before `a`. -/
def span? (a b : Timestamp) : Option Nat :=
  let n := b.nanosSince a
  if 0 ≤ n then some n.toNat else none

end Timestamp

/-- A day of the Gregorian calendar. -/
structure Date where
  year : Int
  month : Nat
  day : Nat
deriving DecidableEq

namespace Date

/-- Whether the year has a 29 February. -/
def isLeap (year : Int) : Bool := year % 4 = 0 && (year % 100 ≠ 0 || year % 400 = 0)

/-- The number of days of a month. -/
def daysIn (year : Int) (month : Nat) : Nat :=
  if month = 2 then if isLeap year then 29 else 28
  else if month = 4 || month = 6 || month = 9 || month = 11 then 30
  else 31

/-- Whether the calendar has that day. -/
def isValid (d : Date) : Bool :=
  1 ≤ d.month && d.month ≤ 12 && 1 ≤ d.day && d.day ≤ daysIn d.year d.month

/-- Days from the beginning of 1970 to a day. -/
def daysFromCivil (d : Date) : Int :=
  let y := if d.month ≤ 2 then d.year - 1 else d.year
  let era := Int.fdiv y 400
  let yearOfEra := (Int.fmod y 400).toNat
  let shifted := (d.month + 9) % 12
  let dayOfYear := (153 * shifted + 2) / 5 + d.day - 1
  let dayOfEra := yearOfEra * 365 + yearOfEra / 4 - yearOfEra / 100 + dayOfYear
  era * 146097 + dayOfEra - 719468

/-- The day so many days after the beginning of 1970. -/
def civilFromDays (days : Int) : Date :=
  let z := days + 719468
  let era := Int.fdiv z 146097
  let dayOfEra := (Int.fmod z 146097).toNat
  let yearOfEra :=
    (dayOfEra - dayOfEra / 1460 + dayOfEra / 36524 - dayOfEra / 146096) / 365
  let dayOfYear := dayOfEra - (365 * yearOfEra + yearOfEra / 4 - yearOfEra / 100)
  let shifted := (5 * dayOfYear + 2) / 153
  let day := dayOfYear - (153 * shifted + 2) / 5 + 1
  let month := if shifted < 10 then shifted + 3 else shifted - 9
  let year := era * 400 + yearOfEra
  { year := if month ≤ 2 then year + 1 else year, month, day }

example : daysFromCivil ⟨1970, 1, 1⟩ = 0 := by decide
example : daysFromCivil ⟨2024, 2, 29⟩ = 19782 := by decide
example : civilFromDays 19782 = ⟨2024, 2, 29⟩ := by decide

end Date

end Statechart
