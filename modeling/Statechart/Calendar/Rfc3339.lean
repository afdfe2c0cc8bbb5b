import Statechart.Calendar.Timestamp
import Statechart.Text.Blank

/-!
# Timestamps as text

`render` writes a timestamp in universal time: date, `T`, time, a fraction of 3, 6
or 9 digits where there is one, and `Z`. Years outside 0 to 9999 carry a sign.

`parse?` reads that form and is lenient about it in the following ways. A number
may be shorter than its field (`2024-1-1`), and blanks may stand before it and
before a separator; the year may carry a sign and then have any length. Date and
time are parted by `T`, `t` or one space. The fraction may have any number of
digits, of which the first nine count. The zone is `Z`, `z`, `UTC` in any case, or
an offset of hours and minutes, with or without a colon between; a true minus sign
serves as well as a hyphen. A second may be the 60th, a leap second.
-/

namespace Statechart.Rfc3339

open Text (dropBlanks isBlank)

/-- The years a timestamp may fall in. -/
def yearRange : Int × Int := (-262143, 262142)

/-- Reads at most `width` digits, at least one. -/
def number? (width : Nat) (cs : List Char) : Option (Nat × List Char) :=
  let digits := (cs.take width).takeWhile Char.isDigit
  if digits.isEmpty then none
  else some (digits.foldl (fun n c => 10 * n + (c.toNat - '0'.toNat)) 0, cs.drop digits.length)

/-- Reads a field of at most two digits after blanks. -/
def field? (cs : List Char) : Option (Nat × List Char) := number? 2 (dropBlanks cs)

/-- Reads the year: at most four digits, or any number of them after a sign. -/
def year? (cs : List Char) : Option (Int × List Char) :=
  match dropBlanks cs with
  | '-' :: cs => (number? cs.length cs).map fun r => (-(r.1 : Int), r.2)
  | '+' :: cs => (number? cs.length cs).map fun r => ((r.1 : Int), r.2)
  | cs => (number? 4 cs).map fun r => ((r.1 : Int), r.2)

/-- Reads a separator after blanks. -/
def separator? (c : Char) (cs : List Char) : Option (List Char) :=
  match dropBlanks cs with
  | d :: cs => if d = c then some cs else none
  | [] => none

/-- Reads the nanoseconds of a fraction, if a point follows. -/
def fraction? : List Char → Option (Nat × List Char)
  | '.' :: cs => do
    let (n, _) ← number? 9 cs
    let digits := (cs.takeWhile Char.isDigit).length
    return (n * Nat.pow 10 (9 - min digits 9), cs.drop digits)
  | cs => some (0, cs)

/-- Reads an offset of hours and minutes, in seconds. -/
def offset? (cs : List Char) : Option (Int × List Char) := do
  let (sign, cs) ← match cs with
    | '+' :: cs => some ((1 : Int), cs)
    | '-' :: cs => some (-1, cs)
    | '−' :: cs => some (-1, cs)
    | _ => none
  let twoDigits (cs : List Char) : Option (Nat × List Char) :=
    if ((cs.take 2).takeWhile Char.isDigit).length = 2 then number? 2 cs else none
  let (hours, cs) ← twoDigits cs
  let (minutes, cs) ← twoDigits (cs.dropWhile fun c => c = ':' || isBlank c)
  guard (minutes < 60)
  return (sign * (hours * 3600 + minutes * 60 : Nat), cs)

/-- Reads the zone as an offset in seconds. -/
def zone? (cs : List Char) : Option (Int × List Char) :=
  let cs := dropBlanks cs
  if (cs.take 3).map Char.toUpper = ['U', 'T', 'C'] then some (0, cs.drop 3)
  else
    match cs with
    | 'Z' :: cs => some (0, cs)
    | 'z' :: cs => some (0, cs)
    | cs => offset? cs

/-- Reads a timestamp. -/
def parse? (s : String) : Option Timestamp := do
  let (year, cs) ← year? s.toList
  let cs ← separator? '-' cs
  let (month, cs) ← field? cs
  let cs ← separator? '-' cs
  let (day, cs) ← field? cs
  let cs ← match cs with
    | 'T' :: cs => some cs
    | 't' :: cs => some cs
    | ' ' :: cs => some cs
    | _ => none
  let (hour, cs) ← field? cs
  let cs ← separator? ':' cs
  let (minute, cs) ← field? cs
  let cs ← separator? ':' cs
  let (second, cs) ← field? cs
  let (nanos, cs) ← fraction? cs
  let (offset, cs) ← zone? cs
  guard (dropBlanks cs).isEmpty
  let date : Date := { year, month, day }
  guard (yearRange.1 ≤ year ∧ year ≤ yearRange.2 ∧ date.isValid)
  guard (hour < 24 ∧ minute < 60 ∧ second ≤ 60)
  guard (offset.natAbs < 86400)
  let leap := if second = 60 then 1 else 0
  let ofDay : Int := hour * 3600 + minute * 60 + (second - leap : Nat)
  return { seconds := date.daysFromCivil * 86400 + ofDay - offset
           nanos := nanos + leap * 1000000000 }

/-- `n` in at least `width` digits. -/
def pad (width n : Nat) : String :=
  let digits := Nat.toDigits 10 n
  String.ofList (List.replicate (width - digits.length) '0' ++ digits)

/-- A year: four digits, and a sign where it is not within 0 to 9999. -/
def renderYear (year : Int) : String :=
  if 0 ≤ year ∧ year ≤ 9999 then pad 4 year.natAbs
  else (if year < 0 then "-" else "+") ++ pad 4 year.natAbs

/-- A fraction of a second in the fewest of 3, 6 or 9 digits. -/
def renderFraction (nanos : Nat) : String :=
  if nanos = 0 then ""
  else if nanos % 1000000 = 0 then "." ++ pad 3 (nanos / 1000000)
  else if nanos % 1000 = 0 then "." ++ pad 6 (nanos / 1000)
  else "." ++ pad 9 nanos

/-- A timestamp as text. -/
def render (t : Timestamp) : String :=
  let date := Date.civilFromDays (Int.fdiv t.seconds 86400)
  let ofDay := (Int.fmod t.seconds 86400).toNat
  let second := ofDay % 60 + t.nanos / 1000000000
  renderYear date.year ++ "-" ++ pad 2 date.month ++ "-" ++ pad 2 date.day ++ "T"
    ++ pad 2 (ofDay / 3600) ++ ":" ++ pad 2 (ofDay / 60 % 60) ++ ":" ++ pad 2 second
    ++ renderFraction (t.nanos % 1000000000) ++ "Z"

end Statechart.Rfc3339
