import Statechart.Json.Value

/-!
# Reading JSON

A strict reader: one value, blanks around it (space, tab, line feed, carriage
return) and nothing else. Numbers have no leading zeros, strings hold no bare
control character, and no comma may trail. Half a surrogate pair in a string or in
a field name does not fail the reading: it makes that string or object
`Json.unreadable`.

Nested values are read with a budget that starts at the length of the text; every
value takes at least one character, so a text is never refused for want of it.
-/

namespace Statechart.Json

/-- Whether a character may stand between the parts of a JSON text. -/
def isSpace (c : Char) : Bool := c = ' ' || c = '\t' || c = '\n' || c = '\r'

/-- The rest of a text after its leading blanks. -/
def skipSpace (cs : List Char) : List Char := cs.dropWhile isSpace

/-- The value of a decimal digit. -/
def digit? (c : Char) : Option Nat := if c.isDigit then some (c.toNat - '0'.toNat) else none

/-- The value of a hexadecimal digit of either case. -/
def hexValue? (c : Char) : Option Nat :=
  if c.isDigit then some (c.toNat - '0'.toNat)
  else if 'a' ≤ c ∧ c ≤ 'f' then some (c.toNat - 'a'.toNat + 10)
  else if 'A' ≤ c ∧ c ≤ 'F' then some (c.toNat - 'A'.toNat + 10)
  else none

/-- The leading digits of a text and what follows them. -/
def takeDigits : List Char → List Nat × List Char
  | [] => ([], [])
  | c :: cs =>
    match digit? c with
    | none => ([], c :: cs)
    | some d =>
      let r := takeDigits cs
      (d :: r.1, r.2)

/-- One digit or more. -/
def someDigits (cs : List Char) : Option (List Nat × List Char) :=
  match takeDigits cs with
  | ([], _) => none
  | r => some r

/-- The whole part of a number: `0`, or digits that do not start with `0`. -/
def wholePart (cs : List Char) : Option (List Nat × List Char) :=
  match someDigits cs with
  | some (0 :: _ :: _, _) => none
  | r => r

/-- The fraction of a number, if a point follows. -/
def fractionPart : List Char → Option (Option (List Nat) × List Char)
  | '.' :: cs => (someDigits cs).map fun r => (some r.1, r.2)
  | cs => some (none, cs)

/-- The exponent of a number, if one follows. -/
def exponentPart : List Char → Option (Option Int × List Char)
  | c :: cs =>
    if c = 'e' || c = 'E' then
      match cs with
      | '-' :: cs => (someDigits cs).map fun r => (some (-(Number.digitsValue r.1 : Int)), r.2)
      | '+' :: cs => (someDigits cs).map fun r => (some (Number.digitsValue r.1 : Int), r.2)
      | cs => (someDigits cs).map fun r => (some (Number.digitsValue r.1 : Int), r.2)
    else some (none, c :: cs)
  | [] => some (none, [])

/-- A number and what follows it. -/
def numberPart (cs : List Char) : Option (Number × List Char) := do
  let (negative, cs) := match cs with
    | '-' :: cs => (true, cs)
    | cs => (false, cs)
  let (whole, cs) ← wholePart cs
  let (fraction, cs) ← fractionPart cs
  let (exponent, cs) ← exponentPart cs
  return ({ negative, whole, fraction, exponent }, cs)

/-- The code that four hexadecimal digits give. -/
def hexQuad (a b c d : Char) : Option Nat := do
  let a ← hexValue? a
  let b ← hexValue? b
  let c ← hexValue? c
  let d ← hexValue? d
  return ((a * 16 + b) * 16 + c) * 16 + d

/-- One unit of a string: a character, or a 16-bit code given by a `u` escape. -/
inductive Piece where
  | char (c : Char)
  | code (n : Nat)

/-- The character that a backslash and one letter stand for. -/
def shortEscape? (c : Char) : Option Char :=
  if c = '"' ∨ c = '\\' ∨ c = '/' then some c
  else if c = 'b' then some '\x08'
  else if c = 'f' then some '\x0c'
  else if c = 'n' then some '\n'
  else if c = 'r' then some '\r'
  else if c = 't' then some '\t'
  else none

/-- The pieces of a string up to its closing quote, and what follows it. -/
def pieces : List Char → Option (List Piece × List Char)
  | [] => none
  | '"' :: cs => some ([], cs)
  | '\\' :: 'u' :: a :: b :: c :: d :: cs =>
    match hexQuad a b c d, pieces cs with
    | some n, some r => some (.code n :: r.1, r.2)
    | _, _ => none
  | '\\' :: e :: cs =>
    match shortEscape? e, pieces cs with
    | some p, some r => some (.char p :: r.1, r.2)
    | _, _ => none
  | c :: cs =>
    if c.toNat < 0x20 ∨ c = '\\' then none
    else (pieces cs).map fun r => (.char c :: r.1, r.2)

/-- The characters the pieces stand for; nothing if half of a surrogate pair is among them. -/
def joinPieces : List Piece → Option (List Char)
  | [] => some []
  | .char c :: ps => (joinPieces ps).map (c :: ·)
  | .code n :: ps =>
    if 0xDC00 ≤ n ∧ n < 0xE000 then none
    else if 0xD800 ≤ n ∧ n < 0xDC00 then
      match ps with
      | .code m :: ps =>
        if 0xDC00 ≤ m ∧ m < 0xE000 then
          (joinPieces ps).map (Char.ofNat (0x10000 + (n - 0xD800) * 0x400 + (m - 0xDC00)) :: ·)
        else none
      | _ => none
    else (joinPieces ps).map (Char.ofNat n :: ·)

/-- The rest of a string after its opening quote. -/
def stringBody (cs : List Char) : Option (Option String × List Char) :=
  (pieces cs).map fun r => ((joinPieces r.1).map String.ofList, r.2)

/-- The rest of `cs` after the characters of `word`. -/
def afterWord : List Char → List Char → Option (List Char)
  | [], cs => some cs
  | w :: ws, c :: cs => if c = w then afterWord ws cs else none
  | _ :: _, [] => none

/-- The object with these fields, if its names can be read. -/
def objectOf (fields : List (Option String × Json)) : Json :=
  match fields.mapM fun f => f.1.map fun name => (name, f.2) with
  | some fields => .object fields
  | none => .unreadable

mutual

/-- A value and what follows it. -/
def value : Nat → List Char → Option (Json × List Char)
  | 0, _ => none
  | budget + 1, cs =>
    match skipSpace cs with
    | [] => none
    | '"' :: cs => (stringBody cs).map fun r =>
        (match r.1 with
          | some s => .string s
          | none => .unreadable, r.2)
    | '[' :: cs =>
      match skipSpace cs with
      | ']' :: cs => some (.array [], cs)
      | cs => (items budget cs).map fun r => (.array r.1, r.2)
    | '{' :: cs =>
      match skipSpace cs with
      | '}' :: cs => some (.object [], cs)
      | cs => (members budget cs).map fun r => (objectOf r.1, r.2)
    | 'n' :: cs => (afterWord ['u', 'l', 'l'] cs).map fun cs => (.null, cs)
    | 't' :: cs => (afterWord ['r', 'u', 'e'] cs).map fun cs => (.bool true, cs)
    | 'f' :: cs => (afterWord ['a', 'l', 's', 'e'] cs).map fun cs => (.bool false, cs)
    | cs => (numberPart cs).map fun r => (.number r.1, r.2)

/-- The items of an array that has some, up to its closing bracket. -/
def items : Nat → List Char → Option (List Json × List Char)
  | 0, _ => none
  | budget + 1, cs =>
    match value budget cs with
    | none => none
    | some (j, cs) =>
      match skipSpace cs with
      | ',' :: cs => (items budget cs).map fun r => (j :: r.1, r.2)
      | ']' :: cs => some ([j], cs)
      | _ => none

/-- The fields of an object that has some, up to its closing brace. -/
def members : Nat → List Char → Option (List (Option String × Json) × List Char)
  | 0, _ => none
  | budget + 1, cs =>
    match skipSpace cs with
    | '"' :: cs =>
      match stringBody cs with
      | some (name, cs) =>
        match skipSpace cs with
        | ':' :: cs =>
          match value budget cs with
          | none => none
          | some (j, cs) =>
            match skipSpace cs with
            | ',' :: cs => (members budget cs).map fun r => ((name, j) :: r.1, r.2)
            | '}' :: cs => some ([(name, j)], cs)
            | _ => none
        | _ => none
      | _ => none
    | _ => none

end

/-- The value of a JSON text. -/
def parse? (s : String) : Option Json :=
  let cs := s.toList
  match value (2 * cs.length + 2) cs with
  | some (j, rest) => if (skipSpace rest).isEmpty then some j else none
  | none => none

end Statechart.Json
