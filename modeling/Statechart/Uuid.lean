/-!
# Universally unique identifiers

A message is identified by 128 bits. They are written as 32 lower-case hexadecimal
digits in groups of 8, 4, 4, 4 and 12 with hyphens between. Read are, besides that
form, the digits without hyphens, the hyphenated form in braces, and the hyphenated
form after `urn:uuid:`; digits may be of either case.
-/

namespace Statechart

/-- A 128-bit identifier. -/
structure Uuid where
  bits : BitVec 128
deriving DecidableEq

namespace Uuid

/-- The value of a hexadecimal digit of either case. -/
def hexDigit? (c : Char) : Option Nat :=
  if c.isDigit then some (c.toNat - '0'.toNat)
  else if 'a' ≤ c ∧ c ≤ 'f' then some (c.toNat - 'a'.toNat + 10)
  else if 'A' ≤ c ∧ c ≤ 'F' then some (c.toNat - 'A'.toNat + 10)
  else none

/-- The identifier that 32 hexadecimal digits give. -/
def ofDigits? (cs : List Char) : Option Uuid :=
  if cs.length = 32 then
    (cs.mapM hexDigit?).map fun ds => ⟨BitVec.ofNat 128 (ds.foldl (fun n d => 16 * n + d) 0)⟩
  else none

/-- The lengths of the hyphenated groups but the last. -/
def groups : List Nat := [8, 4, 4, 4]

/-- The digits of a text in hyphenated groups. -/
def unhyphenate? : List Nat → List Char → Option (List Char)
  | [], cs => some cs
  | n :: ns, cs =>
    match cs.drop n with
    | '-' :: rest => (unhyphenate? ns rest).map (cs.take n ++ ·)
    | _ => none

/-- The hyphenated form of 32 digits. -/
def hyphenate : List Nat → List Char → List Char
  | [], cs => cs
  | n :: ns, cs => cs.take n ++ '-' :: hyphenate ns (cs.drop n)

/-- The hyphenated form without the braces or the `urn:uuid:` around it. -/
def unwrap (cs : List Char) : List Char :=
  match cs with
  | '{' :: rest => if cs.length = 38 ∧ rest.getLast? = some '}' then rest.dropLast else cs
  | 'u' :: 'r' :: 'n' :: ':' :: 'u' :: 'u' :: 'i' :: 'd' :: ':' :: rest => rest
  | _ => cs

/-- Reads an identifier. -/
def parse? (s : String) : Option Uuid :=
  let cs := s.toList
  if cs.length = 32 then ofDigits? cs
  else (unhyphenate? groups (unwrap cs)).bind ofDigits?

/-- The canonical form of an identifier. -/
def render (u : Uuid) : String :=
  let digits := Nat.toDigits 16 u.bits.toNat
  String.ofList (hyphenate groups (List.replicate (32 - digits.length) '0' ++ digits))

end Uuid

end Statechart
