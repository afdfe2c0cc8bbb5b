/-!
# JSON values

The value of a JSON text, kept as written: an object remembers every one of its
fields in order, repeated names included, and a number remembers its digits, since
one reader wants the integer and another the nearest floating-point value. A
string whose escapes name half of a surrogate pair has no characters to stand for
it; it may be skipped over but not read, and is a value of its own, `unreadable`,
as is an object with such a string for a field name.

The two readings of a number are `Number.toInt?` and `Number.toFloat?`. The second
is the quick one: the leading digits that fit in 64 bits, rounded to a
floating-point value, times or divided by one power of ten, rounded again. For up
to 15 digits and modest exponents that is the nearest value; beyond, it may be a
neighbour of it.
-/

namespace Statechart

/-- A JSON number by its digits: sign, whole part, fraction and exponent. -/
structure Json.Number where
  negative : Bool
  whole : List Nat
  fraction : Option (List Nat)
  exponent : Option Int
deriving DecidableEq

/-- A JSON value. -/
inductive Json where
  | null
  | bool (b : Bool)
  | number (n : Json.Number)
  | string (s : String)
  /-- A string, or an object with a field name, that has half of a surrogate pair in it. -/
  | unreadable
  | array (items : List Json)
  | object (fields : List (String × Json))

namespace Json

instance : Inhabited Json := ⟨.null⟩

namespace Number

/-- The number an integer is written as. -/
def ofNat (n : Nat) : Number :=
  { negative := false
    whole := (Nat.toDigits 10 n).map fun c => c.toNat - '0'.toNat
    fraction := none
    exponent := none }

/-- The number an integer is written as. -/
def ofInt (i : Int) : Number := { ofNat i.natAbs with negative := i < 0 }

/-- The value of a digit list, most significant digit first. -/
def digitsValue (ds : List Nat) : Nat := ds.foldl (fun n d => 10 * n + d) 0

/-- The integer, for a number written without fraction and exponent. -/
def toInt? (n : Number) : Option Int :=
  match n.fraction, n.exponent with
  | none, none =>
    let v : Int := digitsValue n.whole
    some (if n.negative then -v else v)
  | _, _ => none

/-- Reads digits while they fit in 64 bits: the value so far and the digits that did not fit. -/
def takeWord (value : Nat) : List Nat → Nat × List Nat
  | [] => (value, [])
  | d :: ds => if 10 * value + d < 2 ^ 64 then takeWord (10 * value + d) ds else (value, d :: ds)

/-- `value · 10^exponent` with two roundings; nothing if the value is too large to be one. -/
def scale (value : Nat) (exponent : Int) : Option Float :=
  let f := Float.ofNat value
  let e := exponent.natAbs
  if 0 ≤ exponent then
    if value = 0 then some f
    else if 308 < e then none
    else
      let r := f * Float.ofScientific 1 false e
      if r.isInf then none else some r
  else if e ≤ 308 then some (f / Float.ofScientific 1 false e)
  else if e ≤ 616 then some (f / Float.ofScientific 1 false 308 / Float.ofScientific 1 false (e - 308))
  else some 0

/-- The floating-point value of the number; nothing if it is out of range. -/
def toFloat? (n : Number) : Option Float :=
  let signed (f : Float) : Float := if n.negative then -f else f
  let whole := takeWord 0 n.whole
  match n.fraction, n.exponent with
  | none, none =>
    if whole.2.isEmpty then some (signed (Float.ofNat whole.1))
    else (scale whole.1 whole.2.length).map signed
  | fraction, exponent =>
    let digits := fraction.getD []
    let all := takeWord whole.1 digits
    let shift : Int := whole.2.length - (digits.length - all.2.length : Nat)
    (scale all.1 (shift + exponent.getD 0)).map signed

end Number

/-- The value of the last field of that name. -/
def field? (name : String) (fields : List (String × Json)) : Option Json :=
  (fields.reverse.find? (·.1 = name)).map (·.2)

/-- The field of that name of an object. -/
def get? (name : String) : Json → Option Json
  | .object fields => field? name fields
  | _ => none

/-- The field of that name of an object, unless it is null. -/
def present? (name : String) (j : Json) : Option Json :=
  match j.get? name with
  | some .null => none
  | field => field

/-- Reads a field with `read`; without the field, the result is `absent`. -/
def readOr {α : Type} (absent : α) (read : Json → Option α) (name : String) (j : Json) : Option α :=
  match j.present? name with
  | some field => read field
  | none => some absent

/-- Reads a field with `read`, if there is one. -/
def readMaybe {α : Type} (read : Json → Option α) (name : String) (j : Json) : Option (Option α) :=
  j.readOr none (fun field => (read field).map some) name

mutual

/-- The number of levels of a value. -/
def depth : Json → Nat
  | .array items => itemsDepth items + 1
  | .object fields => fieldsDepth fields + 1
  | _ => 1

/-- The number of levels of the deepest item. -/
def itemsDepth : List Json → Nat
  | [] => 0
  | j :: js => max j.depth (itemsDepth js)

/-- The number of levels of the deepest field. -/
def fieldsDepth : List (String × Json) → Nat
  | [] => 0
  | (_, j) :: fs => max j.depth (fieldsDepth fs)

end

/-- The text of a string. -/
def asString? : Json → Option String
  | .string s => some s
  | _ => none

/-- The truth value of a boolean. -/
def asBool? : Json → Option Bool
  | .bool b => some b
  | _ => none

/-- The items of an array. -/
def asArray? : Json → Option (List Json)
  | .array items => some items
  | _ => none

/-- The integer a number is. -/
def asInt? : Json → Option Int
  | .number n => n.toInt?
  | _ => none

/-- The natural number a number is. -/
def asNat? (j : Json) : Option Nat :=
  match j.asInt? with
  | some (.ofNat n) => some n
  | _ => none

/-- The floating-point value of a number. -/
def asFloat? : Json → Option Float
  | .number n => n.toFloat?
  | _ => none

/-- The number of an integer. -/
def int (i : Int) : Json := .number (.ofInt i)

/-- The number of a natural number. -/
def nat (n : Nat) : Json := .number (.ofNat n)

end Json

end Statechart
