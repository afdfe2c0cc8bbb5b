import Statechart.Json.Value

/-!
# Writing JSON

Values are written without blanks between their parts. In a string, a quote and
a backslash are escaped by a backslash, the five control characters with a short
escape take it, and every other control character below U+0020 is written by its
code in four lower-case hexadecimal digits. All else, whatever its script, stands
for itself.
-/

namespace Statechart.Json

/-- A digit from 0 to 15 in lower-case hexadecimal. -/
def hexDigit (n : Nat) : Char := Nat.digitChar n

/-- A character as it stands between the quotes of a string. -/
def escape (c : Char) : List Char :=
  if c = '"' then ['\\', '"']
  else if c = '\\' then ['\\', '\\']
  else if c = '\x08' then ['\\', 'b']
  else if c = '\x0c' then ['\\', 'f']
  else if c = '\n' then ['\\', 'n']
  else if c = '\r' then ['\\', 'r']
  else if c = '\t' then ['\\', 't']
  else if c.toNat < 0x20 then
    ['\\', 'u', '0', '0', hexDigit (c.toNat / 16), hexDigit (c.toNat % 16)]
  else [c]

/-- A text in quotes. -/
def quote (s : String) : String :=
  String.ofList ('"' :: s.toList.flatMap escape ++ ['"'])

/-- A digit list as text. -/
def renderDigits (ds : List Nat) : String := String.ofList (ds.map Nat.digitChar)

/-- A number as its digits say. -/
def Number.render (n : Number) : String :=
  let sign := if n.negative then "-" else ""
  let fraction := match n.fraction with
    | none => ""
    | some ds => "." ++ renderDigits ds
  let exponent := match n.exponent with
    | none => ""
    | some e => "e" ++ toString e
  sign ++ renderDigits n.whole ++ fraction ++ exponent

mutual

/-- A value as JSON text. -/
def render : Json → String
  | .null => "null"
  | .bool b => if b then "true" else "false"
  | .number n => n.render
  | .string s => quote s
  | .unreadable => quote "\ufffd"
  | .array items => "[" ++ renderItems items ++ "]"
  | .object fields => "\x7b" ++ renderFields fields ++ "\x7d"

/-- The items of an array with commas between them. -/
def renderItems : List Json → String
  | [] => ""
  | [j] => j.render
  | j :: js => j.render ++ "," ++ renderItems js

/-- The fields of an object with commas between them. -/
def renderFields : List (String × Json) → String
  | [] => ""
  | [(k, j)] => quote k ++ ":" ++ j.render
  | (k, j) :: fs => quote k ++ ":" ++ j.render ++ "," ++ renderFields fs

end

end Statechart.Json
