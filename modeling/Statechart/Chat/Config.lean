import Statechart.Json.Parser
import Statechart.Json.Printer
import Statechart.Text.Blank

/-!
# Configuring the widget

A widget is told which room to join and how to display it: with everything, or as
text only. It is told so by the attributes of the page it is put on, by a JSON text,
or by environment variables. A display mode that nobody knows counts as the normal
one. A missing room is not an error here; the widget finds out when it starts.

A JSON configuration is an object, or an array of the two fields in order. Fields may
be missing, unknown fields are passed over, but a field given twice is an error, and
so is an array with more than two items.
-/

namespace Statechart.Chat

/-- How the widget is displayed. -/
inductive Mode where
  | normal
  /-- No attachments and no recordings. -/
  | textOnly
deriving DecidableEq, Repr

namespace Mode

instance : Inhabited Mode := ⟨.normal⟩

/-- The name of a mode. -/
def name : Mode → String
  | .normal => "normal"
  | .textOnly => "text-only"

/-- Reads a mode with blanks around it. The error is the text without them. -/
def parse (s : String) : Except String Mode :=
  match Text.trimBlanks s with
  | "normal" => .ok .normal
  | "text-only" => .ok .textOnly
  | other => .error other

/-- Reads a mode; what is not one counts as the normal mode. -/
def parseOrNormal (s : String) : Mode :=
  match parse s with
  | .ok mode => mode
  | .error _ => .normal

/-- The message for a text that is not a mode. -/
def unknownMessage (text : String) : String := "Unknown display mode '" ++ text ++ "'"

end Mode

/-- What a widget is told. -/
structure Config where
  roomId : Option String := none
  mode : Mode := .normal
deriving DecidableEq, Repr

namespace Config

/-- The name of the attribute for the room. -/
def roomAttribute : String := "room-id"

/-- The name of the attribute for the mode. -/
def modeAttribute : String := "mode"

/-- The configuration of a room and a mode given as texts. -/
def ofTexts (roomId mode : Option String) : Config :=
  { roomId, mode := (mode.map Mode.parseOrNormal).getD .normal }

/-- The configuration that a look-up of attributes gives. -/
def ofAttributes (lookUp : String → Option String) : Config :=
  ofTexts (lookUp roomAttribute) (lookUp modeAttribute)

/-- Looks an attribute up in a list; of several with one name the first counts. -/
def firstOf (attributes : List (String × String)) (name : String) : Option String :=
  attributes.lookup name

/-- Looks an attribute up in a list; of several with one name the last counts. -/
def lastOf (attributes : List (String × String)) (name : String) : Option String :=
  attributes.reverse.lookup name

/-- Reads a room id: a text, or null for none. -/
def roomId? : Json → Option (Option String)
  | .null => some none
  | .string s => some (some s)
  | _ => none

/-- Reads a mode. -/
def mode? (j : Json) : Option Mode := j.asString?.map Mode.parseOrNormal

/-- Reads a field that may be missing but not given twice. -/
def uniqueField? {α : Type} (absent : α) (read : Json → Option α) (name : String)
    (fields : List (String × Json)) : Option α :=
  match fields.filter (·.1 = name) with
  | [] => some absent
  | [(_, j)] => read j
  | _ => none

/-- Reads a configuration. -/
def ofJson? : Json → Option Config
  | .object fields => do
    return {
      roomId := ← uniqueField? none roomId? "room_id" fields
      mode := ← uniqueField? .normal mode? "mode" fields }
  | .array [] => some {}
  | .array [room] => do return { roomId := ← roomId? room }
  | .array [room, mode] => do return { roomId := ← roomId? room, mode := ← mode? mode }
  | _ => none

/-- Reads a configuration from a JSON text. -/
def parse? (text : String) : Option Config := (Json.parse? text).bind ofJson?

/-- A configuration as JSON. -/
def toJson (c : Config) : Json :=
  .object [("room_id", c.roomId.elim .null .string), ("mode", .string c.mode.name)]

/-- A configuration as JSON text. -/
def render (c : Config) : String := c.toJson.render

end Config

end Statechart.Chat
