import Statechart.Calendar.Rfc3339
import Statechart.Json.Value
import Statechart.Chat.Event

/-!
# Messages, events and contexts as JSON

A record is written as an object, and read from an object, whose other fields are
passed over, or from an array of its fields in order. An event names its type in a
field of that name, or comes as an array with the type in front. The body of a
message is an object with one field, named for what the body is.

How numbers and stamps are written is left to a `Style`; a number that is not finite
is null in any style.
-/

namespace Statechart.Chat

/-- The fields of a record in order, all of which must be there. -/
def record? (names : List String) : Json → Option (List Json)
  | .object fields => names.mapM fun name => Json.field? name fields
  | .array items => if items.length = names.length then some items else none
  | _ => none

/-- Reads a record of one field. -/
def one? {α : Type} (name : String) (read : Json → Option α) (j : Json) : Option α := do
  match ← record? [name] j with
  | [a] => read a
  | _ => none

/-- Reads a record of two numbers. -/
def two? {α : Type} (first second : String) (make : Float → Float → α) (j : Json) : Option α := do
  match ← record? [first, second] j with
  | [a, b] => return make (← a.asFloat?) (← b.asFloat?)
  | _ => none

/-- Reads a size. -/
def Size.ofJson? : Json → Option Size := two? "width" "height" Size.mk

/-- Reads a point. -/
def Point.ofJson? : Json → Option Point := two? "x" "y" Point.mk

/-- Reads the body of a message. -/
def Body.ofJson? (j : Json) : Option Body :=
  match j with
  | .object ((key, _) :: rest) => do
    guard (rest.all (·.1 = key))
    let content ← j.get? key
    match key with
    | "text" => content.asString?.map .text
    | "attachment" => (one? "file_name" Json.asString? content).map .attachment
    | _ => none
  | _ => none

/-- Reads a message. -/
def Message.ofJson? (j : Json) : Option Message := do
  match ← record? ["id", "author", "body", "sent_at"] j with
  | [id, author, body, sentAt] =>
    let id ← id.asString?.bind Uuid.parse?
    let sentAt ← sentAt.asString?.bind Rfc3339.parse?
    return { author := ← author.asString?, body := ← Body.ofJson? body, stamp := { id, sentAt } }
  | _ => none

/-- The fields of an event and its type. -/
def Event.split? (j : Json) : Option (String × Json) :=
  match j with
  | .object _ => do return (← (← j.get? "type").asString?, j)
  | .array (tag :: rest) => do return (← tag.asString?, .array rest)
  | _ => none

/-- Reads an event that has no fields. -/
def Event.bare? (e : Event) (j : Json) : Option Event := (record? [] j).map fun _ => e

/-- Reads an event. -/
def Event.ofJson? (j : Json) : Option Event := do
  let (tag, j) ← Event.split? j
  match tag with
  | "OPEN_ATTACHMENT" => bare? .openAttachment j
  | "CLOSE_ATTACHMENT" => bare? .closeAttachment j
  | "SEND_ATTACHMENT" => (one? "file_name" Json.asString? j).map .sendAttachment
  | "SEND_MESSAGE" => (one? "text" Json.asString? j).map .sendMessage
  | "START_RECORDING" => bare? .startRecording j
  | "STOP_RECORDING" => bare? .stopRecording j
  | "CANCEL_RECORDING" => bare? .cancelRecording j
  | "DISCARD_AUDIO" => bare? .discardAudio j
  | "LOADING_START" => bare? .loadingStart j
  | "LOADING_END" => bare? .loadingEnd j
  | "MESSAGE_RECEIVED" => (one? "message" Message.ofJson? j).map .messageReceived
  | "SCROLL" => (one? "offset" Json.asFloat? j).map .scroll
  | "RESIZE_INPUT" => (one? "size" Size.ofJson? j).map .resizeInput
  | "RESIZE_APP" => (one? "size" Size.ofJson? j).map .resizeApp
  | "DRAG_START" => (one? "at" Point.ofJson? j).map .dragStart
  | "DRAG_MOVE" => (one? "at" Point.ofJson? j).map .dragMove
  | "DRAG_END" => (one? "at" Point.ofJson? j).map .dragEnd
  | "SHOW_ERROR" => (one? "message" Json.asString? j).map .showError
  | "DISMISS_ERROR" => bare? .dismissError j
  | _ => none

/-! ## Writing -/

/-- How finite numbers, and the identity and the time of a stamp, are written. -/
structure Style where
  finite : Float → Json
  stamp : Stamp → Json × Json

namespace Style

variable (style : Style)

/-- A number. -/
def number (f : Float) : Json := if f.isFinite then style.finite f else .null

/-- A value that may be missing. -/
def optional {α : Type} (write : α → Json) (o : Option α) : Json := o.elim .null write

/-- A size. -/
def size (s : Size) : Json :=
  .object [("width", style.number s.width), ("height", style.number s.height)]

/-- A point. -/
def point (p : Point) : Json := .object [("x", style.number p.x), ("y", style.number p.y)]

/-- A drag. -/
def drag (d : Drag) : Json :=
  .object
    [("origin", optional style.point d.origin), ("current", optional style.point d.current),
     ("moves", .nat d.moves), ("last_offset", optional style.point d.lastOffset)]

/-- The body of a message. -/
def body : Body → Json
  | .text text => .object [("text", .string text)]
  | .attachment fileName =>
    .object [("attachment", .object [("file_name", .string fileName)])]

/-- A message. -/
def message (m : Message) : Json :=
  let (id, sentAt) := style.stamp m.stamp
  .object
    [("id", id), ("author", .string m.author), ("body", body m.body), ("sent_at", sentAt)]

/-- Several messages. -/
def messages (l : List Message) : Json := .array (l.map style.message)

/-- The fields of an event. -/
def eventFields : Event → List (String × Json)
  | .sendAttachment fileName => [("file_name", .string fileName)]
  | .sendMessage text => [("text", .string text)]
  | .messageReceived m => [("message", style.message m)]
  | .scroll offset => [("offset", style.number offset)]
  | .resizeInput s | .resizeApp s => [("size", style.size s)]
  | .dragStart p | .dragMove p | .dragEnd p => [("at", style.point p)]
  | .showError message => [("message", .string message)]
  | _ => []

/-- An event. -/
def event (e : Event) : Json := .object (("type", .string e.name) :: style.eventFields e)

/-- A context. -/
def context (c : Context) : Json :=
  .object
    [("room_id", optional .string c.roomId), ("mode", .string c.mode.name),
     ("messages", style.messages c.messages), ("scroll_offset", style.number c.scrollOffset),
     ("input_size", optional style.size c.inputSize), ("app_size", optional style.size c.appSize),
     ("drag", style.drag c.drag), ("alert", optional .string c.alert),
     ("error", optional .string c.error)]

end Style

end Statechart.Chat
