import Statechart.Chat.Message
import Statechart.Signal

/-!
# Rooms

The registry has the rooms and the messages sent to them. It can be offline, and
then refuses everything but removing a room. Creating a room that exists leaves it
as it is.
-/

namespace Statechart.Chat

/-- Why the registry refuses. -/
inductive RegistryError where
  | unknownRoom (room : String)
  | unavailable
deriving DecidableEq

namespace RegistryError

/-- The reason as text. -/
def message : RegistryError → String
  | .unknownRoom room => "Room '" ++ room ++ "' does not exist"
  | .unavailable => "Room registry unavailable"

/-- The failure of an invocation that the registry refused. -/
def toInvokeError (e : RegistryError) : InvokeError := { message := e.message }

end RegistryError

/-- The rooms with their messages, oldest first. -/
structure Registry where
  rooms : List (String × List Message) := []
  offline : Bool := false
deriving DecidableEq

namespace Registry

variable (r : Registry)

/-- Whether a room exists. -/
def hasRoom (room : String) : Bool := (r.rooms.lookup room).isSome

/-- The number of rooms. -/
def roomCount : Nat := r.rooms.length

/-- The registry, unless it is offline. -/
def online : Except RegistryError Registry := if r.offline then .error .unavailable else .ok r

/-- Creates a room, unless it exists. -/
def createRoom (room : String) : Except RegistryError Registry := do
  let r ← r.online
  return if r.hasRoom room then r else { r with rooms := r.rooms ++ [(room, [])] }

/-- The registry without a room. -/
def removeRoom (room : String) : Registry :=
  { r with rooms := r.rooms.filter (·.1 ≠ room) }

/-- The messages of a room. -/
def messages (room : String) : Except RegistryError (List Message) := do
  match (← r.online).rooms.lookup room with
  | some messages => return messages
  | none => throw (.unknownRoom room)

/-- Appends a message to a room. -/
def send (room : String) (m : Message) : Except RegistryError Registry := do
  let r ← r.online
  if r.hasRoom room then
    return { r with rooms := r.rooms.map fun e => if e.1 = room then (e.1, e.2 ++ [m]) else e }
  else throw (.unknownRoom room)

end Registry

/-- What a widget calls out to: the registry, the page that is notified of errors, and those who
listen to the widget, with what they heard. -/
structure Host where
  registry : Registry := {}
  /-- The stamps of the files sent from here, in order. -/
  stamps : Nat → Stamp := default
  /-- The number of files sent so far. -/
  filesSent : Nat := 0
  /-- The errors the page was notified of, oldest first. -/
  notified : List String := []
  /-- For every snapshot told to a listener: who it was, the step, and whether the path the
  listener watches was active. -/
  heard : List (String × Nat × Bool) := []

namespace Host

variable (h : Host)

/-- The host after the page was notified of an error. -/
def notify (message : String) : Host := { h with notified := h.notified ++ [message] }

/-- The next file to be sent. -/
def attach (fileName : String) : Message := own (.attachment fileName) (h.stamps h.filesSent)

end Host

end Statechart.Chat
