import Statechart.Calendar.Timestamp
import Statechart.Uuid

/-!
# Messages

A message has an author, and a text or a file as its body. Its stamp identifies it
and says when it was sent. A message that comes from outside brings its stamp. What
the stamps of messages written here are is nobody's to choose: they are given
beforehand, one for each message that will be written, as a sequence of which
nothing is known.
-/

namespace Statechart.Chat

/-- What a message says. -/
inductive Body where
  | text (text : String)
  | attachment (fileName : String)
deriving DecidableEq

/-- The identity of a message, and when it was sent. -/
structure Stamp where
  id : Uuid
  sentAt : Timestamp
deriving DecidableEq

instance : Inhabited Stamp := ⟨⟨⟨0⟩, default⟩⟩

/-- A chat message. -/
structure Message where
  author : String
  body : Body
  stamp : Stamp
deriving DecidableEq

/-- The author of messages written in this widget. -/
def localAuthor : String := "me"

/-- A message written in this widget. -/
def own (body : Body) (stamp : Stamp) : Message := { author := localAuthor, body, stamp }

end Statechart.Chat
