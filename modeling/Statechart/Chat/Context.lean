import Statechart.Chat.Config
import Statechart.Chat.Message

/-!
# What the widget keeps track of

The context of a widget: its configuration, the messages of the room, how far the
list is scrolled, the sizes of input field and application, a pointer drag, the
message of the alert, and why the widget failed if it did.
-/

namespace Statechart.Chat

/-- A width and a height. -/
structure Size where
  width : Float
  height : Float

/-- A point on the screen. -/
structure Point where
  x : Float
  y : Float

/-- A pointer drag: where it began, where it is, how often it moved, and how far the one before
got in all. -/
structure Drag where
  origin : Option Point := none
  current : Option Point := none
  /-- This takes 32 bits as long as fewer than `2 ^ 32` moves are processed. -/
  moves : Nat := 0
  lastOffset : Option Point := none

namespace Drag

/-- A drag that begins at a point. -/
def begin (d : Drag) (p : Point) : Drag :=
  { origin := some p, current := some p, moves := 0, lastOffset := d.lastOffset }

/-- The drag after a move to a point. -/
def track (d : Drag) (p : Point) : Drag := { d with current := some p, moves := d.moves + 1 }

/-- The drag after it ended at a point; one that had not begun leaves no offset. -/
def finish (d : Drag) (p : Point) : Drag :=
  { moves := d.moves
    lastOffset := d.origin.map fun o => { x := p.x - o.x, y := p.y - o.y } }

/-- Whether a drag is going on. -/
def isDragging (d : Drag) : Bool := d.origin.isSome

end Drag

/-- What the widget keeps track of. -/
structure Context where
  roomId : Option String := none
  mode : Mode := .normal
  messages : List Message := []
  scrollOffset : Float := 0
  inputSize : Option Size := none
  appSize : Option Size := none
  drag : Drag := {}
  /-- The message of the alert that is shown. -/
  alert : Option String := none
  /-- Why the widget could not start. -/
  error : Option String := none
  /-- The stamps of the texts written here, each by the number of messages there are as it is
  written. -/
  stamps : Nat → Stamp := default

namespace Context

/-- The context a widget starts with. -/
def ofConfig (c : Config) : Context := { roomId := c.roomId, mode := c.mode }

/-- A text written here. -/
def write (c : Context) (text : String) : Message := own (.text text) (c.stamps c.messages.length)

/-- The room, unless its id is missing or blank. -/
def room? (c : Context) : Option String := c.roomId.filter fun id => !Text.allBlank id

end Context

/-- One assignment to the context. -/
inductive Patch where
  | messages (all : List Message)
  | append (m : Message)
  | scrollOffset (offset : Float)
  | inputSize (size : Size)
  | appSize (size : Size)
  | drag (d : Drag)
  | alert (message : Option String)
  | error (message : String)

/-- The context after an assignment. -/
def Patch.apply (c : Context) : Patch → Context
  | .messages all => { c with messages := all }
  | .append m => { c with messages := c.messages ++ [m] }
  | .scrollOffset offset => { c with scrollOffset := offset }
  | .inputSize size => { c with inputSize := some size }
  | .appSize size => { c with appSize := some size }
  | .drag d => { c with drag := d }
  | .alert message => { c with alert := message }
  | .error message => { c with error := some message }

end Statechart.Chat
