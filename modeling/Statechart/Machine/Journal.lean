/-!
# The journal

Each settled step leaves a record of what set it off, what was left and what was
entered. A journal has a capacity; when it is full, the oldest record makes room for
the newest. With no capacity at all nothing is recorded.

Records carry a stamp that says when the step settled. What a stamp is, is up to
the journal's owner.
-/

namespace Statechart

/-- One settled step. -/
structure StepRecord (S T : Type) where
  /-- The number of the step, counted from 1. -/
  step : Nat
  /-- The text of the signal that set the step off. -/
  trigger : String
  /-- The states left, in the order of leaving. -/
  exited : List S
  /-- The states entered, in the order of entering. -/
  entered : List S
  stamp : T
deriving DecidableEq

/-- The latest records, oldest first. -/
structure Journal (S T : Type) where
  capacity : Nat := 256
  records : List (StepRecord S T) := []

namespace Journal

variable {S T : Type}

instance : Inhabited (Journal S T) := ⟨{}⟩

/-- The journal with one more record, without its oldest ones where they exceed the capacity. -/
def record (j : Journal S T) (r : StepRecord S T) : Journal S T :=
  let all := j.records ++ [r]
  { j with records := all.drop (all.length - j.capacity) }

/-- The latest record. -/
def last? (j : Journal S T) : Option (StepRecord S T) := j.records.getLast?

/-- The number of records. -/
def size (j : Journal S T) : Nat := j.records.length

/-- Whether there are no records. -/
def isEmpty (j : Journal S T) : Bool := j.records.isEmpty

/-- The time from the oldest record to the latest, as `span` measures it. -/
def duration? (span : T → T → Option Nat) (j : Journal S T) : Option Nat := do
  span (← j.records.head?).stamp (← j.last?).stamp

end Journal

end Statechart
