import Statechart.Domain
import Statechart.StateValue

/-!
# Snapshots

What an outsider sees of a machine between two steps: its life stage, the number
of steps settled so far, the active states in document order, the same as a tree,
and the context.
-/

namespace Statechart

/-- The stages of a machine's life. -/
inductive Status where
  | notStarted
  | running
  /-- The machine completed; events are accepted and discarded. -/
  | done
  | stopped
  /-- A defect was hit; every further call fails. -/
  | faulted
deriving DecidableEq

/-- The name of a life stage. -/
def Status.name : Status → String
  | .notStarted => "NotStarted"
  | .running => "Running"
  | .done => "Done"
  | .stopped => "Stopped"
  | .faulted => "Faulted"

/-- A machine as seen between two steps. -/
structure Snapshot (D : Domain) where
  status : Status
  /-- The number of steps settled so far. -/
  step : Nat
  /-- The active states in document order. -/
  configuration : List D.State
  /-- The active states as a tree; nothing before start and after stop. -/
  value : Option (StateValue D.State)
  context : D.Context

namespace Snapshot

variable {D : Domain} (s : Snapshot D)

/-- Whether the machine completed. -/
def isDone : Bool := s.status = .done

/-- Whether a state is active. -/
def isActive (state : D.State) : Bool := state ∈ s.configuration

/-- Whether a path of states is active somewhere in the tree. -/
def hasPath (path : List D.State) : Bool :=
  match s.value with
  | some v => v.contains path
  | none => false

end Snapshot

end Statechart
