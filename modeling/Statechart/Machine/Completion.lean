import Statechart.Chart

/-!
# Completion

A compound state is in its final state when a final child of it is active, a
parallel state when all its regions are. Entering a final state may complete the
state around it, and the parallel state around that one, and, at the top, the
machine.
-/

namespace Statechart

namespace Outline

variable {D : Domain} (c : Outline D) (active : D.State → Bool)

/-- Whether a state is in its final state, regions within regions followed for `fuel` levels. -/
def inFinalStateWithin : Nat → D.State → Bool
  | 0, _ => false
  | fuel + 1, s =>
    match c.kind? s with
    | some (.compound _) => (c.substates s).any fun t => c.isFinal t && active t
    | some .parallel => (c.substates s).all (inFinalStateWithin fuel)
    | some .final => active s
    | _ => false

/-- Whether a state is in its final state. -/
def inFinalState (s : D.State) : Bool := c.inFinalStateWithin active c.size s

end Outline

/-- What follows from entering a final state. -/
structure Completion (S : Type) where
  /-- The states that complete, inner before outer. -/
  completed : List S := []
  /-- Whether the machine completes. -/
  machine : Bool := false

namespace Outline

variable {D : Domain} (c : Outline D) (active : D.State → Bool)

/-- What follows from all regions of a parallel state being final. -/
def completeParallel (p : D.State) : Completion D.State :=
  if p = c.root then { machine := true } else { completed := [p] }

/-- What follows from entering a final state, which is active already. -/
def complete (n : Node D) : Completion D.State :=
  match n.parent? with
  | none => { machine := true }
  | some parent =>
    if parent = c.root && c.isCompound parent then { machine := true }
    else if c.isParallel parent then
      if c.inFinalState active parent then c.completeParallel parent else {}
    else
      match (c.parent? parent).filter fun g => c.isParallel g && c.inFinalState active g with
      | none => { completed := [parent] }
      | some grandparent =>
        let outer := c.completeParallel grandparent
        { outer with completed := parent :: outer.completed }

end Outline

end Statechart
