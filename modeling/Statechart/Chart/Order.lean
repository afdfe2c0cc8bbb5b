import Statechart.Chart.Outline

/-!
# Orders on the states of a chart

Document order is the order of the outline. States are left deepest first and
entered shallowest first; among states of one depth, leaving goes through the
document backwards and entering forwards, so that on the states of a chart the one
order is the reverse of the other. A state that is not in the chart counts as one
of depth zero that comes after all others.

The sorts are stable: states that compare as equal stay in the order given.
-/

namespace Statechart.Outline

variable {D : Domain} (c : Outline D)

/-- The position of a state in document order; past the end for a state not in the chart. -/
def position (s : D.State) : Nat := (c.order? s).getD c.size

/-- `a` is not after `b` in document order. -/
def documentLe (a b : D.State) : Bool := c.position a ≤ c.position b

/-- `a` is not left after `b`. -/
def exitLe (a b : D.State) : Bool :=
  c.depth b < c.depth a || (c.depth a = c.depth b && c.position b ≤ c.position a)

/-- `a` is not entered after `b`. -/
def entryLe (a b : D.State) : Bool :=
  c.depth a < c.depth b || (c.depth a = c.depth b && c.position a ≤ c.position b)

/-- States in document order. -/
def inDocumentOrder (l : List D.State) : List D.State := l.mergeSort c.documentLe

/-- States in the order in which they are left. -/
def inExitOrder (l : List D.State) : List D.State := l.mergeSort c.exitLe

/-- States in the order in which they are entered. -/
def inEntryOrder (l : List D.State) : List D.State := l.mergeSort c.entryLe

theorem mem_inDocumentOrder {s : D.State} {l : List D.State} : s ∈ c.inDocumentOrder l ↔ s ∈ l :=
  List.mem_mergeSort

theorem mem_inExitOrder {s : D.State} {l : List D.State} : s ∈ c.inExitOrder l ↔ s ∈ l :=
  List.mem_mergeSort

theorem mem_inEntryOrder {s : D.State} {l : List D.State} : s ∈ c.inEntryOrder l ↔ s ∈ l :=
  List.mem_mergeSort

end Statechart.Outline
