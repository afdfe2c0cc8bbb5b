import Statechart.Chart.Tree

/-!
# The outline of a chart

An outline lists the states of a tree in document order: each state before those
below it, children in the order declared. Every entry (`Node`) carries the
declaration of its state, the path from its parent up to the root, and the states
declared as its children. All questions about the shape of a chart are answered
from this list.

A state may be declared only once. Where a tree declares one again, the outline
keeps the first declaration, notes the repetition, and leaves out whatever was
declared below the second.
-/

namespace Statechart

/-- A state of a chart with its place in it. -/
structure Node (D : Domain) extends StateDecl D where
  /-- The states around this one, nearest first. -/
  ancestors : List D.State
  children : List D.State

namespace Node

variable {D : Domain} (n : Node D)

/-- The transitions that wait for a signal, in the order declared. -/
def immediate : List (Transition D) := n.transitions.filter (·.delay?.isNone)

/-- The transitions that wait for time to pass, in the order declared. -/
def delayed : List (Transition D) := n.transitions.filter (·.delay?.isSome)

/-- The state around this one. -/
def parent? : Option D.State := n.ancestors.head?

/-- The distance from the root. -/
def depth : Nat := n.ancestors.length

end Node

/-- The states of a tree in document order, and the repetitions among its declarations. -/
structure Outline (D : Domain) where
  root : D.State
  nodes : List (Node D) := []
  repeated : List D.State := []

namespace Outline

variable {D : Domain} (c : Outline D)

/-- The entry of a state. -/
def node? (s : D.State) : Option (Node D) := c.nodes.find? (·.id = s)

/-- Whether a state belongs to the chart. -/
def contains (s : D.State) : Bool := (c.node? s).isSome

end Outline

namespace StateTree

variable {D : Domain}

mutual

/-- Appends a tree found below `path` to an outline. -/
def listInto (path : List D.State) (c : Outline D) : StateTree D → Outline D
  | .node d children =>
    if c.contains d.id then { c with repeated := c.repeated ++ [d.id] }
    else
      let entry : Node D :=
        { toStateDecl := d, ancestors := path, children := children.map StateTree.id }
      listAllInto (d.id :: path) { c with nodes := c.nodes ++ [entry] } children

/-- Appends the trees found below `path` to an outline. -/
def listAllInto (path : List D.State) (c : Outline D) : List (StateTree D) → Outline D
  | [] => c
  | t :: ts => listAllInto path (t.listInto path c) ts

end

/-- The outline of a tree. -/
def outline (t : StateTree D) : Outline D := t.listInto [] { root := t.id }

end StateTree

namespace Outline

variable {D : Domain} (c : Outline D)

/-! ## One state -/

/-- The number of states. -/
def size : Nat := c.nodes.length

/-- The kind of a state. -/
def kind? (s : D.State) : Option (NodeKind D.State) := (c.node? s).map (·.kind)

/-- Whether a state is of a kind that satisfies `p`. -/
def hasKind (p : NodeKind D.State → Bool) (s : D.State) : Bool := (c.kind? s).any p

/-- Whether a state is atomic. -/
def isAtomic (s : D.State) : Bool := c.hasKind NodeKind.isAtomic s

/-- Whether a state is compound. -/
def isCompound (s : D.State) : Bool := c.hasKind NodeKind.isCompound s

/-- Whether a state is parallel. -/
def isParallel (s : D.State) : Bool := c.hasKind NodeKind.isParallel s

/-- Whether a state is a history state. -/
def isHistory (s : D.State) : Bool := c.hasKind NodeKind.isHistory s

/-- Whether a state is final. -/
def isFinal (s : D.State) : Bool := c.hasKind NodeKind.isFinal s

/-- Whether a state is atomic or final. -/
def isLeaf (s : D.State) : Bool := c.hasKind NodeKind.isLeaf s

/-- The position of a state in document order. -/
def order? (s : D.State) : Option Nat := c.nodes.findIdx? (·.id = s)

/-- The distance of a state from the root, none for a state that is not in the chart. -/
def depth (s : D.State) : Nat := ((c.node? s).map (·.depth)).getD 0

/-! ## Up -/

/-- The states around a state, nearest first. -/
def ancestors (s : D.State) : List D.State := ((c.node? s).map (·.ancestors)).getD []

/-- The state around a state. -/
def parent? (s : D.State) : Option D.State := (c.ancestors s).head?

/-- The states around a state as far as `bound`, which is left out. -/
def ancestorsBelow (s : D.State) (bound : Option D.State) : List D.State :=
  (c.ancestors s).takeWhile (some · ≠ bound)

/-- Whether `s` lies strictly below `a`. -/
def isDescendant (s a : D.State) : Bool := a ∈ c.ancestors s

/-- Whether `s` is `a` or lies below it. -/
def isWithin (s a : D.State) : Bool := s = a || c.isDescendant s a

/-- The least common compound ancestor: the nearest compound state around the first state that
lies around all the others. -/
def lcca? : List D.State → Option D.State
  | [] => none
  | first :: rest =>
    (c.ancestors first).find? fun a => c.isCompound a && rest.all fun s => c.isDescendant s a

/-! ## Down -/

/-- The states declared as children of a state. -/
def children (s : D.State) : List D.State := ((c.node? s).map (·.children)).getD []

/-- The history states that belong to a state. -/
def historyChildren (s : D.State) : List D.State := (c.children s).filter c.isHistory

/-- The children that can be active: regions of a parallel state, alternatives of a compound one. -/
def substates (s : D.State) : List D.State :=
  (c.children s).filter (c.hasKind fun k => !k.isHistory)

end Outline

end Statechart
