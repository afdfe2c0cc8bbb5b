import Statechart.Machine.EntrySet
import Statechart.Machine

/-!
# Which transitions are taken

A signal that is addressed to a state (a timer, the end of an invocation, a
completion) can only set off a transition of that state. An event is offered to
every active leaf: the transition nearest to the leaf, on the way up to the root,
that waits for the event and whose guard holds is selected.

Two selected transitions may want to leave the same state. They conflict, and the
one declared on the deeper state is kept; where neither is deeper, the earlier one.
What a transition leaves is determined by its domain, the state it stays within.
-/

namespace Statechart

/-- A transition and where it was found. -/
structure Selected (D : Domain) where
  source : D.State
  /-- The position among the immediate, or among the delayed, transitions of the source. -/
  index : Nat
  transition : Transition D

namespace Selected

variable {D : Domain}

/-- Whether two selected transitions are one. -/
def same (a b : Selected D) : Bool := a.source = b.source && a.index = b.index

/-- The transitions of a state with their positions. -/
def listOf (source : D.State) (transitions : List (Transition D)) : List (Selected D) :=
  transitions.zipIdx.map fun t => { source, index := t.2, transition := t.1 }

end Selected

namespace Machine

variable {D : Domain} (m : Machine D)

/-! ## Selection -/

/-- Whether the guard of a transition holds; a transition without one is free to be taken. -/
def guardHolds (signal : Signal D) (t : Selected D) : Attempt D Bool :=
  match t.transition.guard with
  | none => .ok true
  | some guard =>
    match guard.holds m.context signal with
    | .ok holds => .ok holds
    | .error message => m.halt (.guardPanicked t.source guard.name message)

/-- The first of several transitions that waits for the signal and whose guard holds. -/
def firstEnabled (signal : Signal D) : List (Selected D) → Attempt D (Option (Selected D))
  | [] => .ok none
  | t :: ts =>
    if t.transition.trigger.accepts signal then do
      if ← m.guardHolds signal t then return some t
      else firstEnabled signal ts
    else firstEnabled signal ts

/-- The first enabled transition of the first of several states that has one. -/
def firstEnabledOf (signal : Signal D) : List D.State → Attempt D (Option (Selected D))
  | [] => .ok none
  | s :: rest => do
    let n ← m.lookup s
    match ← m.firstEnabled signal (Selected.listOf s n.immediate) with
    | some t => return some t
    | none => firstEnabledOf signal rest

/-- The transitions that an event sets off below each of several leaves, each once. -/
def selectAbove (signal : Signal D) (leaves : List D.State) : Attempt D (List (Selected D)) :=
  leaves.foldlM
    (fun selected leaf => do
      match ← m.firstEnabledOf signal (leaf :: m.chart.ancestors leaf) with
      | some t => return if selected.any t.same then selected else selected ++ [t]
      | none => return selected)
    []

/-- The transitions that a signal sets off. -/
def select (signal : Signal D) : Attempt D (List (Selected D)) :=
  match signal with
  | .start | .stop => .ok []
  | .event _ => m.selectAbove signal (m.active.filter m.chart.isAtomic)
  | .timer s index _ =>
    if m.isActive s then do
      let n ← m.lookup s
      match (Selected.listOf s n.delayed)[index]? with
      | some t => if ← m.guardHolds signal t then return [t] else return []
      | none => return []
    else .ok []
  | .invokeDone s _ _ | .invokeError s _ _ | .done s =>
    if m.isActive s then (·.toList) <$> m.firstEnabledOf signal [s] else .ok []

/-! ## What a transition leaves -/

/-- Where a transition leads: its target, or what a history state it targets stands for. -/
def targets (t : Selected D) : List D.State :=
  match t.transition.target with
  | none => []
  | some target =>
    match m.chart.node? target with
    | some n => if n.kind.isHistory then m.chart.restored m.history n else [target]
    | none => [target]

/-- The state that a transition stays within; none if it leaves the active states as they are. -/
def domain? (t : Selected D) : Option D.State :=
  let targets := m.targets t
  if t.transition.isActionOnly t.source || targets.isEmpty then none
  else if !t.transition.reenter && m.chart.isCompound t.source
      && targets.all (m.chart.isDescendant · t.source) then
    some t.source
  else some ((m.chart.lcca? (t.source :: targets)).getD m.chart.root)

/-- The states that a transition leaves: the active ones below its domain. -/
def exitSet (t : Selected D) : List D.State :=
  match m.domain? t with
  | none => []
  | some domain => m.configuration.elems.filter (m.chart.isDescendant · domain)

/-! ## Conflicts -/

/-- Whether two transitions leave a state in common. -/
def conflicts (a b : Selected D) : Bool :=
  let left := m.exitSet b
  (m.exitSet a).any (· ∈ left)

/-- The transitions kept so far with one more, which replaces those it conflicts with if it is
declared below all of them, and else is dropped. -/
def keepOrDrop (kept : List (Selected D)) (t : Selected D) : List (Selected D) :=
  let rivals := kept.filter (m.conflicts t)
  if rivals.all fun k => m.chart.isDescendant t.source k.source then
    kept.filter (!m.conflicts t ·) ++ [t]
  else kept

/-- The transitions that are left when conflicts are resolved. -/
def withoutConflicts (selected : List (Selected D)) : List (Selected D) :=
  selected.foldl m.keepOrDrop []

end Machine

end Statechart
