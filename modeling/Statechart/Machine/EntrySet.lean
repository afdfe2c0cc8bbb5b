import Statechart.Machine.History
import Statechart.Chart
import Statechart.StateSet

/-!
# What is entered along with a state

Entering a state enters more than the state: a compound state comes with its initial
child, a parallel state with all its regions, and entering a history state means
entering what it remembers instead. `addDescendants` puts all of it into a set.
`addAncestors` puts in the states on the way from a state up to a bound, and the
regions that parallel states on that way still lack.

Each needs the other, and a history state that falls back to a history state needs
the first again. The recursion is bounded by `fuel`; a chart whose fallbacks do not
run in a circle never needs more than `Outline.size` and one more.
-/

namespace Statechart.Outline

variable {D : Domain} (c : Outline D) (h : History D.State)

/-- What a history state stands for before its parent was ever left: its fallback, else the
initial child or all the regions of its parent. -/
def fallbacks (n : Node D) : List D.State :=
  match n.fallback, n.parent? with
  | some target, _ => [target]
  | none, none => []
  | none, some parent =>
    match c.kind? parent with
    | some (.compound initial) => [initial]
    | some .parallel => c.substates parent
    | _ => []

/-- What a history state stands for: its record, or what it falls back to. -/
def restored (n : Node D) : List D.State := (h.get? n.id).getD (c.fallbacks n)

/-- Puts the states that `add` finds below each region of a parallel state into the set, for
the regions from which nothing is in the set yet. -/
def addRegions (add : D.State → StateSet D.State → Option (StateSet D.State)) (parallel : D.State)
    (set : StateSet D.State) : Option (StateSet D.State) :=
  (c.substates parallel).foldlM
    (fun set region => if set.elems.any (c.isWithin · region) then some set else add region set)
    set

/-- Puts the states around `s` below `bound` into the set, parallel ones with their regions. -/
def addAncestors (add : D.State → StateSet D.State → Option (StateSet D.State))
    (s bound : D.State) (set : StateSet D.State) : Option (StateSet D.State) :=
  (c.ancestorsBelow s (some bound)).foldlM
    (fun set a => if c.isParallel a then c.addRegions add a (set.insert a) else some (set.insert a))
    set

/-- Puts a state and what is entered along with it into the set. -/
def addDescendants : Nat → D.State → StateSet D.State → Option (StateSet D.State)
  | 0, _, _ => none
  | fuel + 1, s, set =>
    match c.node? s with
    | none => some set
    | some n =>
      match n.kind with
      | .history _ =>
        match n.parent? with
        | none => some set
        | some parent => do
          let targets := c.restored h n
          let set ← targets.foldlM (fun set t => addDescendants fuel t set) set
          targets.foldlM (fun set t => c.addAncestors (addDescendants fuel) t parent set) set
      | .compound initial => do
        let set ← addDescendants fuel initial (set.insert s)
        c.addAncestors (addDescendants fuel) initial s set
      | .parallel => c.addRegions (addDescendants fuel) s (set.insert s)
      | .atomic | .final => some (set.insert s)

/-- Fuel enough for a chart whose fallbacks do not run in a circle. -/
def entryFuel : Nat := c.size + 1

/-- Puts what entering `s` enters into the set. -/
def enterInto (s : D.State) (set : StateSet D.State) : Option (StateSet D.State) :=
  c.addDescendants h c.entryFuel s set

/-- Puts what lies between `s` and `bound` into the set. -/
def climbInto (s bound : D.State) (set : StateSet D.State) : Option (StateSet D.State) :=
  c.addAncestors (c.addDescendants h c.entryFuel) s bound set

end Statechart.Outline
