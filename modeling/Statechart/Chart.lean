import Statechart.Chart.Flaw

/-!
# Charts

A chart is the outline of a tree that has no flaws. The tree is kept beside the
outline, which is computed from it once; the two proofs say so. `StateTree.build` is
the only way to a chart, and says everything that is wrong with a tree it refuses.
-/

namespace Statechart

/-- The outline of a tree without flaws. -/
structure Chart (D : Domain) extends Outline D where
  tree : StateTree D
  outline_eq : toOutline = tree.outline
  flawless : toOutline.flaws = []

/-- The chart of a tree, or everything that is wrong with the tree. -/
def StateTree.build {D : Domain} (tree : StateTree D) : Except (List (Flaw D.State)) (Chart D) :=
  let outline := tree.outline
  match h : outline.flaws with
  | [] => .ok { outline with tree, outline_eq := rfl, flawless := h }
  | flaws => .error flaws

/-- The flaws of a tree as text: their number, then one a line. -/
def Flaw.report {S : Type} (name : S → String) (flaws : List (Flaw S)) : String :=
  flaws.foldl (fun text flaw => text ++ "\n  - " ++ flaw.message name)
    s!"Invalid chart ({flaws.length} defects)"

namespace Chart

variable {D : Domain} (c : Chart D) (active : D.State → Bool)

/-- The active states below and including `s` as a tree of at most `fuel` levels. -/
def valueFrom : Nat → D.State → StateValue D.State
  | 0, s => .leaf s
  | fuel + 1, s =>
    let children := (c.substates s).filter active
    match c.kind? s with
    | some (.compound _) =>
      match children with
      | child :: _ => .compound s (valueFrom fuel child)
      | [] => .leaf s
    | some .parallel => .parallel s (children.map (valueFrom fuel))
    | _ => .leaf s

/-- The active states as a tree; no tree if the root is not active. -/
def value : Option (StateValue D.State) :=
  if active c.root then some (c.valueFrom active c.size c.root) else none

end Chart

end Statechart
