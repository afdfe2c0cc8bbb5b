/-!
# The configuration as a tree

A set of active states, read along the chart, is a tree: a compound state with the
one active child below it, a parallel state with all its active regions, and the
other states as leaves. `follows` asks whether a path of states can be walked down
from the top of the tree, `contains` whether it can be walked down from anywhere.
-/

namespace Statechart

/-- The active states below and including one, as a tree. -/
inductive StateValue (S : Type) where
  | leaf (state : S)
  | compound (state : S) (active : StateValue S)
  | parallel (state : S) (regions : List (StateValue S))

namespace StateValue

variable {S : Type}

/-- The state at the top. -/
def state : StateValue S → S
  | .leaf s | .compound s _ | .parallel s _ => s

mutual

/-- Whether `path` can be walked down from the top; it may end above the leaves. -/
def follows [DecidableEq S] (path : List S) : StateValue S → Bool
  | .leaf s =>
    match path with
    | [] => true
    | p :: rest => p = s && rest.isEmpty
  | .compound s active =>
    match path with
    | [] => true
    | p :: rest => p = s && (rest.isEmpty || active.follows rest)
  | .parallel s regions =>
    match path with
    | [] => true
    | p :: rest => p = s && (rest.isEmpty || anyFollows rest regions)

/-- Whether `path` can be walked down from the top of one of several trees. -/
def anyFollows [DecidableEq S] (path : List S) : List (StateValue S) → Bool
  | [] => false
  | v :: vs => v.follows path || anyFollows path vs

end

mutual

/-- Whether `path` can be walked down from some state of the tree. -/
def contains [DecidableEq S] (path : List S) : StateValue S → Bool
  | .leaf s => (leaf s).follows path
  | .compound s active => (compound s active).follows path || active.contains path
  | .parallel s regions => (parallel s regions).follows path || anyContains path regions

/-- Whether `path` can be walked down from some state of one of several trees. -/
def anyContains [DecidableEq S] (path : List S) : List (StateValue S) → Bool
  | [] => false
  | v :: vs => v.contains path || anyContains path vs

end

mutual

/-- The leaves from left to right. -/
def leaves : StateValue S → List S
  | .leaf s => [s]
  | .compound _ active => active.leaves
  | .parallel _ regions => allLeaves regions

/-- The leaves of several trees. -/
def allLeaves : List (StateValue S) → List S
  | [] => []
  | v :: vs => v.leaves ++ allLeaves vs

end

mutual

/-- The states of the tree, each before those below it. -/
def states : StateValue S → List S
  | .leaf s => [s]
  | .compound s active => s :: active.states
  | .parallel s regions => s :: allStates regions

/-- The states of several trees. -/
def allStates : List (StateValue S) → List S
  | [] => []
  | v :: vs => v.states ++ allStates vs

end

mutual

/-- The tree as text: a point before a child, braces around regions. -/
def render (name : S → String) : StateValue S → String
  | .leaf s => name s
  | .compound s active => name s ++ "." ++ active.render name
  | .parallel s regions => name s ++ ".\x7b" ++ renderAll name regions ++ "\x7d"

/-- Several trees with commas between them. -/
def renderAll (name : S → String) : List (StateValue S) → String
  | [] => ""
  | [v] => v.render name
  | v :: vs => v.render name ++ ", " ++ renderAll name vs

end

end StateValue

end Statechart
