import Statechart.Chart.Order

/-!
# Flaws of a chart

Not every tree of declarations can be run. `StateTree.flaws` lists everything that
is wrong with one: first the states declared again, then what is wrong with each
state, state by state. A tree without flaws makes a chart.

A second declaration of a state is left out of the outline but still named among
the children of the state around it, so a walk down the children may come to a
state several times. Flaws are listed in the order in which states are come to for
the last time; without repetitions that is document order.
-/

namespace Statechart

/-- Something wrong with the declaration of a state. -/
inductive Flaw (S : Type) where
  | repeatedState (state : S)
  /-- A transition or a fallback names a state that the chart does not have. -/
  | unknownTarget (state target : S)
  | initialNotChild (state initial : S)
  | initialIsHistory (state initial : S)
  | emptyCompound (state : S)
  | emptyParallel (state : S)
  | childrenNotAllowed (state : S) (kind : NodeKind S)
  /-- A history state whose parent is neither compound nor parallel. -/
  | orphanHistory (state : S)
  | fallbackOutsideParent (state target : S)
  | behaviourNotAllowed (state : S) (kind : NodeKind S)
  | targetIsRoot (state : S)
  | missingInvocation (state : S)
deriving DecidableEq

/-- A flaw as text. -/
def Flaw.message {S : Type} (name : S → String) : Flaw S → String
  | .repeatedState s => "State " ++ name s ++ " is declared more than once"
  | .unknownTarget s t =>
    "State " ++ name s ++ " references " ++ name t ++ ", which is not part of the chart"
  | .initialNotChild s i =>
    "Initial state " ++ name i ++ " of " ++ name s ++ " is not one of its children"
  | .initialIsHistory s i => "Initial state " ++ name i ++ " of " ++ name s ++ " is a history node"
  | .emptyCompound s =>
    "Compound state " ++ name s ++ " has no children. Add at least one with .child(state)"
  | .emptyParallel s =>
    "Parallel state " ++ name s ++ " has no regions. Add at least one with .child(state)"
  | .childrenNotAllowed s k => k.label ++ " state " ++ name s ++ " cannot have children"
  | .orphanHistory s =>
    "History state " ++ name s ++ " must be a child of a compound or parallel state"
  | .fallbackOutsideParent s t =>
    "Default target " ++ name t ++ " of history state " ++ name s ++ " is outside its parent"
  | .behaviourNotAllowed s k =>
    k.label ++ " state " ++ name s ++ " cannot declare transitions, actions or invocations"
  | .targetIsRoot s => "Transition from " ++ name s ++ " targets the root state"
  | .missingInvocation s =>
    "State " ++ name s ++ " reacts to invocation results but declares no invocation"

namespace Outline

variable {D : Domain} (c : Outline D)

/-! ## The flaws of one state -/

/-- What is wrong with the children of a state. -/
def childFlaws (n : Node D) : List (Flaw D.State) :=
  let bare := (c.substates n.id).isEmpty
  match n.kind with
  | .compound initial =>
    (if bare then [.emptyCompound n.id] else []) ++
      if initial ∉ n.children then [.initialNotChild n.id initial]
      else if c.isHistory initial then [.initialIsHistory n.id initial]
      else []
  | .parallel => if bare then [.emptyParallel n.id] else []
  | .atomic | .final | .history _ =>
    if n.children.isEmpty then [] else [.childrenNotAllowed n.id n.kind]

/-- Whether a state has transitions, actions or an invocation that its kind does not allow. -/
def misbehaves (n : Node D) : Bool :=
  let active := !n.transitions.isEmpty || n.invocation.isSome
  match n.kind with
  | .final => active
  | .history _ => active || !n.entry.isEmpty || !n.exit.isEmpty
  | _ => false

/-- What is wrong with the place and the fallback of a history state. -/
def historyFlaws (n : Node D) : List (Flaw D.State) :=
  match n.parent?.filter fun p => c.isCompound p || c.isParallel p with
  | none => [.orphanHistory n.id]
  | some parent =>
    match n.fallback with
    | none => []
    | some target =>
      if !c.contains target then [.unknownTarget n.id target]
      else if !c.isDescendant target parent || target = n.id then
        [.fallbackOutsideParent n.id target]
      else []

/-- What is wrong with the target of a transition of `source`. -/
def targetFlaws (source : D.State) (t : Transition D) : List (Flaw D.State) :=
  match t.target with
  | none => []
  | some target =>
    if !c.contains target then [.unknownTarget source target]
    else if target = c.root then [.targetIsRoot source]
    else []

/-- Whether a state has transitions that wait for its invocation to end. -/
def awaitsInvocation (n : Node D) : Bool :=
  n.transitions.any fun t => t.trigger = .invokeDone || t.trigger = .invokeError

/-- Everything wrong with one state. -/
def nodeFlaws (n : Node D) : List (Flaw D.State) :=
  c.childFlaws n
    ++ (if misbehaves n then [.behaviourNotAllowed n.id n.kind] else [])
    ++ (if n.kind.isHistory then c.historyFlaws n else [])
    ++ (n.immediate ++ n.delayed).flatMap (c.targetFlaws n.id)
    ++ if awaitsInvocation n && n.invocation.isNone then [.missingInvocation n.id] else []

/-! ## The flaws of a chart -/

/-- The states come to on a walk down from `s` of at most `fuel` levels. -/
def walk : Nat → D.State → List D.State
  | 0, _ => []
  | fuel + 1, s => s :: (c.children s).flatMap (walk fuel)

/-- The entries of an outline, by the time they are come to last. -/
def nodesByLastVisit : List (Node D) :=
  let visits := (c.walk c.size c.root).reverse
  c.nodes.mergeSort fun a b => visits.idxOf b.id ≤ visits.idxOf a.id

/-- Everything wrong with a chart. -/
def flaws : List (Flaw D.State) :=
  c.repeated.map .repeatedState ++ c.nodesByLastVisit.flatMap c.nodeFlaws

theorem flaws_eq_nil_iff :
    c.flaws = [] ↔ c.repeated = [] ∧ ∀ n ∈ c.nodes, c.nodeFlaws n = [] := by
  simp [flaws, nodesByLastVisit]

end Outline

end Statechart
