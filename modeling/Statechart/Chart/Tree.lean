import Statechart.Action

/-!
# Declaring a chart

A chart is declared as a tree of states. `StateDecl` is what is said of one state:
its kind, its actions, its transitions in the order declared, and the invocation
that runs while it is active. `StateTree` nests such declarations. Nothing is
checked here; a tree may name states it does not have.
-/

namespace Statechart

/-- How much a history state remembers. -/
inductive HistoryMode where
  /-- The active children; each is entered by its own defaults. -/
  | shallow
  /-- The active leaves, however deep. -/
  | deep
deriving DecidableEq

/-- The kinds of states. -/
inductive NodeKind (S : Type) where
  | atomic
  /-- One child is active at a time, `initial` first. -/
  | compound (initial : S)
  /-- All children, its regions, are active at once. -/
  | parallel
  /-- Stands for what its parent remembers; never active itself. -/
  | history (mode : HistoryMode)
  /-- Completes the state it belongs to. -/
  | final
deriving DecidableEq

namespace NodeKind

variable {S : Type}

/-- Whether the kind is atomic. -/
def isAtomic : NodeKind S → Bool
  | .atomic => true
  | _ => false

/-- Whether the kind is compound. -/
def isCompound : NodeKind S → Bool
  | .compound _ => true
  | _ => false

/-- Whether the kind is parallel. -/
def isParallel : NodeKind S → Bool
  | .parallel => true
  | _ => false

/-- Whether the kind is a history kind. -/
def isHistory : NodeKind S → Bool
  | .history _ => true
  | _ => false

/-- Whether the kind is final. -/
def isFinal : NodeKind S → Bool
  | .final => true
  | _ => false

/-- Whether states of the kind have nothing below them and can be active. -/
def isLeaf (k : NodeKind S) : Bool := k.isAtomic || k.isFinal

/-- The state entered first in a state of the kind. -/
def initial? : NodeKind S → Option S
  | .compound s => some s
  | _ => none

/-- The name of a kind. -/
def label : NodeKind S → String
  | .atomic => "Atomic"
  | .compound _ => "Compound"
  | .parallel => "Parallel"
  | .history _ => "History"
  | .final => "Final"

end NodeKind

/-- What a transition waits for. -/
inductive Trigger where
  /-- An external event of this type. -/
  | event (name : String)
  /-- The time since the source state was entered. -/
  | after (delay : Duration)
  /-- The source state's invocation succeeded. -/
  | invokeDone
  /-- The source state's invocation failed. -/
  | invokeError
  /-- The source state completed. -/
  | done
deriving DecidableEq

namespace Trigger

/-- Whether a signal sets off a transition; delays are watched by timers, not by signals. -/
def accepts {D : Domain} : Trigger → Signal D → Bool
  | .event name, .event e => name = D.eventName e
  | .invokeDone, .invokeDone .. => true
  | .invokeError, .invokeError .. => true
  | .done, .done _ => true
  | _, _ => false

/-- The delay, if the trigger is one. -/
def delay? : Trigger → Option Duration
  | .after delay => some delay
  | _ => none

/-- A trigger as text. -/
def describe : Trigger → String
  | .event name => name
  | .after delay => s!"after({delay.toMillis}ms)"
  | .invokeDone => "invoke.done"
  | .invokeError => "invoke.error"
  | .done => "done"

end Trigger

/-- A transition of the state it is declared on. -/
structure Transition (D : Domain) where
  trigger : Trigger
  /-- Where it leads; without a target it only runs its actions. -/
  target : Option D.State := none
  guard : Option (Guard D) := none
  actions : List (Action D) := []
  /-- Leave and enter again even where the target is the source. -/
  reenter : Bool := false

/-- The delay, if the transition is a delayed one. -/
def Transition.delay? {D : Domain} (t : Transition D) : Option Duration := t.trigger.delay?

/-- Whether a transition of `source` leaves the active states as they are. -/
def Transition.isActionOnly {D : Domain} (t : Transition D) (source : D.State) : Bool :=
  match t.target with
  | none => true
  | some target => target = source && !t.reenter

/-- What an invocation does once it runs. -/
inductive Operation (D : Domain) where
  /-- Act on the host and end with a value or a failure. -/
  | run (act : D.Host → D.Host × Except InvokeError D.Output)
  /-- End when somebody outside says so. -/
  | await

/-- An operation that runs beside the machine while its state is active. -/
structure Invocation (D : Domain) where
  name : String
  /-- The operation for one entry of the state, or the message of a panic. -/
  start : D.Context → Except String (Operation D)

/-- What is declared of one state. -/
structure StateDecl (D : Domain) where
  id : D.State
  kind : NodeKind D.State
  /-- For a history state: where it leads before its parent was ever left. -/
  fallback : Option D.State := none
  entry : List (Action D) := []
  exit : List (Action D) := []
  transitions : List (Transition D) := []
  invocation : Option (Invocation D) := none

/-- States declared within states. -/
inductive StateTree (D : Domain) where
  | node (decl : StateDecl D) (children : List (StateTree D))

namespace StateTree

variable {D : Domain}

/-- What is declared of the state at the top. -/
def decl : StateTree D → StateDecl D
  | .node d _ => d

/-- The trees declared directly below the top. -/
def children : StateTree D → List (StateTree D)
  | .node _ cs => cs

/-- The state at the top. -/
def id (t : StateTree D) : D.State := t.decl.id

end StateTree

end Statechart
