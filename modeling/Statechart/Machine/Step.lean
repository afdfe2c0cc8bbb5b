import Statechart.Machine.Selection
import Statechart.Machine.Completion

/-!
# Steps

Processing a signal is one step: the selected transitions are freed of conflicts,
the states they leave are left, deepest first, their actions are run, and the states
they lead to are entered, shallowest first. History is recorded before anything is
left. A step that was carried out is settled; a signal that sets off no transition
leaves no trace.

A step raises signals (the completion of states) and launches invocations. Both are
handed back; what becomes of them is decided when the step is over.
-/

namespace Statechart

/-- A step on its way, or carried out. -/
structure Progress (D : Domain) where
  machine : Machine D
  settled : Bool := false
  /-- Whether the machine completed. -/
  completed : Bool := false
  /-- The states whose completion is to be signalled, in order. -/
  raised : List D.State := []
  launches : List (Launch D) := []

namespace Machine

variable {D : Domain} (m : Machine D)

/-! ## Leaving -/

/-- What a history state of mode `mode` that belongs to `s` has to remember of the active states. -/
def remember (mode : HistoryMode) (s : D.State) : List D.State :=
  m.active.filter fun a =>
    match mode with
    | .shallow => m.chart.parent? a = some s
    | .deep => m.chart.isLeaf a && m.chart.isDescendant a s

/-- Records what a history state that belongs to `s` has to remember. -/
def recordHistory (s : D.State) (h : History D.State) (historyState : D.State) :
    History D.State :=
  match m.chart.kind? historyState with
  | some (.history mode) => h.record historyState (m.remember mode s)
  | _ => h

/-- The machine with history recorded for states about to be left. -/
def recordHistories (leaving : List D.State) : Machine D :=
  { m with
    history := leaving.foldl
      (fun h s => (m.chart.historyChildren s).foldl (m.recordHistory s) h) m.history }

/-- Leaves a state: its pending work is cancelled, then its exit actions are run. -/
def exitState (signal : Signal D) (s : D.State) : Attempt D (Machine D) := do
  let n ← m.lookup s
  let m := { m with timers := m.timers.cancel s, invocations := m.invocations.cancel s }
  let m ← m.runActions s signal n.exit
  return { m with configuration := m.configuration.erase s }

/-- Leaves states one after another. -/
def exitStates (signal : Signal D) (leaving : List D.State) : Attempt D (Machine D) :=
  leaving.foldlM (fun m s => m.exitState signal s) m

/-! ## Entering -/

/-- Arms the timers of the delayed transitions of a state entered at `now`. -/
def armTimers (now : Duration) (n : Node D) : Machine D :=
  { m with
    timers := n.delayed.zipIdx.foldl
      (fun q t => q.arm n.id t.2 (t.1.delay?.getD .zero) now) m.timers }

/-- Starts an invocation of state `s`. -/
def launch (s : D.State) (invocation : Invocation D) : Attempt D (Machine D × Launch D) :=
  if !m.canInvoke then m.halt (.nowhereToInvoke s invocation.name)
  else
    match invocation.start m.context with
    | .error message => m.halt (.actionPanicked s invocation.name message)
    | .ok operation =>
      let id := m.invocations.supply.next
      let awaiting := match operation with
        | .await => (invocation.name, id) :: m.awaiting
        | .run _ => m.awaiting
      .ok ({ m with invocations := m.invocations.register s, awaiting }, { state := s, id, operation })

end Machine

namespace Progress

variable {D : Domain} (p : Progress D)

/-- Starts the invocation of a state, if it has one. -/
def launchOf (n : Node D) : Attempt D (Progress D) :=
  match n.invocation with
  | none => .ok p
  | some invocation => do
    let (machine, launch) ← p.machine.launch n.id invocation
    return { p with machine, launches := p.launches ++ [launch] }

/-- Notes what follows from entering a state, if it is a final one. -/
def completeBy (n : Node D) : Progress D :=
  if n.kind.isFinal then
    let completion := p.machine.chart.complete p.machine.isActive n
    { p with
      completed := p.completed || completion.machine
      raised := p.raised ++ completion.completed }
  else p

/-- Enters a state: it becomes active, then its entry actions are run, its timers armed from
`now` on, and its invocation is started. -/
def enterState (signal : Signal D) (now : Duration) (s : D.State) : Attempt D (Progress D) := do
  let m := p.machine
  let n ← m.lookup s
  let m ← { m with configuration := m.configuration.insert s }.runActions s signal n.entry
  let p ← { p with machine := m.armTimers now n }.launchOf n
  return p.completeBy n

/-- The progress as it is if it completes the machine: no work is left pending. -/
def close : Progress D :=
  if p.completed then { p with machine := p.machine.cancelAll, raised := [], launches := [] } else p

end Progress

namespace Machine

variable {D : Domain} (m : Machine D)

/-- Enters states one after another, all at the present clock reading. -/
def enterStates (signal : Signal D) (entering : List D.State) : Attempt D (Progress D) := do
  let start : Progress D := { machine := m }
  let now := m.shell.clock.now
  let p ← entering.foldlM (fun p s => p.enterState signal now s) start
  return p.close

/-! ## Steps -/

/-- The result of a computation that has one, or the halt of one without end. -/
def orEndless {α : Type} : Option α → Attempt D α
  | some a => .ok a
  | none => .error .endless

/-- Puts what a transition enters into the set: what comes with its target, and what lies
between its domain and the states it leads to. -/
def addEntries (set : StateSet D.State) (t : Selected D) : Option (StateSet D.State) :=
  match m.domain? t, t.transition.target with
  | some domain, some target => do
    let set ← m.chart.enterInto m.history target set
    (m.targets t).foldlM (fun set s => m.chart.climbInto m.history s domain set) set
  | _, _ => some set

/-- The states that transitions enter, in the order of entering. -/
def entering (taken : List (Selected D)) : Option (List D.State) :=
  (taken.foldlM m.addEntries .empty).map fun set => m.chart.inEntryOrder set.elems

/-- The states that transitions leave, in the order of leaving. -/
def leaving (taken : List (Selected D)) : List D.State :=
  let left := taken.flatMap m.exitSet
  m.chart.inExitOrder (m.configuration.elems.filter (· ∈ left))

/-- Runs the actions of transitions, one transition after another. -/
def runTransitions (signal : Signal D) (taken : List (Selected D)) : Attempt D (Machine D) :=
  taken.foldlM (fun m t => m.runActions t.source signal t.transition.actions) m

/-- Settles a step in which `exited` was left and `entered` was entered. -/
def settleEntry (signal : Signal D) (exited entered : List D.State) : Attempt D (Progress D) := do
  let p ← m.enterStates signal entered
  return { p with machine := p.machine.settle signal exited entered, settled := true }

/-- Takes transitions that do not conflict. -/
def take (signal : Signal D) (taken : List (Selected D)) : Attempt D (Progress D) := do
  let exited := m.leaving taken
  let m ← (m.recordHistories exited).exitStates signal exited
  let m ← m.runTransitions signal taken
  let entered ← orEndless (m.entering taken)
  m.settleEntry signal exited entered

/-- Enters the root and what comes with it. -/
def enterInitial (signal : Signal D) : Attempt D (Progress D) := do
  let set ← orEndless (m.chart.enterInto m.history m.chart.root .empty)
  m.settleEntry signal [] (m.chart.inEntryOrder set.elems)

/-- Takes the transitions that a signal sets off. -/
def react (signal : Signal D) : Attempt D (Progress D) := do
  match ← m.select signal with
  | [] => return { machine := m }
  | selected => m.take signal (m.withoutConflicts selected)

/-- Processes a signal. -/
def process (signal : Signal D) : Attempt D (Progress D) :=
  match signal with
  | .start => if m.configuration.isEmpty then m.enterInitial signal else .ok { machine := m }
  | .stop => .ok { machine := m }
  | .invokeDone s id _ | .invokeError s id _ =>
    match m.invocations.consume? s id with
    | some invocations => { m with invocations }.react signal
    | none => .ok { machine := m }
  | .event _ | .timer .. | .done _ => m.react signal

/-- Leaves a state on the way to the end, when no work is pending any more. -/
def abandonState (s : D.State) : Attempt D (Machine D) := do
  let n ← m.lookup s
  let m ← m.runActions s .stop n.exit
  return { m with configuration := m.configuration.erase s }

/-- Cancels all pending work and leaves every active state. -/
def teardown : Attempt D (Machine D) := do
  let exited := m.chart.inExitOrder m.configuration.elems
  let m ← exited.foldlM (fun m s => m.abandonState s) m.cancelAll
  return m.settle .stop exited []

end Machine

end Statechart
