import Statechart.Calendar.Timestamp
import Statechart.Chart
import Statechart.StateSet
import Statechart.Machine.Shell
import Statechart.Machine.History
import Statechart.Machine.Timers
import Statechart.Machine.Invocations
import Statechart.Machine.Journal

/-!
# Machines

A machine runs a chart. It has the context, the set of active states (the
configuration), what history states remember, the pending timers, the running
invocations, the journal, and around all of it the shell.

Whatever a machine does either gives a result or comes to a halt: on a defect, with
the machine as it was at that moment, or because the work it was given has no end.
-/

namespace Statechart

/-- An invocation that was started and is to be carried out. -/
structure Launch (D : Domain) where
  state : D.State
  id : InvocationId
  operation : Operation D

/-- A machine running a chart. -/
structure Machine (D : Domain) where
  chart : Chart D
  context : D.Context
  shell : Shell D
  /-- Whether there is somewhere to run invocations at this moment. -/
  canInvoke : Bool := false
  configuration : StateSet D.State := .empty
  history : History D.State := {}
  timers : Timers D.State := .empty
  invocations : Invocations D.State := {}
  /-- The settled steps, stamped with the time. -/
  journal : Journal D.State Timestamp := {}
  /-- The time at which each step settles, which is nobody's to choose. -/
  settledAt : Nat → Timestamp := default
  /-- The number of steps settled so far. -/
  step : Nat := 0
  /-- What was launched since somebody last took it away to carry it out, oldest first. -/
  launched : List (Launch D) := []
  /-- The invocations started so far that wait to be ended from outside, latest first. -/
  awaiting : List (String × InvocationId) := []
  /-- Whether the queue was worked off since somebody last asked. -/
  worked : Bool := false
  /-- Whether the queue is held by a call that a listener's panic has cut short. Nobody works it off
  from then on. -/
  blocked : Bool := false

/-- Why a machine does not get to the end of its work. -/
inductive Halt (D : Domain) where
  | defect (machine : Machine D) (d : Defect D.State)
  /-- The work has no end, as far as it was followed. -/
  | endless

/-- A result, or a halt on the way to it. -/
abbrev Attempt (D : Domain) (α : Type) := Except (Halt D) α

namespace Machine

variable {D : Domain} (m : Machine D)

/-- Whether a state is active. -/
def isActive (s : D.State) : Bool := s ∈ m.configuration

/-- The active states, in document order. -/
def active : List D.State := m.chart.inDocumentOrder m.configuration.elems

/-- The machine's life stage. -/
def status : Status := m.shell.status

/-- The machine as seen from outside. -/
def snapshot : Snapshot D :=
  { status := m.status
    step := m.step
    configuration := m.active
    value := m.chart.value m.isActive
    context := m.context }

/-- The deadline of the next timer. -/
def nextDeadline : Option Duration := m.timers.nextDeadline

/-- Halts on a defect. -/
def halt {α : Type} (d : Defect D.State) : Attempt D α := .error (.defect m d)

/-- The entry of a state, which the chart is expected to have. -/
def lookup (s : D.State) : Attempt D (Node D) :=
  match m.chart.node? s with
  | some n => .ok n
  | none => m.halt (.unknownState s)

/-- The machine with no pending timer and no running invocation. -/
def cancelAll : Machine D :=
  { m with timers := m.timers.clear, invocations := m.invocations.cancelAll }

/-- Runs an action that belongs to state `s`. -/
def runAction (s : D.State) (signal : Signal D) (a : Action D) : Attempt D (Machine D) :=
  match a.deed with
  | .assign patches =>
    match patches m.context signal with
    | .ok ps => .ok { m with context := D.applyAll ps m.context }
    | .error message => m.halt (.actionPanicked s a.name message)
  | .effect commands =>
    match m.shell.performAll m.timers.nextEpoch (commands m.context signal m.shell.host) with
    | (shell, none) => .ok { m with shell }
    | (shell, some message) => { m with shell }.halt (.actionPanicked s a.name message)

/-- Runs actions that belong to state `s`, each on the context that the one before left. -/
def runActions (s : D.State) (signal : Signal D) (actions : List (Action D)) :
    Attempt D (Machine D) :=
  actions.foldlM (fun m a => m.runAction s signal a) m

/-- Counts a step and records it. -/
def settle (signal : Signal D) (exited entered : List D.State) : Machine D :=
  let step := m.step + 1
  { m with
    step
    journal := m.journal.record
      { step, trigger := signal.describe, exited, entered, stamp := m.settledAt step } }

end Machine

end Statechart
