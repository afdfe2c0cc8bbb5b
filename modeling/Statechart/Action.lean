import Statechart.Signal
import Statechart.Snapshot

/-!
# Guards, actions and commands

Guards and actions are code supplied with a chart, and may go wrong: a guard
answers, or panics with a message. An action either assigns to the context, by
patches that are all computed before the first is applied, or has effects. Effects
see the host as well. They never touch the machine that runs them directly; what they
want done is a list of commands, carried out in order. A command may change the host, move the clock, or
call the machine, and such a call made from inside a step is answered at once
(`Reply`) while the work it asks for waits until the step is over.

Listeners, called after every settled step, speak the same language of commands.
-/

namespace Statechart

/-- Why a call is refused because of the machine's life stage. -/
inductive Refusal where
  | notStarted
  | alreadyStarted
  | stopped
  | faulted
deriving DecidableEq

namespace Refusal

/-- The reason as text. -/
def message : Refusal → String
  | .notStarted => "Interpreter has not been started"
  | .alreadyStarted => "Interpreter was already started"
  | .stopped => "Interpreter has been stopped"
  | .faulted => "Interpreter is faulted after an earlier defect"

end Refusal

/-- The answer to a call made by a command. -/
inductive Reply where
  | ok
  | refused (r : Refusal)
  /-- There is no machine to call. -/
  | unlinked
deriving DecidableEq

/-- What an effect or a listener wants done. -/
inductive Command (D : Domain) where
  /-- Change the host. -/
  | act (change : D.Host → D.Host)
  /-- Move the clock forward. -/
  | advance (span : Duration)
  /-- Send an event and tell the host the reply. -/
  | send (event : D.Event) (tell : Reply → D.Host → D.Host)
  /-- Start the machine and tell the host the reply. -/
  | start (tell : Reply → D.Host → D.Host)
  /-- Stop the machine and tell the host the reply. -/
  | stop (tell : Reply → D.Host → D.Host)
  /-- Fire the timers that are due and tell the host the reply. -/
  | tick (tell : Reply → D.Host → D.Host)
  /-- Tell the host the machine's life stage. -/
  | status (tell : Option Status → D.Host → D.Host)
  /-- Add a listener and tell the host its number. -/
  | subscribe (react : Nat → Snapshot D → List (Command D)) (tell : Nat → D.Host → D.Host)
  /-- Remove the listener that the host names, if it names one. -/
  | unsubscribe (which : D.Host → Option Nat)
  /-- Give up with a message. -/
  | panic (message : String)

/-- What a listener wants done on its call number `n`, counted from 0, with a snapshot. -/
abbrev Reaction (D : Domain) := Nat → Snapshot D → List (Command D)

/-- A named condition on the context and the signal being processed. -/
structure Guard (D : Domain) where
  name : String
  /-- The answer, or the message of a panic. -/
  holds : D.Context → Signal D → Except String Bool

namespace Guard

variable {D : Domain}

/-- A condition on the context only. -/
def ofContext (name : String) (holds : D.Context → Except String Bool) : Guard D :=
  { name, holds := fun context _ => holds context }

/-- A condition on the external event; no other signal satisfies it. -/
def ofEvent (name : String) (holds : D.Event → Except String Bool) : Guard D :=
  { name
    holds := fun _ signal =>
      match signal.event? with
      | some e => holds e
      | none => .ok false }

/-- The opposite condition. -/
def negate (g : Guard D) : Guard D :=
  { g with holds := fun context signal => (g.holds context signal).map (! ·) }

end Guard

/-- What an action does. -/
inductive Deed (D : Domain) where
  /-- Assign to the context: the patches, or the message of a panic. -/
  | assign (patches : D.Context → Signal D → Except String (List D.Patch))
  /-- Have commands carried out. -/
  | effect (commands : D.Context → Signal D → D.Host → List (Command D))

/-- A named action. -/
structure Action (D : Domain) where
  name : String
  deed : Deed D

namespace Action

variable {D : Domain}

/-- Whether the action assigns to the context. -/
def isAssign (a : Action D) : Bool :=
  match a.deed with
  | .assign _ => true
  | .effect _ => false

/-- An action that makes one assignment. -/
def assign (name : String) (patch : D.Context → Signal D → D.Patch) : Action D :=
  { name, deed := .assign fun context signal => .ok [patch context signal] }

/-- An action that makes any number of assignments. -/
def assignMany (name : String) (patches : D.Context → Signal D → List D.Patch) : Action D :=
  { name, deed := .assign fun context signal => .ok (patches context signal) }

/-- An action that changes the host. -/
def effect (name : String) (change : D.Context → Signal D → D.Host → D.Host) : Action D :=
  { name, deed := .effect fun context signal _ => [.act (change context signal)] }

end Action

/-- The host after a command where there is no machine to call, or the message of a panic. -/
def Command.actAlone {D : Domain} (host : D.Host) : Command D → Except String D.Host
  | .act change => .ok (change host)
  | .send _ tell | .start tell | .stop tell | .tick tell => .ok (tell .unlinked host)
  | .status tell => .ok (tell none host)
  | .advance _ | .subscribe .. | .unsubscribe _ => .ok host
  | .panic message => .error message

/-- The context and the host after an action where there is no machine to call, or the message of a
panic. -/
def Action.runAlone {D : Domain} (a : Action D) (signal : Signal D) (context : D.Context)
    (host : D.Host) : Except String (D.Context × D.Host) :=
  match a.deed with
  | .assign patches => (patches context signal).map fun ps => (D.applyAll ps context, host)
  | .effect commands =>
    ((commands context signal host).foldlM Command.actAlone host).map fun host => (context, host)

end Statechart
