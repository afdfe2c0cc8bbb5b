import Statechart.Runner
import Statechart.Chat.Chart

/-!
# Sessions

A session is one running widget. Its timers are either fired by ticks from outside,
on a clock set by hand, or by a driver of its own, as time passes. Stopping the
session stops the machine, which removes the room, and ends the driver.
-/

namespace Statechart.Chat

/-- One running widget. -/
structure Session where
  runner : Runner domain
  /-- Whether the session fires its timers itself. -/
  drivesTimers : Bool := false
  /-- The driver that fires the timers. -/
  driver : Option Nat := none
  /-- The numbers of the listeners by their labels. -/
  listeners : List (String × Nat) := []

namespace Session

variable (s : Session)

/-- A session that has not been started, with the stamps of what will be written. -/
def ofConfig (c : Config) (drivesTimers canInvoke : Bool) (texts files : Nat → Stamp) : Session :=
  let host : Host := { stamps := files }
  let context := { Context.ofConfig c with stamps := texts }
  let clock : Clock := { byHand := !drivesTimers }
  { runner := { machine := { chart, context, shell := { host, clock }, canInvoke } }
    drivesTimers }

/-- The machine of the session. -/
def machine : Machine domain := s.runner.machine

/-- The session with its machine changed. -/
def withMachine (m : Machine domain) : Session := { s with runner := { s.runner with machine := m } }

/-- What the widget calls out to. -/
def host : Host := s.machine.shell.host

/-- The session with its host changed. -/
def withHost (h : Host) : Session :=
  s.withMachine { s.machine with shell := { s.machine.shell with host := h } }

/-- What the widget keeps track of. -/
def context : Context := s.machine.context

/-- Whether the widget is set up. -/
def isActive : Bool := s.machine.isActive .active

/-- Whether the widget could not be set up. -/
def isFailed : Bool := s.machine.isActive .failed

/-- A call to the machine, and why it failed if it did. -/
def call (fuel : Nat) (c : Call domain) : Option (Session × Option (CallError State)) :=
  (s.runner.call fuel c).map fun (runner, error) => ({ s with runner }, error)

/-- Starts the session, and a driver if the session fires its timers itself. -/
def start (fuel : Nat) : Option (Session × Option (CallError State)) := do
  let (s, error) ← s.call fuel .start
  if error.isSome || !s.drivesTimers then return (s, error)
  else
    match s.runner.spawnDriver with
    | .error d => return (s, some (.defect d))
    | .ok runner => return ({ s with runner, driver := some s.runner.drivers.length }, none)

/-- Stops the session. -/
def stop (fuel : Nat) : Option (Session × Option (CallError State)) := do
  let (s, error) ← s.call fuel .stop
  match s.driver with
  | none => return (s, error)
  | some id => return ({ s with runner := s.runner.abortDriver id, driver := none }, error)

/-- The session with a listener of that label, who watches whether a path of states is active. -/
def subscribe (label : String) (path : List State) : Session :=
  let hear : Reaction domain := fun _ snapshot =>
    [.act fun (h : Host) =>
      { h with heard := h.heard ++ [(label, snapshot.step, snapshot.hasPath path)] }]
  let (m, id) := s.machine.subscribe hear
  { s.withMachine m with listeners := (label, id) :: s.listeners.filter (·.1 ≠ label) }

/-- The session without the listener of that label, if there is one. -/
def unsubscribe (label : String) : Session :=
  match s.listeners.lookup label with
  | some id => s.withMachine (s.machine.unsubscribe id)
  | none => s

end Session

end Statechart.Chat
