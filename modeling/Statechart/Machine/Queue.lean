import Statechart.Machine.Step

/-!
# Calls and the queue

A call from outside that is admitted works the queue off: signals are processed one
at a time, first come, first served, and after every settled step whoever listens is
told before the next signal is looked at. What a step sends goes to the end of the
queue as it is sent; the completions it raises go behind that, and whatever
listeners send behind those.

Work that fires timers takes one due timer out at a time and goes to the end of the
queue again after each, so that completions raised by one timer are processed before
the next one fires.

A stop that was asked for comes before all work still waiting. A defect faults the
machine: nothing stays pending and nothing in the queue.

Only one call at a time works the queue off. A listener that panics cuts that call short
without its giving the queue back: the queue is blocked for good. Later calls are
received as before, and what they ask for is noted, but nothing is done about it.

Nothing bounds the number of turns, since steps may send events for ever. `fuel` is
the number of turns after which a queue counts as endless.
-/

namespace Statechart

/-- A machine after a call, and why the call failed if it did. -/
structure Outcome (D : Domain) where
  machine : Machine D
  error : Option (CallError D.State) := none

/-- What the next turn of a queue is. -/
inductive Turn (D : Domain) where
  | idle
  /-- There is nothing to be done for the work taken out. -/
  | skip (machine : Machine D)
  /-- A signal to process, and work to go to the end of the queue after it. -/
  | process (machine : Machine D) (signal : Signal D) (after : List (Work D))

namespace Machine

variable {D : Domain} (m : Machine D)

/-- The machine with work at the end of its queue. -/
def enqueueAll (work : List (Work D)) : Machine D :=
  { m with shell := { m.shell with queue := m.shell.queue ++ work } }

/-- The machine after a defect. -/
def fault (d : Defect D.State) : Outcome D :=
  let m := m.cancelAll
  { machine := { m with shell := { m.shell with status := .faulted, queue := [] } }
    error := some (.defect d) }

/-- Tells everybody who listens of the machine as it is. The queue is blocked if one of them
panics. -/
def notify : Outcome D :=
  let (shell, panic) := m.shell.notify m.timers.nextEpoch m.snapshot
  { machine := { m with shell, blocked := m.blocked || panic.isSome }
    error := panic.map .listenerPanicked }

/-- Hands an invocation over to be carried out. -/
def handOver (l : Launch D) : Machine D :=
  { m with
    invocations := m.invocations.attach l.state l.id l.id
    launched := m.launched ++ [l] }

/-- The machine with the outcome of a step taken in. -/
def absorb (p : Progress D) : Machine D :=
  let m := p.machine
  if p.completed then { m with shell := { m.shell with status := .done, queue := [] } }
  else p.launches.foldl handOver (m.enqueueAll (p.raised.map fun s => .signal (.done s)))

/-- Processes a signal and tells whoever listens. Nothing comes of a step without end. -/
def advance (signal : Signal D) : Option (Outcome D) :=
  match m.process signal with
  | .error .endless => none
  | .error (.defect m d) => some (m.fault d)
  | .ok p => some (if p.settled then (absorb p).notify else { machine := absorb p })

/-- Stops the machine: all pending work is cancelled, every active state left, and whoever
listens told a last time. -/
def finish : Option (Outcome D) :=
  match { m with shell := { m.shell with queue := [] } }.teardown with
  | .error .endless => none
  | .error (.defect m d) => some (m.fault d)
  | .ok m =>
    let o := { m with shell := { m.shell with status := .stopped } }.notify
    some <| match o.error with
      | some _ => o
      | none => { machine := { o.machine with shell := { o.machine.shell with listeners := [] } } }

/-- The next turn of the queue. Work is left undone unless the machine is running. -/
def nextTurn : Turn D :=
  match m.shell.queue with
  | [] => .idle
  | work :: rest =>
    let m := { m with shell := { m.shell with queue := rest } }
    if m.status ≠ .running then .skip m
    else
      match work with
      | .signal s => .process m s []
      | .timers now horizon =>
        match m.timers.popDue now horizon with
        | none => .skip m
        | some (t, timers) => .process { m with timers } (.timer t.state t.index t.delay) [work]

/-- Works the queue off, or stops the machine if that was asked for. -/
def workOff : Nat → Machine D → Option (Outcome D)
  | 0, _ => none
  | fuel + 1, m =>
    if m.shell.stopRequested then m.finish
    else
      match m.nextTurn with
      | .idle => some { machine := m }
      | .skip m => workOff fuel m
      | .process m signal after => do
        let o ← m.advance signal
        match o.error with
        | some _ => return o
        | none => workOff fuel (o.machine.enqueueAll after)

/-- An outcome with a note that the queue was worked off, unless a listener's panic cut that
short. -/
def noted (o : Outcome D) : Outcome D :=
  if o.machine.blocked then o else { o with machine := { o.machine with worked := true } }

/-- Works the queue off, unless it is blocked. -/
def drain (fuel : Nat) : Option (Outcome D) :=
  if m.blocked then some { machine := m } else (m.workOff fuel).map noted

/-! ## Calls from outside -/

/-- A call from outside. -/
def call (fuel : Nat) (c : Call D) : Option (Outcome D) :=
  match m.shell.receive m.timers.nextEpoch c with
  | .refused r => some { machine := m, error := some (.refused r) }
  | .ignored => some { machine := m }
  | .admitted shell => { m with shell }.drain fuel

/-- Whether results of invocations are still of interest. -/
def isLive : Bool := !m.shell.stopRequested && (m.status = .running || m.status = .done)

/-- The signal that brings the result of an invocation. -/
def resultSignal (s : D.State) (id : InvocationId) :
    Except InvokeError D.Output → Signal D
  | .ok output => .invokeDone s id output
  | .error error => .invokeError s id error

/-- Takes in the result of an invocation, if it is still of interest. A defect it leads to faults
the machine, but there is nobody to return it to. -/
def deliver (fuel : Nat) (s : D.State) (id : InvocationId)
    (result : Except InvokeError D.Output) : Option (Machine D) :=
  if m.isLive then
    match m.invocations.settle? s id with
    | none => some m
    | some invocations =>
      let m := { m with invocations }.enqueueAll [.signal (resultSignal s id result)]
      (m.drain fuel).map (·.machine)
  else some m

/-- The machine with one more listener, and the listener's number. -/
def subscribe (react : Reaction D) : Machine D × Nat :=
  let (shell, id) := m.shell.subscribe react
  ({ m with shell }, id)

/-- The machine without one of its listeners. -/
def unsubscribe (id : Nat) : Machine D := { m with shell := m.shell.unsubscribe id }

/-- The machine with another clock. -/
def withClock (clock : Clock) : Machine D := { m with shell := { m.shell with clock } }

/-- The machine with its clock moved forward by hand; nothing if it would run past the largest
reading. -/
def forwardClock? (span : Duration) : Option (Machine D) :=
  (m.shell.clock.forward? span).map m.withClock

/-- The machine with its clock set by hand. -/
def setClock (now : Duration) : Machine D := m.withClock (m.shell.clock.set now)

end Machine

end Statechart
