import Statechart.Machine.Queue

/-!
# Running a machine

A machine starts invocations but does not carry them out, and it has timers but does
not watch the clock. A runner does both, one job at a time. A job is either an
invocation that was launched, or a timer driver: a task that waits for the next
deadline and ticks the machine, over and over.

Jobs that can go on wait in line (`ready`). An invocation takes one turn, unless it
waits for an answer from outside; then it steps aside until the answer comes. A
driver in its turn looks for the next deadline. If it lies ahead, the driver goes to
sleep until that time or until it is woken because the machine worked its queue off
and deadlines may have changed. If a timer is due already, the driver first lets all
other jobs have their turn, and ticks then.

Waking is a single token: it wakes the driver that has slept longest, and if none
sleeps, it is kept for the next one that wants to.
-/

namespace Statechart

/-- A job waiting in line. -/
inductive Job (D : Domain) where
  | invocation (launch : Launch D)
  | driver (id : Nat)

/-- What a timer driver does when its turn comes. -/
inductive DriverPhase where
  /-- Look for the next deadline. -/
  | look
  /-- Tick the machine. -/
  | tick
  /-- Sleep until woken, or until that time. -/
  | sleep (wake : Option Duration)
  | ended
deriving DecidableEq

/-- A machine with the jobs that run beside it. -/
structure Runner (D : Domain) where
  machine : Machine D
  /-- The time that has passed since the runner was set up. -/
  now : Duration := .zero
  ready : List (Job D) := []
  /-- Drivers that let everybody in line go first. -/
  deferred : List Nat := []
  /-- Invocations that wait for an answer. -/
  waiting : List (Launch D) := []
  answers : List (InvocationId × Except InvokeError D.Output) := []
  /-- The phases of all drivers started so far. -/
  drivers : List DriverPhase := []
  /-- The sleeping drivers, in the order in which they went to sleep. -/
  sleeping : List Nat := []
  /-- A waking that found nobody asleep. -/
  wakePending : Bool := false
  /-- Whether the machine was given up. -/
  dropped : Bool := false

namespace Runner

variable {D : Domain} (r : Runner D)

/-! ## Drivers -/

/-- The phase of a driver. -/
def phase (id : Nat) : DriverPhase := r.drivers.getD id .ended

/-- The runner with a driver in another phase. -/
def setPhase (id : Nat) (p : DriverPhase) : Runner D := { r with drivers := r.drivers.set id p }

/-- Puts a driver that slept in line, with something to do. -/
def rouse (id : Nat) (p : DriverPhase) : Runner D :=
  { r.setPhase id p with ready := r.ready ++ [.driver id], sleeping := r.sleeping.filter (· ≠ id) }

/-- Wakes the driver that has slept longest, or keeps the waking. -/
def wakeOne : Runner D :=
  match r.sleeping with
  | id :: _ => r.rouse id .look
  | [] => { r with wakePending := true }

/-- Takes launches over from the machine, and wakes a driver if the machine worked its queue off. -/
def afterCall : Runner D :=
  let m := r.machine
  let r := { r with
    machine := { m with launched := [], worked := false }
    ready := r.ready ++ m.launched.map .invocation }
  if m.worked then r.wakeOne else r

/-- Sends a driver to sleep, unless a waking is pending: that one is used up, and the driver,
which would find everything as it was, goes to sleep all the same. -/
def sleepDriver (id : Nat) (wake : Option Duration) : Runner D :=
  { r.setPhase id (.sleep wake) with wakePending := false, sleeping := r.sleeping ++ [id] }

/-- A driver looks for the next deadline. -/
def look (id : Nat) : Runner D :=
  if r.dropped || !r.machine.isLive then r.setPhase id .ended
  else
    match r.machine.nextDeadline with
    | none => r.sleepDriver id none
    | some deadline =>
      let delay := deadline.since r.machine.shell.clock.now
      if delay = .zero then { r.setPhase id .tick with deferred := r.deferred ++ [id] }
      else r.sleepDriver id (some (r.now.add delay).ceilMillis)

/-- A call to the machine, and why it failed if it did. -/
def call (fuel : Nat) (c : Call D) : Option (Runner D × Option (CallError D.State)) :=
  (r.machine.call fuel c).map fun o => ({ r with machine := o.machine }.afterCall, o.error)

/-- A driver ticks the machine, and looks for the next deadline unless the machine refuses. -/
def tick (fuel id : Nat) : Option (Runner D) :=
  if r.dropped then some (r.setPhase id .ended)
  else
    (r.call fuel .tick).map fun (r, error) =>
      match error with
      | some _ => r.setPhase id .ended
      | none => r.look id

/-! ## Jobs -/

/-- Brings the machine the result of an invocation. -/
def deliver (fuel : Nat) (l : Launch D) (result : Except InvokeError D.Output) :
    Option (Runner D) :=
  (r.machine.deliver fuel l.state l.id result).map fun machine => { r with machine }.afterCall

/-- Carries an invocation out, unless it was aborted. -/
def invoke (fuel : Nat) (l : Launch D) : Option (Runner D) :=
  if l.id ∈ r.machine.invocations.aborted then some r
  else
    match l.operation with
    | .run act =>
      let shell := r.machine.shell
      let (host, result) := act shell.host
      { r with machine := { r.machine with shell := { shell with host } } }.deliver fuel l result
    | .await =>
      match r.answers.lookup l.id with
      | some result => r.deliver fuel l result
      | none => some { r with waiting := r.waiting ++ [l] }

/-- One turn of a job. -/
def runJob (fuel : Nat) : Job D → Option (Runner D)
  | .invocation l => r.invoke fuel l
  | .driver id =>
    match r.phase id with
    | .look => some (r.look id)
    | .tick => r.tick fuel id
    | .sleep _ | .ended => some r

/-- Lets every job go on as far as it can, in at most `turns` turns. -/
def pump (fuel : Nat) : Nat → Runner D → Option (Runner D)
  | 0, _ => none
  | turns + 1, r =>
    match r.ready, r.deferred with
    | job :: rest, _ => do pump fuel turns (← { r with ready := rest }.runJob fuel job)
    | [], [] => some r
    | [], ids => pump fuel turns { r with ready := ids.map .driver, deferred := [] }

/-! ## Time -/

/-- The time a sleeping driver wakes by itself. -/
def wakeTime? (id : Nat) : Option Duration :=
  match r.phase id with
  | .sleep wake => wake
  | _ => none

/-- The next time at which a driver wakes by itself. -/
def nextWake : Option Duration :=
  (r.sleeping.filterMap r.wakeTime?).foldl
    (fun least t => some (least.elim t fun l => if l ≤ t then l else t)) none

/-- Lets time pass up to `t`, the machine's clock with it unless that is moved by hand, and rouses
the drivers whose time has come. -/
def passTo (t : Duration) : Runner D :=
  let machine := r.machine.withClock (r.machine.shell.clock.follow t)
  let due := r.sleeping.filter fun id => (r.wakeTime? id).any (· ≤ t)
  due.foldl (fun r id => r.rouse id .tick) { r with machine, now := t }

/-- Lets time pass up to `t`, every driver ticking when its time has come. -/
def sleepUntil (fuel : Nat) (t : Duration) : Nat → Runner D → Option (Runner D)
  | 0, _ => none
  | turns + 1, r => do
    let r ← r.pump fuel fuel
    match r.nextWake.filter (· ≤ t) with
    | some wake => sleepUntil fuel t turns (r.passTo wake)
    | none => (r.passTo t).pump fuel fuel

/-- Lets time pass. -/
def sleep (fuel : Nat) (span : Duration) : Option (Runner D) :=
  r.sleepUntil fuel (r.now.add span) fuel

/-! ## From outside -/

/-- Starts a timer driver, if there is somewhere to run it. -/
def spawnDriver : Except (Defect D.State) (Runner D) :=
  if r.machine.canInvoke then
    let id := r.drivers.length
    .ok { r with drivers := r.drivers ++ [.look], ready := r.ready ++ [.driver id] }
  else .error .nowhereToDrive

/-- Whether the driver started last has ended; no if there never was one. -/
def lastDriverEnded : Bool := r.drivers.getLast? = some .ended

/-- Ends a driver wherever it is. -/
def abortDriver (id : Nat) : Runner D :=
  { r.setPhase id .ended with
    sleeping := r.sleeping.filter (· ≠ id), deferred := r.deferred.filter (· ≠ id) }

/-- Answers the invocation of a name that was started last, if it waits for an answer and has
not got one. -/
def answer (name : String) (result : Except InvokeError D.Output) : Option (Runner D) := do
  let id ← r.machine.awaiting.lookup name
  if (r.answers.lookup id).isSome then none
  else
    let (woken, waiting) := r.waiting.partition (·.id = id)
    return { r with
      answers := (id, result) :: r.answers
      waiting
      ready := r.ready ++ woken.map .invocation }

/-- Gives the machine up: its pending work is cancelled, and drivers end when their turn comes. -/
def drop : Runner D :=
  { r with machine := r.machine.cancelAll, dropped := true }.wakeOne

end Runner

end Statechart
