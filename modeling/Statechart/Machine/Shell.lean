import Statechart.Machine.Defect

/-!
# Around the machine

The shell is what a machine shows to the code that runs inside its steps: the host,
the clock, the machine's life stage, the queue of work, and the listeners. A command
of an action or a listener changes the shell and nothing else; that is why a call
made in the middle of a step never sees, and never disturbs, a machine halfway
between two configurations.

A call asks to start, to take an event, to fire due timers or to stop. `receive` decides
what becomes of it by the life stage alone. An admitted call is a change of the
shell: work at the end of the queue, or the wish to stop. Doing the work is up to
whoever made the call from outside; a call made from inside leaves it to the call
that is being carried out.
-/

namespace Statechart

/-- A clock: the last reading, and whether it is moved by hand or follows the time. -/
structure Clock where
  now : Duration := .zero
  byHand : Bool := true

namespace Clock

/-- The clock moved forward, if it is moved by hand; nothing if it would run past the largest
reading. -/
def forward? (c : Clock) (span : Duration) : Option Clock :=
  if c.byHand then (c.now.plus? span).map fun now => { c with now } else some c

/-- The clock set to a reading, if it is moved by hand. -/
def set (c : Clock) (now : Duration) : Clock := if c.byHand then { c with now } else c

/-- The clock when that much time has passed in all, if it is not moved by hand. -/
def follow (c : Clock) (time : Duration) : Clock := if c.byHand then c else { c with now := time }

end Clock

/-- Work waiting in the queue. -/
inductive Work (D : Domain) where
  | signal (s : Signal D)
  /-- Fire the timers due at a clock reading that were armed before the horizon. -/
  | timers (now : Duration) (horizon : Nat)

/-- Somebody who is told of every settled step. -/
structure Listener (D : Domain) where
  id : Nat
  /-- The number of calls so far. -/
  calls : Nat := 0
  react : Reaction D

/-- What the code run by a machine can see and change. -/
structure Shell (D : Domain) where
  host : D.Host
  clock : Clock := {}
  status : Status := .notStarted
  queue : List (Work D) := []
  stopRequested : Bool := false
  listeners : List (Listener D) := []
  nextListener : Nat := 0

/-- What can be asked of a machine. -/
inductive Call (D : Domain) where
  | start
  | send (event : D.Event)
  | tick
  | stop

/-- What becomes of a call. -/
inductive Admission (D : Domain) where
  | refused (r : Refusal)
  /-- There is nothing to do. -/
  | ignored
  /-- The work that the call asks for is noted in this shell. -/
  | admitted (shell : Shell D)

namespace Shell

variable {D : Domain} (s : Shell D)

/-- The shell with work at the end of the queue. -/
def enqueue (w : Work D) : Shell D := { s with queue := s.queue ++ [w] }

/-- What becomes of new work, by the machine's life stage. A stop that was asked for comes first. -/
def receiveWork (w : Work D) : Admission D :=
  if s.stopRequested then .refused .stopped
  else
    match s.status with
    | .notStarted => .refused .notStarted
    | .running => .admitted (s.enqueue w)
    | .done => .ignored
    | .stopped => .refused .stopped
    | .faulted => .refused .faulted

/-- What becomes of a call; `horizon` is the epoch of the next timer to be armed. -/
def receive (horizon : Nat) : Call D → Admission D
  | .start =>
    match s.status with
    | .notStarted => .admitted ({ s with status := .running }.enqueue (.signal .start))
    | .running | .done => .refused .alreadyStarted
    | .stopped => .refused .stopped
    | .faulted => .refused .faulted
  | .send e => s.receiveWork (.signal (.event e))
  | .tick => s.receiveWork (.timers s.clock.now horizon)
  | .stop =>
    match s.status with
    | .notStarted => .refused .notStarted
    | .running | .done => .admitted { s with stopRequested := true, queue := [] }
    | .stopped => .ignored
    | .faulted => .refused .faulted

/-- The shell after a call made by a command, and the reply. -/
def callInside (horizon : Nat) (c : Call D) : Shell D × Reply :=
  match s.receive horizon c with
  | .refused r => (s, .refused r)
  | .ignored => (s, .ok)
  | .admitted s => (s, .ok)

/-- The shell after a call made by a command, the host told of the reply. -/
def callAndTell (horizon : Nat) (c : Call D) (tell : Reply → D.Host → D.Host) : Shell D :=
  let (s, reply) := s.callInside horizon c
  { s with host := tell reply s.host }

/-- The shell with one more listener, and the listener's number. -/
def subscribe (react : Reaction D) : Shell D × Nat :=
  let id := s.nextListener
  let listeners := s.listeners ++ [{ id := id, react := react }]
  ({ s with listeners, nextListener := id + 1 }, id)

/-- The shell without one of its listeners. -/
def unsubscribe (id : Nat) : Shell D :=
  { s with listeners := s.listeners.filter (·.id ≠ id) }

/-- Carries out a command. The text of a panic comes back with the shell. -/
def perform (horizon : Nat) : Command D → Shell D × Option String
  | .act change => ({ s with host := change s.host }, none)
  | .advance span =>
    match s.clock.forward? span with
    | some clock => ({ s with clock }, none)
    | none => (s, some "overflow when adding durations")
  | .send e tell => (s.callAndTell horizon (.send e) tell, none)
  | .start tell => (s.callAndTell horizon .start tell, none)
  | .stop tell => (s.callAndTell horizon .stop tell, none)
  | .tick tell => (s.callAndTell horizon .tick tell, none)
  | .status tell => ({ s with host := tell (some s.status) s.host }, none)
  | .subscribe react tell =>
    let (s, id) := s.subscribe react
    ({ s with host := tell id s.host }, none)
  | .unsubscribe which =>
    match which s.host with
    | some id => (s.unsubscribe id, none)
    | none => (s, none)
  | .panic message => (s, some message)

/-- Carries out commands in order, up to the first that panics. -/
def performAll (horizon : Nat) (s : Shell D) : List (Command D) → Shell D × Option String
  | [] => (s, none)
  | c :: cs =>
    match s.perform horizon c with
    | (s, none) => performAll horizon s cs
    | (s, some message) => (s, some message)

/-- The shell with the call of a listener counted. -/
def countCall (id : Nat) : Shell D :=
  { s with
    listeners := s.listeners.map fun l => if l.id = id then { l with calls := l.calls + 1 } else l }

/-- Tells listeners of a snapshot, one after another, up to the first that panics. -/
def tellAll (horizon : Nat) (snapshot : Snapshot D) (s : Shell D) :
    List (Listener D) → Shell D × Option String
  | [] => (s, none)
  | l :: ls =>
    match (s.countCall l.id).performAll horizon (l.react l.calls snapshot) with
    | (s, none) => tellAll horizon snapshot s ls
    | (s, some message) => (s, some message)

/-- Tells everybody who listens at this moment of a snapshot. -/
def notify (horizon : Nat) (snapshot : Snapshot D) : Shell D × Option String :=
  s.tellAll horizon snapshot s.listeners

end Shell

end Statechart
