import Mathlib
import Statechart.Proofs.Run

/-!
# Tracing a run

`Run` is a relation. What a given machine goes through when it is called can be computed
as well: `settled?` is the step that it settles on a signal, and `trace` follows a list of
calls, each worked off in one turn. What is computed is a run (`run_trace`), so that a
statement about runs can be tried on a chart.

A domain of states and events and nothing else (`Domain.bare`) is all that such a chart
needs.
-/

namespace Statechart

variable {D : Domain}

namespace Machine

/-- The step that starts a machine, and how it went. -/
def started? (m : Machine D) : Option (Settled D × Progress D) :=
  if m.configuration.isEmpty then do
    let set ← m.chart.enterInto m.history m.chart.root .empty
    let entered := m.chart.inEntryOrder set.elems
    let p ← (m.settleEntry .start [] entered).toOption
    return ({ before := m, signal := .start, taken := [], exited := [], between := m, entered,
              after := absorb p }, p)
  else none

/-- The step in which a machine takes the transitions that a signal sets off, and how it went. -/
def reacted? (m : Machine D) (signal : Signal D) : Option (Settled D × Progress D) := do
  let before ← m.reacting? signal
  let selected ← (before.select signal).toOption
  if selected.isEmpty then none
  else
    let taken := before.withoutConflicts selected
    let exited := before.leaving taken
    let left ← ((before.recordHistories exited).exitStates signal exited).toOption
    let between ← (left.runTransitions signal taken).toOption
    let entered ← between.entering taken
    let p ← (between.settleEntry signal exited entered).toOption
    return ({ before, signal, taken, exited, between, entered, after := absorb p }, p)

/-- The step that a machine settles on a signal, and how it went. -/
def settled? (m : Machine D) : Signal D → Option (Settled D × Progress D)
  | .start => m.started?
  | signal => m.reacted? signal

/-- The step that a machine settles in one turn, and what it goes on from. -/
def turned? (m : Machine D) : Option (Settled D × Machine D) :=
  if m.blocked || m.shell.stopRequested then none
  else
    match m.nextTurn with
    | .process m₀ signal later =>
      (m₀.settled? signal).map fun (step, p) =>
        let o := (absorb p).notify
        match o.error with
        | none => (step, o.machine.enqueueAll later)
        | some _ => (step, o.machine)
    | .idle | .skip _ => none

/-- The step that a machine settles in the first turn after a call, and what it goes on from. -/
def called? (m : Machine D) (call : Call D) : Option (Settled D × Machine D) :=
  match m.shell.receive m.timers.nextEpoch call with
  | .admitted shell => { m with shell }.turned?
  | .refused _ | .ignored => none

/-- A run that goes on with a call, worked off in one turn. -/
def follow (run : List (Settled D) × Machine D) (call : Call D) : List (Settled D) × Machine D :=
  match run.2.shell.receive run.2.timers.nextEpoch call with
  | .admitted shell =>
    match { run.2 with shell }.turned? with
    | some (step, m) => (step :: run.1, m)
    | none => (run.1, { run.2 with shell })
  | .refused _ | .ignored => run

/-- What a machine goes through when it is called: the steps it settles, the latest first, and the
machine in the end. -/
def trace (m : Machine D) (calls : List (Call D)) : List (Settled D) × Machine D :=
  calls.foldl follow ([], m)

variable {c : Chart D} {m m' : Machine D} {signal : Signal D} {p : Progress D}
  {step : Settled D} {run : List (Settled D) × Machine D}

theorem toOption_eq_some {ε α : Type} {e : Except ε α} {a : α}
    (h : e.toOption = some a) : e = .ok a := by
  cases e with
  | error => exact absurd h (by simp [Except.toOption])
  | ok => exact congrArg Except.ok (Option.some.inj h)

theorem settles_of_started? (h : m.started? = some (step, p)) :
    m.Settles step p ∧ step.signal = .start := by
  unfold started? at h
  split at h
  · next hempty =>
    simp only [Option.bind_eq_bind, Option.bind_eq_some_iff, Option.pure_def, Option.some.injEq,
      Prod.mk.injEq] at h
    obtain ⟨set, hset, p', hp, rfl, rfl⟩ := h
    exact ⟨.initial hempty hset (toOption_eq_some hp), rfl⟩
  · exact absurd h (by simp)

theorem settles_of_reacted? (h : m.reacted? signal = some (step, p)) :
    m.Settles step p ∧ step.signal = signal := by
  unfold reacted? at h
  simp only [Option.bind_eq_bind, Option.bind_eq_some_iff] at h
  obtain ⟨before, hbefore, selected, hsel, h⟩ := h
  split at h
  · exact absurd h (by simp)
  · next hne =>
    simp only [Option.bind_eq_some_iff, Option.pure_def, Option.some.injEq, Prod.mk.injEq] at h
    obtain ⟨left, hleft, between, hbetween, entered, hentered, p', hp, rfl, rfl⟩ := h
    exact ⟨.reaction hbefore (toOption_eq_some hsel) (by simpa using hne) rfl rfl
      (toOption_eq_some hleft) (toOption_eq_some hbetween) hentered (toOption_eq_some hp), rfl⟩

theorem settles_of_settled? (h : m.settled? signal = some (step, p)) :
    m.Settles step p ∧ step.signal = signal := by
  unfold settled? at h
  split at h
  · exact settles_of_started? h
  · exact settles_of_reacted? h

theorem settling_of_turned? (h : m.turned? = some (step, m')) : m.Settling step m' := by
  unfold turned? at h
  split at h
  · exact absurd h (by simp)
  · next hserves =>
    rw [Bool.not_eq_true, Bool.or_eq_false_iff] at hserves
    replace hserves : m.Serves false := ⟨hserves.1, hserves.2⟩
    split at h
    · next m₀ signal later hturn =>
      obtain ⟨⟨step', p⟩, hstep, heq⟩ := Option.map_eq_some_iff.mp h
      obtain ⟨hsettles, rfl⟩ := settles_of_settled? hstep
      dsimp only at heq
      split at heq
      · next he =>
        rw [Prod.mk.injEq] at heq
        exact heq.1 ▸ heq.2 ▸ .turn hserves hturn hsettles he
      · next he =>
        rw [Prod.mk.injEq] at heq
        exact heq.1 ▸ heq.2 ▸ .turnPanicked hserves hturn hsettles he
    · exact absurd h (by simp)
    · exact absurd h (by simp)

theorem run_turned? {steps : List (Settled D)} (hrun : Run c steps m)
    (h : m.turned? = some (step, m')) : Run c (step :: steps) m' :=
  hrun.settle (settling_of_turned? h)

theorem run_called? {steps : List (Settled D)} {call : Call D} (hrun : Run c steps m)
    (h : m.called? call = some (step, m')) : Run c (step :: steps) m' := by
  unfold called? at h
  split at h
  · next shell hr => exact run_turned? (hrun.move (.call hr)) h
  · exact absurd h (by simp)
  · exact absurd h (by simp)

theorem run_follow (hrun : Run c run.1 run.2) (call : Call D) :
    Run c (follow run call).1 (follow run call).2 := by
  unfold follow
  split
  · next shell hr =>
    have hcalled := hrun.move (.call hr)
    split
    · next step m hturned => exact hcalled.settle (settling_of_turned? hturned)
    · exact hcalled
  · exact hrun
  · exact hrun

/-- What is computed for a fresh machine is a run. -/
theorem run_trace (hm : m.Fresh) (calls : List (Call D)) :
    Run m.chart (m.trace calls).1 (m.trace calls).2 :=
  List.foldlRecOn (motive := fun run => Run m.chart run.1 run.2) calls follow (Run.fresh rfl hm)
    fun _ hrun call _ => run_follow hrun call

end Machine

/-! ## Charts of states and events -/

/-- States of a given type, events that are strings, and nothing else. -/
abbrev Domain.bare (S : Type) [DecidableEq S] : Domain where
  State := S
  Event := String
  Context := Unit
  Patch := Unit
  Output := Unit
  Host := Unit
  decEqState := inferInstance
  stateName := fun _ => ""
  eventName := id
  apply := fun _ _ => ()

variable {S : Type} [DecidableEq S]

/-- A transition on an event. -/
def Transition.bare (event : String) (target : S) (reenter : Bool := false) :
    Transition (.bare S) :=
  { trigger := .event event, target := some target, reenter }

/-- A transition that waits for something other than an event. -/
def Transition.bareOn (trigger : Trigger) (target : S) : Transition (.bare S) :=
  { trigger, target := some target }

/-- A state with what is declared below it. -/
def StateTree.bare (id : S) (kind : NodeKind S) (transitions : List (Transition (.bare S)) := [])
    (children : List (StateTree (.bare S)) := []) : StateTree (.bare S) :=
  .node { id, kind, transitions } children

/-- A machine on a chart that nobody has called yet. -/
def Chart.machine (c : Chart (.bare S)) : Machine (.bare S) :=
  { chart := c, context := (), shell := { host := () } }

/-- What a machine on a chart goes through is a run on it. -/
theorem Chart.run_trace (c : Chart (.bare S)) (calls : List (Call (.bare S))) :
    Machine.Run c (c.machine.trace calls).1 (c.machine.trace calls).2 :=
  Machine.run_trace (m := c.machine) ⟨rfl, rfl, rfl, rfl, rfl, rfl, rfl, rfl, rfl, rfl, rfl⟩ calls

end Statechart
