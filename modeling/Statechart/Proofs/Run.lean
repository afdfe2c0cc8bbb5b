import Statechart.Proofs.Machine.Frames

/-!
# Runs

A run is what a machine goes through from the moment it is made: calls from outside
and results of invocations come in, the clock is moved, listeners come and go, and one
turn of the queue follows the other. Most of this settles nothing (`Move`). A turn that
settles a step (`Settling`) leaves a `Settled`, which has the machine at the moments
that matter: as the transitions were selected, between leaving and entering, and as the
listeners are told of it. Nothing is worked off in a machine whose queue is blocked
(`Serves`).

`Run` says it one turn at a time and without fuel, so that it also covers work that has
no end. It covers everything that a machine can be made to do from outside:
whatever moves and settled steps keep (`Closed`) is kept as the queue is worked off, and so
calls and results are parts of a run (`run_call`, `run_deliver`).
-/

namespace Statechart

variable {D : Domain}

/-- A settled step. -/
structure Settled (D : Domain) where
  /-- The machine as the transitions are selected. -/
  before : Machine D
  signal : Signal D
  taken : List (Selected D)
  exited : List D.State
  /-- The machine when all is left that is to be left, and nothing entered yet. -/
  between : Machine D
  entered : List D.State
  /-- The machine as the listeners are told of it. -/
  after : Machine D

namespace Machine

/-- Whether the machine is running or completed. -/
def Up (m : Machine D) : Prop := m.status = .running ∨ m.status = .done

/-- Whether the queue of a machine can be worked off, and whether the machine is to be stopped before
that. -/
structure Serves (m : Machine D) (stopping : Bool) : Prop where
  free : m.blocked = false
  stopRequested : m.shell.stopRequested = stopping

/-- A machine nobody has called yet. -/
structure Fresh (m : Machine D) : Prop where
  status : m.status = .notStarted
  queue : m.shell.queue = []
  stopRequested : m.shell.stopRequested = false
  free : m.blocked = false
  configuration : m.configuration.elems = []
  history : m.history.records = []
  timers : m.timers.pending = []
  invocations : m.invocations.running = []
  journal : m.journal.records = []
  step : m.step = 0
  launched : m.launched = []

/-- The machine that reacts to a signal. The result of an invocation retires the invocation; one
that is not waited for is passed over. -/
def reacting? (m : Machine D) : Signal D → Option (Machine D)
  | .start | .stop => none
  | .invokeDone s id _ | .invokeError s id _ =>
    (m.invocations.consume? s id).map fun invocations => { m with invocations }
  | .event _ | .timer .. | .done _ => some m

/-- How a machine that processes a signal settles a step. -/
inductive Settles (m : Machine D) : Settled D → Progress D → Prop
  | initial {set : StateSet D.State} {p : Progress D} :
      m.configuration.isEmpty → m.chart.enterInto m.history m.chart.root .empty = some set →
      m.settleEntry .start [] (m.chart.inEntryOrder set.elems) = .ok p →
        Settles m
          { before := m
            signal := .start
            taken := []
            exited := []
            between := m
            entered := m.chart.inEntryOrder set.elems
            after := absorb p } p
  | reaction {before left between : Machine D} {signal : Signal D} {selected taken : List (Selected D)}
      {exited entered : List D.State} {p : Progress D} :
      m.reacting? signal = some before → before.select signal = .ok selected → selected ≠ [] →
      before.withoutConflicts selected = taken → before.leaving taken = exited →
      (before.recordHistories exited).exitStates signal exited = .ok left →
      left.runTransitions signal taken = .ok between → between.entering taken = some entered →
      between.settleEntry signal exited entered = .ok p →
        Settles m { before, signal, taken, exited, between, entered, after := absorb p } p

/-- How a machine at work settles a step, and what it goes on from. -/
inductive Settling (m : Machine D) : Settled D → Machine D → Prop
  | turn {m₀ : Machine D} {later : List (Work D)} {step : Settled D} {p : Progress D} :
      m.Serves false → m.nextTurn = .process m₀ step.signal later →
      m₀.Settles step p → (absorb p).notify.error = none →
        Settling m step ((absorb p).notify.machine.enqueueAll later)
  | turnPanicked {m₀ : Machine D} {later : List (Work D)} {step : Settled D} {p : Progress D}
      {e : CallError D.State} :
      m.Serves false → m.nextTurn = .process m₀ step.signal later →
      m₀.Settles step p → (absorb p).notify.error = some e →
        Settling m step (absorb p).notify.machine
  | stop {m₁ : Machine D} {o : Outcome D} :
      m.Up → m.Serves true →
      { m with shell := { m.shell with queue := [] } }.teardown = .ok m₁ → m.finish = some o →
        Settling m
          { before := m
            signal := .stop
            taken := []
            exited := m.chart.inExitOrder m.configuration.elems
            between := m₁
            entered := []
            after := { m₁ with shell := { m₁.shell with status := .stopped } } } o.machine

/-- What a machine can go through without settling a step. -/
inductive Move (m : Machine D) : Machine D → Prop
  | call {c : Call D} {shell : Shell D} :
      m.shell.receive m.timers.nextEpoch c = .admitted shell → Move m { m with shell }
  | result {s : D.State} {id : InvocationId} {invocations : Invocations D.State}
      {result : Except InvokeError D.Output} :
      m.isLive → m.invocations.settle? s id = some invocations →
        Move m ({ m with invocations }.enqueueAll [.signal (resultSignal s id result)])
  | skip {m' : Machine D} :
      m.Serves false → m.nextTurn = .skip m' → Move m m'
  | pass {m₀ : Machine D} {signal : Signal D} {later : List (Work D)} {p : Progress D} :
      m.Serves false → m.nextTurn = .process m₀ signal later →
      m₀.process signal = .ok p → p.settled = false → Move m ((absorb p).enqueueAll later)
  | fault {m₀ m₁ : Machine D} {signal : Signal D} {later : List (Work D)} {d : Defect D.State} :
      m.Serves false → m.nextTurn = .process m₀ signal later →
      m₀.process signal = .error (.defect m₁ d) → Move m (m₁.fault d).machine
  | faultStopping {m₁ : Machine D} {d : Defect D.State} :
      m.Up → m.Serves true →
      { m with shell := { m.shell with queue := [] } }.teardown = .error (.defect m₁ d) →
        Move m (m₁.fault d).machine
  /-- The clock, the host, the listeners, what is to be carried out and whether it can be belong to
  the outside. -/
  | outside {host : D.Host} {clock : Clock} {listeners : List (Listener D)} {nextListener : Nat}
      {launched : List (Launch D)} {awaiting : List (String × InvocationId)}
      {canInvoke worked : Bool} :
      Move m
        { m with
          shell := { m.shell with host, clock, listeners, nextListener }
          launched, awaiting, canInvoke, worked }

/-- A run of a machine on a chart, with the steps settled so far, the latest first. -/
inductive Run (c : Chart D) : List (Settled D) → Machine D → Prop
  | fresh {m : Machine D} : m.chart = c → m.Fresh → Run c [] m
  | move {steps : List (Settled D)} {m m' : Machine D} : Run c steps m → m.Move m' → Run c steps m'
  | settle {steps : List (Settled D)} {m m' : Machine D} {step : Settled D} :
      Run c steps m → m.Settling step m' → Run c (step :: steps) m'

end Machine

/-- Whether the machine is running or completed after the step. -/
def Settled.Live (step : Settled D) : Prop := step.after.Up

namespace Machine

variable {c : Chart D} {m m₀ m' : Machine D} {signal : Signal D} {p : Progress D}
  {steps : List (Settled D)} {step : Settled D}

/-! ## What processing a signal does -/

/-- Retiring an invocation leaves the others running. -/
theorem running_consume {t t' : Invocations D.State} {s : D.State} {id : InvocationId}
    (h : t.consume? s id = some t') : t'.running ⊆ t.running := by
  unfold Invocations.consume? at h
  split at h
  · rw [Option.some.injEq] at h
    exact h ▸ fun e he => (List.mem_filter.mp he).1
  · exact absurd h (by simp)

/-- Taking in a signal changes nothing but that an invocation is retired. -/
theorem exists_of_reacting? {before : Machine D} (h : m.reacting? signal = some before) :
    ∃ invocations : Invocations D.State, invocations.running ⊆ m.invocations.running ∧
      before = { m with invocations } := by
  have hresult : ∀ {s id}, (m.invocations.consume? s id).map
        (fun invocations => { m with invocations }) = some before →
      ∃ invocations : Invocations D.State, invocations.running ⊆ m.invocations.running ∧
        before = { m with invocations } := by
    intro s id h
    obtain ⟨invocations, hconsume, rfl⟩ := Option.map_eq_some_iff.mp h
    exact ⟨invocations, running_consume hconsume, rfl⟩
  cases signal with
  | start | stop => exact absurd h (by simp [reacting?])
  | invokeDone | invokeError => exact hresult h
  | event | timer | done => exact ⟨m.invocations, List.Subset.refl _, (Option.some.inj h).symm⟩

theorem reacting?_keeps {before : Machine D} (h : m.reacting? signal = some before) :
    before.chart = m.chart ∧ before.history = m.history ∧
      before.configuration = m.configuration ∧ before.status = m.status := by
  obtain ⟨_, -, rfl⟩ := exists_of_reacting? h
  exact ⟨rfl, rfl, rfl, rfl⟩

/-- What a machine does with a signal other than the one that starts it. -/
theorem process_eq (hsignal : signal ≠ .start) : m.process signal =
    match m.reacting? signal with
    | some before => before.react signal
    | none => .ok { machine := m } := by
  cases signal with
  | start => exact absurd rfl hsignal
  | invokeDone s id _ | invokeError s id _ =>
    unfold process reacting?
    dsimp only
    cases m.invocations.consume? s id <;> rfl
  | _ => rfl

theorem orEndless_eq_ok {α : Type} {o : Option α} {a : α}
    (h : (orEndless o : Attempt D α) = .ok a) : o = some a := by
  cases o with
  | some b => exact congrArg some (Except.ok.inj h)
  | none => exact absurd h (by simp [orEndless])

/-- Reacting to a signal settles a step if transitions are selected. -/
theorem settles_of_react {before : Machine D} (hm : m.reacting? signal = some before)
    (h : before.react signal = .ok p) :
    (before.select signal = .ok [] ∧ p = { machine := before }) ∨
      ∃ step, m.Settles step p ∧ step.signal = signal := by
  unfold react at h
  obtain ⟨selected, hselect, h⟩ := bind_eq_ok.mp h
  split at h
  · exact Or.inl ⟨hselect, (pure_eq_ok.mp h).symm⟩
  · next hne =>
    obtain ⟨left, hleft, h⟩ := bind_eq_ok.mp h
    obtain ⟨between, hbetween, h⟩ := bind_eq_ok.mp h
    obtain ⟨entered, hentered, h⟩ := bind_eq_ok.mp h
    exact Or.inr ⟨_, .reaction hm hselect hne rfl rfl hleft hbetween (orEndless_eq_ok hentered) h,
      rfl⟩

/-- The signal that starts a machine settles a step if nothing is active. -/
theorem settles_of_start (h : m.process .start = .ok p) :
    p = { machine := m } ∨ ∃ step, m.Settles step p ∧ step.signal = .start := by
  unfold process at h
  dsimp only at h
  split at h
  · next hempty =>
    obtain ⟨set, hset, h⟩ := bind_eq_ok.mp h
    exact Or.inr ⟨_, .initial hempty (orEndless_eq_ok hset) h, rfl⟩
  · exact Or.inl (Except.ok.inj h).symm

/-- Processing a signal settles a step, or changes nothing but that an invocation is retired. -/
theorem process_cases (h : m.process signal = .ok p) :
    (∃ invocations : Invocations D.State, invocations.running ⊆ m.invocations.running ∧
        p = { machine := { m with invocations } }) ∨
      ∃ step, m.Settles step p ∧ step.signal = signal := by
  by_cases hs : signal = .start
  · subst hs
    exact (settles_of_start h).imp_left fun hp => ⟨m.invocations, List.Subset.refl _, hp⟩
  · rw [process_eq hs] at h
    cases hreact : m.reacting? signal with
    | none =>
      rw [hreact] at h
      exact Or.inl ⟨m.invocations, List.Subset.refl _, (Except.ok.inj h).symm⟩
    | some before =>
      rw [hreact] at h
      refine (settles_of_react hreact h).imp_left fun hp => ?_
      obtain ⟨invocations, hrunning, rfl⟩ := exists_of_reacting? hreact
      exact ⟨invocations, hrunning, hp.2⟩

theorem settled_of_settles (h : m.Settles step p) : p.settled = true ∧ step.after = absorb p := by
  cases h with
  | initial _ _ h => exact ⟨(settleEntry_spec h).1, rfl⟩
  | reaction _ _ _ _ _ _ _ _ h => exact ⟨(settleEntry_spec h).1, rfl⟩

/-! ## What a settled step does -/

end Machine

namespace Settled

/-- How the machine after a step came about when transitions were taken. -/
structure Reaction (step : Settled D) : Prop where
  selected : ∃ l, step.before.select step.signal = .ok l ∧ l ≠ [] ∧
    step.before.withoutConflicts l = step.taken
  exited : step.before.leaving step.taken = step.exited
  chart : step.between.chart = step.before.chart
  history : step.between.history = (step.before.recordHistories step.exited).history
  left : ∀ x, x ∈ step.between.configuration ↔ x ∈ step.before.configuration ∧ x ∉ step.exited
  entered : step.between.entering step.taken = some step.entered

/-- How the machine after a step came about when it was started. -/
structure Initial (step : Settled D) : Prop where
  empty : step.before.configuration.isEmpty
  same : step.between = step.before
  taken : step.taken = []
  exited : step.exited = []
  entered : ∃ set, step.before.chart.enterInto step.before.history step.before.chart.root .empty =
    some set ∧ step.entered = step.before.chart.inEntryOrder set.elems

/-- What every step does that does not stop the machine. -/
structure Enters (step : Settled D) : Prop where
  chart : step.after.chart = step.between.chart
  history : step.after.history = step.between.history
  configuration : ∀ x, x ∈ step.after.configuration ↔
    x ∈ step.between.configuration ∨ x ∈ step.entered
  entering : ∃ p, step.between.enterAll step.signal step.entered = .ok p

/-- A step on a chart that started the machine, or in which transitions were taken. -/
structure On (c : Chart D) (step : Settled D) : Prop where
  chart : step.before.chart = c
  live : step.Live
  enters : step.Enters
  cases : step.Initial ∨ step.Reaction

variable {step : Settled D}

theorem chart_between (h : step.Initial ∨ step.Reaction) :
    step.between.chart = step.before.chart := by
  rcases h with hi | hr
  · rw [hi.same]
  · exact hr.chart

/-- A step leaves alone what it does not exit, and what is active after it was so before, or was
entered. -/
theorem mem_after (henters : step.Enters) (h : step.Initial ∨ step.Reaction) (x : D.State) :
    x ∈ step.after.configuration ↔
      (x ∈ step.before.configuration ∧ x ∉ step.exited) ∨ x ∈ step.entered := by
  rw [henters.configuration]
  rcases h with hi | hr
  · rw [hi.same, hi.exited]
    simp
  · rw [hr.left]

end Settled

namespace Machine

variable {c : Chart D} {m m₀ m' : Machine D} {signal : Signal D} {p : Progress D}
  {steps : List (Settled D)} {step : Settled D}

private theorem enters_of_settleEntry {exited entered : List D.State}
    (h : m.settleEntry signal exited entered = .ok p) :
    (absorb p).chart = m.chart ∧ (absorb p).history = m.history ∧
      (∀ x, x ∈ (absorb p).configuration ↔ x ∈ m.configuration ∨ x ∈ entered) ∧
      ∃ p', m.enterAll signal entered = .ok p' := by
  obtain ⟨-, hchart, hhistory, -, hconf⟩ := settleEntry_spec h
  obtain ⟨hchart', hhistory', hconf', -⟩ := absorb_spec p
  exact ⟨hchart'.trans hchart, hhistory'.trans hhistory, fun x => by rw [hconf', hconf],
    (exists_of_settleEntry h).imp fun _ => And.left⟩

/-- What a settled step did: it started the machine, or transitions were taken. -/
theorem settles_cases (h : m.Settles step p) :
    step.Enters ∧ (step.before.chart = m.chart ∧ step.before.history = m.history ∧
      step.before.configuration = m.configuration) ∧ (step.Initial ∨ step.Reaction) := by
  cases h with
  | initial hempty hset h =>
    obtain ⟨h₁, h₂, h₃, h₄⟩ := enters_of_settleEntry h
    exact ⟨⟨h₁, h₂, h₃, h₄⟩, ⟨rfl, rfl, rfl⟩, Or.inl ⟨hempty, rfl, rfl, rfl, _, hset, rfl⟩⟩
  | @reaction before left between signal selected taken exited entered p hm hsel hne htaken hexited
      hleft hbetween hentered h =>
    obtain ⟨h₁, h₂, h₃, h₄⟩ := enters_of_settleEntry h
    obtain ⟨hk, hc⟩ := exitStates_keeps hleft
    obtain ⟨hk', hc'⟩ := runTransitions_keeps hbetween
    obtain ⟨hchart, hhistory, hconf, -⟩ := reacting?_keeps hm
    refine ⟨⟨h₁, h₂, h₃, h₄⟩, ⟨hchart, hhistory, hconf⟩, Or.inr ⟨⟨selected, hsel, hne, htaken⟩,
      hexited, hk'.chart.trans hk.chart, hk'.history.trans hk.history, fun x => ?_, hentered⟩⟩
    change x ∈ between.configuration ↔ _
    rw [hc', hc]
    rfl

/-- A step does not end the machine's life otherwise than by completing it. -/
theorem settles_status (h : m.Settles step p) (hm : m.status ≠ .notStarted) :
    (absorb p).status = m.status ∨ (absorb p).status = .done := by
  have hend : p.machine.status = m.status := by
    cases h with
    | initial _ _ h => exact (settleEntry_spec h).2.2.2.1 hm
    | @reaction before left between signal _ _ _ _ _ hreact _ _ _ _ hleft hbetween _ h =>
      obtain ⟨-, -, -, hbefore⟩ := reacting?_keeps hreact
      have hk := keeps_trans (exitStates_keeps hleft).1 (runTransitions_keeps hbetween).1
      have hs : between.status = m.status :=
        (hk.status (by change before.status ≠ _; rwa [hbefore])).trans hbefore
      rw [(settleEntry_spec h).2.2.2.1 (by rwa [hs]), hs]
  rw [← hend]
  exact (absorb_spec p).2.2.2

/-! ## Turns -/

theorem nextTurn_skip (h : m.nextTurn = .skip m') :
    m' = { m with shell := { m.shell with queue := m'.shell.queue } } := by
  unfold nextTurn at h
  split at h
  · exact absurd h (by simp)
  · dsimp only at h
    split at h
    · rw [Turn.skip.injEq] at h
      exact h ▸ rfl
    · split at h
      · exact absurd h (by simp)
      · split at h
        · rw [Turn.skip.injEq] at h
          exact h ▸ rfl
        · exact absurd h (by simp)

/-- A signal is only processed while the machine is running. -/
theorem nextTurn_process {later : List (Work D)} (h : m.nextTurn = .process m₀ signal later) :
    m.status = .running ∧
      m₀ = { m with shell := { m.shell with queue := m₀.shell.queue }, timers := m₀.timers } := by
  unfold nextTurn at h
  split at h
  · exact absurd h (by simp)
  · dsimp only at h
    split at h
    · exact absurd h (by simp)
    · next hrun =>
      rw [ne_eq, Decidable.not_not] at hrun
      split at h
      · rw [Turn.process.injEq] at h
        exact h.1 ▸ ⟨hrun, rfl⟩
      · split at h
        · exact absurd h (by simp)
        · rw [Turn.process.injEq] at h
          exact h.1 ▸ ⟨hrun, rfl⟩

/-! ## Whether the queue is blocked -/

/-- A step leaves the queue blocked or free; only listeners can block it. -/
theorem blocked_of_settles (h : m.Settles step p) : (absorb p).blocked = m.blocked := by
  rw [blocked_absorb]
  cases h with
  | initial _ _ h => exact blocked_settleEntry h
  | reaction hreact _ _ _ _ hleft hbetween _ h =>
    obtain ⟨_, -, rfl⟩ := exists_of_reacting? hreact
    have hkeeps := keeps_trans (exitStates_keeps hleft).1 (runTransitions_keeps hbetween).1
    exact (blocked_settleEntry h).trans hkeeps.blocked

theorem blocked_of_process (h : m.process signal = .ok p) : (absorb p).blocked = m.blocked := by
  rcases process_cases h with ⟨inv, -, rfl⟩ | ⟨step, hstep, rfl⟩
  · exact blocked_absorb _
  · exact blocked_of_settles hstep

/-- A signal that is processed without an error leaves the queue free. -/
theorem blocked_of_advance {o : Outcome D} (ho : m.advance signal = some o) (he : o.error = none) :
    o.machine.blocked = m.blocked := by
  unfold advance at ho
  split at ho
  · exact absurd ho (by simp)
  · rw [← Option.some.inj ho] at he
    exact absurd he (by simp [fault])
  · next p hproc =>
    have hsame := blocked_of_process hproc
    obtain rfl := Option.some.inj ho
    split at he
    · next hsettled =>
      rw [if_pos hsettled, Bool.eq_iff_iff, blocked_notify, or_iff_left fun hne => hne he, hsame]
    · next hsettled => rwa [if_neg hsettled]

/-! ## Every call is part of a run -/

theorem up_of_isLive (h : m.isLive) : m.Up := by
  simp only [isLive, Bool.and_eq_true, Bool.or_eq_true, decide_eq_true_eq] at h
  exact h.2

/-- What is kept by every move and every settled step. -/
structure Closed (R : List (Settled D) → Machine D → Prop) : Prop where
  move : ∀ {steps : List (Settled D)} {m m' : Machine D}, R steps m → m.Move m' → R steps m'
  settle : ∀ {steps : List (Settled D)} {m m' : Machine D} {step : Settled D},
    R steps m → m.Settling step m' → R (step :: steps) m'

theorem closed_run : Closed (Run c) := ⟨Run.move, Run.settle⟩

/-- A note that the queue was worked off is all that is added to an outcome. -/
theorem noted_eq (o : Outcome D) : ∃ worked,
    noted o = { o with machine := { o.machine with worked } } := by
  unfold noted
  split
  · exact ⟨o.machine.worked, rfl⟩
  · exact ⟨true, rfl⟩

section

variable {R : List (Settled D) → Machine D → Prop} (hR : Closed R)

include hR

private theorem closed_finish {o : Outcome D} (hrun : R steps m) (hup : m.Up)
    (hstop : m.Serves true) (h : m.finish = some o) :
    ∃ new, R (new ++ steps) o.machine := by
  rcases finish_cases h with ⟨m₁, d, hdown, rfl⟩ | ⟨m₁, _, _, hdown, -⟩
  · exact ⟨[], hR.move hrun (.faultStopping hup hstop hdown)⟩
  · exact ⟨[_], hR.settle hrun (.stop hup hstop hdown h)⟩

/-- A machine that works its queue off keeps what moves and settled steps keep. -/
theorem closed_workOff : ∀ (fuel : Nat) {steps : List (Settled D)} {m : Machine D} {o : Outcome D},
    R steps m → m.Up → m.blocked = false → m.workOff fuel = some o →
      ∃ new, R (new ++ steps) o.machine
  | 0, _, _, _, _, _, _, h => absurd h (by simp [workOff])
  | fuel + 1, steps, m, o, hrun, hup, hfree, h => by
    unfold workOff at h
    split at h
    · next hstop => exact closed_finish hR hrun hup ⟨hfree, hstop⟩ h
    · next hstop =>
      rw [Bool.not_eq_true] at hstop
      have hserves : m.Serves false := ⟨hfree, hstop⟩
      split at h
      · rw [Option.some.injEq] at h
        exact ⟨[], h ▸ hrun⟩
      · next m' hturn =>
        refine closed_workOff fuel (hR.move hrun (.skip hserves hturn)) ?_ ?_ h
        · rw [nextTurn_skip hturn]
          exact hup
        · rw [nextTurn_skip hturn]
          exact hfree
      · next m₀ signal later hturn =>
        obtain ⟨hstatus, hm₀⟩ := nextTurn_process hturn
        have hfree₀ : m₀.blocked = false := by rw [hm₀]; exact hfree
        have hm₀ : m₀.status = .running := by rw [hm₀]; exact hstatus
        obtain ⟨o', ho', hrest⟩ := Option.bind_eq_some_iff.mp h
        have hfree' : o'.error = none → (o'.machine.enqueueAll later).blocked = false :=
          fun he => (blocked_of_advance ho' he).trans hfree₀
        unfold advance at ho'
        split at ho'
        · exact absurd ho' (by simp)
        · next m₁ d hproc =>
          rw [Option.some.injEq] at ho'
          subst ho'
          have hfault := Option.some.inj hrest
          exact ⟨[], hfault ▸ hR.move hrun (.fault hserves hturn hproc)⟩
        · next p hproc =>
          rw [Option.some.injEq] at ho'
          subst ho'
          rcases process_cases hproc with ⟨inv, -, rfl⟩ | ⟨step, hstep, rfl⟩
          · exact closed_workOff fuel (hR.move hrun (.pass hserves hturn hproc rfl)) (Or.inl hm₀)
              (hfree' rfl) hrest
          · rw [if_pos (settled_of_settles hstep).1] at hrest hfree'
            -- nothing but completing changes the status, and listeners cannot change it
            have hup' : (absorb p).notify.machine.Up := by
              have hs := settles_status hstep (by rw [hm₀]; simp)
              rw [hm₀] at hs
              have hne : (absorb p).status ≠ .notStarted := by rcases hs with hs | hs <;> simp [hs]
              rw [Up, notify_status hne]
              exact hs
            split at hrest
            · next e he =>
              have hpanic := Option.some.inj hrest
              exact ⟨[step], hpanic ▸ hR.settle hrun (.turnPanicked hserves hturn hstep he)⟩
            · next he =>
              obtain ⟨new, hnew⟩ := closed_workOff fuel
                (hR.settle hrun (.turn hserves hturn hstep he)) hup' (hfree' he) hrest
              exact ⟨new ++ [step], by rwa [List.append_assoc]⟩

theorem closed_drain {o : Outcome D} {fuel : Nat} (hrun : R steps m) (hup : m.Up)
    (h : m.drain fuel = some o) : ∃ new, R (new ++ steps) o.machine := by
  unfold drain at h
  split at h
  · exact ⟨[], Option.some.inj h ▸ hrun⟩
  · next hfree =>
    obtain ⟨o', ho', rfl⟩ := Option.map_eq_some_iff.mp h
    obtain ⟨new, hnew⟩ := closed_workOff hR fuel hrun hup (by simpa using hfree) ho'
    obtain ⟨worked, he⟩ := noted_eq o'
    exact ⟨new, he ▸ hR.move hnew .outside⟩

/-- So does a call from outside. -/
theorem closed_call {o : Outcome D} {fuel : Nat} {call : Call D} (hrun : R steps m)
    (h : m.call fuel call = some o) : ∃ new, R (new ++ steps) o.machine := by
  unfold Machine.call at h
  split at h
  · rw [Option.some.injEq] at h
    exact ⟨[], h ▸ hrun⟩
  · rw [Option.some.injEq] at h
    exact ⟨[], h ▸ hrun⟩
  · next shell hr =>
    refine closed_drain hR (hR.move hrun (.call hr)) ?_ h
    exact Shell.up_of_receive hr

/-- So does the result of an invocation that comes in. -/
theorem closed_deliver {fuel : Nat} {s : D.State} {id : InvocationId}
    {result : Except InvokeError D.Output} (hrun : R steps m)
    (h : m.deliver fuel s id result = some m') : ∃ new, R (new ++ steps) m' := by
  unfold deliver at h
  split at h
  · next hlive =>
    split at h
    · rw [Option.some.injEq] at h
      exact ⟨[], h ▸ hrun⟩
    · next invocations hs =>
      obtain ⟨o, ho, rfl⟩ := Option.map_eq_some_iff.mp h
      exact closed_drain hR (hR.move hrun (.result hlive hs)) (up_of_isLive hlive) ho
  · rw [Option.some.injEq] at h
    exact ⟨[], h ▸ hrun⟩

end

/-- A call from outside is part of a run. -/
theorem run_call {o : Outcome D} {fuel : Nat} {call : Call D} (hrun : Run c steps m)
    (h : m.call fuel call = some o) : ∃ new, Run c (new ++ steps) o.machine :=
  closed_call closed_run hrun h

/-- The result of an invocation coming in is part of a run. -/
theorem run_deliver {fuel : Nat} {s : D.State} {id : InvocationId}
    {result : Except InvokeError D.Output} (hrun : Run c steps m)
    (h : m.deliver fuel s id result = some m') : ∃ new, Run c (new ++ steps) m' :=
  closed_deliver closed_run hrun h

end Machine

end Statechart
