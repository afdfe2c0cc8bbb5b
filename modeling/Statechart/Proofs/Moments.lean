import Statechart.Proofs.Machine.Assigning
import Statechart.Proofs.Invariant
import Statechart.Proofs.Ownership

/-!
# The moments of a run

Of all that can happen to a machine at one moment (`Machine.Does`) little matters to what it is in
and what it waits for, as long as its life is not over. Either it rests (`Rests`): it stays in its
states, nothing was to be taken on a signal it may have processed, and no timer is armed or
cancelled; one may have been taken out to fire. Or it steps (`Steps`): it processes a signal that
settles a step, and goes on from there. There is no third way (`rests_or_steps`), so that what both
keep is kept as long as the machine lives (`live_of_goes`).
-/

namespace Statechart.Machine

variable {D : Domain} {c : Chart D} {m m' m₀ : Machine D} {e : Event D} {step : Settled D}
  {log : List (Event D)} {signal : Signal D} {t : Timer D.State}

/-- A moment at which a machine stays in its states. -/
structure Rests (m : Machine D) (e : Event D) (m' : Machine D) : Prop where
  unsettled : e.step = none
  configuration : m'.configuration = m.configuration
  history : m'.history = m.history
  context : m'.context = m.context
  status : m'.status = m.status ∨ m.status = .notStarted
  timers : e.processed = none → m'.timers = m.timers
  untaken : ∀ m₀ signal, e.processed = some (m₀, signal) →
    m₀.takes signal = [] ∧ m'.timers = m₀.timers

/-- A moment at which a machine `m₀` settles a step, from which it goes on. -/
structure Steps (m : Machine D) (e : Event D) (m₀ : Machine D) (step : Settled D)
    (m' : Machine D) : Prop where
  settled : e.step = some step
  processed : e.processed = some (m₀, step.signal)
  turn : ∃ later, m.nextTurn = .process m₀ step.signal later
  stage : m₀.SameStage m
  running : m.status = .running
  settles : ∃ p, m₀.Settles step p
  configuration : m'.configuration = step.after.configuration
  history : m'.history = step.after.history
  context : m'.context = step.after.context
  timers : m'.timers = step.after.timers
  status : m'.status = step.after.status

theorem rests_of_does (h : m.Does e m') (he : e.step = none) (hup : m'.status ≠ .faulted) :
    m.Rests e m' := by
  have hstatus : m'.status = m.status ∨ m.status = .notStarted := by
    rcases move_work (move_of_does h he) with ⟨hs, -⟩ | hpasses
    · exact absurd hs hup
    · exact hpasses.status.imp_right And.left
  cases h with
  | call | result | outside =>
    exact ⟨rfl, rfl, rfl, rfl, hstatus, fun _ => rfl, fun _ _ h => absurd h (by simp)⟩
  | discard _ _ hturn | idle _ _ hturn =>
    rw [nextTurn_skip hturn] at hstatus ⊢
    exact ⟨rfl, rfl, rfl, rfl, hstatus, fun _ => rfl, fun _ _ h => absurd h (by simp)⟩
  | @pass m₀ signal _ p _ hturn hproc hp =>
    have hstage := sameStage_of_process hturn
    have huntaken := takes_of_unsettled hproc hp
    rcases process_cases hproc with ⟨invocations, -, rfl⟩ | ⟨step, hstep, -⟩
    · rw [absorb_same] at hstatus ⊢
      refine ⟨rfl, hstage.configuration, hstage.history, hstage.context, hstatus,
        fun h => absurd h (by simp), ?_⟩
      intro m₁ signal' h
      obtain ⟨rfl, rfl⟩ := Prod.mk.inj (Option.some.inj h)
      exact ⟨huntaken, rfl⟩
    · rw [(settled_of_settles hstep).1] at hp
      exact absurd hp (by simp)
  | fault | faultStopping => exact absurd rfl hup
  | turn | turnPanicked | stop => exact absurd he (by simp)

theorem steps_of_does (h : m.Does e m') (he : e.step = some step) (hup : ¬ m'.Ended) :
    ∃ m₀, m.Steps e m₀ step m' := by
  have hlive : step.Live := by
    rcases settling_work (settling_of_does h he) with ⟨-, hend, -⟩ | ⟨_, _, _, -, -, heffects, -⟩
    · exact absurd hend hup
    · exact heffects.status
  obtain ⟨hopen, hturn, hprocessed, hstep, -⟩ := turning_of_does h he hlive
  refine ⟨_, he, hprocessed, ⟨_, hturn⟩, sameStage_of_process hturn, hopen.1, ⟨_, hstep⟩, rfl, rfl,
    rfl, rfl, notify_status ?_⟩
  rcases hlive with h | h <;> simp [h]

/-- As long as its life is not over a machine rests or steps. -/
theorem rests_or_steps (h : m.Does e m') (hup : ¬ m'.Ended) :
    m.Rests e m' ∨ ∃ m₀ step, m.Steps e m₀ step m' := by
  cases he : e.step with
  | none => exact Or.inl (rests_of_does h he fun hs => hup (Or.inr hs))
  | some step =>
    obtain ⟨m₀, hsteps⟩ := steps_of_does h he hup
    exact Or.inr ⟨m₀, step, hsteps⟩

/-- A step that is settled in a turn is one that a machine lives on from. -/
theorem continues_of_settles {later : List (Work D)} {p : Progress D}
    (hstop : m.Serves false) (hturn : m.nextTurn = .process m₀ step.signal later)
    (hsettles : m₀.Settles step p) : ∃ m', m.Settling step m' ∧ ¬ m'.Ended ∧
      m'.configuration = step.after.configuration := by
  obtain ⟨m', hsettling⟩ : ∃ m', m.Settling step m' := by
    cases he : (absorb p).notify.error with
    | none => exact ⟨_, .turn hstop hturn hsettles he⟩
    | some => exact ⟨_, .turnPanicked hstop hturn hsettles he⟩
  have hlive : step.after.Up := (effects_of_settles (turn_passes hturn).2.1 hsettles).status
  rcases settling_work hsettling with ⟨hdead, -⟩ | ⟨_, _, _, -, -, -, hgoes⟩
  · exact absurd hlive hdead
  · refine ⟨m', hsettling, not_ended_of_up ?_, hgoes.configuration⟩
    rwa [Up, hgoes.status]

/-- A machine that turns to a signal goes on from there, if processing it comes to an end. -/
theorem exists_does_of_turn {later : List (Work D)} (hstop : m.Serves false)
    (hturn : m.nextTurn = .process m₀ signal later) (hend : m₀.process signal ≠ .error .endless) :
    ∃ e m', m.Does e m' ∧ e.processed = some (m₀, signal) := by
  cases hproc : m₀.process signal with
  | ok p =>
    rcases process_cases hproc with ⟨invocations, -, rfl⟩ | ⟨step, hsettles, rfl⟩
    · exact ⟨_, _, .pass hstop hturn hproc rfl, rfl⟩
    · obtain ⟨m', hsettling, hup, -⟩ := continues_of_settles hstop hturn hsettles
      obtain ⟨e, hdoes, he⟩ := does_of_settling hsettling
      obtain ⟨m₁, hsteps⟩ := steps_of_does hdoes he hup
      obtain ⟨later', hturn'⟩ := hsteps.turn
      obtain ⟨rfl, -⟩ := Turn.process.inj (hturn.symm.trans hturn')
      exact ⟨e, m', hdoes, hsteps.processed⟩
  | error halt =>
    cases halt with
    | defect => exact ⟨_, _, .fault hstop hturn hproc, rfl⟩
    | endless => exact absurd hproc hend

/-- A machine whose life is over stays that way. -/
theorem not_ended_of_does (h : m.Does e m') (hup : ¬ m'.Ended) : ¬ m.Ended := by
  intro hend
  have hstatus := (unmoved_of_does hend h).1.status
  exact hup (by rwa [Ended, hstatus])

/-- A machine that is running was so before, or has been started. -/
theorem running_of_rests (h : m.Rests e m') (hs : m'.status = .running) :
    m.status = .running ∨ m.status = .notStarted :=
  h.status.imp_left fun hsame => hsame.symm.trans hs

/-- What is to be done with a timer: it is taken out of the table, and its signal is processed. -/
theorem rings_of_turn {later : List (Work D)} (hturn : m.nextTurn = .process m₀ signal later)
    (ht : t ∈ m.timers.pending) (hgone : t ∉ m₀.timers.pending) :
    signal = .timer t.state t.index t.delay := by
  obtain ⟨rest, -, ⟨-, -, rfl⟩ | ⟨now, horizon, u, timers, -, -, hpop, hsignal, rfl⟩⟩ :=
    nextTurn_cases hturn
  · exact absurd ht hgone
  · have hut : u = t := by
      by_contra hne
      exact hgone (((Timers.popDue_spec hpop).2.2 t).mpr ⟨ht, fun h => hne h.symm⟩)
    rw [hsignal, hut]

/-- A timer whose signal is processed was pending, and is the first of those that are due. -/
theorem fires_of_turn {steps : List (Settled D)} {s : D.State} {i : Nat} {delay : Duration}
    {later : List (Work D)} (hrun : Run c steps m)
    (hturn : m.nextTurn = .process m₀ (.timer s i delay) later) : ∃ t ∈ m.timers.pending,
      (t.state = s ∧ t.index = i ∧ t.delay = delay) ∧ m.fires? = some t ∧
        ∃ now horizon, m.shell.queue.head? = some (.timers now horizon) ∧ t.isDue now horizon ∧
          ∀ u ∈ m.timers.pending, u.isDue now horizon → u = t ∨ t.before u := by
  obtain ⟨rest, -, ⟨hqueue, -⟩ | ⟨now, horizon, t, timers, hqueue, -, hpop, hsignal, -⟩⟩ :=
    nextTurn_cases hturn
  · exact absurd (sourced_of_run hrun _ (hqueue ▸ List.mem_cons_self ..)) id
  · obtain ⟨hpending, hdue⟩ := List.mem_filter.mp
      ((Timers.popDue_spec hpop).1.symm ▸ List.mem_cons_self .. : t ∈ m.timers.due now horizon)
    obtain ⟨hstate, hindex, hdelay⟩ := Signal.timer.inj hsignal
    exact ⟨t, hpending, ⟨hstate.symm, hindex.symm, hdelay.symm⟩, by simp [fires?, hqueue, hpop],
      now, horizon, by rw [hqueue]; rfl, hdue, fun u => Timers.first_of_popDue hpop⟩

/-! ## Along a run -/

/-- What rests and steps keep holds as long as the machine lives. -/
theorem live_of_goes {P : List (Event D) → Machine D → Prop} (hcourse : Course c [] m) (hP : P [] m)
    (hrests : ∀ {log m₁ e m₂}, Course c log m₁ → P log m₁ → m₁.Does e m₂ → m₁.Rests e m₂ →
      P (e :: log) m₂)
    (hsteps : ∀ {log m₁ e m₀ step m₂}, Course c log m₁ → P log m₁ → m₁.Does e m₂ → ¬ m₂.Ended →
      m₁.Steps e m₀ step m₂ → P (e :: log) m₂)
    (h : m.Goes log m') (hup : ¬ m'.Ended) : P log m' := by
  induction h with
  | rest => exact hP
  | @next log e m₁ m₂ hgoes hdoes ih =>
    have hcourse₁ : Course c log m₁ := List.append_nil log ▸ course_goes hcourse hgoes
    have hbefore := ih (not_ended_of_does hdoes hup)
    rcases rests_or_steps hdoes hup with h | ⟨m₀, step, h⟩
    · exact hrests hcourse₁ hbefore hdoes h
    · exact hsteps hcourse₁ hbefore hdoes hup h

/-- Nothing is active before the machine is started. -/
theorem inactive_of_notStarted (h : Course c log m) (hs : m.status = .notStarted) :
    m.configuration.elems = [] := by
  induction h with
  | fresh _ hfresh => exact hfresh.configuration
  | @next log e m m' _ hdoes ih =>
    have hup : ¬ m'.Ended := by
      rintro (hend | hend) <;> exact absurd (hs.symm.trans hend) (by simp)
    rcases rests_or_steps hdoes hup with h | ⟨m₀, step, h⟩
    · rw [h.configuration]
      exact ih (h.status.elim (fun hsame => hsame.symm.trans hs) id)
    · have hstarted := (notStarted_of_does hdoes hs).1
      exact absurd (h.running.symm.trans hstarted) (by simp)

section

variable (hroot : ¬ c.isParallel c.root) (hhist : c.HistoryFromOutside)

include hroot hhist

/-- On a chart whose history states are targeted from outside only, every step is a straight one of a
machine in order. -/
theorem straight_of_settling {later : List (Work D)} {p : Progress D} (h : Course c log m)
    (hsettling : m.Settling step m') (hturn : m.nextTurn = .process m₀ step.signal later)
    (hsettles : m₀.Settles step p) : step.On c ∧
      Orderly c (Event.steps log) step.before.configuration step.before.history ∧ step.Straight :=
  straight_of_run hroot hhist ((run_of_course h).settle hsettling) [] step _ rfl
    (effects_of_settles (turn_passes hturn).2.1 hsettles).status

end

end Statechart.Machine
