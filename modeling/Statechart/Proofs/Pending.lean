import Statechart.Proofs.Exchange
import Statechart.Proofs.Tick
import Statechart.Proofs.Machine.Arming
import Statechart.Proofs.Machine.Taking

/-!
# The timers of a state

A state that is active after a moment of a run has just been entered, and its timers are those that
were armed for it (`Joins`), or it was active before, and its timers are those that it had, but for
one that may have been taken out to fire, to no effect on the state (`Remains`). There is no third
way (`joins_or_remains`). So a timer that is pending later on was pending before, or its state has
been entered meanwhile (`pending_of_goes`).

When a tick is over nothing is pending that was due as it began (`due_eq_nil_of_tick`), whatever
else was asked for on the way. A tick need not come to an end, as actions and listeners may go on
asking for more. But what is due fires within finitely many rounds of it, unless it is cancelled
before or the machine breaks off (`resolves_of_tick`).
-/

namespace Statechart

theorem Timers.length_due_le {S : Type} {q q' : Timers S} {now : Duration} {horizon : Nat}
    (h : q'.pending ⊆ q.pending) : (q'.due now horizon).length ≤ (q.due now horizon).length := by
  refine (List.subperm_of_subset (q'.nodup_pending.filter _) fun t ht => ?_).length_le
  obtain ⟨hpending, hdue⟩ := List.mem_filter.mp ht
  exact List.mem_filter.mpr ⟨h hpending, hdue⟩

namespace Machine

variable {D : Domain} {c : Chart D} {m m' m₀ : Machine D} {e : Event D} {step : Settled D}
  {log newer : List (Event D)} {signal : Signal D} {t u : Timer D.State} {x : D.State}
  {o : Outcome D} {fuel : Nat} {now : Duration} {horizon : Nat}

/-! ## Moment by moment -/

/-- A moment at which a state is entered, and its timers are armed. -/
structure Joins (c : Chart D) (m : Machine D) (e : Event D) (m₀ : Machine D) (step : Settled D)
    (m' : Machine D) (x : D.State) : Prop where
  steps : m.Steps e m₀ step m'
  entered : x ∈ step.entered
  timers : ∀ n, c.node? x = some n → ∃ base, ∀ u, u.state = x →
    (u ∈ m'.timers.pending ↔ u ∈ n.timersAt step.between.shell.clock.now base)

/-- A moment at which a state stays active, and keeps its timers. -/
structure Remains (c : Chart D) (m : Machine D) (e : Event D) (m' : Machine D) (x : D.State) :
    Prop where
  running : m.status = .running
  active : x ∈ m.configuration
  pending : ∀ u ∈ m'.timers.pending, u.state = x → u ∈ m.timers.pending
  /-- A timer that it does not keep has been taken out to fire. -/
  fires : ∀ u ∈ m.timers.pending, u.state = x → u ∉ m'.timers.pending →
    ∃ m₀, e.processed = some (m₀, .timer x u.index u.delay)
  /-- No transition that is taken crosses it, unless to a history state. -/
  uncrossed : ∀ m₀ signal, e.processed = some (m₀, signal) → ∀ t ∈ m₀.takes signal, ∀ g,
    t.transition.target = some g → ¬ c.isHistory g → ¬ c.crosses t x

section

variable (hroot : ¬ c.isParallel c.root) (hhist : c.HistoryFromOutside) (hcourse : Course c log m)
  (hdoes : m.Does e m') (hx : x ∈ m'.configuration)

include hcourse hdoes hx

theorem remains_of_rests (hs : m'.status = .running) (h : m.Rests e m') :
    m.Remains c e m' x := by
  have hactive : x ∈ m.configuration := h.configuration ▸ hx
  have hrunning : m.status = .running := by
    refine (running_of_rests h hs).resolve_right fun hs' => ?_
    have hempty := inactive_of_notStarted hcourse hs'
    rw [StateSet.mem_def, hempty] at hactive
    exact List.not_mem_nil hactive
  refine ⟨hrunning, hactive, fun u hu _ => ?_, fun u hu hux hgone => ?_,
    fun m₀ signal he t ht => ?_⟩
  · cases he : e.processed with
    | none => exact h.timers he ▸ hu
    | some processed =>
      obtain ⟨later, hturn⟩ := process_of_does hdoes he
      rw [(h.untaken _ _ he).2] at hu
      exact (turn_passes hturn).1.timers hu
  · cases he : e.processed with
    | none => exact absurd (h.timers he ▸ hu) hgone
    | some processed =>
      obtain ⟨m₀, signal⟩ := processed
      obtain ⟨later, hturn⟩ := process_of_does hdoes he
      rw [(h.untaken _ _ he).2] at hgone
      exact ⟨m₀, by rw [rings_of_turn hturn hu hgone, hux]⟩
  · rw [(h.untaken _ _ he).1] at ht
    exact absurd ht List.not_mem_nil

include hroot hhist

theorem joins_or_remains_of_steps (hs : m'.status = .running) (h : m.Steps e m₀ step m') :
    m.Joins c e m₀ step m' x ∨ m.Remains c e m' x := by
  have hexchanges := Settled.exchanges_of_steps hroot hhist hcourse hdoes h
  obtain ⟨later, hturn⟩ := h.turn
  obtain ⟨p, hsettles⟩ := h.settles
  have hpasses := turn_passes hturn
  have hchart := (clean_of_turn (clean_of_run (run_of_course hcourse)) hturn).chart
  have hrunning : step.after.status = .running := h.status ▸ hs
  have hafter := hexchanges.after x
  rw [← h.configuration] at hafter
  by_cases hentered : x ∈ step.entered
  · refine Or.inl ⟨h, hentered, fun n hn => ?_⟩
    obtain ⟨base, -, hall⟩ := timers_of_entered hpasses.2.1 hsettles hrunning hexchanges.nodup
      hentered (hchart.symm ▸ hn)
    refine ⟨base, fun u hu => ?_⟩
    rw [h.timers, hall u hu, or_iff_right_iff_imp]
    rintro ⟨hpending, hstays⟩
    -- what was pending belonged to the state as it was active before
    have hactive := ((pending_of_run (run_of_course hcourse)).1.timers u
      (hpasses.1.timers hpending)).1
    rw [hu, ← h.stage.configuration] at hactive
    exact absurd (hexchanges.apart _ hentered hactive) hstays
  · obtain ⟨hactive, hstays⟩ := (hafter.mp hx).resolve_right hentered
    have hsame : ∀ u, u.state = x → (u ∈ m'.timers.pending ↔ u ∈ m₀.timers.pending) := by
      intro u hu
      rw [h.timers, timers_of_not_entered hpasses.2.1 hsettles hrunning hentered hu]
      exact and_iff_left hstays
    refine Or.inr ⟨h.running, h.stage.configuration ▸ hactive,
      fun u hu hux => hpasses.1.timers ((hsame u hux).mp hu), fun u hu hux hgone => ?_,
      fun m₁ signal he t ht g hg hplain hcross => ?_⟩
    · rw [hsame u hux] at hgone
      exact ⟨m₀, by rw [h.processed, rings_of_turn hturn hu hgone, hux]⟩
    · obtain ⟨rfl, rfl⟩ := Prod.mk.inj (Option.some.inj (h.processed.symm.trans he))
      exact hstays (hexchanges.leaves t ht g hg hplain x hactive hcross)

/-- What is active while a machine is running has just been entered, or remains. -/
theorem joins_or_remains (hs : m'.status = .running) :
    (∃ m₀ step, m.Joins c e m₀ step m' x) ∨ m.Remains c e m' x := by
  rcases rests_or_steps hdoes (not_ended_of_up (Or.inl hs)) with h | ⟨m₀, step, h⟩
  · exact Or.inr (remains_of_rests hcourse hdoes hx hs h)
  · exact (joins_or_remains_of_steps hroot hhist hcourse hdoes hx hs h).imp_left
      fun h => ⟨m₀, step, h⟩

end

/-- A timer belongs to an active state of a machine that is running. -/
theorem running_of_pending (h : Course c log m) (hu : u ∈ m.timers.pending) :
    m.status = .running ∧ u.state ∈ m.configuration := by
  have howned := (pending_of_run (run_of_course h)).1
  refine ⟨?_, (howned.timers u hu).1⟩
  by_contra hs
  rw [(howned.idle hs).1] at hu
  exact List.not_mem_nil hu

/-- A timer that is pending later on was so before, or its state has been entered meanwhile. -/
theorem pending_of_goes (hroot : ¬ c.isParallel c.root) (hhist : c.HistoryFromOutside)
    (hcourse : Course c log m) (h : m.Goes newer m') (hu : u ∈ m'.timers.pending) :
    u ∈ m.timers.pending ∨ ∃ e ∈ newer, ∃ older m₁ m₂ m₀ step, Course c older m₁ ∧ m₁.Does e m₂ ∧
      m₁.Joins c e m₀ step m₂ u.state := by
  induction h with
  | rest => exact Or.inl hu
  | @next newer e m₁ m₂ hgoes hdoes ih =>
    have hcourse₁ := course_goes hcourse hgoes
    obtain ⟨hs, hx⟩ := running_of_pending (hcourse₁.next hdoes) hu
    rcases joins_or_remains hroot hhist hcourse₁ hdoes hx hs with ⟨m₀, step, hjoins⟩ | hremains
    · exact Or.inr ⟨e, List.mem_cons_self, _, m₁, m₂, m₀, step, hcourse₁, hdoes, hjoins⟩
    · refine (ih (hremains.pending u hu rfl)).imp_right fun hearlier => ?_
      obtain ⟨e', he', hjoined⟩ := hearlier
      exact ⟨e', List.mem_cons_of_mem _ he', hjoined⟩

/-! ## In turn -/

/-- Whether the timers of a state wait for its first one: each comes after that, which is pending as
long as any of them is. -/
def InTurn {S : Type} (x : S) (q : Timers S) : Prop :=
  ∀ t ∈ q.pending, t.state = x → t.index ≠ 0 → ∃ u ∈ q.pending,
    u.state = x ∧ u.index = 0 ∧ u.deadline ≤ t.deadline ∧ u.epoch < t.epoch

/-- Whether no delayed transition comes before the first one. -/
def FirstIsShortest (n : Node D) : Prop :=
  ∀ tr ∈ n.delayed.head?, ∀ tr' ∈ n.delayed, tr.delay?.getD .zero ≤ tr'.delay?.getD .zero

/-- The timers that are armed as a state is entered wait for the first of them. -/
theorem first_of_timersAt {n : Node D} {base : Nat} (hshortest : FirstIsShortest n)
    (ht : t ∈ n.timersAt now base) (hindex : t.index ≠ 0) : ∃ u ∈ n.timersAt now base,
      u.index = 0 ∧ u.deadline ≤ t.deadline ∧ u.epoch < t.epoch := by
  obtain ⟨i, hi, rfl⟩ := List.mem_mapIdx.mp ht
  have hpos : 0 < n.delayed.length := Nat.lt_of_le_of_lt (Nat.zero_le i) hi
  refine ⟨_, List.mem_mapIdx.mpr ⟨0, hpos, rfl⟩, rfl, ?_, ?_⟩
  · have hle := hshortest n.delayed[0] (by simp [List.head?_eq_getElem?, hpos]) n.delayed[i]
      (List.getElem_mem hi)
    simp only [Duration.le_def, Duration.nanos_add] at hle ⊢
    omega
  · exact Nat.add_lt_add_left (Nat.pos_of_ne_zero hindex) base

/-- As long as a state is left as its first timer fires, the others wait for that. -/
theorem inTurn_of_does {n : Node D} {tr : Transition D} {g : D.State}
    (hroot : ¬ c.isParallel c.root) (hhist : c.HistoryFromOutside) (hcourse : Course c log m)
    (hdoes : m.Does e m') (hn : c.node? x = some n) (hshortest : FirstIsShortest n)
    (hd : n.delayed.head? = some tr) (htarget : tr.target = some g) (hplain : ¬ c.isHistory g)
    (hcross : c.crosses ⟨x, 0, tr⟩ x)
    (hholds : ∀ (m₀ : Machine D) delay, m₀.context = m.context →
      m₀.guardHolds (.timer x 0 delay) ⟨x, 0, tr⟩ = .ok true)
    (hbefore : InTurn x m.timers) : InTurn x m'.timers := by
  intro t ht hstate hindex
  obtain ⟨hs, hx⟩ := running_of_pending (hcourse.next hdoes) ht
  rw [hstate] at hx
  rcases joins_or_remains hroot hhist hcourse hdoes hx hs with ⟨m₀, step, hjoins⟩ | hremains
  · obtain ⟨base, hall⟩ := hjoins.timers n hn
    obtain ⟨u, hu, hfirst⟩ := first_of_timersAt hshortest ((hall t hstate).mp ht) hindex
    have hid : u.state = x := by
      obtain ⟨i, hi, rfl⟩ := List.mem_mapIdx.mp hu
      exact (c.node?_eq_some.mp hn).2
    exact ⟨u, (hall u hid).mpr hu, hid, hfirst⟩
  · obtain ⟨u, hu, hstate', hzero, hearlier⟩ :=
      hbefore t (hremains.pending t ht hstate) hstate hindex
    refine ⟨u, ?_, hstate', hzero, hearlier⟩
    -- had the earlier timer fired, its transition would have led out of `x`
    by_contra hgone
    obtain ⟨m₀, hprocessed⟩ := hremains.fires u hu hstate' hgone
    rw [hzero] at hprocessed
    obtain ⟨later, hturn⟩ := process_of_does hdoes hprocessed
    have hstage := sameStage_of_process hturn
    have hchart := (clean_of_turn (clean_of_run (run_of_course hcourse)) hturn).chart
    have htaken : ⟨x, 0, tr⟩ ∈ m₀.takes (.timer x 0 u.delay) :=
      (mem_takes_timer (hchart.symm ▸ hn)).mpr ⟨hstage.configuration ▸ hremains.active, rfl, rfl,
        List.head?_eq_getElem? ▸ hd, hholds m₀ u.delay hstage.context⟩
    exact hremains.uncrossed m₀ _ hprocessed _ htaken g htarget hplain hcross

/-- Of such timers only the first gets its turn. -/
theorem first_of_turn {later : List (Work D)} {i : Nat} {delay : Duration}
    (hcourse : Course c log m) (hturns : InTurn x m.timers)
    (hturn : m.nextTurn = .process m₀ (.timer x i delay) later) : i = 0 := by
  by_contra hindex
  obtain ⟨t, ht, ⟨hstate, rfl, -⟩, -, now, horizon, -, hdue, hfirst⟩ :=
    fires_of_turn (run_of_course hcourse) hturn
  obtain ⟨u, hu, -, hzero, hdeadline, hepoch⟩ := hturns t ht hstate hindex
  -- the first timer is due as well, and goes before it
  simp only [Timer.isDue, Bool.and_eq_true, decide_eq_true_eq] at hdue hfirst
  rcases hfirst u hu ⟨Nat.le_trans hdeadline hdue.1, Nat.lt_trans hepoch hdue.2⟩ with
    rfl | hlt | ⟨-, hlt⟩
  · exact hindex hzero
  · exact Nat.not_lt.mpr hdeadline hlt
  · exact Nat.lt_asymm hepoch hlt

/-! ## Ticks -/

/-- The work that fires timers stays in the queue as long as it takes one out, and all other work
does so too until its turn comes. -/
theorem waits_of_turn {later : List (Work D)} (hturn : m.nextTurn = .process m₀ signal later)
    (hwork : .timers now horizon ∈ m.shell.queue) :
    .timers now horizon ∈ m₀.shell.queue ∨ .timers now horizon ∈ later := by
  obtain ⟨rest, -, ⟨hqueue, -, rfl⟩ | ⟨now', horizon', t, timers, hqueue, rfl, -, -, rfl⟩⟩ :=
    nextTurn_cases hturn
  · rw [hqueue] at hwork
    exact Or.inl ((List.mem_cons.mp hwork).resolve_left (by simp))
  · rw [hqueue] at hwork
    exact (List.mem_cons.mp hwork).symm.imp_right List.mem_singleton.mpr

/-- When the queue is worked off nothing is due any more for the work in it that fires timers. -/
theorem due_eq_nil_of_workOff : ∀ {fuel : Nat} {m : Machine D}, m.status ≠ .notStarted →
    horizon ≤ m.timers.nextEpoch → m.workOff fuel = some o → o.error = none →
    o.machine.status = .running →
    (.timers now horizon ∈ m.shell.queue ∨ m.timers.due now horizon = []) →
      o.machine.timers.due now horizon = []
  | 0, _, _, _, h, _, _, _ => absurd h (by simp [workOff])
  | fuel + 1, m, hm, hh, h, hgood, hend, hwork => by
    obtain ⟨hrunning, hstop⟩ := running_of_workOff hm h hend
    unfold workOff at h
    rw [hstop, if_neg (by simp)] at h
    cases hturn : m.nextTurn with
    | idle =>
      rw [hturn] at h
      obtain rfl := Option.some.inj h
      rw [nextTurn_idle hturn] at hwork
      exact hwork.resolve_left List.not_mem_nil
    | skip m₁ =>
      rw [hturn] at h
      obtain ⟨now', horizon', hqueue, hdue⟩ := nextTurn_running hrunning hturn
      obtain ⟨hstatus, htimers⟩ : m₁.status = m.status ∧ m₁.timers = m.timers := by
        rw [nextTurn_skip hturn]
        exact ⟨rfl, rfl⟩
      refine due_eq_nil_of_workOff (hstatus ▸ hm) (htimers ▸ hh) h hgood hend ?_
      rw [htimers]
      rcases hwork with hwork | hnone
      · rw [hqueue] at hwork
        rcases List.mem_cons.mp hwork with heq | hwork
        · cases heq
          exact Or.inr hdue
        · exact Or.inl hwork
      · exact Or.inr hnone
    | process m₀ signal later =>
      rw [hturn] at h
      obtain ⟨o', ho', h⟩ := Option.bind_eq_some_iff.mp h
      obtain ⟨hpasses, hstatus, -⟩ := turn_passes hturn
      split at h
      · next e he =>
        rw [Option.pure_def, Option.some.injEq] at h
        subst h
        exact absurd hgood (by simp [he])
      · next hnone =>
        obtain ⟨hepoch, hdue⟩ : horizon ≤ o'.machine.timers.nextEpoch ∧
            (o'.machine.timers.due now horizon).Sublist (m₀.timers.due now horizon) :=
          due_of_advance hstatus (hpasses.epoch ▸ hh) ho' hnone
        have hup := up_of_advance hstatus ho' hnone
        have hstarted : (o'.machine.enqueueAll later).status ≠ .notStarted := by
          rcases hup with hs | hs <;> exact fun hs' => absurd (hs.symm.trans hs') (by simp)
        obtain ⟨hrunning', hstop'⟩ := running_of_workOff hstarted h hend
        -- the timers are still to be checked, or none was due, and a step arms none that is
        refine due_eq_nil_of_workOff hstarted hepoch h hgood hend ?_
        rcases hwork with hwork | hempty
        · refine Or.inl ((waits_of_turn hturn hwork).elim (fun hwork => ?_) fun hwork => ?_)
          · exact List.mem_append_left _
              ((waits_of_advance hstatus ho' hnone hrunning' hstop').1.subset hwork)
          · exact List.mem_append_right _ hwork
        · refine Or.inr (List.sublist_nil.mp ?_)
          have hless : m₀.timers.due now horizon = [] := by
            refine List.filter_eq_nil_iff.mpr fun u hu => ?_
            exact List.filter_eq_nil_iff.mp hempty u (hpasses.timers hu)
          exact hless ▸ hdue

/-- When a tick is over nothing is pending that was due as it began, unless the queue is blocked. -/
theorem due_eq_nil_of_tick (hfree : m.blocked = false) (h : m.call fuel .tick = some o)
    (hgood : o.error = none) (hend : o.machine.status = .running) :
    o.machine.timers.due m.shell.clock.now m.timers.nextEpoch = [] := by
  unfold call at h
  cases hr : m.shell.receive m.timers.nextEpoch .tick with
  | refused r =>
    rw [hr] at h
    obtain rfl := Option.some.inj h
    exact absurd hgood (by simp)
  | ignored =>
    rw [hr] at h
    obtain rfl := Option.some.inj h
    -- a machine that is running does not ignore the tick
    have hdone : m.status ≠ .running := by
      intro hs
      simp only [Shell.receive, Shell.receiveWork] at hr
      rw [show m.shell.status = .running from hs] at hr
      split at hr <;> simp at hr
    exact absurd hend hdone
  | admitted shell =>
    have hfree' : { m with shell }.blocked = false := hfree
    rw [hr] at h
    simp only [drain_of_free hfree'] at h
    obtain ⟨o', hoff, rfl⟩ := Option.map_eq_some_iff.mp h
    obtain ⟨worked, he⟩ := noted_eq o'
    rw [he] at hgood hend ⊢
    obtain ⟨hstatus, hqueue⟩ : shell.status ≠ .notStarted ∧
        .timers m.shell.clock.now m.timers.nextEpoch ∈ shell.queue := by
      simp only [Shell.receive, Shell.receiveWork] at hr
      split at hr
      · simp at hr
      · split at hr
        · simp at hr
        · next hs =>
          obtain rfl := Admission.admitted.inj hr
          exact ⟨by simp [Shell.enqueue, hs], by simp [Shell.enqueue]⟩
        all_goals simp at hr
    have hnone : o'.machine.timers.due m.shell.clock.now m.timers.nextEpoch = [] :=
      due_eq_nil_of_workOff (m := { m with shell }) hstatus (Nat.le_refl _) hoff hgood hend
        (Or.inl hqueue)
    exact hnone

/-! ## In finitely many rounds -/

/-- Whether the next step of a machine leaves a state. -/
def Leaves (m : Machine D) (x : D.State) : Prop := ∃ step m', m.Settling step m' ∧ x ∈ step.exited

/-- Whether a listener panics as it is told of the next step of a machine. Then the queue is not worked
off any more. -/
def Panics (m : Machine D) : Prop :=
  ∃ o message, m.Closes o ∧ o.error = some (.listenerPanicked message)

/-- Whether a machine does not go on as before after its next turn: processing the signal has no end
or goes wrong, or it completes the machine or has it stopped. -/
def Breaks (m : Machine D) : Prop :=
  ∃ m₀ signal later, m.nextTurn = .process m₀ signal later ∧ ∀ o, m₀.advance signal = some o →
    o.error = none → o.machine.status = .running → o.machine.shell.stopRequested = true

/-- Whether a timer is due for work that fires timers, while the queue is worked off. -/
structure Awaits (now : Duration) (horizon : Nat) (t : Timer D.State) (m : Machine D) : Prop where
  serves : m.Serves false
  running : m.status = .running
  epoch : horizon ≤ m.timers.nextEpoch
  due : t ∈ m.timers.due now horizon

/-- Whether a machine fires a timer in its next turn, cancels it or breaks off. -/
def Resolves (t : Timer D.State) (m : Machine D) : Prop :=
  m.fires? = some t ∨ m.Cancels t ∨ m.Breaks

/-- The signal of a timer that fires is processed. -/
theorem turn_of_fires (hs : m.status = .running) (h : m.fires? = some t) :
    ∃ m₀ later, m.nextTurn = .process m₀ (.timer t.state t.index t.delay) later := by
  unfold fires? at h
  split at h
  · next now horizon rest hqueue =>
    obtain ⟨⟨t', timers⟩, hpop, rfl⟩ := Option.map_eq_some_iff.mp h
    have hs' : { m with shell := { m.shell with queue := rest } }.status = .running := hs
    refine ⟨{ m with shell := { m.shell with queue := rest }, timers }, [.timers now horizon], ?_⟩
    simp [nextTurn, hqueue, hs', hpop]
  · exact absurd h (by simp)

section

variable {later front back : List (Work D)}

/-- A machine that does not break off goes on running after its next turn. -/
theorem advance_of_not_breaks (hnot : ¬ m.Breaks) (hturn : m.nextTurn = .process m₀ signal later) :
    ∃ o, m₀.advance signal = some o ∧ o.error = none ∧ o.machine.status = .running ∧
      o.machine.shell.stopRequested = false := by
  by_contra hnone
  refine hnot ⟨m₀, signal, later, hturn, fun o ho hgood hrunning => ?_⟩
  by_contra hstop
  exact hnone ⟨o, ho, hgood, hrunning, by simpa using hstop⟩

/-- A machine turns to a signal with all its timers but the one that it fires. -/
theorem pending_of_turn (hturn : m.nextTurn = .process m₀ signal later) (ht : t ∈ m.timers.pending)
    (hfires : m.fires? ≠ some t) : t ∈ m₀.timers.pending := by
  obtain ⟨rest, -, ⟨-, -, rfl⟩ | ⟨now, horizon, u, timers, hqueue, -, hpop, -, rfl⟩⟩ :=
    nextTurn_cases hturn
  · exact ht
  · refine ((Timers.popDue_spec hpop).2.2 t).mpr ⟨ht, fun he => hfires ?_⟩
    simp [fires?, hqueue, hpop, he]

/-- A turn fires the timer, or it is still due after it, unless the machine cancels it or breaks
off. -/
theorem awaits_of_turn (h : Awaits now horizon t m) (hnot : ¬ m.Resolves t)
    (hturn : m.nextTurn = .process m₀ signal later) : ∃ o, m₀.advance signal = some o ∧
      m.Round (o.machine.enqueueAll later) ∧ Awaits now horizon t (o.machine.enqueueAll later) ∧
      m₀.shell.queue <+: o.machine.shell.queue ∧
      (o.machine.timers.due now horizon).length ≤ (m₀.timers.due now horizon).length := by
  simp only [Resolves, not_or] at hnot
  obtain ⟨hfires, hcancels, hbreaks⟩ := hnot
  obtain ⟨o, ho, hgood, hrunning, hstop⟩ := advance_of_not_breaks hbreaks hturn
  obtain ⟨hpending, hdue⟩ := List.mem_filter.mp h.due
  obtain ⟨hpasses, hstatus, -⟩ := turn_passes hturn
  obtain ⟨hwaits, hkept⟩ := waits_of_advance hstatus ho hgood hrunning hstop
  have hpending' : t ∈ o.machine.timers.pending := by
    refine (hkept t (pending_of_turn hturn hpending hfires)).resolve_right fun hleft => ?_
    obtain ⟨step, p, hstep, rfl, hcalm, hx⟩ := hleft
    exact hcancels ⟨hpending, step, _, .turn h.serves hturn hstep hcalm, hx⟩
  obtain ⟨hepoch, hless⟩ := due_of_advance hstatus (hpasses.epoch ▸ h.epoch) ho hgood
  exact ⟨o, ho, .turn h.serves hturn ho hgood,
    ⟨⟨free_of_turn h.serves hturn ho hgood, hstop⟩, hrunning, hepoch,
      List.mem_filter.mpr ⟨hpending', hdue⟩⟩, hwaits, hless.length_le⟩

/-- Nothing but work for which no timer is due is dropped meanwhile. -/
theorem awaits_of_skip (h : Awaits now horizon t m) (hturn : m.nextTurn = .skip m')
    (hqueue : m.shell.queue = front ++ .timers now horizon :: back) : ∃ work front',
      front = work :: front' ∧ m.Round m' ∧ Awaits now horizon t m' ∧
      m'.shell.queue = front' ++ .timers now horizon :: back ∧ m'.timers = m.timers := by
  obtain ⟨now', horizon', hhead, hnone⟩ := nextTurn_running h.running hturn
  have hround : m.Round m' := .skip h.serves hturn
  have hsame := nextTurn_skip hturn
  rw [hhead] at hqueue
  cases front with
  | nil =>
    obtain ⟨rfl, rfl⟩ := Work.timers.inj (List.cons.inj hqueue).1
    exact absurd h.due (hnone ▸ List.not_mem_nil)
  | cons work front' =>
    refine ⟨work, front', rfl, hround, ?_, (List.cons.inj hqueue).2, by rw [hsame]⟩
    rw [hsame]
    exact ⟨⟨h.serves.free, h.serves.stopRequested⟩, h.running, h.epoch, h.due⟩

/-- Each round brings the work that fires timers nearer to the head of the queue; there it takes one
of the timers that are due. -/
theorem round_of_awaits (h : Awaits now horizon t m) (hnot : ¬ m.Resolves t)
    (hqueue : m.shell.queue = front ++ .timers now horizon :: back) : ∃ m' front' back',
      m.Round m' ∧ Awaits now horizon t m' ∧
      m'.shell.queue = front' ++ .timers now horizon :: back' ∧
      Prod.Lex (· < ·) (· < ·) ((m'.timers.due now horizon).length, front'.length)
        ((m.timers.due now horizon).length, front.length) := by
  cases hturn : m.nextTurn with
  | idle =>
    rw [nextTurn_idle hturn] at hqueue
    exact absurd hqueue (by simp)
  | skip m₁ =>
    obtain ⟨work, front', rfl, hround, hawaits, hrest, hsame⟩ := awaits_of_skip h hturn hqueue
    refine ⟨m₁, front', back, hround, hawaits, hrest, ?_⟩
    rw [hsame]
    exact .right _ (Nat.lt_succ_self _)
  | process m₀ signal later =>
    obtain ⟨o, ho, hround, hawaits, ⟨sent, hsent⟩, hless⟩ := awaits_of_turn h hnot hturn
    have hqueue' : (o.machine.enqueueAll later).shell.queue = m₀.shell.queue ++ (sent ++ later) := by
      rw [← List.append_assoc, hsent]
      rfl
    have hfewer := Nat.le_trans hless (Timers.length_due_le (turn_passes hturn).1.timers)
    obtain ⟨rest, -, hcases⟩ := nextTurn_cases hturn
    cases front with
    | nil =>
      obtain ⟨hhead, -⟩ | ⟨now', horizon', t', timers, hhead, rfl, hpop, -, rfl⟩ := hcases
      · exact absurd (hhead.symm.trans hqueue) (by simp)
      · obtain ⟨hwork, rfl⟩ := List.cons.inj (hhead.symm.trans hqueue)
        obtain ⟨rfl, rfl⟩ := Work.timers.inj hwork
        refine ⟨_, rest ++ sent, [], hround, hawaits, ?_, .left _ _ ?_⟩
        · rw [hqueue', List.append_assoc]
        · rw [(Timers.popDue_spec hpop).1]
          exact Nat.lt_succ_of_le hless
    | cons w front =>
      have hrest : m₀.shell.queue = front ++ .timers now horizon :: back := by
        obtain ⟨hhead, -, rfl⟩ | ⟨_, _, _, _, hhead, -, -, -, rfl⟩ := hcases
        · exact (List.cons.inj (hhead.symm.trans hqueue)).2
        · exact (List.cons.inj (hhead.symm.trans hqueue)).2
      refine ⟨_, front, back ++ (sent ++ later), hround, hawaits, ?_, ?_⟩
      · rw [hqueue', hrest, List.append_assoc, List.cons_append]
      · exact Prod.lex_def.mpr ((Nat.lt_or_eq_of_le hfewer).imp_right fun he =>
          ⟨he, Nat.lt_succ_self _⟩)

/-- A timer that is due for work in the queue fires within finitely many rounds, unless the machine
cancels it or breaks off. -/
theorem resolves_of_awaits {m : Machine D} {front back : List (Work D)}
    (h : Awaits now horizon t m) (hqueue : m.shell.queue = front ++ .timers now horizon :: back) :
    ∃ m', m.Reaches m' ∧ m'.Serves false ∧ t ∈ m'.timers.pending ∧ m'.Resolves t := by
  by_cases hresolves : m.Resolves t
  · exact ⟨m, .refl, h.serves, (List.mem_filter.mp h.due).1, hresolves⟩
  · obtain ⟨m₁, front', back', hround, hawaits, hqueue', hless⟩ :=
      round_of_awaits h hresolves hqueue
    obtain ⟨m', hreaches, hresolves'⟩ := resolves_of_awaits hawaits hqueue'
    exact ⟨m', .head hround hreaches, hresolves'⟩
termination_by ((m.timers.due now horizon).length, front.length)
decreasing_by exact hless

end

/-- A tick fires every timer that is due within finitely many rounds, unless the machine cancels it
or breaks off. -/
theorem resolves_of_tick (hserves : m.Serves false) (hs : m.status = .running)
    (ht : t ∈ m.timers.pending) (hdue : t.deadline ≤ m.shell.clock.now) :
    ∃ m', m.Comes .tick m' ∧ m'.Serves false ∧ t ∈ m'.timers.pending ∧ m'.Resolves t := by
  let work : Work D := .timers m.shell.clock.now m.timers.nextEpoch
  have hadmitted : m.shell.receive m.timers.nextEpoch .tick = .admitted (m.shell.enqueue work) := by
    rw [Shell.receive, Shell.receiveWork, hserves.stopRequested,
      show m.shell.status = .running from hs]
    rfl
  have hawaits : Awaits m.shell.clock.now m.timers.nextEpoch t
      { m with shell := m.shell.enqueue work } :=
    ⟨⟨hserves.free, hserves.stopRequested⟩, hs, Nat.le_refl _, List.mem_filter.mpr ⟨ht, by
      simp [Timer.isDue, hdue, m.timers.fresh t ht]⟩⟩
  obtain ⟨m', hreaches, hresolves⟩ := resolves_of_awaits hawaits rfl
  exact ⟨m', ⟨_, hadmitted, hreaches⟩, hresolves⟩

end Machine

end Statechart
