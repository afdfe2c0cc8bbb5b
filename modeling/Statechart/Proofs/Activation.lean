import Statechart.Proofs.Ownership
import Statechart.Proofs.Results

/-!
# Results and activations

Between the two times a result is let in, its state may be left, and may be entered again, which
starts another invocation. What the table of invocations knows of the course (`Accounts`) is
enough to tell: an invocation on it was launched by a step, and its state was neither left nor
entered since (`LaunchedSince`); the result was accepted if the table says so, and was not taken
out of the queue. An invocation that is not on it any more, though its state stayed as it was,
has had its result chosen. As no identity is drawn twice, none comes back.

So no result is chosen twice, and none for an activation that is over; and the result of one that
goes on is chosen when its turn comes (`delivery_of_course`).
-/

namespace Statechart

variable {D : Domain}

/-- Whether an invocation was launched for a state by one of several steps, the latest first, and the
state neither left nor entered since. -/
def LaunchedSince (steps : List (Settled D)) (s : D.State) (id : InvocationId) : Prop :=
  ∃ later step earlier, steps = later ++ step :: earlier ∧
    (∃ a ∈ step.launches, a.state = s ∧ a.id = id) ∧ ∀ e ∈ later, s ∉ e.exited ∧ s ∉ e.entered

theorem launchedSince_cons {steps : List (Settled D)} {step : Settled D} {s : D.State}
    {id : InvocationId} : LaunchedSince (step :: steps) s id ↔
      (∃ a ∈ step.launches, a.state = s ∧ a.id = id) ∨
        (LaunchedSince steps s id ∧ s ∉ step.exited ∧ s ∉ step.entered) := by
  constructor
  · intro h
    obtain ⟨later, origin, earlier, he, hlaunch, hlater⟩ := h
    cases later with
    | nil =>
      rw [List.nil_append, List.cons.injEq] at he
      exact Or.inl (he.1 ▸ hlaunch)
    | cons e later =>
      rw [List.cons_append, List.cons.injEq] at he
      obtain ⟨rfl, rfl⟩ := he
      exact Or.inr ⟨⟨later, origin, earlier, rfl, hlaunch,
        fun e he => hlater e (List.mem_cons_of_mem _ he)⟩, hlater step (List.mem_cons_self ..)⟩
  · intro h
    rcases h with hlaunch | ⟨⟨later, origin, earlier, rfl, hlaunch, hlater⟩, hstep⟩
    · exact ⟨[], step, steps, rfl, hlaunch, fun e he => absurd he List.not_mem_nil⟩
    · refine ⟨step :: later, origin, earlier, rfl, hlaunch, fun e he => ?_⟩
      rcases List.mem_cons.mp he with rfl | he
      · exact hstep
      · exact hlater e he

namespace Event

/-- All that was launched. -/
def launches (log : List (Event D)) : List (Launch D) := (steps log).flatMap (·.launches)

theorem launches_cons {e : Event D} {log : List (Event D)} :
    launches (e :: log) = e.step.toList.flatMap (·.launches) ++ launches log := by
  rw [launches, steps_cons, List.flatMap_append, launches]

end Event

namespace Machine

variable {c : Chart D} {m m' m₀ : Machine D} {signal : Signal D} {e : Event D}
  {log : List (Event D)} {s : D.State} {id : InvocationId}

/-- What the table of invocations knows of a course. -/
structure Accounts (log : List (Event D)) (m : Machine D) : Prop where
  /-- The identities of all that was launched were drawn. -/
  known : m.status = .running → ∀ a ∈ Event.launches log, m.invocations.supply.Drawn a.id
  distinct : ((Event.launches log).map (·.id)).Nodup
  launched : ∀ s id, (s, id) ∈ Event.arrivals log → ∃ a ∈ Event.launches log, a.state = s ∧ a.id = id
  arrivals : (Event.arrivals log).Nodup
  choices : (Event.choices log).Nodup ∧ Event.choices log ⊆ Event.returns log
  pending : ∀ s id b, m.invocations.pending? s = some (id, b) →
    LaunchedSince (Event.steps log) s id ∧ (s, id) ∉ Event.returns log ∧
      (b = true ↔ (s, id) ∈ Event.arrivals log)
  held : m.status = .running → ∀ s id, LaunchedSince (Event.steps log) s id →
    (s, id) ∈ Event.choices log ∨ ∃ b, m.invocations.pending? s = some (id, b)

theorem launches_of_since (h : LaunchedSince (Event.steps log) s id) :
    ∃ a ∈ Event.launches log, a.state = s ∧ a.id = id := by
  obtain ⟨later, step, earlier, he, ⟨a, ha, has, hid⟩, -⟩ := h
  refine ⟨a, List.mem_flatMap.mpr ⟨step, ?_, ha⟩, has, hid⟩
  rw [he]
  exact List.mem_append_right _ (List.mem_cons_self ..)

/-- A result that comes back was accepted. -/
theorem arrived_of_returned (h : Course c log m) {x : D.State × InvocationId}
    (hx : x ∈ Event.returns log) : x ∈ Event.arrivals log :=
  List.mem_reverse.mp ((returns_of_course h).1.subset hx)

/-- A result that is taken out of the queue was accepted. -/
theorem arrived_of_took (h : Course c log m) (hdoes : m.Does e m') {x : D.State × InvocationId}
    (hx : e.took.bind Work.result? = some x) : x ∈ Event.arrivals log := by
  obtain ⟨w, hw, hresult⟩ := Option.bind_eq_some_iff.mp hx
  obtain ⟨hopen, hhead⟩ := took_of_does hdoes hw
  rw [← List.mem_reverse, (returns_of_course h).2 hopen]
  exact List.mem_append_right _ (List.mem_filterMap.mpr ⟨w, List.mem_of_mem_head? hhead, hresult⟩)

/-! ### One event more -/

theorem choices_next (hdoes : m.Does e m') (ih : m.Accounts log) :
    (Event.choices (e :: log)).Nodup ∧ Event.choices (e :: log) ⊆ Event.returns (e :: log) := by
  rw [Event.choices_cons, Event.returns_cons, List.nodup_append]
  refine ⟨⟨by cases e.chosen? <;> simp, ih.choices.1, fun x hx y hy hxy => ?_⟩, fun x hx => ?_⟩
  · obtain ⟨s, id⟩ := x
    have hp := (pending_of_chosen hdoes (Option.mem_toList.mp hx)).2
    exact (ih.pending _ _ _ hp).2.1 (ih.choices.2 (hxy ▸ hy))
  · rcases List.mem_append.mp hx with hx | hx
    · obtain ⟨s, id⟩ := x
      have htook := (pending_of_chosen hdoes (Option.mem_toList.mp hx)).1
      exact List.mem_append_right _ (Option.mem_toList.mpr htook)
    · exact List.mem_append_left _ (ih.choices.2 hx)

section

variable (hcourse : Course c log m) (hdoes : m.Does e m') (hhandles : Handles c m e m')
  (ih : m.Accounts log)
include hhandles ih

/-- An identity that has not been drawn yet belongs to no invocation launched before. -/
theorem id_ne_of_new {a a' : Launch D} (ha : a ∈ e.step.toList.flatMap (·.launches))
    (ha' : a' ∈ Event.launches log) : a.id ≠ a'.id := by
  obtain ⟨hrunning, hnew, -⟩ := (launches_after hhandles).2 a ha
  exact fun hid => hnew (hid ▸ ih.known hrunning a' ha')

theorem distinct_next : ((Event.launches (e :: log)).map (·.id)).Nodup := by
  rw [Event.launches_cons, List.map_append, List.nodup_append]
  refine ⟨(launches_after hhandles).1, ih.distinct, fun x hx y hy => ?_⟩
  obtain ⟨a, ha, rfl⟩ := List.mem_map.mp hx
  obtain ⟨a', ha', rfl⟩ := List.mem_map.mp hy
  exact id_ne_of_new hhandles ih ha ha'

theorem launched_next (h : (s, id) ∈ Event.arrivals (e :: log)) :
    ∃ a ∈ Event.launches (e :: log), a.state = s ∧ a.id = id := by
  rw [Event.arrivals_cons, List.mem_append] at h
  have hlaunched : ∃ a ∈ Event.launches log, a.state = s ∧ a.id = id := by
    rcases h with h | h
    · have hp := pending_of_accepted hhandles (Option.mem_toList.mp h)
      exact launches_of_since (ih.pending _ _ _ hp).1
    · exact ih.launched s id h
  obtain ⟨a, ha, hrest⟩ := hlaunched
  rw [Event.launches_cons]
  exact ⟨a, List.mem_append_right _ ha, hrest⟩

theorem arrivals_next : (Event.arrivals (e :: log)).Nodup := by
  rw [Event.arrivals_cons, List.nodup_append]
  refine ⟨by cases e.accepted <;> simp, ih.arrivals, fun x hx y hy hxy => ?_⟩
  obtain ⟨s, id⟩ := x
  have hp := pending_of_accepted hhandles (Option.mem_toList.mp hx)
  exact absurd ((ih.pending _ _ _ hp).2.2.mpr (hxy ▸ hy)) (by simp)

include hcourse

theorem known_next (hs : m'.status = .running) :
    ∀ a ∈ Event.launches (e :: log), m'.invocations.supply.Drawn a.id := by
  intro a ha
  rw [Event.launches_cons, List.mem_append] at ha
  obtain ⟨hbefore, hmono⟩ := running_before hhandles hs
  rcases ha with ha | ha
  · exact ((launches_after hhandles).2 a ha).2.2.1
  · rcases hbefore with hbefore | hbefore
    · exact hmono a.id (ih.known hbefore a ha)
    · rw [Event.launches, (running_of_run (run_of_course hcourse)).1 hbefore] at ha
      exact absurd ha List.not_mem_nil

include hdoes

theorem pending_next {b : Bool} (hp : m'.invocations.pending? s = some (id, b)) :
    LaunchedSince (Event.steps (e :: log)) s id ∧ (s, id) ∉ Event.returns (e :: log) ∧
      (b = true ↔ (s, id) ∈ Event.arrivals (e :: log)) := by
  have hinvokes := fun x hx => ((pending_of_run (run_of_course hcourse)).1.invocations x hx).2
  rw [Event.steps_cons, Event.returns_cons, Event.arrivals_cons]
  rcases pending_after hinvokes hdoes hhandles hp with
    ⟨step, a, hstep, ha, has, hid, -, rfl, haccepted⟩ | ⟨b', hp', hchosen, hstays, hb⟩
  · -- the identity is new, so no result with it has come in yet
    have hnot : (s, id) ∉ Event.arrivals log := by
      intro h
      obtain ⟨a', ha', -, hid'⟩ := ih.launched s id h
      exact id_ne_of_new hhandles ih (by simpa [hstep] using ha) ha' (hid.trans hid'.symm)
    rw [hstep, haccepted]
    refine ⟨launchedSince_cons.mpr (Or.inl ⟨a, ha, has, hid⟩), ?_, by simpa using hnot⟩
    rw [List.mem_append]
    exact fun h => hnot (h.elim (arrived_of_returned hcourse) fun h =>
      arrived_of_took hcourse hdoes (Option.mem_toList.mp h))
  · obtain ⟨hsince, hreturns, harrived⟩ := ih.pending s id b' hp'
    refine ⟨?_, ?_, ?_⟩
    · cases hstep : e.step with
      | none => exact hsince
      | some step => exact launchedSince_cons.mpr (Or.inr ⟨hsince, hstays step hstep⟩)
    · rw [List.mem_append]
      refine fun h => h.elim hreturns fun h => hchosen ?_
      -- its turn has come while it is waited for
      have htook := Option.mem_toList.mp h
      obtain rfl := harrived.mpr (arrived_of_took hcourse hdoes htook)
      rw [chosen_of_does hdoes, htook]
      simp [Option.filter, hp']
    · rw [hb, harrived, List.mem_append, Option.mem_toList, or_comm]

theorem held_next (hs : m'.status = .running)
    (hsince : LaunchedSince (Event.steps (e :: log)) s id) :
    (s, id) ∈ Event.choices (e :: log) ∨ ∃ b, m'.invocations.pending? s = some (id, b) := by
  rw [Event.choices_cons, List.mem_append, Option.mem_toList]
  rw [Event.steps_cons] at hsince
  -- a launch that was held before is still, unless this event takes its result
  have hold : LaunchedSince (Event.steps log) s id →
      (∀ step, e.step = some step → s ∉ step.exited ∧ s ∉ step.entered) →
      (e.chosen? = some (s, id) ∨ (s, id) ∈ Event.choices log) ∨
        ∃ b, m'.invocations.pending? s = some (id, b) := by
    intro hsince hstays
    rcases (running_before hhandles hs).1 with hbefore | hbefore
    · rcases ih.held hbefore s id hsince with hchosen | ⟨b, hp⟩
      · exact Or.inl (Or.inr hchosen)
      · exact (pending_goesOn hdoes hhandles hs hp hstays).imp_left Or.inl
    · obtain ⟨later, step, earlier, he, -⟩ := hsince
      rw [(running_of_run (run_of_course hcourse)).1 hbefore] at he
      simp at he
  cases hstep : e.step with
  | none =>
    rw [hstep] at hsince
    exact hold hsince (by simp [hstep])
  | some step =>
    rw [hstep] at hsince
    rcases launchedSince_cons.mp hsince with ⟨a, ha, rfl, rfl⟩ | ⟨hsince, hstays⟩
    · exact Or.inr ⟨false, ((launches_after hhandles).2 a (by simpa [hstep] using ha)).2.2.2⟩
    · refine hold hsince fun step' he => ?_
      obtain rfl := Option.some.inj (hstep.symm.trans he)
      exact hstays

end

theorem accounts_of_course (h : Course c log m) : m.Accounts log := by
  induction h with
  | fresh _ hm =>
    refine ⟨fun hs => ?_, List.nodup_nil, fun _ _ h => absurd h List.not_mem_nil, List.nodup_nil,
      ⟨List.nodup_nil, List.nil_subset _⟩, fun s id b hp => ?_, fun hs => ?_⟩
    · exact absurd (hm.status.symm.trans hs) (by simp)
    · rw [pending?_of_idle hm.invocations] at hp
      exact absurd hp (by simp)
    · exact absurd (hm.status.symm.trans hs) (by simp)
  | next hcourse hdoes ih =>
    have hhandles := handles_of_does (run_of_course hcourse) hdoes
    exact {
      known := known_next hcourse hhandles ih
      distinct := distinct_next hhandles ih
      launched := fun _ _ => launched_next hhandles ih
      arrivals := arrivals_next hhandles ih
      choices := choices_next hdoes ih
      pending := fun _ _ _ => pending_next hcourse hdoes hhandles ih
      held := fun hs _ _ => held_next hcourse hdoes hhandles ih hs }

/-! ## At most once, and never stale -/

/-- How the results of invocations are dealt with. -/
structure Delivery (c : Chart D) (log : List (Event D)) (m : Machine D) : Prop where
  distinct : ((Event.launches log).map (·.id)).Nodup
  /-- No invocation has more than one result chosen. -/
  once : ((Event.choices log).map (·.2)).Nodup
  /-- Transitions are selected for a result while its invocation is that of its state, which is
  active and was so all the time. -/
  current : ∀ newer e older m₀ signal s id, log = newer ++ e :: older →
    e.processed = some (m₀, signal) → signal.result? = some (s, id) →
    (m₀.reacting? signal).isSome → s ∈ m₀.configuration ∧
      m₀.invocations.pending? s = some (id, true) ∧ LaunchedSince (Event.steps older) s id
  /-- Nothing comes of a result whose turn comes too late. -/
  stale : ∀ newer e older m₀ signal s id, log = newer ++ e :: older →
    e.processed = some (m₀, signal) → signal.result? = some (s, id) →
    ¬ LaunchedSince (Event.steps older) s id → m₀.process signal = .ok { machine := m₀ }
  /-- Nothing comes of a result that arrives too late. -/
  late : ∀ fuel s id result, (¬ LaunchedSince (Event.steps log) s id ∨ m.status ≠ .running ∨
    m.shell.stopRequested = true) → m.deliver fuel s id result = some m
  /-- A result that arrives in time is accepted, and the queue is worked off with it. -/
  inTime : ∀ s id result, m.Open → LaunchedSince (Event.steps log) s id →
    (s, id) ∉ Event.arrivals log → ∃ e m₁, m.Does e m₁ ∧ e.accepted = some (s, id) ∧ ∀ fuel,
      m.deliver fuel s id result = (m₁.drain fuel).map (·.machine) ∧
        ∀ m', m.deliver fuel s id result = some m' → ∃ new, Course c (new ++ e :: log) m'
  /-- Once accepted, it waits in the queue until it is taken out, once. -/
  waits : ∀ s id, m.Open → (s, id) ∈ Event.arrivals log → (Event.returns log).count (s, id) +
    (m.shell.queue.filterMap Work.result?).count (s, id) = 1
  /-- When its turn comes, transitions are selected for it, unless its state was left or entered. -/
  reaches : ∀ newer e older s id, log = newer ++ e :: older →
    e.took.bind Work.result? = some (s, id) → LaunchedSince (Event.steps older) s id →
      e.chosen? = some (s, id)

/-- A result that can be accepted or chosen is one of an invocation that is on the table. -/
theorem since_of_pending {b : Bool} (h : Course c log m)
    (hp : m.invocations.pending? s = some (id, b)) :
    LaunchedSince (Event.steps log) s id ∧ s ∈ m.configuration ∧ m.status = .running := by
  obtain ⟨howned, -⟩ := pending_of_run (run_of_course h)
  obtain ⟨running, hrunning, -⟩ := Option.map_eq_some_iff.mp hp
  have hmem := Invocations.mem_states.mpr ⟨running, hrunning⟩
  refine ⟨((accounts_of_course h).pending s id b hp).1, (howned.invocations s hmem).1, ?_⟩
  by_contra hs
  rw [pending?_of_idle (howned.idle hs).2] at hp
  exact absurd hp (by simp)

/-- An invocation that goes on and has not had its result taken out of the queue is on the table. -/
theorem pending_of_since (h : Course c log m) (hs : m.status = .running)
    (hsince : LaunchedSince (Event.steps log) s id) (hreturns : (s, id) ∉ Event.returns log) :
    m.invocations.pending? s = some (id, decide ((s, id) ∈ Event.arrivals log)) := by
  have haccounts := accounts_of_course h
  rcases haccounts.held hs s id hsince with hchosen | ⟨b, hp⟩
  · exact absurd (haccounts.choices.2 hchosen) hreturns
  · have hb := (haccounts.pending s id b hp).2.2
    rw [hp, Option.some.injEq, Prod.mk.injEq]
    exact ⟨rfl, by rw [Bool.eq_iff_iff, hb, decide_eq_true_iff]⟩

end Machine

open Machine in
/-- However results arrive, at most one for each invocation gets as far as the selection of
transitions, and none but while its state is in the activation that the invocation was launched
for; and the result of an activation that goes on gets there when its turn comes. -/
theorem delivery_of_course {c : Chart D} {log : List (Event D)} {m : Machine D}
    (h : Course c log m) : m.Delivery c log where
  distinct := (accounts_of_course h).distinct
  once := by
    have haccounts := accounts_of_course h
    have harrived : Event.choices log ⊆ Event.arrivals log := fun x hx =>
      List.mem_reverse.mp ((returns_of_course h).1.subset (haccounts.choices.2 hx))
    refine haccounts.choices.1.map_on fun x hx y hy hxy => ?_
    obtain ⟨a, ha, hstate, hid⟩ := haccounts.launched x.1 x.2 (harrived hx)
    obtain ⟨a', ha', hstate', hid'⟩ := haccounts.launched y.1 y.2 (harrived hy)
    have hone := List.inj_on_of_nodup_map haccounts.distinct ha ha'
      ((hid.trans hxy).trans hid'.symm)
    exact Prod.ext (hstate.symm.trans ((congrArg Launch.state hone).trans hstate')) hxy
  current := by
    intro newer e older m₀ signal s id he hprocessed hresult hreact
    obtain ⟨m₁, m₂, hbefore, hdoes, -⟩ := course_split h newer e older he
    obtain ⟨later, hturn⟩ := process_of_does hdoes hprocessed
    have hchosen : e.chosen? = some (s, id) := by
      simp [Event.chosen?, hprocessed, hreact, hresult]
    have hp := (pending_of_chosen hdoes hchosen).2
    obtain ⟨hsince, hactive, -⟩ := since_of_pending hbefore hp
    rw [(nextTurn_process hturn).2]
    exact ⟨hactive, hp, hsince⟩
  stale := by
    intro newer e older m₀ signal s id he hprocessed hresult hstale
    obtain ⟨m₁, m₂, hbefore, hdoes, -⟩ := course_split h newer e older he
    obtain ⟨later, hturn⟩ := process_of_does hdoes hprocessed
    have hsame : m₀.invocations = m₁.invocations := by rw [(nextTurn_process hturn).2]
    have hsignal : signal ≠ .start := by
      rintro rfl
      exact absurd hresult (by simp [Signal.result?])
    rw [process_eq hsignal, reacting?_of_result hresult, hsame, if_neg]
    exact fun hp => hstale (since_of_pending hbefore hp).1
  late := by
    intro fuel s id result hlate
    unfold deliver
    split
    · next hlive =>
      rw [isLive, Bool.and_eq_true, Bool.not_eq_true'] at hlive
      rw [Invocations.settle?_eq, if_neg]
      intro hp
      obtain ⟨hsince, -, hs⟩ := since_of_pending h hp
      rcases hlate with hnot | hnot | hstop
      · exact hnot hsince
      · exact hnot hs
      · exact absurd (hlive.1.symm.trans hstop) (by simp)
    · rfl
  inTime := by
    intro s id result hopen hsince hnew
    have hreturns : (s, id) ∉ Event.returns log := fun h' =>
      hnew (List.mem_reverse.mp ((returns_of_course h).1.subset h'))
    have hp := pending_of_since h hopen.1 hsince hreturns
    rw [decide_eq_false hnew] at hp
    have hlive : m.isLive = true := by simp [isLive, hopen.1, hopen.2]
    obtain ⟨invocations, hsettle⟩ : ∃ t, m.invocations.settle? s id = some t :=
      ⟨_, (Invocations.settle?_eq ..).trans (if_pos hp)⟩
    have hdoes : m.Does
        { accepted := some (s, id), put := [.signal (resultSignal s id result)] } _ :=
      .result hlive hsettle
    refine ⟨_, _, hdoes, rfl, fun fuel => ?_⟩
    rw [deliver, if_pos hlive, hsettle]
    refine ⟨rfl, fun m' hdeliver => ?_⟩
    obtain ⟨o, ho, rfl⟩ := Option.map_eq_some_iff.mp hdeliver
    obtain ⟨-, new, hcourse, -⟩ :=
      closed_drain (closed_course _) ⟨[], h.next hdoes, rfl⟩ (Or.inl hopen.1) ho
    exact ⟨new, hcourse⟩
  waits := by
    intro s id hopen harrived
    rw [← List.count_append, ← (returns_of_course h).2 hopen, List.count_reverse]
    exact List.count_eq_one_of_mem (accounts_of_course h).arrivals harrived
  reaches := by
    intro newer e older s id he htook hsince
    obtain ⟨m₁, m₂, hbefore, hdoes, -⟩ := course_split h newer e older he
    obtain ⟨w, hw, hresult⟩ := Option.bind_eq_some_iff.mp htook
    obtain ⟨hopen, hhead⟩ := took_of_does hdoes hw
    have hqueue : (s, id) ∈ m₁.shell.queue.filterMap Work.result? :=
      List.mem_filterMap.mpr ⟨w, List.mem_of_mem_head? hhead, hresult⟩
    -- an accepted result that is still waiting was not taken out before
    have harrivals := (returns_of_course hbefore).2 hopen
    have hnodup := List.nodup_reverse.mpr (accounts_of_course hbefore).arrivals
    rw [harrivals, List.nodup_append] at hnodup
    have hp := pending_of_since hbefore hopen.1 hsince fun hreturned =>
      hnodup.2.2 _ hreturned _ hqueue rfl
    have harrived : (s, id) ∈ Event.arrivals older :=
      List.mem_reverse.mp (harrivals ▸ List.mem_append_right _ hqueue)
    rw [decide_eq_true harrived] at hp
    rw [chosen_of_does hdoes, htook]
    simp [Option.filter, hp]

/-! ## A lookout -/

inductive LookoutState | lookout | resting | watching
deriving DecidableEq

/-- A lookout who watches until something is seen, or starts watching afresh. -/
def lookoutTree : StateTree (.bare LookoutState) :=
  .bare .lookout (.compound .resting) []
    [.bare .resting .atomic [.bare "watch" .watching],
    .node
      { id := .watching
        kind := .atomic
        transitions := [.bareOn .invokeDone .resting, .bare "afresh" .watching true]
        invocation := some { name := "watch", start := fun _ => .ok .await } } []]

def lookout : Chart (.bare LookoutState) :=
  { lookoutTree.outline with tree := lookoutTree, outline_eq := rfl, flawless := by cbv }

/-- What a lookout goes through who has started watching afresh. -/
def watched : List (Settled (.bare LookoutState)) × Machine (.bare LookoutState) :=
  { lookout.machine with canInvoke := true }.trace [.start, .send "watch", .send "afresh"]

open Machine in
/-- The first watch is over, and what it sees changes nothing; what the second sees is acted upon. -/
theorem lookout_delivery : ∃ log, Course lookout log watched.2 ∧ Delivery lookout log watched.2 ∧
    watched.2.deliver 9 .watching 0 (.ok ()) = some watched.2 ∧
    ∃ new m, watched.2.deliver 9 .watching 1 (.ok ()) = some m ∧ Course lookout (new ++ log) m ∧
      m.configuration.elems = [.lookout, .resting] ∧
      (Event.returns (new ++ log)).count (.watching, 1) = 1 := by
  have hrun : Run lookout watched.1 watched.2 :=
    run_trace (m := { lookout.machine with canInvoke := true })
      ⟨rfl, rfl, rfl, rfl, rfl, rfl, rfl, rfl, rfl, rfl, rfl⟩ _
  obtain ⟨log, hcourse, hsteps⟩ := course_of_run hrun
  have hdelivery := delivery_of_course hcourse
  have hlaunches : watched.1.map (fun step =>
        (step.launches.map fun a => (a.state, a.id), step.exited)) =
      [([(.watching, 1)], [.watching]), ([(.watching, 0)], [.resting]), ([], [])] := by cbv
  obtain ⟨step, rest, hwatched, hstep, -⟩ := List.map_eq_cons_iff.mp hlaunches
  rw [Prod.mk.injEq] at hstep
  obtain ⟨hids, hleft⟩ := hstep
  have hmem : ∀ x, x ∈ step.launches.map (fun a => (a.state, a.id)) ↔ x = (.watching, 1) := by
    intro x
    rw [hids, List.mem_singleton]
  rw [hwatched] at hsteps
  have hpast : ¬ LaunchedSince (Event.steps log) .watching 0 := by
    rw [hsteps, launchedSince_cons]
    rintro (⟨a, ha, hstate, hid⟩ | ⟨-, hexited, -⟩)
    · exact absurd ((hmem (a.state, a.id)).mp (List.mem_map_of_mem ha)) (by simp [hid])
    · simp [hleft] at hexited
  have hnow : LaunchedSince (Event.steps log) .watching 1 := by
    rw [hsteps, launchedSince_cons]
    obtain ⟨a, ha, he⟩ := List.mem_map.mp ((hmem (.watching, 1)).mpr rfl)
    exact Or.inl ⟨a, ha, (Prod.mk.inj he).1, (Prod.mk.inj he).2⟩
  have hpending : watched.2.invocations.pending? .watching = some (1, false) := by cbv
  have hnew : (LookoutState.watching, 1) ∉ Event.arrivals log := fun h => by
    simpa using ((accounts_of_course hcourse).pending _ _ _ hpending).2.2.mpr h
  have hopen : watched.2.Open := ⟨by cbv, by cbv⟩
  obtain ⟨e, m₁, -, haccepted, hdeliver⟩ := hdelivery.inTime .watching 1 (.ok ()) hopen hnow hnew
  have hseen : (watched.2.deliver 9 .watching 1 (.ok ())).map (fun m =>
      (m.status, m.shell.stopRequested, m.shell.queue.isEmpty, m.configuration.elems)) =
      some (.running, false, true, [.lookout, .resting]) := by cbv
  obtain ⟨m, hm, he⟩ := Option.map_eq_some_iff.mp hseen
  simp only [Prod.mk.injEq, List.isEmpty_iff] at he
  obtain ⟨hstatus, hstop, hqueue, hconf⟩ := he
  obtain ⟨new, hgoes⟩ := (hdeliver 9).2 m hm
  have hwaits := (delivery_of_course hgoes).waits .watching 1 ⟨hstatus, hstop⟩ (by
    rw [Event.arrivals, List.filterMap_append]
    refine List.mem_append_right _ (List.mem_filterMap.mpr ⟨e, List.mem_cons_self .., haccepted⟩))
  rw [hqueue, List.filterMap_nil, List.count_nil] at hwaits
  refine ⟨log, hcourse, hdelivery, hdelivery.late 9 .watching 0 (.ok ()) (Or.inl hpast),
    new ++ [e], m, hm, by rwa [List.append_assoc], hconf, by rwa [List.append_assoc]⟩

end Statechart
