import Statechart.Proofs.Course
import Statechart.Proofs.Launches
import Statechart.Proofs.Step

/-!
# The way of a result

The result of an invocation is let in twice: it is accepted when it arrives, and chosen, which
means that transitions are selected for it, when its turn in the queue comes. What is accepted
is put into the queue (`results_of_puts`), so results are taken out in the order in which they
were accepted (`returns_of_course`), and the table decides whether they are chosen
(`chosen_of_does`).

What an event does to the table of invocations is said in one place (`Handles`): it accepts a
result, retires the invocation whose result is chosen, settles a step, or ends the machine's
life. An invocation stays on the table until one of these takes it off: it is there because
the event launched it or because it was there before (`pending_after`), and it goes on unless
its state is left or entered or its result chosen (`pending_goesOn`).
-/

namespace Statechart

variable {D : Domain}

/-- The invocation whose result waits in the queue, if the work is one, and its state. -/
def Work.result? : Work D → Option (D.State × InvocationId)
  | .signal s => s.result?
  | .timers .. => none

namespace Event

/-- The invocation whose result is chosen, and its state. -/
def chosen? (e : Event D) : Option (D.State × InvocationId) :=
  e.processed.bind fun (m, signal) => if (m.reacting? signal).isSome then signal.result? else none

/-- The invocations whose results were accepted, the latest first. -/
def arrivals (log : List (Event D)) : List (D.State × InvocationId) := log.filterMap (·.accepted)

/-- The invocations whose results were chosen, the latest first. -/
def choices (log : List (Event D)) : List (D.State × InvocationId) := log.filterMap chosen?

/-- The invocations whose results were taken out of the queue, in order. -/
def returns (log : List (Event D)) : List (D.State × InvocationId) :=
  (takes log).filterMap Work.result?

variable {e : Event D} {log : List (Event D)}

theorem arrivals_cons : arrivals (e :: log) = e.accepted.toList ++ arrivals log := by
  rw [arrivals, List.filterMap_cons]
  cases e.accepted <;> rfl

theorem choices_cons : choices (e :: log) = e.chosen?.toList ++ choices log := by
  rw [choices, List.filterMap_cons]
  cases e.chosen? <;> rfl

theorem returns_cons : returns (e :: log) = returns log ++ (e.took.bind Work.result?).toList := by
  rw [returns, takes_cons, List.filterMap_append]
  cases htook : e.took with
  | none => rfl
  | some w => cases hw : w.result? <;> simp [hw, returns]

/-- The table when the invocation whose result is chosen was retired. -/
def retire (e : Event D) (t : Invocations D.State) : Invocations D.State :=
  match e.chosen? with
  | some (s, _) => t.remove s
  | none => t

end Event

namespace Machine

variable {c : Chart D} {m m' m₀ before : Machine D} {signal : Signal D} {step : Settled D}
  {e : Event D} {log : List (Event D)} {s : D.State} {id : InvocationId} {b : Bool}
  {later : List (Work D)}

/-! ## The way of a result -/

/-- A result that is accepted is put into the queue, and no other. -/
theorem result_of_put (h : m.Does e m') : e.put.filterMap Work.result? = e.accepted.toList := by
  -- no call, action or listener sends a result, and no step raises one
  have hcall : ∀ {c : Call D} {now horizon}, (c.work now horizon).filterMap Work.result? = [] := by
    intro c now horizon
    cases c <;> rfl
  have hlater : ∀ {m₀ signal later}, m.nextTurn = .process m₀ signal later →
      later.filterMap Work.result? = [] := by
    intro m₀ signal later hturn
    obtain ⟨rest, -, ⟨-, rfl, -⟩ | ⟨now, horizon, t, timers, -, rfl, -⟩⟩ := nextTurn_cases hturn
    · rfl
    · rfl
  have hasked : ∀ {shell shell' : Shell D} {asked}, shell.Asks asked shell' →
      asked.filterMap Work.result? = [] := by
    intro shell shell' asked hasks
    refine List.filterMap_eq_nil_iff.mpr fun w hw => ?_
    obtain ⟨c, now, horizon, hw⟩ := Shell.mem_asks hasks hw
    exact List.filterMap_eq_nil_iff.mp hcall w hw
  have hraised : ∀ {step : Settled D}, step.signals.filterMap Work.result? = [] := by
    intro step
    simp [Settled.signals, List.filterMap_map, Function.comp_def, Work.result?, Signal.result?]
  cases h with
  | call => exact hcall
  | @result _ _ _ result => cases result <;> rfl
  | discard | idle | fault | stop | faultStopping | outside => rfl
  | pass _ hturn _ _ => exact hlater hturn
  | turn _ hturn _ hsent htold _ =>
    simp only [List.filterMap_append, hasked hsent, hasked htold, hraised, hlater hturn]
    rfl
  | turnPanicked _ hturn _ hsent htold _ =>
    simp only [List.filterMap_append, hasked hsent, hasked htold, hraised]
    rfl

theorem results_of_puts (h : Course c log m) :
    (Event.puts log).filterMap Work.result? = (Event.arrivals log).reverse := by
  induction h with
  | fresh => rfl
  | @next log e _ _ _ hdoes ih =>
    rw [Event.puts_cons, List.filterMap_append, ih, result_of_put hdoes, Event.arrivals_cons,
      List.reverse_append]
    cases e.accepted <;> rfl

/-- Results are taken out of the queue in the order in which they were accepted, and as long as
the machine is open, those that were not are in the queue. -/
theorem returns_of_course (h : Course c log m) :
    Event.returns log <+: (Event.arrivals log).reverse ∧
      (m.Open → (Event.arrivals log).reverse =
        Event.returns log ++ m.shell.queue.filterMap Work.result?) := by
  obtain ⟨hfront, hall, -⟩ := queue_of_course h
  rw [← results_of_puts h]
  refine ⟨hfront.filterMap _, fun hopen => ?_⟩
  rw [hall hopen, List.filterMap_append]
  rfl

/-- A result is chosen if it is taken out of the queue when its invocation is running and waits for
nothing else. -/
theorem chosen_of_does (h : m.Does e m') : e.chosen? =
    (e.took.bind Work.result?).filter fun x => m.invocations.pending? x.1 = some (x.2, true) := by
  rcases processed_cases h with ⟨hp, htook | ⟨now, horizon, htook⟩⟩ |
    ⟨m₀, signal, later, hp, hturn, htook | ⟨now, horizon, s, i, delay, htook, rfl⟩⟩
  · rw [Event.chosen?, hp, htook]
    rfl
  · rw [Event.chosen?, hp, htook]
    rfl
  · have hsame : m₀.invocations = m.invocations := by rw [(nextTurn_process hturn).2]
    rw [Event.chosen?, hp, htook]
    change (if (m₀.reacting? signal).isSome then signal.result? else none) = signal.result?.filter _
    cases hresult : signal.result? with
    | none => simp
    | some x =>
      rw [reacting?_of_result hresult, hsame]
      by_cases hpending : m.invocations.pending? x.1 = some (x.2, true) <;>
        simp [hpending, Option.filter]
  · rw [Event.chosen?, hp, htook]
    rfl

theorem pending_of_chosen (h : m.Does e m') (hchosen : e.chosen? = some (s, id)) :
    e.took.bind Work.result? = some (s, id) ∧ m.invocations.pending? s = some (id, true) := by
  rw [chosen_of_does h, Option.filter_eq_some_iff] at hchosen
  exact ⟨hchosen.1, of_decide_eq_true hchosen.2⟩

/-! ## What an event does to the table -/

/-- Taking in a signal retires the invocation whose result is chosen. -/
theorem retire_of_reacting (he : e.processed = some (m₀, signal))
    (h : m₀.reacting? signal = some before) : before.invocations = e.retire m₀.invocations := by
  have hchosen : e.chosen? = signal.result? := by
    simp [Event.chosen?, he, h]
  unfold Event.retire
  rw [hchosen]
  cases hresult : signal.result? with
  | none => rw [reacting?_of_no_result hresult h]
  | some x =>
    obtain ⟨s, id⟩ := x
    rw [reacting?_of_result hresult] at h
    split at h
    · exact Option.some.inj h ▸ rfl
    · exact absurd h (by simp)

theorem supply_retire (e : Event D) (t : Invocations D.State) :
    (e.retire t).supply = t.supply := by
  unfold Event.retire
  split <;> rfl

theorem retire_of_none (he : e.chosen? = none) (t : Invocations D.State) : e.retire t = t := by
  rw [Event.retire, he]

theorem pending?_retire (e : Event D) (t : Invocations D.State) (x : D.State) :
    (e.retire t).pending? x =
      if e.chosen?.map (·.1) = some x then none else t.pending? x := by
  unfold Event.retire
  cases e.chosen? with
  | none => simp
  | some y => simp [Invocations.pending?_remove, eq_comm]

/-- What a machine does with its invocations at one moment of a run. -/
inductive Handles (c : Chart D) (m : Machine D) (e : Event D) (m' : Machine D) : Prop
  | accepts {s : D.State} {id : InvocationId} :
      e.step = none → e.took = none → e.accepted = some (s, id) → m'.status = m.status →
      m.invocations.settle? s id = some m'.invocations → Handles c m e m'
  | goesOn :
      e.step = none → e.accepted = none →
      (m'.status = m.status ∨ (m.status = .notStarted ∧ m'.status = .running)) →
      m'.invocations = e.retire m.invocations → Handles c m e m'
  | settles {step : Settled D} :
      e.step = some step → e.accepted = none → m.status = .running → step.On c → step.Table →
      (step.after.status = .done → step.after.invocations.running = []) →
      step.before.invocations = e.retire m.invocations →
      m'.status = step.after.status → m'.invocations = step.after.invocations → Handles c m e m'
  | ends :
      e.step.toList.flatMap (·.launches) = [] → e.accepted = none → m'.Ended →
      m'.invocations.running = [] → Handles c m e m'

/-- A turn settles a step, whether or not somebody panics who is told of it. -/
theorem handles_of_settling {steps : List (Settled D)} {p : Progress D} (hrun : Run c steps m)
    (hes : e.step = some step) (hea : e.accepted = none)
    (hep : e.processed = some (m₀, step.signal))
    (hturn : m.nextTurn = .process m₀ step.signal later) (hstep : m₀.Settles step p)
    (hsettling : m.Settling step m') : Handles c m e m' := by
  have hc := ((run_invariant (P := fun _ _ _ => True) (fun _ _ _ _ => trivial)
    (fun _ _ _ _ => trivial) hrun).resolve_left (not_ended_of_up (settling_status hsettling))).1
  have hm₀ := (turn_passes hturn).2.1
  have hsame : m₀.invocations = m.invocations := by rw [(nextTurn_process hturn).2]
  have heffects := effects_of_settles hm₀ hstep
  have hlive : step.Live := heffects.status
  have hon : step.On c :=
    ((settling_cases hsettling).resolve_left fun h => h.2 hlive).1 hc
  obtain ⟨-, -, -, -, -, -, hgoes⟩ := (settling_work hsettling).resolve_left fun h => h.1 hlive
  refine .settles hes hea (nextTurn_process hturn).1 hon (table_of_settles hm₀ hstep)
    (fun hdone => (heffects.done hdone).2.1) ?_ hgoes.status hgoes.invocations
  rw [← hsame]
  cases hstep with
  | initial => exact (retire_of_none (by simp [Event.chosen?, hep, reacting?]) _).symm
  | reaction hreact => exact retire_of_reacting hep hreact

theorem handles_of_does {steps : List (Settled D)} (hrun : Run c steps m) (h : m.Does e m') :
    Handles c m e m' := by
  -- an event that processes no signal takes no result off the table
  have hnothing : e.processed = none → e.chosen? = none := by
    intro he
    rw [Event.chosen?, he]
    rfl
  cases h with
  | call hr =>
    refine .goesOn rfl rfl ?_ (retire_of_none (hnothing rfl) _).symm
    by_cases hs : m.status = .notStarted
    · exact Or.inr ⟨hs, Shell.running_of_receive hs hr⟩
    · exact Or.inl (Shell.receive_status hs hr)
  | result _ hsettle => exact .accepts rfl rfl rfl rfl hsettle
  | discard _ _ hturn =>
    refine .goesOn rfl rfl ?_ ?_
    · rw [nextTurn_skip hturn]
      exact Or.inl rfl
    · rw [nextTurn_skip hturn]
      exact (retire_of_none (hnothing rfl) _).symm
  | idle _ _ hturn =>
    refine .goesOn rfl rfl ?_ ?_
    · rw [nextTurn_skip hturn]
      exact Or.inl rfl
    · rw [nextTurn_skip hturn]
      exact (retire_of_none (hnothing rfl) _).symm
  | @pass m₀ signal _ p _ hturn hproc hp =>
    have hsame : m₀.invocations = m.invocations := by rw [(nextTurn_process hturn).2]
    have hstatus : m₀.status = m.status := by rw [(nextTurn_process hturn).2]; rfl
    rcases process_unsettled hproc hp with ⟨hnone, rfl⟩ | ⟨before, hreact, -, rfl⟩
    · refine .goesOn rfl rfl (Or.inl ?_) ?_
      · rw [absorb_same]
        exact hstatus
      · rw [absorb_same, retire_of_none (by simp [Event.chosen?, hnone])]
        exact hsame
    · refine .goesOn rfl rfl (Or.inl ?_) ?_
      · rw [absorb_same]
        exact (reacting?_keeps hreact).2.2.2.trans hstatus
      · rw [absorb_same, ← hsame]
        change before.invocations = _
        exact retire_of_reacting rfl hreact
  | fault =>
    obtain ⟨hstatus, hidle, -⟩ := fault_work _ _
    exact .ends rfl rfl (Or.inr hstatus) hidle.2
  | turn hstop hturn hstep _ _ he =>
    exact handles_of_settling hrun rfl rfl rfl hturn hstep (.turn hstop hturn hstep he)
  | turnPanicked hstop hturn hstep _ _ he =>
    exact handles_of_settling hrun rfl rfl rfl hturn hstep (.turnPanicked hstop hturn hstep he)
  | stop hup hstop _ hfin =>
    obtain ⟨hend, hidle, -⟩ := finish_work (by rcases hup with h | h <;> simp [h]) hstop.stopRequested hfin
    exact .ends rfl rfl hend hidle.2
  | faultStopping =>
    obtain ⟨hstatus, hidle, -⟩ := fault_work _ _
    exact .ends rfl rfl (Or.inr hstatus) hidle.2
  | outside => exact .goesOn rfl rfl (Or.inl rfl) (retire_of_none (hnothing rfl) _).symm

/-! ## What becomes of the invocations on the table -/

/-- A state with an invocation on the table is one that declares an invocation. -/
theorem invokes_of_pending {t : Invocations D.State} (hinvokes : ∀ x ∈ t.states, c.Invokes x)
    {r : InvocationId × Bool} (h : t.pending? s = some r) : c.Invokes s := by
  obtain ⟨running, hrunning, -⟩ := Option.map_eq_some_iff.mp h
  exact hinvokes s (Invocations.mem_states.mpr ⟨running, hrunning⟩)

theorem pending?_of_idle (h : m.invocations.running = []) (s : D.State) :
    m.invocations.pending? s = none := by
  simp [Invocations.pending?, Invocations.get?, h]

/-- An invocation on the table after an event was launched by it, with a new identity, or was on the
table before and is not affected but that its result may have been accepted. -/
theorem pending_after (hinvokes : ∀ x ∈ m.invocations.states, c.Invokes x) (hdoes : m.Does e m')
    (h : Handles c m e m') (hp : m'.invocations.pending? s = some (id, b)) :
    (∃ step a, e.step = some step ∧ a ∈ step.launches ∧ a.state = s ∧ a.id = id ∧
        ¬ m.invocations.supply.Drawn id ∧ b = false ∧ e.accepted = none) ∨
      ∃ b', m.invocations.pending? s = some (id, b') ∧ e.chosen? ≠ some (s, id) ∧
        (∀ step, e.step = some step → s ∉ step.exited ∧ s ∉ step.entered) ∧
        (b = true ↔ b' = true ∨ e.accepted = some (s, id)) := by
  cases h with
  | @accepts x id' hstep htook haccepted _ hsettle =>
    have hchosen : e.chosen? = none := by rw [chosen_of_does hdoes, htook]; rfl
    obtain ⟨hpending, -, hall⟩ := Invocations.pending?_settle hsettle
    rw [hall] at hp
    refine Or.inr ?_
    by_cases hs : s = x
    · rw [if_pos hs, Option.some.injEq, Prod.mk.injEq] at hp
      obtain ⟨rfl, rfl⟩ := hp
      exact ⟨false, hs ▸ hpending, by simp [hchosen], by simp [hstep], by simp [haccepted, hs]⟩
    · rw [if_neg hs] at hp
      exact ⟨b, hp, by simp [hchosen], by simp [hstep], by simp [haccepted, Ne.symm hs]⟩
  | goesOn hstep haccepted _ hsame =>
    rw [hsame, pending?_retire] at hp
    split at hp
    · exact absurd hp (by simp)
    · next hchosen =>
      exact Or.inr ⟨b, hp, fun he => hchosen (he ▸ rfl), by simp [hstep], by simp [haccepted]⟩
  | @settles step hstep haccepted _ hon htable hdone hbefore _ hsame =>
    rw [hsame] at hp
    have hrunning : step.after.status = .running := by
      refine hon.live.resolve_right fun h => ?_
      rw [pending?_of_idle (hdone h)] at hp
      exact absurd hp (by simp)
    by_cases hlaunched : ∃ a ∈ step.launches, a.state = s
    · obtain ⟨a, ha, has, hpending⟩ := htable.running s hlaunched
      rw [hpending, Option.some.injEq, Prod.mk.injEq] at hp
      refine Or.inl ⟨step, a, hstep, ha, has, hp.1, ?_, hp.2.symm, haccepted⟩
      rw [← supply_retire e, ← hbefore, ← hp.1]
      exact (htable.new a ha).1
    · have hnone : ∀ a ∈ step.launches, a.state ≠ s := fun a ha has => hlaunched ⟨a, ha, has⟩
      have hkept : step.after.invocations.pending? s =
          if s ∈ step.exited then none else step.before.invocations.pending? s := by
        unfold Invocations.pending?
        rw [htable.kept hrunning s hnone]
        split <;> rfl
      rw [hkept, hbefore, pending?_retire] at hp
      split at hp
      · exact absurd hp (by simp)
      · next hexited =>
        split at hp
        · exact absurd hp (by simp)
        · next hchosen =>
          refine Or.inr ⟨b, hp, fun he => hchosen (he ▸ rfl), fun step' he => ?_,
            by simp [haccepted]⟩
          obtain rfl := Option.some.inj (hstep.symm.trans he)
          refine ⟨hexited, fun hentered => ?_⟩
          -- a state that is entered starts the invocation it declares anew
          obtain ⟨a, ha, has⟩ := htable.declared hrunning s hentered
            (hon.chart ▸ invokes_of_pending hinvokes hp)
          exact hnone a ha has
  | ends _ _ _ hidle =>
    rw [pending?_of_idle hidle] at hp
    exact absurd hp (by simp)

/-- An invocation whose state is neither left nor entered goes on, unless its result is chosen. -/
theorem pending_goesOn (hdoes : m.Does e m') (h : Handles c m e m') (hs : m'.status = .running)
    (hp : m.invocations.pending? s = some (id, b))
    (hstays : ∀ step, e.step = some step → s ∉ step.exited ∧ s ∉ step.entered) :
    e.chosen? = some (s, id) ∨ ∃ b', m'.invocations.pending? s = some (id, b') := by
  -- only the choice of this very result takes it off the table
  have hretire : e.chosen? = some (s, id) ∨
      (e.retire m.invocations).pending? s = some (id, b) := by
    rw [pending?_retire]
    by_cases hchosen : e.chosen?.map (·.1) = some s
    · obtain ⟨⟨x, id'⟩, he, rfl⟩ := Option.map_eq_some_iff.mp hchosen
      have hp' := (pending_of_chosen hdoes he).2
      rw [hp, Option.some.injEq, Prod.mk.injEq] at hp'
      exact Or.inl (hp'.1 ▸ he)
    · exact Or.inr (by rw [if_neg hchosen, hp])
  cases h with
  | @accepts x id' _ _ _ _ hsettle =>
    obtain ⟨hpending, -, hall⟩ := Invocations.pending?_settle hsettle
    refine Or.inr ?_
    rw [hall]
    by_cases hx : s = x
    · rw [hx, hpending, Option.some.injEq, Prod.mk.injEq] at hp
      exact ⟨true, by rw [if_pos hx, hp.1]⟩
    · exact ⟨b, by rw [if_neg hx, hp]⟩
  | goesOn _ _ _ hsame =>
    rw [hsame]
    exact hretire.imp_right fun h => ⟨b, h⟩
  | @settles step hstep _ _ _ htable _ hbefore hstatus hsame =>
    obtain ⟨hexited, hentered⟩ := hstays step hstep
    have hnone : ∀ a ∈ step.launches, a.state ≠ s := fun a ha has =>
      hentered (has ▸ htable.states.subset (List.mem_map_of_mem ha))
    refine hretire.imp_right fun h => ⟨b, ?_⟩
    rw [hsame, Invocations.pending?, htable.kept (hstatus ▸ hs) s hnone, if_neg hexited, hbefore]
    exact h
  | ends _ _ hend _ => exact absurd hend (not_ended_of_up (Or.inl hs))

theorem running_before (h : Handles c m e m') (hs : m'.status = .running) :
    (m.status = .running ∨ m.status = .notStarted) ∧
      ∀ id, m.invocations.supply.Drawn id → m'.invocations.supply.Drawn id := by
  cases h with
  | accepts _ _ _ hstatus hsettle =>
    refine ⟨Or.inl (hstatus.symm.trans hs), ?_⟩
    rw [(Invocations.pending?_settle hsettle).2.1]
    exact fun _ => id
  | goesOn _ _ hor hsame =>
    refine ⟨hor.imp (fun h => h.symm.trans hs) And.left, ?_⟩
    rw [hsame, supply_retire]
    exact fun _ => id
  | settles _ _ hrunning _ htable _ hbefore _ hsame =>
    refine ⟨Or.inl hrunning, ?_⟩
    rw [hsame, ← supply_retire e, ← hbefore]
    exact htable.drawn
  | ends _ _ hend _ => exact absurd hend (not_ended_of_up (Or.inl hs))

/-- What is launched has new identities, and each invocation is the one its state has afterwards. -/
theorem launches_after (h : Handles c m e m') :
    ((e.step.toList.flatMap (·.launches)).map (·.id)).Nodup ∧
      ∀ a ∈ e.step.toList.flatMap (·.launches), m.status = .running ∧
        ¬ m.invocations.supply.Drawn a.id ∧ m'.invocations.supply.Drawn a.id ∧
        m'.invocations.pending? a.state = some (a.id, false) := by
  have hnothing : e.step.toList.flatMap (·.launches) = [] →
      ((e.step.toList.flatMap (·.launches)).map (·.id)).Nodup ∧
        ∀ a ∈ e.step.toList.flatMap (·.launches), m.status = .running ∧
          ¬ m.invocations.supply.Drawn a.id ∧ m'.invocations.supply.Drawn a.id ∧
          m'.invocations.pending? a.state = some (a.id, false) := by
    intro he
    rw [he]
    exact ⟨List.nodup_nil, fun a ha => absurd ha List.not_mem_nil⟩
  cases h with
  | accepts hstep => exact hnothing (by rw [hstep]; rfl)
  | goesOn hstep => exact hnothing (by rw [hstep]; rfl)
  | @settles step hstep _ hrunning hon htable _ hbefore _ hsame =>
    have hlaunches : e.step.toList.flatMap (·.launches) = step.launches := by simp [hstep]
    rw [hlaunches]
    refine ⟨htable.distinct, fun a ha => ?_⟩
    obtain ⟨hnew, hdrawn⟩ := htable.new a ha
    refine ⟨hrunning, supply_retire e m.invocations ▸ hbefore ▸ hnew, hsame ▸ hdrawn, ?_⟩
    -- a state is entered once, and so starts no more than one invocation
    obtain ⟨a', ha', hstate, hpending⟩ := htable.running a.state ⟨a, ha, rfl⟩
    have hone := List.inj_on_of_nodup_map (htable.states.nodup (Settled.nodup_entered hon)) ha' ha
      hstate
    rw [hsame, hpending, hone]
  | ends hnone => exact hnothing hnone

theorem pending_of_accepted (h : Handles c m e m') (he : e.accepted = some (s, id)) :
    m.invocations.pending? s = some (id, false) := by
  cases h with
  | accepts _ _ haccepted _ hsettle =>
    rw [haccepted, Option.some.injEq, Prod.mk.injEq] at he
    obtain ⟨rfl, rfl⟩ := he
    exact (Invocations.pending?_settle hsettle).1
  | goesOn _ haccepted | settles _ haccepted | ends _ haccepted =>
    exact absurd (haccepted.symm.trans he) (by simp)

end Machine

end Statechart
