import Statechart.Proofs.Launches
import Statechart.Proofs.ParallelRoot
import Statechart.Proofs.Tick

/-!
# Regions do not disturb each other

A transition that leads from somewhere below a compound state `r` to somewhere below it
(`StaysBelow`) has a domain within `r`, whatever its target: what a history state stands for
lies below the state it belongs to, and that lies within `r` too (`isWithin_domain`). So what
the transition leaves and enters lies below `r`. Entering may go beyond the domain, as far as the
parent of a history state, but not beyond `r`.

Nothing outside can tell that such a step was taken (`isolated_of_run`): neither the active
states nor the records of history states, and, as long as the machine does not complete,
neither pending timers nor running invocations. Only what the signal itself brings is taken from
the tables, the timer that fires or the invocation that ended.
-/

namespace Statechart

open Chart

variable {D : Domain} {c : Chart D}

/-- Whether a transition only acts, or leads from below `r` to below `r`; one that is declared on `r`
itself must not leave `r`. -/
def Selected.StaysBelow (c : Chart D) (r : D.State) (t : Selected D) : Prop :=
  t.transition.isActionOnly t.source ∨ ∃ g, t.transition.target = some g ∧ c.isDescendant g r ∧
    (c.isDescendant t.source r ∨ (t.source = r ∧ ¬ t.transition.reenter))

namespace Machine

variable {m m₀ : Machine D} {t : Selected D} {r d x : D.State} {signal : Signal D}
  {p : Progress D} {step : Settled D}

/-- The transitions that a machine takes on a signal. -/
def takes (m : Machine D) (signal : Signal D) : List (Selected D) :=
  match m.reacting? signal with
  | none => []
  | some before =>
    match before.select signal with
    | .ok selected => before.withoutConflicts selected
    | .error _ => []

/-- What is taken is what is left of the transitions selected, if the signal is taken in and there is
no defect. -/
theorem takes_cases (m : Machine D) (signal : Signal D) : m.takes signal = [] ∨
    ∃ (invocations : Invocations D.State) (selected : List (Selected D)),
      m.reacting? signal = some { m with invocations } ∧
        { m with invocations }.select signal = .ok selected ∧
        m.takes signal = { m with invocations }.withoutConflicts selected := by
  cases hreact : m.reacting? signal with
  | none => exact Or.inl (by simp only [takes, hreact])
  | some before =>
    obtain ⟨invocations, -, rfl⟩ := exists_of_reacting? hreact
    cases hselect : { m with invocations }.select signal with
    | ok selected => exact Or.inr ⟨_, _, rfl, hselect, by simp only [takes, hreact, hselect]⟩
    | error _ => exact Or.inl (by simp only [takes, hreact, hselect])

theorem takes_of_settles (h : m.Settles step p) : step.taken = m.takes step.signal := by
  cases h with
  | initial => rfl
  | reaction hreact hselect _ htaken => simp only [takes, hreact, hselect, htaken]

/-- A transition that stays below a compound state has its domain within it. -/
theorem isWithin_domain (hb : m.chart.BoundedHistory m.history) (hr : m.chart.isCompound r)
    (hdecl : Declared m.chart t) (hstay : t.StaysBelow m.chart r) (hd : m.domain? t = some d) :
    m.chart.isWithin d r := by
  rcases hstay with hact | ⟨g, hg, hgr, hsource⟩
  · rw [domain?_eq, if_pos (by simp [hact])] at hd
    exact absurd hd (by simp)
  · obtain ⟨-, rfl⟩ := domain_eq_nearest hd
    refine isWithin_nearest_of_mem_scopes ?_ hr (List.all_eq_true.mpr fun y hy => ?_)
    · rw [Outline.scopes, List.mem_append]
      rcases hsource with hsource | ⟨rfl, hstays⟩
      · exact Or.inr (isDescendant_iff.mp hsource)
      · exact Or.inl (by simp [hstays])
    · by_cases hh : m.chart.isHistory g
      · obtain ⟨q, hq⟩ := parent_of_isHistory hh
        exact isDescendant_of_isDescendant_of_isWithin (targets_below hb hg hh hq hy)
          (isWithin_parent hq hgr)
      · rw [targets_of_not_isHistory hg (target_of_declared hdecl hg).1 hh,
          List.mem_singleton] at hy
        exact hy ▸ hgr

section

variable {taken : List (Selected D)} {entered : List D.State}
  (hb : m.chart.BoundedHistory m.history) (hr : m.chart.isCompound r)
  (htaken : ∀ t ∈ taken, Declared m.chart t ∧ t.StaysBelow m.chart r)

include hb hr htaken

/-- What such transitions leave lies below that state. -/
theorem below_of_mem_leaving (hx : x ∈ m.leaving taken) : m.chart.isDescendant x r := by
  obtain ⟨-, t, ht, d, hd, hxd⟩ := mem_leaving.mp hx
  obtain ⟨hdecl, hstay⟩ := htaken t ht
  exact isDescendant_of_isDescendant_of_isWithin hxd (isWithin_domain hb hr hdecl hstay hd)

/-- So does what they enter. -/
theorem below_of_mem_entering (h : m.entering taken = some entered) (hx : x ∈ entered) :
    m.chart.isDescendant x r := by
  obtain ⟨-, t, ht, d, g, hd, hg, hx⟩ :=
    (entering_bounds hb (fun t ht => (htaken t ht).1) h).1 x hx
  obtain ⟨hdecl, hstay⟩ := htaken t ht
  rcases hx with hx | hx
  · rcases hstay with hact | ⟨g', hg', hgr, -⟩
    · rw [domain?_eq, if_pos (by simp [hact])] at hd
      exact absurd hd (by simp)
    · rw [hg, Option.some.injEq] at hg'
      exact Chart.below_of_scope (hg' ▸ hgr) hx
  · exact isDescendant_of_isDescendant_of_isWithin hx (isWithin_domain hb hr hdecl hstay hd)

end

end Machine

namespace Settled

variable {step : Settled D} {steps : List (Settled D)} {r x q h : D.State}

section

variable (hon : step.On c) (hplain : Plain c steps step.before.configuration step.before.history)
  (hreact : step.Reaction) (hr : c.isCompound r) (hstay : ∀ t ∈ step.taken, t.StaysBelow c r)

include hon hplain hreact hr hstay

theorem below_of_exited (hx : x ∈ step.exited) : c.isDescendant x r := by
  have hb := boundedHistory_of_recorded hplain.recorded hplain.past
  obtain rfl := hon.chart
  rw [← hreact.exited] at hx
  exact Machine.below_of_mem_leaving hb hr
    (fun t ht => ⟨(declared_of_taken hreact ht).1, hstay t ht⟩) hx

theorem below_of_entered (hx : x ∈ step.entered) : c.isDescendant x r := by
  have hb := boundedHistory_between hon hplain
  have hchart : step.between.chart = c := hreact.chart.trans hon.chart
  have hdecl : ∀ t ∈ step.taken, Machine.Declared step.between.chart t :=
    fun t ht => hreact.chart ▸ (declared_of_taken hreact ht).1
  rw [← hchart] at hb hr hstay ⊢
  exact Machine.below_of_mem_entering hb hr (fun t ht => ⟨hdecl t ht, hstay t ht⟩) hreact.entered hx

theorem active_iff_outside (hx : ¬ c.isDescendant x r) :
    x ∈ step.after.configuration ↔ x ∈ step.before.configuration := by
  rw [mem_after hon.enters hon.cases]
  constructor
  · exact fun h => (h.resolve_right fun he =>
      hx (below_of_entered hon hplain hreact hr hstay he)).1
  · exact fun h => Or.inl ⟨h, fun he => hx (below_of_exited hon hplain hreact hr hstay he)⟩

/-- Nothing is recorded for history states that belong to states outside. -/
theorem record_outside (hq : c.parent? h = some q) (hx : ¬ c.isDescendant q r) :
    step.after.history.get? h = step.before.history.get? h := by
  rw [hon.enters.history, hreact.history]
  by_cases hh : c.isHistory h
  · obtain ⟨mode, hk⟩ := isHistory_iff.mp hh
    rw [Machine.get?_recordHistories (hon.chart ▸ hk) (hon.chart ▸ hq), if_neg]
    exact fun he => hx (below_of_exited hon hplain hreact hr hstay he)
  · exact Machine.get?_recordHistories_of_not_isHistory (hon.chart ▸ hh)

end

end Settled

namespace Machine

variable {m m₀ : Machine D} {r x : D.State} {signal : Signal D} {p : Progress D}
  {step : Settled D} {steps : List (Settled D)} {later : List (Work D)}

theorem on_of_settles (hc : m.chart = c) (hm : m.status = .running) (h : m.Settles step p) :
    step.On c := by
  obtain ⟨henters, ⟨hchart, -, -⟩, hcases⟩ := settles_cases h
  exact ⟨hchart.trans hc, (effects_of_settles hm h).status, henters, hcases⟩

/-- No history state was ever active in a machine that is running. -/
theorem plain_of_run (hrun : Run c steps m) (hm : m.status = .running) :
    m.chart = c ∧ Plain c steps m.configuration m.history := by
  refine (run_invariant (P := Plain c) (fun configuration _ hc hh => ?_)
    (fun _ _ hon hplain => Settled.plain_step hon hplain) hrun).resolve_left
    (not_ended_of_up (Or.inl hm))
  exact ⟨fun x hx => by rw [StateSet.mem_def, hc] at hx; simp at hx, recorded_nil hh,
    fun _ he => absurd he List.not_mem_nil⟩

/-- A turn takes the timer that fires from the table, and nothing else. -/
theorem timers_of_turn (hturn : m.nextTurn = .process m₀ signal later) (t : Timer D.State) :
    t ∈ m₀.timers.pending ↔ t ∈ m.timers.pending ∧ m.fires? ≠ some t := by
  obtain ⟨rest, -, ⟨hqueue, -, rfl⟩ | ⟨now, horizon, u, timers, hqueue, -, hpop, -, rfl⟩⟩ :=
    nextTurn_cases hturn
  · simp [fires?, hqueue]
  · rw [(Timers.popDue_spec hpop).2.2 t]
    simp [fires?, hqueue, hpop, eq_comm]

/-- Taking in a signal retires the invocation that ended, and no other. -/
theorem invocations_of_reacting? {before : Machine D} (h : m.reacting? signal = some before)
    (x : D.State) : before.invocations.get? x = m.invocations.get? x ∨
      ∃ id, signal.result? = some (x, id) ∧ m.invocations.pending? x = some (id, true) ∧
        before.invocations.get? x = none := by
  cases hresult : signal.result? with
  | none => exact Or.inl (by rw [reacting?_of_no_result hresult h])
  | some result =>
    obtain ⟨s, id⟩ := result
    rw [reacting?_of_result hresult] at h
    split at h
    · next hs =>
      rw [Option.some.injEq] at h
      subst h
      by_cases hx : x = s
      · subst hx
        exact Or.inr ⟨id, rfl, hs, by simp [Invocations.get?_remove]⟩
      · exact Or.inl (by simp [Invocations.get?_remove, hx])
    · exact absurd h (by simp)

/-- What of a machine that has processed a signal is as it was before, outside of the states below
`r`. -/
structure Undisturbed (c : Chart D) (r : D.State) (m : Machine D) (signal : Signal D)
    (p : Progress D) : Prop where
  active : ∀ x, ¬ c.isDescendant x r → (x ∈ (absorb p).configuration ↔ x ∈ m.configuration)
  recorded : ∀ h q, c.parent? h = some q → ¬ c.isDescendant q r →
    (absorb p).history.get? h = m.history.get? h
  timers : p.completed = false → ∀ t, ¬ c.isDescendant t.state r →
    (t ∈ (absorb p).timers.pending ↔ t ∈ m.timers.pending ∧ m.fires? ≠ some t)
  invocations : p.completed = false → ∀ x, ¬ c.isDescendant x r →
    (absorb p).invocations.get? x = m.invocations.get? x ∨
      ∃ id, signal.result? = some (x, id) ∧ m.invocations.pending? x = some (id, true) ∧
        (absorb p).invocations.get? x = none

/-- A signal that sets off no transition disturbs nothing. -/
theorem undisturbed_of_unsettled (hturn : m.nextTurn = .process m₀ signal later)
    (hproc : m₀.process signal = .ok p) (hp : p.settled = false) :
    Undisturbed c r m signal p := by
  have htimers := timers_of_turn hturn
  have he := (nextTurn_process hturn).2
  have hsame : m₀.configuration = m.configuration ∧ m₀.history = m.history ∧
      m₀.invocations = m.invocations := by
    rw [he]
    exact ⟨rfl, rfl, rfl⟩
  obtain ⟨hconf, hhistory, hinvocations⟩ := hsame
  -- at most the result of a task was taken off the table
  rcases process_unsettled hproc hp with ⟨-, rfl⟩ | ⟨before, hreact, -, rfl⟩
  · refine ⟨fun x _ => ?_, fun h q _ _ => ?_, fun _ t _ => ?_, fun _ x _ => Or.inl ?_⟩ <;>
      rw [absorb_same]
    · rw [hconf]
    · rw [hhistory]
    · exact htimers t
    · rw [hinvocations]
  · obtain ⟨-, hhistory', hconf', -⟩ := reacting?_keeps hreact
    refine ⟨fun x _ => ?_, fun h q _ _ => ?_, fun _ t _ => ?_, fun _ x _ => ?_⟩ <;>
      rw [absorb_same]
    · rw [hconf', hconf]
    · rw [hhistory', hhistory]
    · rw [(reacting?_work hreact).2.1]
      exact htimers t
    · rw [← hinvocations]
      exact invocations_of_reacting? hreact x

/-- Nor does a step whose transitions stay below a state, outside of it. -/
theorem undisturbed_of_settles (hturn : m.nextTurn = .process m₀ signal later)
    (hsettles : m₀.Settles step p) (hsignal : step.signal = signal) (hon : step.On c)
    (hplain : Plain c steps step.before.configuration step.before.history)
    (hreact : step.Reaction) (hr : c.isCompound r) (hstay : ∀ t ∈ step.taken, t.StaysBelow c r) :
    Undisturbed c r m signal p := by
  obtain ⟨-, hstatus, -⟩ := turn_passes hturn
  have he := (nextTurn_process hturn).2
  obtain ⟨-, ⟨-, hhistory, hconf⟩, -⟩ := settles_cases hsettles
  have heffects := effects_of_settles hstatus hsettles
  have htable := table_of_settles hstatus hsettles
  have hrunning := status_of_settles hstatus hsettles
  have hafter := (settled_of_settles hsettles).2
  constructor
  case active =>
    intro x hx
    rw [← hafter, Settled.active_iff_outside hon hplain hreact hr hstay hx, hconf, he]
  case recorded =>
    intro h q hq hx
    rw [← hafter, Settled.record_outside hon hplain hreact hr hstay hq hx, hhistory, he]
  case timers =>
    intro hp t ht
    rw [hp, if_neg (by simp)] at hrunning
    rw [← hafter, ← timers_of_turn hturn t]
    constructor
    · intro htp
      refine (heffects.timers t htp).elim And.left fun h => ?_
      exact absurd (Settled.below_of_entered hon hplain hreact hr hstay h.1) ht
    · exact fun htp => heffects.kept hrunning t htp fun hx =>
        ht (Settled.below_of_exited hon hplain hreact hr hstay hx)
  case invocations =>
    intro hp x hx
    rw [hp, if_neg (by simp)] at hrunning
    -- nothing is launched for the state, and it is not left
    have hkept := htable.kept hrunning x fun a ha hax => hx
      (Settled.below_of_entered hon hplain hreact hr hstay
        (hax ▸ htable.states.subset (List.mem_map_of_mem ha)))
    rw [if_neg fun h => hx (Settled.below_of_exited hon hplain hreact hr hstay h)] at hkept
    rw [← hafter, hkept]
    have hinvocations : m₀.invocations = m.invocations := by rw [he]
    cases hsettles with
    | initial => exact Or.inl (by rw [hinvocations])
    | reaction hbefore =>
      rw [← hinvocations, ← hsignal]
      exact invocations_of_reacting? hbefore x

/-- Whatever signal a machine that was started processes: if every transition taken only acts or
stays below a compound state, all that is left and entered lies below that state, and nothing
outside of it is disturbed. -/
theorem isolated_of_run (hrun : Run c steps m) (hstarted : ∃ x, x ∈ m.configuration)
    (hturn : m.nextTurn = .process m₀ signal later) (hproc : m₀.process signal = .ok p)
    (hr : c.isCompound r) (hstay : ∀ t ∈ m₀.takes signal, t.StaysBelow c r) :
    (p.settled → ∃ step, m₀.Settles step p ∧ step.signal = signal ∧
      step.taken = m₀.takes signal ∧
      (∀ x ∈ step.exited, c.isDescendant x r) ∧ ∀ x ∈ step.entered, c.isDescendant x r) ∧
    Undisturbed c r m signal p := by
  cases hp : p.settled with
  | false => exact ⟨fun h => absurd h (by simp), undisturbed_of_unsettled hturn hproc hp⟩
  | true =>
    obtain ⟨hrunning, he⟩ := nextTurn_process hturn
    obtain ⟨hc, hplain⟩ := plain_of_run hrun hrunning
    have hm₀ : m₀.chart = c ∧ m₀.configuration = m.configuration ∧ m₀.history = m.history := by
      rw [he]
      exact ⟨hc, rfl, rfl⟩
    rcases process_cases hproc with ⟨_, -, rfl⟩ | ⟨step, hsettles, hsignal⟩
    · exact absurd hp (by simp)
    · have hon := on_of_settles hm₀.1 (turn_passes hturn).2.1 hsettles
      obtain ⟨-, ⟨-, hhistory, hconf⟩, hcases⟩ := settles_cases hsettles
      rw [hm₀.2.1] at hconf
      rw [← hconf, ← hm₀.2.2, ← hhistory] at hplain
      -- a machine that has active states was started before
      have hreact := hcases.resolve_left fun hi => by
        obtain ⟨x, hx⟩ := hstarted
        rw [← hconf, StateSet.mem_def, List.isEmpty_iff.mp hi.empty] at hx
        exact absurd hx List.not_mem_nil
      have htaken := takes_of_settles hsettles
      rw [hsignal] at htaken
      rw [← htaken] at hstay
      refine ⟨fun _ => ⟨step, hsettles, hsignal, htaken,
        fun x hx => Settled.below_of_exited hon hplain hreact hr hstay hx,
        fun x hx => Settled.below_of_entered hon hplain hreact hr hstay hx⟩, ?_⟩
      exact undisturbed_of_settles hturn hsettles hsignal hon hplain hreact hr hstay

end Machine

/-! ## A radio -/

inductive RadioState | radio | tuner | fm | am | last | sleep | awake | asleep
deriving DecidableEq

/-- A radio that falls asleep after an hour, whatever it is tuned to. -/
def radioTree : StateTree (.bare RadioState) :=
  .bare .radio .parallel []
    [.bare .tuner (.compound .fm) [.bare "back" .last]
      [.bare .fm .atomic [.bare "tune" .am], .bare .am .atomic, .bare .last (.history .shallow)],
    .bare .sleep (.compound .awake) []
      [.bare .awake .atomic [.bareOn (.after (.ofMillis 3600000)) .asleep], .bare .asleep .atomic]]

def radio : Chart (.bare RadioState) :=
  { radioTree.outline with tree := radioTree, outline_eq := rfl, flawless := by cbv }

/-- A radio about to be tuned. -/
def tunedRadio : Machine (.bare RadioState) :=
  let m := (radio.machine.trace [.start]).2
  { m with shell := m.shell.enqueue (.signal (.event "tune")) }

/-- Whether a machine settles a step in its next turn, and the transitions that it takes in it. -/
def Machine.taking? (m : Machine D) : Option (Option Bool × List (D.State × Option D.State × Bool)) :=
  match m.nextTurn with
  | .process m₀ signal _ => some ((m₀.process signal).toOption.map (·.settled),
      (m₀.takes signal).map fun t => (t.source, t.transition.target, t.transition.reenter))
  | _ => none

open Machine in
/-- Tuning the radio leaves the timer alone that sends it to sleep. -/
theorem radio_isolated : ∃ steps m m₀ signal later p, Run radio steps m ∧
    m.nextTurn = .process m₀ signal later ∧ m₀.process signal = .ok p ∧ p.settled ∧
      m.timers.pending.map (·.state) = [.awake] ∧ Undisturbed radio .tuner m signal p := by
  have hcalled : (radio.machine.trace [.start]).2.Move tunedRadio :=
    .call (c := .send "tune") (by
      have hstatus : (radio.machine.trace [.start]).2.shell.status = .running := by cbv
      have hstop : (radio.machine.trace [.start]).2.shell.stopRequested = false := by cbv
      simp [Shell.receive, Shell.receiveWork, hstatus, hstop])
  have hrun := (radio.run_trace [.start]).move hcalled
  have helems : tunedRadio.configuration.elems = [.radio, .tuner, .sleep, .fm, .awake] := by cbv
  have hactive : RadioState.radio ∈ tunedRadio.configuration := by
    rw [StateSet.mem_def, helems]
    exact List.mem_cons_self ..
  have hturn : tunedRadio.taking? = some (some true, [(.fm, some .am, false)]) := by cbv
  unfold taking? at hturn
  split at hturn
  · next m₀ signal later hnext =>
    rw [Option.some.injEq, Prod.mk.injEq] at hturn
    obtain ⟨hproc, htakes⟩ := hturn
    obtain ⟨p, hp, hsettled⟩ := Option.map_eq_some_iff.mp hproc
    have hproc : m₀.process signal = .ok p := by
      cases he : m₀.process signal with
      | error e => simp [he, Except.toOption] at hp
      | ok p' => simpa [he, Except.toOption] using hp
    refine ⟨_, _, m₀, signal, later, p, hrun, hnext, hproc, hsettled, by cbv, ?_⟩
    refine (isolated_of_run hrun ⟨.radio, hactive⟩ hnext hproc (by decide)
      fun t ht => ?_).2
    have hmem := htakes ▸ List.mem_map_of_mem (f := fun t : Selected (.bare RadioState) =>
      (t.source, t.transition.target, t.transition.reenter)) ht
    simp only [List.mem_singleton, Prod.mk.injEq] at hmem
    refine Or.inr ⟨.am, hmem.2.1, by decide, Or.inl ?_⟩
    rw [hmem.1]
    decide
  · exact absurd hturn (by simp)

end Statechart
