import Statechart.Proofs.Moments
import Statechart.Proofs.Ownership

/-!
# What is exchanged for what

Where history states are targeted from outside only, what a transition stays within can be read off
the chart: it is the nearest compound state around its source that has the target below it
(`Outline.bound?`), whatever a history state stands for at the time (`bound_of_domain`).

So a transition crosses a state if that lies below its bound (`Outline.crosses`). What a step leaves
is crossed by a transition taken (`crosses_of_exited`), and all that is active and crossed is left if
the target is no history state (`exited_of_crosses`). The target is entered then
(`entered_of_crosses`). A child of a compound state other than the initial one is only entered because
a transition leads to it or below it (`goal_of_entered`). All this holds of every step of a run
(`exchanges_of_steps`).
-/

namespace Statechart

open Chart

variable {D : Domain} {c : Chart D} {steps : List (Settled D)} {step : Settled D}
  {t : Selected D} {x d g : D.State}

/-- The state that a transition stays within, by the chart; none if it has no target or only acts. -/
def Outline.bound? (c : Outline D) (t : Selected D) : Option D.State :=
  if t.transition.isActionOnly t.source then none
  else t.transition.target.map fun g => c.nearest t (c.isDescendant g ·)

/-- Whether a state lies below what a transition stays within. -/
def Outline.crosses (c : Outline D) (t : Selected D) (x : D.State) : Bool :=
  (c.bound? t).any (c.isDescendant x ·)

/-- Whether a state is a child of a compound state, and not the initial one. -/
def Outline.isAside (c : Outline D) (x : D.State) : Bool :=
  match (c.parent? x).bind c.kind? with
  | some (.compound i) => decide (x ≠ i)
  | _ => false

theorem isAside_iff {c : Outline D} :
    c.isAside x ↔ ∃ p i, c.parent? x = some p ∧ c.kind? p = some (.compound i) ∧ x ≠ i := by
  unfold Outline.isAside
  constructor
  · intro h
    split at h
    · next i hi =>
      obtain ⟨p, hp, hk⟩ := Option.bind_eq_some_iff.mp hi
      exact ⟨p, i, hp, hk, of_decide_eq_true h⟩
    · exact absurd h (by simp)
  · rintro ⟨p, i, hp, hk, hne⟩
    rw [Option.bind_eq_some_iff.mpr ⟨p, hp, hk⟩]
    exact decide_eq_true hne

theorem crosses_iff {c : Outline D} :
    c.crosses t x ↔ ∃ d, c.bound? t = some d ∧ c.isDescendant x d := by
  simp [Outline.crosses, Option.any_eq_true]

namespace Machine

variable {m : Machine D}

theorem domain_of_plain (hg : t.transition.target = some g) (hc : m.chart.contains g)
    (hh : ¬ m.chart.isHistory g) : m.domain? t = m.chart.bound? t := by
  rw [domain?_eq, targets_of_not_isHistory hg hc hh, Outline.bound?, hg]
  simp

/-- A transition that leaves anything has its domain where the chart says. -/
theorem bound_of_domain (hchart : m.chart = c) (hhist : c.HistoryFromOutside)
    (hb : c.BoundedHistory m.history) (hdecl : Declared c t) (hd : m.domain? t = some d) :
    c.bound? t = some d := by
  obtain ⟨g, hg⟩ := exists_target hd
  subst hchart
  by_cases hh : m.chart.isHistory g
  · obtain ⟨p, hp⟩ := parent_of_isHistory hh
    have hnot : ¬ m.chart.isDescendant d p := by
      intro hdp
      obtain ⟨n, hn, htr⟩ := hdecl
      obtain ⟨hmem, hid⟩ := m.chart.node?_eq_some.mp hn
      have hsource := (domain_spec hb ⟨n, hn, htr⟩ hd).1
      exact hhist n hmem _ htr g hg hh p hp (hid ▸ isDescendant_of_isWithin hsource hdp)
    have hway : (m.chart.isDescendant g ·) = (m.chart.isWithin p ·) := by
      funext a
      refine Bool.eq_iff_iff.mpr ⟨isWithin_parent hp, fun h => ?_⟩
      exact isDescendant_of_isDescendant_of_isWithin (isDescendant_parent hp) h
    have hact : t.transition.isActionOnly t.source = false := by
      rw [domain?_eq] at hd
      by_contra hact
      rw [if_pos (by simp [hact])] at hd
      exact absurd hd (by simp)
    rw [domain_eq_of_not_below hb hg hh hp hd hnot, Outline.bound?, hact, hg, Option.map_some, hway]
    rfl
  · rw [← domain_of_plain hg (target_of_declared hdecl hg).1 hh, hd]

end Machine

/-- Such a state does not come along with another. -/
theorem Chart.eq_of_comesWith {s : D.State} (hx : c.isAside x) (h : c.ComesWith s x) : x = s := by
  obtain ⟨p, i, hp, hk, hne⟩ := isAside_iff.mp hx
  by_contra hother
  obtain ⟨q, hq, -, hinitial⟩ := parent_of_comesWith h hother
  obtain rfl := Option.some.inj (hp.symm.trans hq)
  exact hne (hinitial i hk)

/-- It is brought along by goals within it, or because it is climbed. -/
theorem Chart.goal_of_brought {goal climbed : D.State → Prop} (hx : c.isAside x)
    (h : c.Brought goal climbed x) : goal x ∨ climbed x := by
  rcases h with ⟨s, hs, hsx⟩ | hclimbed | ⟨a, r, -, hparallel, hr, -, hrx⟩
  · exact Or.inl (eq_of_comesWith hx hsx ▸ hs)
  · exact Or.inr hclimbed
  · obtain rfl := eq_of_comesWith hx hrx
    obtain ⟨p, i, hp, hk, -⟩ := isAside_iff.mp hx
    obtain rfl := Option.some.inj (hp.symm.trans (mem_substates.mp hr).1)
    rw [isParallel_iff, hk] at hparallel
    exact absurd hparallel (by simp)

namespace Settled

/-- The step that starts the machine enters no such state. -/
theorem not_mem_of_initial (hon : step.On c) (hi : step.Initial) (hx : c.isAside x) :
    x ∉ step.entered := by
  rw [mem_entered_of_initial hon hi]
  intro hcomes
  obtain rfl := eq_of_comesWith hx hcomes
  obtain ⟨p, i, hp, -, -⟩ := isAside_iff.mp hx
  rw [parent_root] at hp
  exact absurd hp (by simp)

variable (hon : step.On c) (hord : Orderly c steps step.before.configuration step.before.history)
  (hr : step.Reaction)

include hon hr

theorem declared_on (ht : t ∈ step.taken) : Machine.Declared c t :=
  hon.chart ▸ (declared_of_taken hr ht).1

/-- What a step leaves is crossed by a transition taken. -/
theorem crosses_of_exited (hord : Orderly c steps step.before.configuration step.before.history)
    (hhist : c.HistoryFromOutside) (hx : x ∈ step.exited) : ∃ t ∈ step.taken, c.crosses t x := by
  obtain ⟨-, t, ht, d, hd, hxd⟩ := (mem_exited hon hr).mp hx
  exact ⟨t, ht, crosses_iff.mpr ⟨d, Machine.bound_of_domain hon.chart hhist
    (boundedHistory_of_sound (soundHistory_of_orderly hord)) (declared_on hon hr ht) hd, hxd⟩⟩

theorem domain_of_bound (ht : t ∈ step.taken) (hg : t.transition.target = some g)
    (hh : ¬ c.isHistory g) (hd : c.bound? t = some d) : step.before.domain? t = some d := by
  have hdecl := declared_on hon hr ht
  obtain rfl := hon.chart
  exact (Machine.domain_of_plain hg (Machine.target_of_declared hdecl hg).1 hh).trans hd

/-- All that is active is left if it is crossed by a transition to a state other than a history
state. -/
theorem exited_of_crosses (ht : t ∈ step.taken) (hg : t.transition.target = some g)
    (hh : ¬ c.isHistory g) (hcross : c.crosses t x) (hx : x ∈ step.before.configuration) :
    x ∈ step.exited := by
  obtain ⟨d, hd, hxd⟩ := crosses_iff.mp hcross
  exact (mem_exited hon hr).mpr ⟨hx, t, ht, d, domain_of_bound hon hr ht hg hh hd, hxd⟩

include hord

variable (hstraight : step.Straight)

include hstraight

/-- The target of such a transition is entered. -/
theorem entered_of_crosses (ht : t ∈ step.taken) (hg : t.transition.target = some g)
    (hh : ¬ c.isHistory g) (hcross : c.crosses t g) : g ∈ step.entered := by
  obtain ⟨d, hd, -⟩ := crosses_iff.mp hcross
  have hdomain := domain_of_bound hon hr ht hg hh hd
  have hdecl := declared_on hon hr ht
  have hc : c.contains g := by
    obtain rfl := hon.chart
    exact (Machine.target_of_declared hdecl hg).1
  refine (mem_entered hon hord hr hstraight).mpr ⟨t, ht, ?_⟩
  rw [brings_iff hon hord hr hstraight ht hdomain hg]
  exact Or.inl ⟨g, .plain hc hh, .self g⟩

variable (hhist : c.HistoryFromOutside)

include hhist

theorem crosses_of_brings (ht : t ∈ step.taken) (hbrings : step.between.Brings t x) :
    c.crosses t x := by
  obtain ⟨d, hd, hxd⟩ := domain_of_brings hon hord hr hstraight ht hbrings
  exact crosses_iff.mpr ⟨d, Machine.bound_of_domain hon.chart hhist
    (boundedHistory_of_sound (soundHistory_of_orderly hord)) (declared_on hon hr ht) hd, hxd⟩

/-- What a step enters is crossed by a transition taken. -/
theorem crosses_of_entered (hx : x ∈ step.entered) : ∃ t ∈ step.taken, c.crosses t x := by
  obtain ⟨t, ht, hbrings⟩ := (mem_entered hon hord hr hstraight).mp hx
  exact ⟨t, ht, crosses_of_brings hon hord hr hstraight hhist ht hbrings⟩

/-- A child of a compound state other than the initial one is only entered if a transition leads to
it or below it. -/
theorem goal_of_entered (haside : c.isAside x) (hx : x ∈ step.entered) : ∃ t ∈ step.taken, c.crosses t x ∧ ∃ g y,
      t.transition.target = some g ∧ c.StandsFor step.between.history g y ∧ c.isWithin y x := by
  obtain ⟨t, ht, hbrings⟩ := (mem_entered hon hord hr hstraight).mp hx
  obtain ⟨d, hd, -⟩ := domain_of_brings hon hord hr hstraight ht hbrings
  obtain ⟨g, hg⟩ := Machine.exists_target hd
  refine ⟨t, ht, crosses_of_brings hon hord hr hstraight hhist ht hbrings, g, ?_⟩
  rw [brings_iff hon hord hr hstraight ht hd hg] at hbrings
  rcases goal_of_brought haside hbrings with hgoal | ⟨-, y, hy, hyx⟩
  · exact ⟨x, hg, hgoal, isWithin_refl x⟩
  · exact ⟨y, hg, hy, isWithin_of_isDescendant hyx⟩

end Settled

/-- What is on record when states are entered was so before, or has just been recorded: then it was
active. -/
theorem Settled.recorded_between {l : List D.State} (hon : step.On c)
    (h : step.between.history.get? x = some l) :
    step.before.history.get? x = some l ∨ ∀ y ∈ l, y ∈ step.before.configuration := by
  rcases hon.cases with hi | hr
  · exact Or.inl (hi.same ▸ h)
  rw [hr.history] at h
  by_cases hhist : step.before.chart.isHistory x
  · obtain ⟨p, hp⟩ := parent_of_isHistory hhist
    obtain ⟨mode, hk⟩ := isHistory_iff.mp hhist
    rw [Machine.get?_recordHistories hk hp] at h
    split at h
    · refine Or.inr fun y hy => ?_
      rw [← Option.some.inj h] at hy
      exact (Machine.mem_remember.mp hy).1
    · exact Or.inl h
  · rw [Machine.get?_recordHistories_of_not_isHistory hhist] at h
    exact Or.inl h

/-! ## Along a run -/

/-- What a machine that settles a step on a chart exchanges in its configuration. -/
structure Settled.Exchanges (c : Chart D) (m₀ : Machine D) (step : Settled D) : Prop where
  after : ∀ x, x ∈ step.after.configuration ↔
    (x ∈ m₀.configuration ∧ x ∉ step.exited) ∨ x ∈ step.entered
  nodup : step.entered.Nodup
  /-- Nothing is entered that stays active. -/
  apart : ∀ x ∈ step.entered, x ∈ m₀.configuration → x ∈ step.exited
  exited : ∀ x ∈ step.exited, x ∈ m₀.configuration ∧ ∃ t ∈ m₀.takes step.signal, c.crosses t x
  crossed : ∀ x ∈ step.entered, m₀.configuration.elems = [] ∨
    ∃ t ∈ m₀.takes step.signal, c.crosses t x
  entered : ∀ x ∈ step.entered, c.isAside x → ∃ t ∈ m₀.takes step.signal, c.crosses t x ∧ ∃ g y,
    t.transition.target = some g ∧ c.StandsFor step.between.history g y ∧ c.isWithin y x
  leaves : ∀ t ∈ m₀.takes step.signal, ∀ g, t.transition.target = some g → ¬ c.isHistory g →
    ∀ x ∈ m₀.configuration, c.crosses t x → x ∈ step.exited
  enters : ∀ t ∈ m₀.takes step.signal, ∀ g, t.transition.target = some g → ¬ c.isHistory g →
    c.crosses t g → g ∈ step.entered
  bounded : c.BoundedHistory step.between.history
  recorded : ∀ s l, step.between.history.get? s = some l →
    m₀.history.get? s = some l ∨ ∀ y ∈ l, y ∈ m₀.configuration
  history : step.after.history = step.between.history

section

open Machine

variable {m m' m₀ : Machine D} {log : List (Event D)} (hroot : ¬ c.isParallel c.root)
  (hhist : c.HistoryFromOutside) (h : Course c log m)

include hroot hhist h

theorem Settled.exchanges_of_settling {later : List (Work D)} {p : Progress D}
    (hsettling : m.Settling step m') (hturn : m.nextTurn = .process m₀ step.signal later)
    (hsettles : m₀.Settles step p) : step.Exchanges c m₀ := by
  obtain ⟨hon, hord, hstraight⟩ := straight_of_settling hroot hhist h hsettling hturn hsettles
  have htakes := takes_of_settles hsettles
  have hstage := sameStage_of_settles hsettles
  have hbefore := hstage.configuration
  have hafter := (configuration_of_settles hsettles).2
  have hbounded := boundedHistory_of_sound (Settled.soundHistory_between hon hord)
  have hrecorded : ∀ s l, step.between.history.get? s = some l →
      m₀.history.get? s = some l ∨ ∀ y ∈ l, y ∈ m₀.configuration := by
    rw [← hbefore, ← hstage.history]
    exact fun s l => Settled.recorded_between hon
  -- an initial step takes no transition and finds nothing active
  rcases hon.cases with hi | hr
  · have hnone : ∀ t, t ∉ m₀.takes step.signal := by
      rw [← htakes, hi.taken]
      exact fun t => List.not_mem_nil
    have hempty : ∀ x, x ∉ m₀.configuration := by
      intro x
      rw [← hbefore, StateSet.mem_def, List.isEmpty_iff.mp hi.empty]
      exact List.not_mem_nil
    refine ⟨hafter, nodup_entered hon, fun x _ hx => absurd hx (hempty x), ?_,
      fun x _ => Or.inl (hbefore ▸ List.isEmpty_iff.mp hi.empty),
      fun x hx haside => absurd hx (not_mem_of_initial hon hi haside),
      fun t ht => absurd ht (hnone t), fun t ht => absurd ht (hnone t), hbounded, hrecorded,
      hon.enters.history⟩
    rw [hi.exited]
    exact fun x hx => absurd hx List.not_mem_nil
  · rw [← hbefore] at hafter
    constructor
    case recorded => exact hrecorded
    case history => exact hon.enters.history
    all_goals try rw [← htakes]
    all_goals try rw [← hbefore]
    · exact hafter
    · exact nodup_entered hon
    · intro x hx hactive
      have hinactive := inactive_of_entered hon hord hr hstraight hx
      rw [hr.left] at hinactive
      exact by_contra fun hne => hinactive ⟨hactive, hne⟩
    · exact fun x hx => ⟨active_of_exited hon hx, crosses_of_exited hon hr hord hhist hx⟩
    · exact fun x hx => Or.inr (crosses_of_entered hon hord hr hstraight hhist hx)
    · exact fun x hx haside => goal_of_entered hon hord hr hstraight hhist haside hx
    · exact fun t ht g hg hh x hx hcross => exited_of_crosses hon hr ht hg hh hcross hx
    · exact fun t ht g hg hh hcross => entered_of_crosses hon hord hr hstraight ht hg hh hcross
    · exact hbounded

theorem Settled.exchanges_of_steps {e : Event D} (hdoes : m.Does e m')
    (hsteps : m.Steps e m₀ step m') : step.Exchanges c m₀ := by
  obtain ⟨later, hturn⟩ := hsteps.turn
  obtain ⟨p, hsettles⟩ := hsteps.settles
  exact exchanges_of_settling hroot hhist h (settling_of_does hdoes hsteps.settled) hturn hsettles

end

end Statechart
