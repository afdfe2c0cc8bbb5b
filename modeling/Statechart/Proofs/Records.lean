import Statechart.Proofs.Entry.Bounds
import Statechart.Proofs.History
import Statechart.Proofs.Machine.Selection
import Statechart.Proofs.RunInvariant

/-!
# Records along a run

At every moment of a run the history remembers the latest exits: a history state has a
record exactly if the state it belongs to was left, and the record is of what was active
when it was left for the last time (`Recorded`). Every step keeps this
(`recorded_step`), whatever it does otherwise.

So what is known of the configurations in which states were left is known of the
records: if these were well formed, the history is sound (`soundHistory_of_recorded`).
-/

namespace Statechart

variable {D : Domain}

/-- The latest step in which `p` was left. -/
def lastExit (p : D.State) (steps : List (Settled D)) : Option (Settled D) :=
  steps.find? fun step => p ∈ step.exited

/-- The history remembers the latest exits, and nothing else. -/
structure Recorded (c : Chart D) (steps : List (Settled D)) (h : History D.State) : Prop where
  latest : ∀ s mode p, c.kind? s = some (.history mode) → c.parent? s = some p →
    h.get? s = (lastExit p steps).map fun e => e.before.remember mode p
  only : ∀ s, ¬ c.isHistory s → h.get? s = none

variable {c : Chart D} {steps : List (Settled D)} {step e : Settled D} {h : History D.State}
  {s x p : D.State}

theorem exited_of_lastExit (he : lastExit p steps = some e) : e ∈ steps ∧ p ∈ e.exited :=
  ⟨List.mem_of_find?_eq_some he, by simpa using List.find?_some he⟩

theorem lastExit_of_mem (hp : p ∈ step.exited) : lastExit p (step :: steps) = some step := by
  unfold lastExit
  rw [List.find?_cons_of_pos (by simpa using hp)]

theorem lastExit_of_not_mem (hp : p ∉ step.exited) :
    lastExit p (step :: steps) = lastExit p steps := by
  unfold lastExit
  rw [List.find?_cons_of_neg (by simpa using hp)]

/-- What a step leaves was active. -/
theorem active_of_exited (hon : step.On c) (hx : x ∈ step.exited) : x ∈ step.before.configuration := by
  rcases hon.cases with hi | hr
  · rw [hi.exited] at hx
    exact absurd hx List.not_mem_nil
  · rw [← hr.exited] at hx
    exact (Machine.mem_leaving.mp hx).1

theorem recorded_nil (hh : h.records = []) : Recorded c [] h := by
  have hnone : ∀ s, h.get? s = none := by
    intro s
    rw [History.get?, hh]
    rfl
  exact ⟨fun s mode p _ _ => hnone s, fun s _ => hnone s⟩

/-- Recording before anything is left keeps the history up to date. -/
theorem recorded_step (hon : step.On c) (hrec : Recorded c steps step.before.history) :
    Recorded c (step :: steps) step.after.history := by
  rw [hon.enters.history]
  rcases hon.cases with hi | hr
  · rw [hi.same]
    refine ⟨fun s mode p hk hp => ?_, hrec.only⟩
    rw [lastExit_of_not_mem (by rw [hi.exited]; exact List.not_mem_nil), hrec.latest s mode p hk hp]
  · rw [hr.history]
    constructor
    · intro s mode p hk hp
      rw [Machine.get?_recordHistories (by rw [hon.chart]; exact hk) (by rw [hon.chart]; exact hp)]
      by_cases hexit : p ∈ step.exited
      · rw [if_pos hexit, lastExit_of_mem hexit]
        rfl
      · rw [if_neg hexit, lastExit_of_not_mem hexit, hrec.latest s mode p hk hp]
    · intro s hs
      rw [Machine.get?_recordHistories_of_not_isHistory (by rw [hon.chart]; exact hs)]
      exact hrec.only s hs

/-- Every record was made in a step in which the state around the history state was left. -/
theorem exists_of_record (hrec : Recorded c steps h) {l : List D.State} (hl : h.get? s = some l)
    (hp : c.parent? s = some p) : ∃ mode, c.kind? s = some (.history mode) ∧
      ∃ e ∈ steps, p ∈ e.exited ∧ l = e.before.remember mode p := by
  have hh : c.isHistory s := by
    by_contra hh
    rw [hrec.only s hh] at hl
    exact absurd hl (by simp)
  obtain ⟨mode, hk⟩ := Chart.isHistory_iff.mp hh
  rw [hrec.latest s mode p hk hp] at hl
  obtain ⟨e, he, rfl⟩ := Option.map_eq_some_iff.mp hl
  obtain ⟨hmem, hexit⟩ := exited_of_lastExit he
  exact ⟨mode, hk, e, hmem, hexit, rfl⟩

/-- Records lie below the states they belong to. -/
theorem boundedHistory_of_recorded (hrec : Recorded c steps h)
    (hpast : ∀ e ∈ steps, e.before.chart = c ∧ ∀ x ∈ e.before.configuration, ¬ c.isHistory x) :
    c.BoundedHistory h := by
  intro s l p hl hp g hg
  obtain ⟨mode, -, e, he, -, rfl⟩ := exists_of_record hrec hl hp
  obtain ⟨hc, hplain⟩ := hpast e he
  obtain ⟨hg, hrecalls⟩ := Machine.mem_remember.mp hg
  rw [hc] at hrecalls
  exact ⟨Chart.isDescendant_of_recalls hrecalls, hplain g hg⟩

/-- Records of well-formed configurations can be entered again. -/
theorem soundHistory_of_recorded (hrec : Recorded c steps h)
    (hpast : ∀ e ∈ steps, e.before.chart = c ∧
      ∀ x ∈ e.exited, x ∈ e.before.configuration ∧ c.WellFormed e.before.configuration) :
    c.SoundHistory h := by
  intro s l p hl hp
  obtain ⟨mode, -, e, he, hexit, rfl⟩ := exists_of_record hrec hl hp
  obtain ⟨hc, hpast⟩ := hpast e he
  obtain ⟨hpa, hwf⟩ := hpast p hexit
  have hmem : ∀ x, x ∈ e.before.configuration ∧ c.Recalls mode p x ↔
      x ∈ e.before.remember mode p := by
    intro x
    rw [Machine.mem_remember, hc]
  refine ⟨Chart.compatible_congr hmem (Chart.compatible_of_active hwf hpa hp mode),
    Machine.nodup_remember, fun g hg => ?_⟩
  exact Chart.isDescendant_of_recalls ((hmem g).mpr hg).2

end Statechart
