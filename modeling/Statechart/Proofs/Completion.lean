import Statechart.Proofs.AtRest
import Statechart.Proofs.Chart.FinalStates
import Statechart.Proofs.Inside

/-!
# When the completion of a parallel state is signalled

A step that gets a parallel state into its final state should say so: by a signal, or by
completing the machine. Completion is looked at as final states are entered one by one, and
of each only the state around it and the one around that are looked at. So a parallel state
notices a final state entered in a compound region of it, or as a region of it (`endsIn`),
but not one entered further down, in a region that is parallel itself.

Along the entering phase the parallel state gets into its final state at one moment, when
the last region does (`exists_last_entered`). From then on it is signalled as often as a
final state is entered where it looks (`count_raised`). In a step in which leaving and
entering agree there is at most one such state, the one that made the last region final, and
it is there if and only if this region is not parallel: `announces_iff` says that the step
announces the completion unless the last region to finish is a parallel one.
-/

namespace Statechart

open Chart

variable {D : Domain}

namespace Outline

variable (c : Outline D) (active : D.State → Bool)

/-- What follows from a state being entered. -/
def completionOf (s : D.State) : Completion D.State :=
  match c.node? s with
  | some n => if n.kind.isFinal then c.complete active n else {}
  | none => {}

end Outline

namespace Chart

variable {c : Chart D} {active : D.State → Bool} {s p : D.State}

theorem endsIn_of_parent {q : D.State} (hq : c.parent? s = some q) : c.endsIn p s ↔
    c.isFinal s ∧ (q = p ∨ (c.isCompound q ∧ c.parent? q = some p)) := by
  simp [Outline.endsIn, hq]

theorem completionOf_of_not_isFinal (h : ¬ c.isFinal s) : c.completionOf active s = {} := by
  rw [Outline.completionOf]
  cases hn : c.node? s with
  | none => rfl
  | some n =>
    rw [Outline.isFinal, hasKind_of_kind? (kind?_of_node hn)] at h
    exact if_neg h

theorem completionOf_of_isFinal (active : D.State → Bool) (h : c.isFinal s) :
    ∃ n, c.node? s = some n ∧ c.completionOf active s = c.complete active n := by
  obtain ⟨n, hn, hk⟩ := node_of_kind? (isFinal_iff.mp h)
  refine ⟨n, hn, ?_⟩
  rw [Outline.completionOf, hn]
  exact if_pos (by rw [hk]; rfl)

theorem completeParallel_count (g : D.State) :
    (c.completeParallel g).completed.count p = (if g ≠ c.root ∧ g = p then 1 else 0) ∧
      ((c.completeParallel g).machine ↔ g = c.root) := by
  unfold Outline.completeParallel
  by_cases hr : g = c.root
  · simp [hr]
  · rw [if_neg hr]
    by_cases hg : g = p
    · subst hg
      simp [hr]
    · simp [hr, hg]

/-- Entering a final state of a compound state signals this one, and the parallel state around it if
that is in its final state now. -/
theorem completionOf_compound {q : D.State} (active : D.State → Bool) (hs : c.isFinal s)
    (hq : c.parent? s = some q) (hk : c.isCompound q) (hp : c.isParallel p) :
    (c.completionOf active s).completed.count p =
        (if p ≠ c.root ∧ c.parent? q = some p ∧ c.inFinalState active p then 1 else 0) ∧
      (p = c.root → ((c.completionOf active s).machine ↔
        c.parent? q = some p ∧ c.inFinalState active p)) := by
  obtain ⟨n, hn, he⟩ := completionOf_of_isFinal active hs
  have hqp : q ≠ p := fun h => not_isParallel_of_isCompound hk (h ▸ hp)
  rw [he, Outline.complete, parent?_of_node hn, hq]
  dsimp only
  by_cases hroot : q = c.root
  · rw [if_pos (by simp [hroot, hroot ▸ hk]), hroot, parent_root]
    refine ⟨by simp, fun hpr => absurd (hroot.trans hpr.symm) hqp⟩
  · rw [if_neg (by simp [hroot]), if_neg (not_isParallel_of_isCompound hk)]
    split
    · next hnone =>
      have hnot : ¬ (c.parent? q = some p ∧ c.inFinalState active p) := by
        intro h
        rw [h.1, Option.filter_some, if_pos (by simp [hp, h.2])] at hnone
        exact absurd hnone (by simp)
      exact ⟨by simp [hqp, hnot], fun _ => by simp [hnot]⟩
    · next g hsome =>
      -- the parallel state around the compound one is told as well, after it
      obtain ⟨hg, hcond⟩ := Option.filter_eq_some_iff.mp hsome
      simp only [Bool.and_eq_true] at hcond
      obtain ⟨hcount, hmachine⟩ := completeParallel_count (c := c) (p := p) g
      simp only [hg, Option.some.injEq]
      refine ⟨?_, fun hpr => ?_⟩
      · rw [List.count_cons_of_ne hqp, hcount]
        by_cases hgp : g = p
        · simp [← hgp, hcond.2]
        · simp [hgp]
      · rw [hmachine, ← hpr]
        exact ⟨fun h => ⟨h, h ▸ hcond.2⟩, fun h => h.1⟩

/-- Entering a region that is a final state signals the parallel state if it is in its final state
now. -/
theorem completionOf_parallel {q : D.State} (active : D.State → Bool) (hs : c.isFinal s)
    (hq : c.parent? s = some q) (hk : c.isParallel q) :
    (c.completionOf active s).completed.count p =
        (if p ≠ c.root ∧ q = p ∧ c.inFinalState active p then 1 else 0) ∧
      (p = c.root → ((c.completionOf active s).machine ↔
        q = p ∧ c.inFinalState active p)) := by
  obtain ⟨n, hn, he⟩ := completionOf_of_isFinal active hs
  have hcompound : c.isCompound q = false := by
    rw [Bool.eq_false_iff]
    exact fun h => not_isParallel_of_isCompound h hk
  obtain ⟨hcount, hmachine⟩ := completeParallel_count (c := c) (p := p) q
  rw [he, Outline.complete, parent?_of_node hn, hq]
  dsimp only
  rw [if_neg (by simp [hcompound]), if_pos hk]
  split
  · next hfinal =>
    refine ⟨?_, fun hpr => ?_⟩
    · rw [hcount]
      by_cases hqp : q = p
      · simp [← hqp, hfinal]
      · simp [hqp]
    · rw [hmachine, ← hpr]
      exact ⟨fun h => ⟨h, h ▸ hfinal⟩, fun h => h.1⟩
  · next hfinal =>
    have hnot : ¬ (q = p ∧ c.inFinalState active p) := fun h => hfinal (h.1 ▸ h.2)
    exact ⟨by simp [hnot], fun _ => by simp [hnot]⟩

/-- A parallel state is signalled when a final state is entered where it looks, provided that it is
in its final state then; if it is the root, the machine completes instead. -/
theorem completionOf_count (active : D.State → Bool) (hp : c.isParallel p) :
    (c.completionOf active s).completed.count p =
        (if p ≠ c.root ∧ c.endsIn p s ∧ c.inFinalState active p then 1 else 0) ∧
      (p = c.root → ((c.completionOf active s).machine ↔
        c.endsIn p s ∧ c.inFinalState active p)) := by
  by_cases hs : c.isFinal s
  · cases hq : c.parent? s with
    | none =>
      have hends : c.endsIn p s = false := by simp [Outline.endsIn, hq]
      obtain ⟨n, hn, he⟩ := completionOf_of_isFinal active hs
      rw [he, Outline.complete, parent?_of_node hn, hq]
      refine ⟨by simp [hends], fun hpr => ?_⟩
      -- the root is not final if it is parallel
      have hroot := eq_root_of_parent (contains_of_kind? (isFinal_iff.mp hs)) hq
      rw [isFinal_iff, hroot, ← hpr, isParallel_iff.mp hp] at hs
      exact absurd hs (by simp)
    | some q =>
      have hends := endsIn_of_parent (p := p) hq
      simp only [hs, true_and] at hends
      simp only [hends]
      rcases isCompound_or_isParallel_of_parent hq with hk | hk
      · have hqp : q ≠ p := fun h => not_isParallel_of_isCompound hk (h ▸ hp)
        simpa [hqp, hk] using completionOf_compound active hs hq hk hp
      · have hcompound : ¬ c.isCompound q := fun h => not_isParallel_of_isCompound h hk
        simpa [hcompound] using completionOf_parallel active hs hq hk
  · have hends : c.endsIn p s = false := by simp [Outline.endsIn, hs]
    rw [completionOf_of_not_isFinal hs]
    simp [hends]

end Chart

/-! ## Entering -/

namespace Machine

/-- Whether a state is active when some more states are. -/
def activeWith (m : Machine D) (l : List D.State) (x : D.State) : Bool := m.isActive x || x ∈ l

theorem activeWith_iff {m : Machine D} {l : List D.State} {x : D.State} :
    m.activeWith l x ↔ x ∈ m.configuration ∨ x ∈ l := by
  simp [activeWith, isActive]

end Machine

namespace Progress

variable {c : Chart D} {p p' : Progress D} {signal : Signal D} {now : Duration} {s q : D.State}
  {l : List D.State}

theorem launchOf_completion {n : Node D} (h : p.launchOf n = .ok p') :
    p'.raised = p.raised ∧ p'.completed = p.completed := by
  rcases launchOf_cases h with ⟨-, rfl⟩ | ⟨_, _, _, -, -, -, rfl⟩
  · exact ⟨rfl, rfl⟩
  · exact ⟨rfl, rfl⟩

/-- Entering a state notes what follows from it. -/
theorem enterState_completion (h : p.enterState signal now s = .ok p') :
    p'.raised = p.raised ++
        (p.machine.chart.completionOf p'.machine.isActive s).completed ∧
      p'.completed =
        (p.completed || (p.machine.chart.completionOf p'.machine.isActive s).machine) := by
  obtain ⟨n, m₁, p₁, hn, h₁, hp₁, rfl⟩ := exists_of_enterState h
  obtain ⟨hraised, hcompleted⟩ := launchOf_completion hp₁
  have hchart : p₁.machine.chart = p.machine.chart :=
    (launchOf_keeps hp₁).1.chart.trans (Machine.runActions_keeps h₁).1.chart
  rw [completeBy_machine, Outline.completionOf, hn]
  unfold completeBy
  dsimp only
  split
  · rw [hchart, hraised, hcompleted]
    exact ⟨rfl, rfl⟩
  · rw [hraised, hcompleted]
    simp

/-- Entering a state signals a parallel state, or completes the machine if it is the root, when the
state entered is one where it looks and it is in its final state. -/
theorem enterState_count (hc : p.machine.chart = c) (hq : c.isParallel q)
    (h : p.enterState signal now s = .ok p') :
    (q ≠ c.root → p'.raised.count q = p.raised.count q +
        if c.endsIn q s ∧ c.inFinalState p'.machine.isActive q then 1 else 0) ∧
      (q = c.root → (p'.completed ↔ p.completed ∨
        (c.endsIn q s ∧ c.inFinalState p'.machine.isActive q))) := by
  obtain ⟨hraised, hcompleted⟩ := enterState_completion h
  obtain ⟨hcount, hmachine⟩ := completionOf_count p'.machine.isActive (s := s) hq
  rw [hc] at hraised hcompleted
  refine ⟨fun hne => ?_, fun hroot => ?_⟩
  · rw [hraised, List.count_append, hcount]
    simp [hne]
  · rw [hcompleted, Bool.or_eq_true, hmachine hroot]

theorem isActive_enterState (h : p.enterState signal now s = .ok p') {x : D.State} :
    p'.machine.isActive x ↔ p.machine.isActive x ∨ x = s := by
  simp only [Machine.isActive, decide_eq_true_eq, (enterState_keeps h).2, StateSet.mem_insert]

/-- As long as a parallel state is not in its final state, nothing is signalled. -/
theorem count_before : ∀ {l : List D.State} {p : Progress D}, p.machine.chart = c →
    c.isParallel q → l.foldlM (fun p s => p.enterState signal now s) p = .ok p' →
    ¬ c.inFinalState p'.machine.isActive q →
      (q ≠ c.root → p'.raised.count q = p.raised.count q) ∧
        (q = c.root → (p'.completed ↔ p.completed))
  | [], p, _, _, h, _ => by
    rw [List.foldlM_nil, pure_eq_ok] at h
    exact h ▸ ⟨fun _ => rfl, fun _ => Iff.rfl⟩
  | s :: l, p, hc, hq, h, hnot => by
    rw [List.foldlM_cons, bind_eq_ok] at h
    obtain ⟨p₁, h₁, h₂⟩ := h
    -- entering more states does not get it out of its final state again
    have hnot₁ : ¬ c.inFinalState p₁.machine.isActive q := by
      refine fun hfinal => hnot (inFinalState_mono q (fun x _ _ hx => ?_) hfinal)
      simp only [Machine.isActive, decide_eq_true_eq] at hx ⊢
      exact ((foldlM_enterState_keeps h₂).2 x).mpr (Or.inl hx)
    obtain ⟨hcount, hcompleted⟩ := enterState_count hc hq h₁
    obtain ⟨hcount', hcompleted'⟩ :=
      count_before ((enterState_keeps h₁).1.chart.trans hc) hq h₂ hnot
    simp only [hnot₁, Bool.false_eq_true, and_false, if_false, Nat.add_zero, or_false]
      at hcount hcompleted
    exact ⟨fun hne => (hcount' hne).trans (hcount hne),
      fun hroot => (hcompleted' hroot).trans (hcompleted hroot)⟩

/-- From then on it is signalled for every final state entered where it looks. -/
theorem count_after : ∀ {l : List D.State} {p : Progress D}, p.machine.chart = c →
    c.isParallel q → l.foldlM (fun p s => p.enterState signal now s) p = .ok p' →
    c.inFinalState p.machine.isActive q →
      (q ≠ c.root → p'.raised.count q = p.raised.count q + l.countP (c.endsIn q)) ∧
        (q = c.root → (p'.completed ↔ p.completed ∨ 0 < l.countP (c.endsIn q)))
  | [], p, _, _, h, _ => by
    rw [List.foldlM_nil, pure_eq_ok] at h
    exact h ▸ ⟨fun _ => rfl, fun _ => by simp⟩
  | s :: l, p, hc, hq, h, hfinal => by
    rw [List.foldlM_cons, bind_eq_ok] at h
    obtain ⟨p₁, h₁, h₂⟩ := h
    have hfinal₁ : c.inFinalState p₁.machine.isActive q :=
      inFinalState_mono q (fun x _ _ hx => (isActive_enterState h₁).mpr (Or.inl hx)) hfinal
    obtain ⟨hcount, hcompleted⟩ := enterState_count hc hq h₁
    obtain ⟨hcount', hcompleted'⟩ :=
      count_after ((enterState_keeps h₁).1.chart.trans hc) hq h₂ hfinal₁
    simp only [hfinal₁, and_true] at hcount hcompleted
    rw [List.countP_cons]
    refine ⟨fun hne => ?_, fun hroot => ?_⟩
    · rw [hcount' hne, hcount hne]
      omega
    · rw [hcompleted' hroot, hcompleted hroot]
      by_cases hends : c.endsIn q s <;> simp [hends]

end Progress

/-! ## A step that gets a parallel state into its final state -/

namespace Settled

variable {c : Chart D} {step : Settled D} {m : Machine D} {p g r : D.State}
  {earlier later : List D.State}

/-- Whether a step makes it known that a parallel state is in its final state now: it signals this
once, or completes the machine, and nothing less will do for the root. -/
def Announces (c : Chart D) (step : Settled D) (p : D.State) : Prop :=
  step.after.status = .done ∨ (p ≠ c.root ∧ step.raised.count p = 1)

/-- When `g` is entered after `earlier`, the region `r` of the parallel state `p` gets into its final
state, and with it `p`. -/
structure Finishes (c : Chart D) (step : Settled D) (p r : D.State) (earlier : List D.State)
    (g : D.State) : Prop where
  region : r ∈ c.substates p
  final : c.isFinal g
  within : c.isWithin g r
  before : ¬ c.inFinalState (step.between.activeWith earlier) r
  region_after : c.inFinalState (step.between.activeWith (earlier ++ [g])) r
  not_yet : ¬ c.inFinalState (step.between.activeWith earlier) p
  after : c.inFinalState (step.between.activeWith (earlier ++ [g])) p

/-- A list that does not have a property at first but has it in the end gets it with one element. -/
private theorem exists_first {α : Type} {F : List α → Prop} (l : List α) (hnot : ¬ F []) (h : F l) :
    ∃ earlier x later, l = earlier ++ x :: later ∧ ¬ F earlier ∧ F (earlier ++ [x]) := by
  induction l using List.reverseRecOn with
  | nil => exact absurd h hnot
  | append_singleton l x ih =>
    by_cases hl : F l
    · obtain ⟨earlier, y, later, rfl, h₁, h₂⟩ := ih hl
      exact ⟨earlier, y, later ++ [x], by simp, h₁, h₂⟩
    · exact ⟨l, x, [], rfl, hl, h⟩

theorem activeWith_concat {x : D.State} : step.between.activeWith (earlier ++ [g]) x ↔
    step.between.activeWith earlier x ∨ x = g := by
  simp only [Machine.activeWith_iff, List.mem_append, List.mem_singleton, or_assoc]

/-- A parallel state gets into its final state as one of the states of the step is entered. -/
theorem exists_last_entered (hon : step.On c) (hp : c.isParallel p)
    (hbefore : ¬ c.inFinalState step.before.isActive p)
    (hafter : c.inFinalState step.after.isActive p) :
    ∃ earlier g later r, step.entered = earlier ++ g :: later ∧ step.Finishes c p r earlier g := by
  have hstart : ¬ c.inFinalState (step.between.activeWith []) p := by
    refine fun h => hbefore (inFinalState_mono p (fun x _ _ hx => ?_) h)
    rw [Machine.activeWith_iff] at hx
    have hx := hx.resolve_right List.not_mem_nil
    simp only [Machine.isActive, decide_eq_true_eq]
    rcases hon.cases with hi | hr
    · exact hi.same ▸ hx
    · exact ((hr.left x).mp hx).1
  have hend : c.inFinalState (step.between.activeWith step.entered) p := by
    refine inFinalState_mono p (fun x _ _ hx => ?_) hafter
    simp only [Machine.isActive, decide_eq_true_eq] at hx
    exact Machine.activeWith_iff.mpr ((hon.enters.configuration x).mp hx)
  obtain ⟨earlier, g, later, he, hnot, hfinal⟩ :=
    exists_first (F := fun l => c.inFinalState (step.between.activeWith l) p) step.entered hstart hend
  obtain ⟨r, hr, hg, hgr, hrnot, hrfinal⟩ :=
    exists_last_region hp (fun x => activeWith_concat) hnot hfinal
  exact ⟨earlier, g, later, r, he, hr, hg, hgr, hrnot, hrfinal, hnot, hfinal⟩

/-- From the moment at which a parallel state is in its final state, it is signalled for every final
state entered where it looks; if it is the root, the machine completes instead. -/
theorem count_raised {q : Progress D} (hc : step.between.chart = c) (hp : c.isParallel p)
    (henter : step.between.enterAll step.signal step.entered = .ok q)
    (he : step.entered = earlier ++ g :: later) (hf : step.Finishes c p r earlier g) :
    (p ≠ c.root → q.raised.count p = (g :: later).countP (c.endsIn p)) ∧
      (p = c.root → (q.completed ↔ 0 < (g :: later).countP (c.endsIn p))) := by
  rw [he, Machine.enterAll, List.foldlM_append, bind_eq_ok] at henter
  obtain ⟨q₁, h₁, h₂⟩ := henter
  rw [List.foldlM_cons, bind_eq_ok] at h₂
  obtain ⟨q₂, h₂, h₃⟩ := h₂
  -- before `g` nothing is raised for `p`; from then on each end in `p` counts
  have hactive₁ : ∀ x, q₁.machine.isActive x ↔ step.between.activeWith earlier x := by
    intro x
    rw [Machine.activeWith_iff, Machine.isActive, decide_eq_true_eq,
      (Progress.foldlM_enterState_keeps h₁).2]
  have hactive₂ : ∀ x, q₂.machine.isActive x ↔ step.between.activeWith (earlier ++ [g]) x := by
    intro x
    rw [activeWith_concat, Progress.isActive_enterState h₂, hactive₁]
  have hnot₁ : ¬ c.inFinalState q₁.machine.isActive p := fun h =>
    hf.not_yet (inFinalState_mono p (fun x _ _ => (hactive₁ x).mp) h)
  have hfinal₂ : c.inFinalState q₂.machine.isActive p :=
    inFinalState_mono p (fun x _ _ => (hactive₂ x).mpr) hf.after
  have hc₁ : q₁.machine.chart = c := (Progress.foldlM_enterState_keeps h₁).1.chart.trans hc
  have hc₂ : q₂.machine.chart = c := (Progress.enterState_keeps h₂).1.chart.trans hc₁
  obtain ⟨hcount₁, hdone₁⟩ := Progress.count_before (p := { machine := step.between }) hc hp h₁ hnot₁
  obtain ⟨hcount₂, hdone₂⟩ := Progress.enterState_count hc₁ hp h₂
  obtain ⟨hcount₃, hdone₃⟩ := Progress.count_after hc₂ hp h₃ hfinal₂
  simp only [hfinal₂, and_true] at hcount₂ hdone₂
  rw [List.countP_cons]
  refine ⟨fun hne => ?_, fun hroot => ?_⟩
  · rw [hcount₃ hne, hcount₂ hne, hcount₁ hne]
    simp only [List.count_nil]
    omega
  · rw [hdone₃ hroot, hdone₂ hroot, hdone₁ hroot]
    by_cases hends : c.endsIn p g <;> simp [hends]

/-- If leaving and entering agree, no other final state is entered where the parallel state looks
than the one that finished it. -/
theorem countP_later (hon : step.On c) (hagrees : step.Agrees c) (hp : c.isParallel p)
    (he : step.entered = earlier ++ g :: later) (hf : step.Finishes c p r earlier g) :
    later.countP (c.endsIn p) = 0 := by
  rw [List.countP_eq_zero]
  intro h hlater hends
  have hentered : h ∈ step.entered := he ▸ List.mem_append_right _ (List.mem_cons_of_mem _ hlater)
  -- its turn has not come when the parallel state gets into its final state
  have hinactive : ¬ step.between.activeWith (earlier ++ [g]) h := by
    rw [Machine.activeWith_iff]
    rintro (hx | hx)
    · exact hagrees.1 h hentered hx
    · have hnodup := nodup_entered hon
      rw [he, List.append_cons, List.nodup_append] at hnodup
      exact hnodup.2.2 h hx h hlater rfl
  have hafter : ∀ x, step.between.activeWith (earlier ++ [g]) x → x ∈ step.after.configuration := by
    intro x hx
    rw [hon.enters.configuration, he, List.append_cons]
    exact (Machine.activeWith_iff.mp hx).imp_right (List.mem_append_left _)
  obtain ⟨q, hq⟩ : ∃ q, c.parent? h = some q := by
    cases hq : c.parent? h with
    | none => simp [Outline.endsIn, hq] at hends
    | some q => exact ⟨q, rfl⟩
  obtain ⟨hfinal, hor⟩ := (endsIn_of_parent hq).mp hends
  have hplain : ∀ x, c.isFinal x → ¬ c.isHistory x := by
    intro x hx hh
    obtain ⟨mode, hmode⟩ := isHistory_iff.mp hh
    exact absurd ((isFinal_iff.mp hx).symm.trans hmode) (by simp)
  have hregions := (inFinalState_parallel hp).mp hf.after
  rcases hor with rfl | ⟨hcompound, hqp⟩
  · have hregion := hregions h (mem_substates.mpr ⟨hq, hplain h hfinal⟩)
    rw [inFinalState_final hfinal] at hregion
    exact hinactive hregion
  · -- the compound region has a final child active already, and does not get a second one
    have hregion := hregions q (mem_substates.mpr ⟨hqp, not_isHistory_of_parent hq⟩)
    obtain ⟨t, ht, htfinal, htactive⟩ := (inFinalState_compound hcompound).mp hregion
    have hh : h ∈ step.after.configuration :=
      (hon.enters.configuration h).mpr (Or.inr hentered)
    obtain ⟨u, -, huniq⟩ := hagrees.2.compound q (hagrees.2.parent h hh q hq) hcompound
    have hth : t = h := (huniq t ⟨mem_substates.mpr ⟨ht, hplain t htfinal⟩, hafter t htactive⟩).trans
      (huniq h ⟨mem_substates.mpr ⟨hq, hplain h hfinal⟩, hh⟩).symm
    exact hinactive (hth ▸ htactive)

/-- So there is one such state if the last region to finish is not parallel, and none otherwise. -/
theorem countP_of_agrees (hon : step.On c) (hagrees : step.Agrees c) (hp : c.isParallel p)
    (he : step.entered = earlier ++ g :: later) (hf : step.Finishes c p r earlier g) :
    (g :: later).countP (c.endsIn p) = if c.isParallel r then 0 else 1 := by
  have hends := endsIn_iff hf.region hf.final hf.within
    (fun x => Settled.activeWith_concat) hf.before hf.region_after
  rw [List.countP_cons, countP_later hon hagrees hp he hf]
  by_cases hr : c.isParallel r <;> simp [hr, hends]

/-- What a step announces is decided by how often it signals the parallel state. -/
theorem announces_of_count {n : Nat}
    (hcount : step.after.status ≠ .done → p ≠ c.root → step.raised.count p = n)
    (hroot : p = c.root → (step.after.status = .done ↔ 0 < n)) (hn : n ≤ 1) :
    step.Announces c p ↔ step.after.status = .done ∨ n = 1 := by
  by_cases hover : step.after.status = .done
  · simp [Announces, hover]
  · simp only [Announces, hover, false_or]
    by_cases hpr : p = c.root
    · have hnot := mt (hroot hpr).mpr hover
      exact iff_of_false (fun h => h.1 hpr) (by omega)
    · rw [hcount hover hpr]
      exact and_iff_right hpr

end Settled

open Machine

variable {c : Chart D} {steps : List (Settled D)} {step : Settled D} {m : Machine D} {p : D.State}

/-- What a step signals, and whether it completes the machine, is what its entering phase noted. -/
theorem raised_of_settles {m₀ : Machine D} {q : Progress D} (hm : m₀.status = .running)
    (h : m₀.Settles step q) : ∃ q', step.between.enterAll step.signal step.entered = .ok q' ∧
      (step.after.status = .done ↔ q'.completed) ∧
        (step.after.status ≠ .done → step.raised = q'.raised) := by
  obtain ⟨q', henter, hq⟩ := entering_of_settles h
  have hstatus := status_of_settles hm h
  have hcompleted : q.completed = q'.completed := by
    rw [hq]
    unfold Progress.close
    split <;> simp [*]
  rw [hcompleted] at hstatus
  refine ⟨q', henter, ?_, fun hnot => ?_⟩
  · rw [hstatus]
    cases q'.completed <;> simp
  · have hopen : q'.completed = false := by
      rw [hstatus] at hnot
      cases hc : q'.completed <;> simp_all
    rw [Settled.raised_eq henter, hopen, if_neg (by simp)]

/-- A step of a run gets a parallel state into its final state as the last region finishes. From then
on it is signalled for every final state entered where it looks, and so, if leaving and entering
agree, the step announces it unless the last region to finish is a parallel one. What a step
signals comes last in the queue. -/
theorem announces_iff (hrun : Run c steps m) (hstep : step ∈ steps) (hlive : step.Live)
    (hp : c.isParallel p) (hbefore : ¬ c.inFinalState step.before.isActive p)
    (hafter : c.inFinalState step.after.isActive p) :
    (∃ earlier g later r, step.entered = earlier ++ g :: later ∧ step.Finishes c p r earlier g ∧
      (p ≠ c.root → step.after.status = .done ∨
        step.raised.count p = (g :: later).countP (c.endsIn p)) ∧
      (p = c.root → (step.after.status = .done ↔ 0 < (g :: later).countP (c.endsIn p))) ∧
      (step.Agrees c → (step.Announces c p ↔ step.after.status = .done ∨ ¬ c.isParallel r))) ∧
    (step.after.status = .running → ∃ sent,
      step.after.shell.queue = sent ++ step.raised.map (fun s => .signal (.done s)) ∧
        ∀ w ∈ sent, w ∈ step.before.shell.queue ∨ w.External) := by
  have hon := on_of_run hrun hstep hlive
  obtain ⟨m₀, q, hm₀, hsettles⟩ := settles_of_run hrun step hstep hlive
  have hc : step.between.chart = c := (Settled.chart_between hon.cases).trans hon.chart
  constructor
  · obtain ⟨earlier, g, later, r, he, hf⟩ := Settled.exists_last_entered hon hp hbefore hafter
    obtain ⟨q', henter, hdone, hraised⟩ := raised_of_settles hm₀ hsettles
    obtain ⟨hcount, hroot⟩ := Settled.count_raised hc hp henter he hf
    have hone : step.after.status ≠ .done → p ≠ c.root →
        step.raised.count p = (g :: later).countP (c.endsIn p) := fun hnot hne => by
      rw [hraised hnot, hcount hne]
    have hroot := fun hpr => hdone.trans (hroot hpr)
    refine ⟨earlier, g, later, r, he, hf, fun hne => ?_, hroot, fun hagrees => ?_⟩
    · by_cases hover : step.after.status = .done
      · exact Or.inl hover
      · exact Or.inr (hone hover hne)
    · have hall := Settled.countP_of_agrees hon hagrees hp he hf
      rw [hall] at hone hroot
      rw [Settled.announces_of_count hone hroot (by split <;> simp)]
      by_cases hr : c.isParallel r <;> simp [hr]
  · intro hstatus
    obtain ⟨sent, hqueue, hsent, -⟩ := (effects_of_settles hm₀ hsettles).queue hstatus
    rw [(before_of_settles hsettles).1]
    exact ⟨sent, hqueue, hsent⟩

/-! ## A release -/

inductive ReleaseState
  | release | work | docs | draft | published | checks | tests | running | passed | released
deriving DecidableEq

/-- The work on a release is done when the documents are published and the checks, which may be
several, have passed. -/
def releaseTree : StateTree (.bare ReleaseState) :=
  .bare .release (.compound .work) []
    [.bare .work .parallel [.bareOn .done .released]
      [.bare .docs (.compound .draft) []
        [.bare .draft .atomic [.bare "publish" .published], .bare .published .final],
      .bare .checks .parallel []
        [.bare .tests (.compound .running) []
          [.bare .running .atomic [.bare "pass" .passed], .bare .passed .final]]],
    .bare .released .atomic]

def release : Chart (.bare ReleaseState) :=
  { releaseTree.outline with tree := releaseTree, outline_eq := rfl, flawless := by cbv }

/-- The documents are published after the checks have passed, and the work is known to be done. -/
theorem release_announced : ∃ steps m, Run release steps m ∧ ∃ step ∈ steps, step.Live ∧
    ¬ release.inFinalState step.before.isActive .work ∧
      release.inFinalState step.after.isActive .work ∧ step.Announces release .work := by
  obtain ⟨steps, hrun⟩ := release.run_after 9 [.start, .send "pass"]
  have hcalled : ((release.machine.after 9 [.start, .send "pass"]).called? (.send "publish")).map
      (fun (step, _) => (step.after.status, release.inFinalState step.before.isActive .work,
        release.inFinalState step.after.isActive .work, step.entered,
        decide (.published ∈ step.between.configuration), step.after.configuration.elems)) =
      some (.running, false, true, [.published], false,
        [.release, .work, .docs, .checks, .tests, .passed, .published]) := by cbv
  obtain ⟨⟨step, m⟩, hstep, he⟩ := Option.map_eq_some_iff.mp hcalled
  simp only [Prod.mk.injEq, decide_eq_false_iff_not] at he
  obtain ⟨hstatus, hbefore, hafter, hentered, hnew, hconf⟩ := he
  have hrun := run_called? hrun hstep
  have hmem : step ∈ step :: steps := List.mem_cons_self ..
  have hagrees : step.Agrees release := by
    refine ⟨fun x hx => ?_, ?_⟩
    · rw [hentered, List.mem_singleton] at hx
      exact hx ▸ hnew
    · rw [wellFormed_iff, hconf]
      decide
  refine ⟨_, _, hrun, step, hmem, Or.inl hstatus, by simp [hbefore], hafter, ?_⟩
  obtain ⟨⟨earlier, g, later, r, he, hf, -, -, hiff⟩, -⟩ :=
    announces_iff (p := ReleaseState.work) hrun hmem (Or.inl hstatus) (by decide)
      (by simp [hbefore]) hafter
  -- the last region to finish is that of the documents
  have hg : g ∈ step.entered := he ▸ List.mem_append_right _ (List.mem_cons_self ..)
  rw [hentered, List.mem_singleton] at hg
  have hplain : ∀ r ∈ release.substates .work,
      release.isWithin .published r → ¬ release.isParallel r := by decide
  exact (hiff hagrees).mpr (Or.inr (hplain r hf.region (hg ▸ hf.within)))

/-- The checks pass after the documents were published, and the work is done, but nobody is told: a
step from a well-formed configuration makes both regions of the work final, and neither signals
the work nor completes the machine. -/
theorem release_unannounced : ∃ steps m, Run release steps m ∧ ∃ step ∈ steps, step.Live ∧
    release.WellFormed step.before.configuration ∧ release.isParallel .work ∧
      .work ∈ step.after.configuration ∧ ¬ release.inFinalState step.before.isActive .work ∧
        release.inFinalState step.after.isActive .work ∧ ¬ step.Announces release .work := by
  obtain ⟨steps, hrun⟩ := release.run_after 9 [.start, .send "publish"]
  have hcalled : ((release.machine.after 9 [.start, .send "publish"]).called? (.send "pass")).map
      (fun (step, _) => (step.after.status, step.before.configuration.elems,
        decide (.work ∈ step.after.configuration), release.inFinalState step.before.isActive .work,
        release.inFinalState step.after.isActive .work, step.raised)) =
      some (.running, [.release, .work, .docs, .checks, .tests, .running, .published], true, false,
        true, [.tests, .checks]) := by cbv
  obtain ⟨⟨step, m⟩, hstep, he⟩ := Option.map_eq_some_iff.mp hcalled
  simp only [Prod.mk.injEq, decide_eq_true_eq] at he
  obtain ⟨hstatus, hconf, hactive, hbefore, hafter, hraised⟩ := he
  refine ⟨_, _, run_called? hrun hstep, step, List.mem_cons_self .., Or.inl hstatus, ?_,
    by decide, hactive, by simp [hbefore], hafter, ?_⟩
  · rw [wellFormed_iff, hconf]
    decide
  · simp [Settled.Announces, hstatus, hraised]

end Statechart
