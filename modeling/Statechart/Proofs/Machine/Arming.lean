import Statechart.Proofs.Ownership

/-!
# The timers of a state that is entered

A state that is entered has a timer for each of its delayed transitions, armed in the order in which
they are declared (`Node.timersAt`). In a settled step these are all the timers that it has
afterwards, but for those it had before if it was not left (`timers_of_entered`). A state that is not
entered has the timers it had, or none if it was left (`timers_of_not_entered`).
-/

namespace Statechart

variable {D : Domain}

/-- The timers of a state that is entered at `now`, as their epochs are given out from `base` on. -/
def Node.timersAt (n : Node D) (now : Duration) (base : Nat) : List (Timer D.State) :=
  n.delayed.mapIdx fun i tr =>
    let delay := tr.delay?.getD .zero
    { state := n.id, index := i, delay, deadline := now.add delay, epoch := base + i }

namespace Machine

variable {m : Machine D} {n : Node D} {now : Duration} {t : Timer D.State} {s : D.State}

private theorem mem_foldl_arm_iff : ∀ {l : List (Transition D)} {k : Nat} {q : Timers D.State},
    t ∈ ((l.zipIdx k).foldl (fun q tr => q.arm s tr.2 (tr.1.delay?.getD .zero) now) q).pending ↔
      t ∈ q.pending ∨ ∃ i tr, l[i]? = some tr ∧
        t = ⟨s, k + i, tr.delay?.getD .zero, now.add (tr.delay?.getD .zero), q.nextEpoch + i⟩
  | [], k, q => by simp
  | tr :: l, k, q => by
    rw [List.zipIdx_cons, List.foldl_cons, mem_foldl_arm_iff, Timers.mem_arm, or_assoc]
    refine or_congr_right ?_
    have hepoch : (q.arm s k (tr.delay?.getD .zero) now).nextEpoch = q.nextEpoch + 1 := rfl
    rw [hepoch]
    constructor
    · rintro (h | ⟨i, tr', hi, h⟩)
      · exact ⟨0, tr, rfl, h⟩
      · exact ⟨i + 1, tr', hi, by rw [h]; congr 1 <;> omega⟩
    · rintro ⟨_ | i, tr', hi, h⟩
      · obtain rfl := Option.some.inj hi
        exact Or.inl h
      · exact Or.inr ⟨i, tr', hi, by rw [h]; congr 1 <;> omega⟩

/-- Arming the timers of a state adds a timer for each of its delayed transitions. -/
theorem mem_armTimers : t ∈ (m.armTimers now n).timers.pending ↔
    t ∈ m.timers.pending ∨ t ∈ n.timersAt now m.timers.nextEpoch := by
  refine mem_foldl_arm_iff.trans (or_congr_right ?_)
  simp only [Node.timersAt, List.mem_mapIdx, List.getElem?_eq_some_iff, Nat.zero_add]
  constructor
  · rintro ⟨i, tr, ⟨hi, rfl⟩, rfl⟩
    exact ⟨i, hi, rfl⟩
  · rintro ⟨i, hi, rfl⟩
    exact ⟨i, _, ⟨hi, rfl⟩, rfl⟩

end Machine

namespace Progress

variable {p p' : Progress D} {signal : Signal D} {now : Duration} {s x : D.State} {n : Node D}
  {t : Timer D.State}

theorem mem_enterState (h : p.enterState signal now s = .ok p')
    (hn : p.machine.chart.node? s = some n) : t ∈ p'.machine.timers.pending ↔
      t ∈ p.machine.timers.pending ∨ t ∈ n.timersAt now p.machine.timers.nextEpoch := by
  obtain ⟨n', m₁, p₁, hn', h₁, hp₁, rfl⟩ := exists_of_enterState h
  obtain rfl := Option.some.inj (hn.symm.trans hn')
  obtain ⟨htimers, -⟩ := Machine.runActions_work h₁
  rw [completeBy_machine, (launchOf_work hp₁).1, Machine.mem_armTimers, htimers]

/-- Of the states entered one after another, each has the timers it had before and those armed as
its turn came. -/
theorem mem_foldlM_enterState : ∀ {l : List D.State} {p : Progress D}, l.Nodup → x ∈ l →
    p.machine.chart.node? x = some n →
    l.foldlM (fun p s => p.enterState signal now s) p = .ok p' →
      ∃ base, p.machine.timers.nextEpoch ≤ base ∧ ∀ t, t.state = x →
        (t ∈ p'.machine.timers.pending ↔
          t ∈ p.machine.timers.pending ∨ t ∈ n.timersAt now base)
  | [], _, _, hx, _, _ => absurd hx List.not_mem_nil
  | s :: l, p, hnodup, hx, hn, h => by
    rw [List.foldlM_cons, bind_eq_ok] at h
    obtain ⟨p₁, h₁, h₂⟩ := h
    rw [List.nodup_cons] at hnodup
    have hfirst := enterState_work h₁
    have hrest := foldlM_enterState_work h₂
    by_cases hxs : x = s
    · -- the others arm nothing for it
      subst hxs
      refine ⟨_, Nat.le_refl _, fun t ht => ?_⟩
      rw [← mem_enterState h₁ hn]
      refine ⟨fun h => (hrest.armed t h).resolve_right fun harmed => ?_, hrest.kept t⟩
      exact hnodup.1 (ht ▸ harmed.1)
    · have hchart := (enterState_keeps h₁).1.chart
      obtain ⟨base, hbase, hall⟩ := mem_foldlM_enterState hnodup.2
        ((List.mem_cons.mp hx).resolve_left hxs) (hchart ▸ hn) h₂
      refine ⟨base, Nat.le_trans hfirst.onward.epoch hbase, fun t ht => ?_⟩
      rw [hall t ht]
      refine or_congr_left ⟨fun h => (hfirst.armed t h).resolve_right fun harmed => ?_,
        hfirst.kept t⟩
      exact hxs (ht ▸ List.mem_singleton.mp harmed.1)

end Progress

namespace Machine

variable {m : Machine D} {step : Settled D} {p : Progress D} {n : Node D} {x : D.State}

/-- The timers of a state that is entered in a step that does not complete the machine. -/
theorem timers_of_entered (hm : m.status = .running) (h : m.Settles step p)
    (hrunning : step.after.status = .running) (hnodup : step.entered.Nodup) (hx : x ∈ step.entered)
    (hn : m.chart.node? x = some n) : ∃ base, m.timers.nextEpoch ≤ base ∧
      ∀ t, t.state = x → (t ∈ step.after.timers.pending ↔
        (t ∈ m.timers.pending ∧ x ∉ step.exited) ∨
          t ∈ n.timersAt step.between.shell.clock.now base) := by
  obtain ⟨p', henter, hp⟩ := entering_of_settles h
  have hstatus := status_of_settles hm h
  have hleaves := leaves_of_settles h
  have hchart := (configuration_of_settles h).1
  -- a machine that is done would have cancelled them
  have hopen : p'.completed = false := by
    have hcompleted : p.completed = p'.completed := by
      rw [hp]
      change p'.close.completed = _
      unfold Progress.close
      split <;> rfl
    by_contra hdone
    rw [hcompleted, if_pos (by simpa using hdone), hrunning] at hstatus
    exact absurd hstatus (by simp)
  have htimers : step.after.timers = p'.machine.timers := by
    rw [(settled_of_settles h).2, (absorb_work p).1, hp]
    change p'.close.machine.timers = _
    rw [Progress.close, if_neg (by simp [hopen])]
  obtain ⟨base, hbase, hall⟩ := Progress.mem_foldlM_enterState
    (p := { machine := step.between }) hnodup hx (hchart ▸ hn) henter
  refine ⟨base, hleaves.epoch ▸ hbase, fun t ht => ?_⟩
  rw [htimers, hall t ht, hleaves.timers, ht]

/-- The timers of a state that is not entered in such a step. -/
theorem timers_of_not_entered (hm : m.status = .running) (h : m.Settles step p)
    (hrunning : step.after.status = .running) (hx : x ∉ step.entered) {t : Timer D.State}
    (ht : t.state = x) : t ∈ step.after.timers.pending ↔
      t ∈ m.timers.pending ∧ x ∉ step.exited := by
  have heffects := effects_of_settles hm h
  constructor
  · intro hpending
    have hold := (heffects.timers t hpending).resolve_right fun harmed => hx (ht ▸ harmed.1)
    exact ⟨hold.1, ht ▸ hold.2⟩
  · exact fun hold => heffects.kept hrunning t hold.1 (ht ▸ hold.2)

end Machine

end Statechart
