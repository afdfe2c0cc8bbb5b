import Statechart.Proofs.Entry.Ending
import Statechart.Proofs.Machine.Offers

/-!
# When a transition is taken

A transition is only taken if its guard holds (`holds_of_takes`). The signal of a timer sets off the
delayed transition that the timer was armed for, and no other (`mem_takes_timer`). Processing a signal
comes to an end (`process_ne_endless`).
-/

namespace Statechart.Machine

open Attempt

variable {D : Domain} {c : Chart D} {m : Machine D} {signal : Signal D} {s x : D.State}
  {t : Selected D} {e : D.Event} {n : Node D}

/-- Whether a guard holds depends on the context only. -/
theorem holds_of_context {m' : Machine D} {holds : Bool} (hcontext : m'.context = m.context)
    (h : m'.guardHolds signal t = .ok holds) : m.guardHolds signal t = .ok holds := by
  unfold guardHolds at h ⊢
  rw [hcontext] at h
  cases hguard : t.transition.guard with
  | none => rwa [hguard] at h
  | some guard =>
    rw [hguard] at h
    dsimp only at h ⊢
    split at h
    · exact h
    · exact absurd h (by simp [halt])

/-- What is selected was offered on the way up from somewhere, or belongs to the timer that fires. -/
theorem selected_cases {l : List (Selected D)} (h : m.select signal = .ok l) (ht : t ∈ l) :
    (∃ states, m.firstEnabledOf signal states = .ok (some t)) ∨ ∃ s i delay n,
      signal = .timer s i delay ∧ s ∈ m.configuration ∧ m.chart.node? s = some n ∧
        (Selected.listOf s n.delayed)[i]? = some t ∧ m.guardHolds signal t = .ok true := by
  cases selects_of_select h with
  | above _ habove =>
    obtain ⟨x, -, hfound⟩ := mem_selectAbove habove ht
    exact Or.inl ⟨_, hfound⟩
  | nothing => exact absurd ht List.not_mem_nil
  | own _ _ hfound => exact Or.inl ⟨_, List.mem_singleton.mp ht ▸ hfound⟩
  | timer hsignal hactive hn hget hholds =>
    obtain rfl := List.mem_singleton.mp ht
    exact Or.inr ⟨_, _, _, _, hsignal, hactive, hn, hget, hholds⟩

/-- What is taken may be taken. -/
theorem holds_of_takes (ht : t ∈ m.takes signal) : m.guardHolds signal t = .ok true := by
  rcases m.takes_cases signal with hnone | ⟨invocations, selected, -, hselect, htakes⟩
  · exact absurd (hnone ▸ ht) List.not_mem_nil
  · rw [htakes] at ht
    rcases selected_cases hselect (mem_withoutConflicts ht) with
      ⟨states, hfound⟩ | ⟨_, _, _, _, -, -, -, -, hholds⟩
    · exact holds_of_context (by rfl) (holds_of_firstEnabledOf hfound)
    · exact holds_of_context (by rfl) hholds

/-- A delayed transition waits for the signal of a timer of its own state. -/
theorem timer_of_answers (h : t.Answers signal) (hdelay : t.transition.delay?.isSome) :
    ∃ i delay, signal = .timer t.source i delay := by
  cases signal with
  | timer s i delay =>
    obtain ⟨rfl, -⟩ := h
    exact ⟨i, delay, rfl⟩
  | start | stop => exact h.elim
  | event e =>
    have htrigger : t.transition.trigger = .event (D.eventName e) := h
    exact absurd hdelay (by simp [Transition.delay?, Trigger.delay?, htrigger])
  | invokeDone | invokeError | done =>
    exact absurd hdelay (by simp [Transition.delay?, Trigger.delay?, h.2])

/-- What the signal of a timer sets off is the delayed transition that the timer was armed for. -/
theorem mem_takes_timer {i : Nat} {delay : Duration} (hn : m.chart.node? s = some n) :
    t ∈ m.takes (.timer s i delay) ↔ s ∈ m.configuration ∧ t.source = s ∧ t.index = i ∧
      n.delayed[i]? = some t.transition ∧ m.guardHolds (.timer s i delay) t = .ok true := by
  have hlist : (Selected.listOf s n.delayed)[i]? = some t ↔
      t.source = s ∧ t.index = i ∧ n.delayed[i]? = some t.transition := by
    obtain ⟨source, index, transition⟩ := t
    rw [Selected.listOf, List.getElem?_map, List.getElem?_zipIdx, Nat.zero_add]
    cases n.delayed[i]? with
    | none => simp
    | some tr =>
      simp only [Option.map_some, Option.some.injEq, Selected.mk.injEq]
      exact and_congr eq_comm (and_congr_left' eq_comm)
  have hreact : m.reacting? (.timer s i delay) = some m := rfl
  constructor
  · intro ht
    simp only [takes, hreact] at ht
    split at ht
    · next selected hselect =>
      rcases selected_cases hselect (mem_withoutConflicts ht) with
        ⟨states, hfound⟩ | ⟨s', i', delay', n', hsignal, hs, hn', hget, hholds⟩
      · -- no transition waits for the signal of a timer
        have haccepts := accepts_of_firstEnabledOf hfound
        generalize t.transition.trigger = trigger at haccepts
        cases trigger <;> simp [Trigger.accepts] at haccepts
      · obtain ⟨rfl, rfl, rfl⟩ := Signal.timer.inj hsignal
        obtain rfl := Option.some.inj (hn.symm.trans hn')
        exact ⟨hs, (hlist.mp hget).1, (hlist.mp hget).2.1, (hlist.mp hget).2.2, hholds⟩
    · exact absurd ht List.not_mem_nil
  · rintro ⟨hs, hsource, hindex, hdelayed, hholds⟩
    have hselect : m.select (.timer s i delay) = .ok [t] := by
      unfold select
      dsimp only
      rw [if_pos (show m.isActive s = true from decide_eq_true hs)]
      refine bind_eq_ok.mpr ⟨n, by rw [lookup, hn], ?_⟩
      rw [hlist.mpr ⟨hsource, hindex, hdelayed⟩]
      exact bind_eq_ok.mpr ⟨true, hholds, rfl⟩
    simp only [takes, hreact, hselect]
    rw [withoutConflicts_singleton]
    exact List.mem_singleton_self t

section

variable (hplain : c.PlainFallbacks) (hm : Clean c m)

include hplain hm

theorem exists_entering (taken : List (Selected D)) : ∃ entered, m.entering taken = some entered := by
  obtain rfl := hm.chart
  obtain ⟨set, hset⟩ := Chart.exists_foldlM (f := m.addEntries) (l := taken) (fun t _ set => by
    unfold addEntries
    split
    · next d g _ _ =>
      obtain ⟨set₁, h₁⟩ := Chart.exists_enterInto hplain hm.history g set
      rw [h₁]
      exact Chart.exists_foldlM (fun s _ => Chart.exists_climbInto s d) set₁
    · exact ⟨set, rfl⟩) .empty
  exact ⟨_, by rw [entering, hset]; rfl⟩

theorem take_ne_endless (taken : List (Selected D)) : m.take signal taken ≠ .error .endless := by
  intro h
  unfold take at h
  have hbegins : m.Alters (fun s => ¬ c.isHistory s) (m.recordHistories (m.leaving taken)) :=
    .single .remember
  obtain h | ⟨left, hleft, h⟩ := bind_eq_error.mp h
  · exact ((exitStates_alters hbegins).endless h).elim
  have hleft := (exitStates_alters hbegins).ok hleft
  obtain h | ⟨between, hbetween, h⟩ := bind_eq_error.mp h
  · exact ((runTransitions_alters hleft).endless h).elim
  have hbetween : Clean c between := clean_of_alters hm ((runTransitions_alters hleft).ok hbetween)
  obtain ⟨entered, hentered⟩ := exists_entering hplain hbetween taken
  rw [hentered] at h
  exact ((settleEntry_alters (P := fun _ => True) (fun _ _ => trivial) .refl).endless h).elim

theorem react_ne_endless : m.react signal ≠ .error .endless := by
  intro h
  unfold react at h
  obtain h | ⟨selected, -, h⟩ := bind_eq_error.mp h
  · exact (select_unchanged.endless h).elim
  split at h
  · exact absurd (show Except.ok _ = Except.error _ from h) (by simp)
  · exact take_ne_endless hplain hm _ h

theorem enterInitial_ne_endless : m.enterInitial signal ≠ .error .endless := by
  intro h
  obtain rfl := hm.chart
  obtain ⟨set, hset⟩ := Chart.exists_enterInto hplain hm.history m.chart.root .empty
  rw [enterInitial, hset] at h
  exact ((settleEntry_alters (P := fun _ => True) (fun _ _ => trivial) .refl).endless h).elim

/-- Processing a signal comes to an end. -/
theorem process_ne_endless : m.process signal ≠ .error .endless := by
  have hpass : (.ok { machine := m } : Attempt D (Progress D)) ≠ .error .endless :=
    fun h => by cases h
  by_cases hs : signal = .start
  · subst hs
    change (if m.configuration.isEmpty then m.enterInitial .start else .ok { machine := m }) ≠ _
    split
    · exact enterInitial_ne_endless hplain hm
    · exact hpass
  · rw [process_eq hs]
    cases hbefore : m.reacting? signal with
    | none => exact hpass
    | some before =>
      obtain ⟨invocations, -, rfl⟩ := exists_of_reacting? hbefore
      exact react_ne_endless hplain ⟨hm.chart, hm.contains, hm.plain, hm.history⟩

end

end Statechart.Machine
