import Statechart.Proofs.Machine.Work

/-!
# The table of timers call by call

A table of timers is armed, cancelled, popped and cleared, in any order and at any clock
readings; they may go backwards, and a deadline may be the largest reading there is. Whatever
the calls, what is pending can be accounted for: each timer armed is pending still, as it
was armed, or has left once (`perm_armed`). Which timers come and go with a call is read off
the tables before and after it, and not off the call.

Taking one timer out leaves the others in their order. So timers taken out until none is due
are those that were due at first, in the order in which they fire (`popAll_spec`).

Together these say all that there is to know of a table that was empty at first
(`scheduled_of_calls`).
-/

namespace Statechart.Timers

variable {S : Type}

/-- A call on a table of timers. -/
inductive Call (S : Type) where
  | arm (state : S) (index : Nat) (delay now : Duration)
  | cancel (state : S)
  | popDue (now : Duration) (horizon : Nat)
  | clear

section

variable [DecidableEq S]

/-- The table after a call. -/
def after (q : Timers S) : Call S → Timers S
  | .arm state index delay now => q.arm state index delay now
  | .cancel state => q.cancel state
  | .popDue now horizon => ((q.popDue now horizon).map (·.2)).getD q
  | .clear => q.clear

/-- The timer that a call takes out to fire. -/
def fires? (q : Timers S) : Call S → Option (Timer S)
  | .popDue now horizon => (q.popDue now horizon).map (·.1)
  | .arm .. | .cancel _ | .clear => none

/-- The timers that come with a call. -/
def arrivals (q : Timers S) (call : Call S) : List (Timer S) :=
  (q.after call).pending.filter (· ∉ q.pending)

/-- The timers that go with a call. -/
def departures (q : Timers S) (call : Call S) : List (Timer S) :=
  q.pending.filter (· ∉ (q.after call).pending)

/-- The table after calls on an empty one, the latest first. -/
def afterAll : List (Call S) → Timers S
  | [] => empty
  | call :: earlier => (afterAll earlier).after call

/-- The timers that have come with calls on an empty table, in their order. -/
def armed : List (Call S) → List (Timer S)
  | [] => []
  | call :: earlier => armed earlier ++ (afterAll earlier).arrivals call

/-- The timers that have gone with calls on an empty table, in their order. -/
def left : List (Call S) → List (Timer S)
  | [] => []
  | call :: earlier => left earlier ++ (afterAll earlier).departures call

end

/-- The timers taken out one after another until none is due any more, and the table then. -/
def popAll (q : Timers S) (now : Duration) (horizon : Nat) : List (Timer S) × Timers S :=
  match _hpop : q.popDue now horizon with
  | none => ([], q)
  | some (t, rest) => (t :: (rest.popAll now horizon).1, (rest.popAll now horizon).2)
termination_by (q.due now horizon).length
decreasing_by all_goals simp [(popDue_spec _hpop).1]

/-- What is known of the table after calls on an empty one. -/
structure Scheduled [DecidableEq S] (calls : List (Call S)) : Prop where
  /-- No epoch is given out twice, not even after the table was cleared. -/
  epochs : ((armed calls).map (·.epoch)).Pairwise (· < ·)
  /-- What was armed has left or is pending, and no timer is changed meanwhile. -/
  conserved : (armed calls).Perm (left calls ++ (afterAll calls).pending)
  once : (left calls).Nodup ∧ ∀ t ∈ left calls, t ∉ (afterAll calls).pending
  /-- A timer comes whenever one is armed, and never else. -/
  arrives : ∀ state index delay now, ∃ t,
    (afterAll calls).arrivals (.arm state index delay now) = [t] ∧
      t.state = state ∧ t.index = index ∧ t.delay = delay ∧
      t.epoch = (afterAll calls).nextEpoch ∧
      t.deadline.nanos = min (now.nanos + delay.nanos) Duration.maxNanos
  brings : ∀ call, (∀ state index delay now, call ≠ .arm state index delay now) →
    (afterAll calls).arrivals call = []
  /-- A timer goes when it is taken out, when its own state is cancelled, and when all are cleared. -/
  departs : ∀ call t, t ∈ (afterAll calls).departures call ↔ t ∈ (afterAll calls).pending ∧
    ((afterAll calls).fires? call = some t ∨ call = .cancel t.state ∨ call = .clear)
  /-- The timer taken out is the least of those that are due and were armed before the horizon. -/
  pops : ∀ now horizon t rest, (afterAll calls).popDue now horizon = some (t, rest) →
    t ∈ (afterAll calls).pending ∧ t.deadline ≤ now ∧ t.epoch < horizon ∧
      (∀ u ∈ (afterAll calls).pending, u.deadline ≤ now → u.epoch < horizon → u = t ∨ t.before u) ∧
      (∀ u, u ∈ rest.pending ↔ u ∈ (afterAll calls).pending ∧ u ≠ t) ∧
      rest.nextEpoch = (afterAll calls).nextEpoch
  /-- If there is none, and only then, no timer is taken out and nothing changes. -/
  rests : ∀ now horizon,
    ((afterAll calls).popDue now horizon = none ↔
      ∀ t ∈ (afterAll calls).pending, t.deadline ≤ now → ¬ t.epoch < horizon) ∧
    ((afterAll calls).popDue now horizon = none →
      (afterAll calls).after (.popDue now horizon) = afterAll calls)
  /-- Taken out again and again, all of them come in their order, and the others stay. -/
  drains : ∀ now horizon,
    ((afterAll calls).popAll now horizon).1.Pairwise Timer.before ∧
      (∀ t, t ∈ ((afterAll calls).popAll now horizon).1 ↔
        t ∈ (afterAll calls).pending ∧ t.deadline ≤ now ∧ t.epoch < horizon) ∧
      (∀ t, t ∈ ((afterAll calls).popAll now horizon).2.pending ↔
        t ∈ (afterAll calls).pending ∧ ¬ (t.deadline ≤ now ∧ t.epoch < horizon)) ∧
      ((afterAll calls).popAll now horizon).2.nextEpoch = (afterAll calls).nextEpoch

variable {q : Timers S} {t : Timer S} {now : Duration} {horizon : Nat}

theorem mem_due : t ∈ q.due now horizon ↔ t ∈ q.pending ∧ t.deadline ≤ now ∧ t.epoch < horizon := by
  rw [due, List.mem_filter, Timer.isDue, Bool.and_eq_true, decide_eq_true_iff, decide_eq_true_iff]

/-! ## Taking out all that is due -/

/-- All that is due comes out in its order, and the rest of the table stays. -/
theorem popAll_spec (q : Timers S) (now : Duration) (horizon : Nat) :
    (q.popAll now horizon).1 = q.due now horizon ∧
      (∀ u, u ∈ (q.popAll now horizon).2.pending ↔ u ∈ q.pending ∧ u ∉ q.due now horizon) ∧
      (q.popAll now horizon).2.nextEpoch = q.nextEpoch := by
  fun_induction popAll q now horizon with
  | case1 q hnone =>
    have hdue := popDue_eq_none.mp hnone
    simp [hdue]
  | case2 q t rest hpop ih =>
    obtain ⟨hlist, hrest, hepoch⟩ := ih
    obtain ⟨hdue, hnext, hpending⟩ := popDue_spec hpop
    refine ⟨by rw [hlist, hdue], fun u => ?_, hepoch.trans hnext⟩
    rw [hrest, hpending, hdue, List.mem_cons, not_or, and_assoc]

variable [DecidableEq S] {call : Call S} {calls : List (Call S)}

/-! ## What comes and goes with one call -/

theorem mem_arrivals : t ∈ q.arrivals call ↔ t ∈ (q.after call).pending ∧ t ∉ q.pending := by
  rw [arrivals, List.mem_filter, decide_eq_true_iff]

theorem mem_departures : t ∈ q.departures call ↔ t ∈ q.pending ∧ t ∉ (q.after call).pending := by
  rw [departures, List.mem_filter, decide_eq_true_iff]

theorem nodup_arrivals (q : Timers S) (call : Call S) : (q.arrivals call).Nodup :=
  (q.after call).nodup_pending.filter _

theorem nodup_departures (q : Timers S) (call : Call S) : (q.departures call).Nodup :=
  q.nodup_pending.filter _

/-- What was there and what comes is what goes and what is there then. -/
theorem perm_after (q : Timers S) (call : Call S) :
    (q.pending ++ q.arrivals call).Perm (q.departures call ++ (q.after call).pending) := by
  refine (List.perm_ext_iff_of_nodup ?_ ?_).mpr fun t => ?_
  · refine List.nodup_append.mpr ⟨q.nodup_pending, nodup_arrivals q call, ?_⟩
    rintro t ht _ hnew rfl
    exact (mem_arrivals.mp hnew).2 ht
  · refine List.nodup_append.mpr ⟨nodup_departures q call, (q.after call).nodup_pending, ?_⟩
    rintro t hgone _ ht rfl
    exact (mem_departures.mp hgone).2 ht
  · rw [List.mem_append, List.mem_append, mem_arrivals, mem_departures]
    by_cases hbefore : t ∈ q.pending <;> by_cases hafter : t ∈ (q.after call).pending <;>
      simp [hbefore, hafter]

/-- Arming brings one timer, which no table has had before. -/
theorem arrivals_arm (q : Timers S) (state : S) (index : Nat) (delay now : Duration) :
    q.arrivals (.arm state index delay now) =
      [⟨state, index, delay, now.add delay, q.nextEpoch⟩] := by
  refine List.perm_singleton.mp ((List.perm_ext_iff_of_nodup (nodup_arrivals q _)
    (List.nodup_singleton _)).mpr fun t => ?_)
  have hafter : t ∈ (q.after (.arm state index delay now)).pending ↔ _ := mem_arm
  rw [mem_arrivals, hafter, List.mem_singleton]
  constructor
  · rintro ⟨ht | ht, hnew⟩
    · exact absurd ht hnew
    · exact ht
  · intro ht
    refine ⟨Or.inr ht, fun hold => ?_⟩
    -- a pending timer has an epoch that was given out before
    have hfresh := q.fresh t hold
    rw [ht] at hfresh
    exact absurd hfresh (Nat.lt_irrefl _)

/-- The table after taking a timer out, or the same one. -/
theorem mem_after_popDue : t ∈ (q.after (.popDue now horizon)).pending ↔
    t ∈ q.pending ∧ q.fires? (.popDue now horizon) ≠ some t := by
  show t ∈ (((q.popDue now horizon).map (·.2)).getD q).pending ↔
    t ∈ q.pending ∧ (q.popDue now horizon).map (·.1) ≠ some t
  cases hpop : q.popDue now horizon with
  | none => simp
  | some popped =>
    obtain ⟨u, rest⟩ := popped
    show t ∈ rest.pending ↔ t ∈ q.pending ∧ some u ≠ some t
    rw [(popDue_spec hpop).2.2, ne_eq, ne_eq, Option.some.injEq, eq_comm]

/-- What a call other than arming leaves. -/
theorem mem_after (hcall : ∀ state index delay now, call ≠ .arm state index delay now) :
    t ∈ (q.after call).pending ↔
      t ∈ q.pending ∧ ¬ (q.fires? call = some t ∨ call = .cancel t.state ∨ call = .clear) := by
  cases call with
  | arm state index delay now => exact absurd rfl (hcall state index delay now)
  | cancel state =>
    have hafter : t ∈ (q.after (.cancel state)).pending ↔ _ := mem_cancel
    rw [hafter]
    simp [fires?, eq_comm]
  | popDue now horizon => simp [mem_after_popDue]
  | clear => simp [after]

theorem arrivals_eq_nil (hcall : ∀ state index delay now, call ≠ .arm state index delay now) :
    q.arrivals call = [] := by
  refine List.eq_nil_iff_forall_not_mem.mpr fun t ht => ?_
  obtain ⟨hafter, hnew⟩ := mem_arrivals.mp ht
  exact hnew ((mem_after hcall).mp hafter).1

theorem mem_departures_iff : t ∈ q.departures call ↔ t ∈ q.pending ∧
    (q.fires? call = some t ∨ call = .cancel t.state ∨ call = .clear) := by
  rw [mem_departures]
  refine and_congr_right fun ht => ?_
  by_cases hcall : ∀ state index delay now, call ≠ .arm state index delay now
  · rw [mem_after hcall, not_and, not_not]
    exact forall_prop_of_true ht
  · -- arming takes nothing away
    push Not at hcall
    obtain ⟨state, index, delay, now, rfl⟩ := hcall
    have hafter : t ∈ (q.after (.arm state index delay now)).pending := mem_arm.mpr (Or.inl ht)
    simp [hafter, fires?]

theorem nextEpoch_after (hcall : ∀ state index delay now, call ≠ .arm state index delay now) :
    (q.after call).nextEpoch = q.nextEpoch := by
  cases call with
  | arm state index delay now => exact absurd rfl (hcall state index delay now)
  | cancel | clear => rfl
  | popDue now horizon =>
    show (((q.popDue now horizon).map (·.2)).getD q).nextEpoch = q.nextEpoch
    cases hpop : q.popDue now horizon with
    | none => rfl
    | some popped => exact (popDue_spec hpop).2.1

/-! ## Call after call -/

/-- The epochs of all timers armed so far are the numbers below the next one, in their order. -/
theorem epochs_armed : ∀ calls : List (Call S),
    (armed calls).map (·.epoch) = List.range (afterAll calls).nextEpoch
  | [] => rfl
  | call :: earlier => by
    have ih := epochs_armed earlier
    rw [armed, afterAll, List.map_append, ih]
    by_cases hcall : ∀ state index delay now, call ≠ .arm state index delay now
    · rw [arrivals_eq_nil hcall, nextEpoch_after hcall, List.map_nil, List.append_nil]
    · push Not at hcall
      obtain ⟨state, index, delay, now, rfl⟩ := hcall
      rw [arrivals_arm]
      exact List.range_succ.symm

/-- Every timer armed has left, or is pending as it was armed. -/
theorem perm_armed : ∀ calls : List (Call S),
    (armed calls).Perm (left calls ++ (afterAll calls).pending)
  | [] => List.Perm.refl _
  | call :: earlier => by
    have ih := perm_armed earlier
    have hcall := (perm_after (afterAll earlier) call).append_left (left earlier)
    rw [← List.append_assoc, ← List.append_assoc] at hcall
    exact (ih.append_right _).trans hcall

/-- Whatever the calls on an empty table, each timer armed leaves at most once, in one of three
ways, and is pending until then; timers are taken out in the order of their deadlines and, with one
deadline, in the order in which they were armed, and none that was armed after the horizon. -/
theorem scheduled_of_calls (calls : List (Call S)) : Scheduled calls where
  epochs := epochs_armed calls ▸ List.pairwise_lt_range
  conserved := perm_armed calls
  once := by
    have hnodup : (armed calls).Nodup :=
      List.Nodup.of_map _ (epochs_armed calls ▸ List.nodup_range)
    obtain ⟨hleft, -, hapart⟩ := List.nodup_append.mp ((perm_armed calls).nodup_iff.mp hnodup)
    exact ⟨hleft, fun t ht hpending => hapart t ht t hpending rfl⟩
  arrives := fun state index delay now =>
    ⟨_, arrivals_arm _ state index delay now, rfl, rfl, rfl, rfl, Duration.nanos_add ..⟩
  brings := fun _ hcall => arrivals_eq_nil hcall
  departs := fun _ _ => mem_departures_iff
  pops := by
    intro now horizon t rest hpop
    obtain ⟨hdue, hepoch, hpending⟩ := popDue_spec hpop
    have ht : t ∈ (afterAll calls).due now horizon := hdue ▸ List.mem_cons_self ..
    obtain ⟨hmem, hdeadline, hbefore⟩ := mem_due.mp ht
    refine ⟨hmem, hdeadline, hbefore, fun u hu hd he => ?_, hpending, hepoch⟩
    exact first_of_popDue hpop hu (List.mem_filter.mp (mem_due.mpr ⟨hu, hd, he⟩)).2
  rests := by
    intro now horizon
    refine ⟨?_, fun hnone => ?_⟩
    · rw [popDue_eq_none, List.eq_nil_iff_forall_not_mem]
      refine forall_congr' fun t => ?_
      rw [mem_due]
      constructor
      · exact fun h hmem hd he => h ⟨hmem, hd, he⟩
      · exact fun h hdue => h hdue.1 hdue.2.1 hdue.2.2
    · show ((((afterAll calls).popDue now horizon).map (·.2)).getD (afterAll calls)) = _
      rw [hnone]
      rfl
  drains := by
    intro now horizon
    obtain ⟨hlist, hrest, hepoch⟩ := popAll_spec (afterAll calls) now horizon
    refine ⟨hlist ▸ (afterAll calls).ordered.filter _, fun t => hlist ▸ mem_due, fun t => ?_, hepoch⟩
    rw [hrest, mem_due]
    exact and_congr_right fun ht => not_congr (and_iff_right ht)

end Statechart.Timers
