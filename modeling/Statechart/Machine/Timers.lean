import Statechart.Duration

/-!
# Pending timers

Every delayed transition of an active state has a timer. A timer knows the clock
reading at which it is due, its deadline, and its epoch, the number of timers armed
before it. Timers are listed by deadline, those of one deadline by epoch, so that
the first of them is the next to fire. Epochs are never given out twice, not even
after all timers were cleared; both facts are part of the type.

Timers do not fire by themselves. Whoever works them off takes the due ones out one
at a time (`popDue`), and names a horizon: timers armed since then are left alone.
-/

namespace Statechart

/-- The timer of the delayed transition number `index` of `state`. -/
structure Timer (S : Type) where
  state : S
  index : Nat
  delay : Duration
  /-- The clock reading at which the timer is due. -/
  deadline : Duration
  /-- The number of timers armed before this one. -/
  epoch : Nat
deriving DecidableEq

namespace Timer

variable {S : Type}

/-- `a` fires before `b`. -/
def before (a b : Timer S) : Prop :=
  a.deadline < b.deadline ∨ (a.deadline = b.deadline ∧ a.epoch < b.epoch)

/-- Whether a timer is due at `now` and was armed before the horizon. -/
def isDue (now : Duration) (horizon : Nat) (t : Timer S) : Bool :=
  t.deadline ≤ now && t.epoch < horizon

end Timer

/-- The pending timers in the order in which they fire. -/
structure Timers (S : Type) where
  nextEpoch : Nat := 0
  pending : List (Timer S) := []
  ordered : pending.Pairwise Timer.before := by simp
  fresh : ∀ t ∈ pending, t.epoch < nextEpoch := by simp

namespace Timers

variable {S : Type}

/-- No timers. -/
def empty : Timers S := { ordered := List.Pairwise.nil, fresh := by simp }

instance : Inhabited (Timers S) := ⟨empty⟩

/-- The timers that satisfy `p`. -/
def keep (p : Timer S → Bool) (q : Timers S) : Timers S :=
  { q with
    pending := q.pending.filter p
    ordered := q.ordered.filter p
    fresh := fun t h => q.fresh t (List.mem_filter.1 h).1 }

/-- The timers with one more that fires `delay` after `now`, or at the largest reading. -/
def arm [DecidableEq S] (q : Timers S) (state : S) (index : Nat) (delay now : Duration) :
    Timers S :=
  let deadline := now.add delay
  let timer : Timer S := { state, index, delay, deadline, epoch := q.nextEpoch }
  let earlier := fun t : Timer S => decide (t.deadline ≤ deadline)
  { nextEpoch := q.nextEpoch + 1
    pending := q.pending.filter earlier ++ timer :: q.pending.filter (!earlier ·)
    ordered := by
      rw [List.pairwise_append]
      refine ⟨q.ordered.filter _, List.pairwise_cons.2 ⟨?_, q.ordered.filter _⟩, ?_⟩
      · intro t h
        have h := (List.mem_filter.1 h).2
        simp only [earlier, Bool.not_eq_true', decide_eq_false_iff_not] at h
        exact Or.inl (Nat.lt_of_not_le h)
      · intro a ha b hb
        have hle := of_decide_eq_true (List.mem_filter.1 ha).2
        have hnew : a.epoch < q.nextEpoch := q.fresh a (List.mem_filter.1 ha).1
        rcases List.mem_cons.1 hb with rfl | hb
        · rcases Nat.lt_or_eq_of_le hle with hlt | heq
          · exact Or.inl hlt
          · exact Or.inr ⟨Duration.ext heq, hnew⟩
        · have hlt := (List.mem_filter.1 hb).2
          simp only [earlier, Bool.not_eq_true', decide_eq_false_iff_not] at hlt
          exact Or.inl (Nat.lt_of_le_of_lt hle (Nat.lt_of_not_le hlt))
    fresh := by
      intro t h
      rcases List.mem_append.1 h with h | h
      · exact Nat.lt_succ_of_lt (q.fresh t (List.mem_filter.1 h).1)
      · rcases List.mem_cons.1 h with rfl | h
        · exact Nat.lt_succ_self _
        · exact Nat.lt_succ_of_lt (q.fresh t (List.mem_filter.1 h).1) }

/-- The timers without those of a state. -/
def cancel [DecidableEq S] (q : Timers S) (state : S) : Timers S := q.keep (·.state ≠ state)

/-- The number of timers of a state. -/
def count [DecidableEq S] (q : Timers S) (state : S) : Nat := q.pending.countP (·.state = state)

/-- No timers, and epochs going on where they were. -/
def clear (q : Timers S) : Timers S := q.keep fun _ => false

/-- The first timer that is due at `now` and was armed before the horizon, and the others. -/
def popDue (q : Timers S) (now : Duration) (horizon : Nat) : Option (Timer S × Timers S) :=
  (q.pending.find? (Timer.isDue now horizon)).map fun timer =>
    (timer,
      { q with
        pending := q.pending.eraseP (Timer.isDue now horizon)
        ordered := q.ordered.sublist List.eraseP_sublist
        fresh := fun t h => q.fresh t (List.mem_of_mem_eraseP h) })

/-- The deadline of the first timer. -/
def nextDeadline (q : Timers S) : Option Duration := q.pending.head?.map (·.deadline)

/-- The number of timers. -/
def size (q : Timers S) : Nat := q.pending.length

/-- Whether there are no timers. -/
def isEmpty (q : Timers S) : Bool := q.pending.isEmpty

theorem mem_arm [DecidableEq S] {q : Timers S} {state : S} {index : Nat} {delay now : Duration}
    {t : Timer S} :
    t ∈ (q.arm state index delay now).pending ↔
      t ∈ q.pending ∨ t = ⟨state, index, delay, now.add delay, q.nextEpoch⟩ := by
  by_cases h : t.deadline ≤ now.add delay <;>
    simp only [arm, List.mem_append, List.mem_cons, List.mem_filter, h, decide_true, decide_false,
      Bool.not_true, Bool.not_false, and_true, and_false, Bool.false_eq_true, or_false, false_or]
  exact or_comm

@[simp] theorem mem_keep {q : Timers S} {p : Timer S → Bool} {t : Timer S} :
    t ∈ (q.keep p).pending ↔ t ∈ q.pending ∧ p t = true := List.mem_filter

theorem mem_cancel [DecidableEq S] {q : Timers S} {state : S} {t : Timer S} :
    t ∈ (q.cancel state).pending ↔ t ∈ q.pending ∧ t.state ≠ state := by
  simp [cancel]

@[simp] theorem pending_clear (q : Timers S) : q.clear.pending = [] := by
  simp [clear, keep]

@[simp] theorem nextEpoch_clear (q : Timers S) : q.clear.nextEpoch = q.nextEpoch := rfl

end Timers

end Statechart
