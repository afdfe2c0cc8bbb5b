import Statechart.Proofs.Chart.Flawless
import Statechart.Proofs.Machine.Frames

/-!
# Pending work in the phases of a step

Leaving a state cancels its timers and its invocation. Entering one arms a timer for each
of its delayed transitions, newer than all timers so far, and starts its invocation. Apart
from these two and from the moment when all work is cancelled, timers and invocations are
left alone.

Every lemma here says of one phase which timers and which invocations are pending after
it: for leaving `exitStates_work`, for entering `foldlM_enterState_work`, for stopping
`teardown_work`.
-/

namespace Statechart

variable {D : Domain}

namespace Timers

variable {S : Type} {q q' q'' : Timers S} {t : Timer S}

theorem nodup_pending (q : Timers S) : q.pending.Nodup := by
  refine q.ordered.imp fun {a b} h he => ?_
  rcases h with h | ⟨-, h⟩
  · exact Nat.lt_irrefl _ (he ▸ h)
  · exact Nat.lt_irrefl _ (he ▸ h)

/-- The timers due at a clock reading that were armed before a horizon, in the order in which they
fire. -/
def due (q : Timers S) (now : Duration) (horizon : Nat) : List (Timer S) :=
  q.pending.filter (Timer.isDue now horizon)

theorem popDue_eq_none {now : Duration} {horizon : Nat} :
    q.popDue now horizon = none ↔ q.due now horizon = [] := by
  simp [popDue, due]

/-- The timer taken out is the first of those that are due. -/
theorem popDue_spec {now : Duration} {horizon : Nat} (h : q.popDue now horizon = some (t, q')) :
    q.due now horizon = t :: q'.due now horizon ∧ q'.nextEpoch = q.nextEpoch ∧
      ∀ x, x ∈ q'.pending ↔ x ∈ q.pending ∧ x ≠ t := by
  unfold popDue at h
  obtain ⟨_, ht, he⟩ := Option.map_eq_some_iff.mp h
  rw [Prod.mk.injEq] at he
  obtain ⟨rfl, rfl⟩ := he
  obtain ⟨hdue, earlier, later, hpending, hearlier⟩ := List.find?_eq_some_iff_append.mp ht
  have hnodup := q.nodup_pending
  have hrest : q.pending.eraseP (Timer.isDue now horizon) = earlier ++ later := by
    rw [hpending, List.eraseP_append_right _ fun a ha => by simpa using hearlier a ha,
      List.eraseP_cons_of_pos hdue]
  refine ⟨?_, rfl, fun x => ?_⟩
  · have hnone : earlier.filter (Timer.isDue now horizon) = [] :=
      List.filter_eq_nil_iff.mpr fun a ha => by simpa using hearlier a ha
    simp only [due, hrest]
    rw [hpending, List.filter_append, List.filter_append, hnone, List.filter_cons_of_pos hdue]
    rfl
  · simp only [hrest]
    rw [hpending] at hnodup ⊢
    rw [List.nodup_middle, List.nodup_cons] at hnodup
    simp only [List.mem_append, List.mem_cons]
    constructor
    · exact fun hx => ⟨hx.imp_right Or.inr, fun he => hnodup.1 (by simpa [he] using hx)⟩
    · exact fun ⟨hx, hne⟩ => hx.imp_right fun hx => hx.resolve_left hne

theorem first_of_popDue {u : Timer S} {now : Duration} {horizon : Nat}
    (h : q.popDue now horizon = some (t, q')) (hu : u ∈ q.pending) (hdue : u.isDue now horizon) :
    u = t ∨ t.before u := by
  have hmem : u ∈ q.due now horizon := List.mem_filter.mpr ⟨hu, hdue⟩
  have hord : (q.due now horizon).Pairwise Timer.before := q.ordered.filter _
  rw [(popDue_spec h).1] at hmem hord
  exact (List.mem_cons.mp hmem).imp_right ((List.pairwise_cons.mp hord).1 u)

/-- `q'` came about from `q` in the course of time: no timer is new but those armed since. -/
structure Onward (q q' : Timers S) : Prop where
  epoch : q.nextEpoch ≤ q'.nextEpoch
  pending : ∀ t ∈ q'.pending, t ∈ q.pending ∨ q.nextEpoch ≤ t.epoch

theorem onward_refl : Onward q q := ⟨Nat.le_refl _, fun _ ht => Or.inl ht⟩

theorem onward_trans (h : Onward q q') (h' : Onward q' q'') : Onward q q'' where
  epoch := Nat.le_trans h.epoch h'.epoch
  pending := by
    intro t ht
    rcases h'.pending t ht with ht | ht
    · exact h.pending t ht
    · exact Or.inr (Nat.le_trans h.epoch ht)

theorem onward_keep {p : Timer S → Bool} : Onward q (q.keep p) :=
  ⟨Nat.le_refl _, fun _ ht => Or.inl (mem_keep.mp ht).1⟩

theorem onward_arm [DecidableEq S] {s : S} {i : Nat} {delay now : Duration} :
    Onward q (q.arm s i delay now) where
  epoch := Nat.le_succ _
  pending := by
    intro t ht
    refine (mem_arm.mp ht).imp_right fun h => ?_
    subst h
    exact Nat.le_refl _

end Timers

namespace Invocations

variable {S : Type} [DecidableEq S] {t t' : Invocations S} {s x : S} {id : InvocationId}

/-- The states whose invocation is running. -/
def states (t : Invocations S) : List S := t.running.map (·.1)

theorem mem_states_cancel : x ∈ (t.cancel s).states ↔ x ∈ t.states ∧ x ≠ s := by
  simp only [states, cancel, remove, List.mem_map, List.mem_filter, decide_eq_true_eq]
  constructor
  · intro h
    obtain ⟨e, ⟨he, hne⟩, rfl⟩ := h
    exact ⟨⟨e, he, rfl⟩, hne⟩
  · intro h
    obtain ⟨⟨e, he, rfl⟩, hne⟩ := h
    exact ⟨e, ⟨he, hne⟩, rfl⟩

theorem mem_states_register : x ∈ (t.register s).states ↔ x = s ∨ x ∈ t.states := by
  have hcons : x ∈ (t.register s).states ↔ x = s ∨ x ∈ (t.cancel s).states := by
    simp [register, states]
  rw [hcons, mem_states_cancel]
  by_cases hx : x = s <;> simp [hx]

theorem states_modify (f : Running → Running) : (t.modify s f).states = t.states := by
  simp only [states, modify, List.map_map]
  refine List.map_congr_left fun e _ => ?_
  simp only [Function.comp_apply]
  split <;> rfl

theorem states_attach (task : TaskId) : (t.attach s id task).states = t.states := by
  unfold attach
  split
  · exact states_modify _
  · rfl

theorem states_settle (h : t.settle? s id = some t') : t'.states = t.states := by
  unfold settle? at h
  split at h
  · rw [Option.some.injEq] at h
    exact h ▸ states_modify _
  · exact absurd h (by simp)

end Invocations

namespace Outline

variable (c : Outline D)

/-- Whether a timer is one of a delayed transition of its state. -/
def Delays (t : Timer D.State) : Prop :=
  ∃ n tr, c.node? t.state = some n ∧ n.delayed[t.index]? = some tr ∧ tr.delay? = some t.delay

/-- Whether a state declares an invocation. -/
def Invokes (s : D.State) : Prop := ∃ n, c.node? s = some n ∧ n.invocation.isSome

end Outline

namespace Machine

variable {m m' : Machine D} {s x : D.State} {signal : Signal D} {n : Node D} {now : Duration}
  {t : Timer D.State}

/-! ## Leaving -/

/-- Actions leave the pending work alone. -/
theorem runActions_work {actions : List (Action D)} (h : m.runActions s signal actions = .ok m') :
    m'.timers = m.timers ∧ m'.invocations = m.invocations := by
  rw [(runActions_frame h).1]
  exact ⟨rfl, rfl⟩

theorem runTransitions_work {taken : List (Selected D)}
    (h : m.runTransitions signal taken = .ok m') :
    m'.timers = m.timers ∧ m'.invocations = m.invocations :=
  relates_foldlM
    (R := fun m m' : Machine D => m'.timers = m.timers ∧ m'.invocations = m.invocations)
    (fun _ => ⟨rfl, rfl⟩) (fun h h' => ⟨h'.1.trans h.1, h'.2.trans h.2⟩) runActions_work h

theorem exitState_work (h : m.exitState signal s = .ok m') :
    m'.timers = m.timers.cancel s ∧ m'.invocations = m.invocations.cancel s := by
  obtain ⟨n, m₁, -, h₁, rfl⟩ := exists_of_exitState h
  exact runActions_work h₁

/-- Leaving states cancels what is pending for them, and nothing else. -/
theorem exitStates_work : ∀ {l : List D.State} {m : Machine D}, m.exitStates signal l = .ok m' →
    m'.timers.nextEpoch = m.timers.nextEpoch ∧
      (∀ t, t ∈ m'.timers.pending ↔ t ∈ m.timers.pending ∧ t.state ∉ l) ∧
      ∀ x, x ∈ m'.invocations.states ↔ x ∈ m.invocations.states ∧ x ∉ l
  | [], m, h => by
    rw [exitStates, List.foldlM_nil, pure_eq_ok] at h
    exact h ▸ ⟨rfl, by simp, by simp⟩
  | s :: l, m, h => by
    rw [exitStates, List.foldlM_cons, bind_eq_ok] at h
    obtain ⟨m₁, h₁, h₂⟩ := h
    obtain ⟨ht, hi⟩ := exitState_work h₁
    obtain ⟨he', ht', hi'⟩ := exitStates_work (m := m₁) h₂
    refine ⟨by rw [he', ht]; rfl, fun t => ?_, fun x => ?_⟩
    · rw [ht', ht, Timers.mem_cancel, List.mem_cons, not_or, and_assoc]
    · rw [hi', hi, Invocations.mem_states_cancel, List.mem_cons, not_or, and_assoc]

/-! ## Stopping -/

theorem abandonState_work (h : m.abandonState s = .ok m') :
    m'.timers = m.timers ∧ m'.invocations = m.invocations := by
  obtain ⟨n, m₁, -, h₁, rfl⟩ := exists_of_abandonState h
  have hwork := runActions_work h₁
  exact hwork

theorem foldlM_abandonState_work {l : List D.State}
    (h : l.foldlM (fun m s => m.abandonState s) m = .ok m') :
    m'.timers = m.timers ∧ m'.invocations = m.invocations :=
  relates_foldlM
    (R := fun m m' : Machine D => m'.timers = m.timers ∧ m'.invocations = m.invocations)
    (fun _ => ⟨rfl, rfl⟩) (fun h h' => ⟨h'.1.trans h.1, h'.2.trans h.2⟩) abandonState_work h

/-- Nothing is pending when a machine has stopped. -/
theorem teardown_work (h : m.teardown = .ok m') :
    m'.timers.pending = [] ∧ m'.invocations.running = [] := by
  unfold teardown at h
  obtain ⟨m₁, h₁, h⟩ := bind_eq_ok.mp h
  obtain ⟨ht, hi⟩ := foldlM_abandonState_work h₁
  rw [pure_eq_ok] at h
  subst h
  exact ⟨(congrArg Timers.pending ht).trans (Timers.pending_clear _),
    congrArg Invocations.running hi⟩

/-! ## Entering -/

/-- What arming the timers of delayed transitions, with their positions, makes of the timers. -/
private theorem mem_foldl_arm (now : Duration) :
    ∀ {l : List (Transition D × Nat)} {q : Timers D.State},
    let q' := l.foldl (fun q t => q.arm s t.2 (t.1.delay?.getD .zero) now) q
    q.Onward q' ∧ (∀ t ∈ q.pending, t ∈ q'.pending) ∧ ∀ t ∈ q'.pending, t ∈ q.pending ∨
      (q.nextEpoch ≤ t.epoch ∧ t.state = s ∧ t.deadline = now.add t.delay ∧
        ∃ e ∈ l, t.index = e.2 ∧ t.delay = e.1.delay?.getD .zero)
  | [], q => ⟨Timers.onward_refl, fun _ ht => ht, fun _ ht => Or.inl ht⟩
  | e :: l, q => by
    obtain ⟨hon, hkept, hnew⟩ :=
      mem_foldl_arm now (l := l) (q := q.arm s e.2 (e.1.delay?.getD .zero) now)
    refine ⟨Timers.onward_trans Timers.onward_arm hon,
      fun t ht => hkept t (Timers.mem_arm.mpr (Or.inl ht)), fun t ht => ?_⟩
    rcases hnew t ht with ht | ⟨hepoch, hs, hd, e', he', hi, hdelay⟩
    · refine (Timers.mem_arm.mp ht).imp_right fun h => ?_
      subst h
      exact ⟨Nat.le_refl _, rfl, rfl, e, List.mem_cons_self .., rfl, rfl⟩
    · exact Or.inr ⟨Nat.le_trans (Nat.le_succ _) hepoch, hs, hd, e',
        List.mem_cons_of_mem _ he', hi, hdelay⟩

/-- A timer armed for a state that is entered at `now`. -/
structure Arms (m : Machine D) (now : Duration) (t : Timer D.State) : Prop where
  declared : m.chart.Delays t
  deadline : t.deadline = now.add t.delay
  epoch : m.timers.nextEpoch ≤ t.epoch

/-- Entering a state arms a timer for each of its delayed transitions. -/
theorem armTimers_work (now : Duration) (hn : m.chart.node? s = some n) :
    m.timers.Onward (m.armTimers now n).timers ∧
      (∀ t ∈ m.timers.pending, t ∈ (m.armTimers now n).timers.pending) ∧
      ∀ t ∈ (m.armTimers now n).timers.pending, t ∈ m.timers.pending ∨
        (t.state = s ∧ m.Arms now t) := by
  obtain ⟨-, hid⟩ := m.chart.node?_eq_some.mp hn
  obtain ⟨hon, hkept, hnew⟩ :=
    mem_foldl_arm now (s := n.id) (l := n.delayed.zipIdx) (q := m.timers)
  refine ⟨hon, hkept, fun t ht => (hnew t ht).imp_right ?_⟩
  intro h
  obtain ⟨hepoch, hs, hd, ⟨tr, i⟩, he, hi, hdelay⟩ := h
  have hget := List.mem_zipIdx_iff_getElem?.mp he
  have hsome := (List.mem_filter.mp (List.mem_of_getElem? hget)).2
  obtain ⟨delay, htr⟩ := Option.isSome_iff_exists.mp hsome
  refine ⟨hs.trans hid, ⟨n, tr, by rw [hs, hid]; exact hn, by rw [hi]; exact hget, ?_⟩, hd, hepoch⟩
  rw [hdelay, htr]
  rfl

end Machine

namespace Progress

variable {p p' : Progress D} {signal : Signal D} {now : Duration} {s x : D.State} {n : Node D}

theorem launchOf_work (h : p.launchOf n = .ok p') : p'.machine.timers = p.machine.timers ∧
    ∀ x ∈ p'.machine.invocations.states,
      x ∈ p.machine.invocations.states ∨ (x = n.id ∧ n.invocation.isSome) := by
  rcases launchOf_cases h with ⟨-, rfl⟩ | ⟨_, _, _, hsome, -, -, rfl⟩
  · exact ⟨rfl, fun _ hx => Or.inl hx⟩
  · refine ⟨rfl, fun x hx => ?_⟩
    rcases Invocations.mem_states_register.mp hx with hx | hx
    · exact Or.inr ⟨hx, by rw [hsome]; rfl⟩
    · exact Or.inl hx

/-- What is pending after states of a list were entered. -/
structure Works (now : Duration) (l : List D.State) (p p' : Progress D) : Prop where
  onward : p.machine.timers.Onward p'.machine.timers
  kept : ∀ t ∈ p.machine.timers.pending, t ∈ p'.machine.timers.pending
  armed : ∀ t ∈ p'.machine.timers.pending, t ∈ p.machine.timers.pending ∨
    (t.state ∈ l ∧ p.machine.Arms now t)
  invoked : ∀ x ∈ p'.machine.invocations.states, x ∈ p.machine.invocations.states ∨
    (x ∈ l ∧ p.machine.chart.Invokes x)

theorem enterState_work (h : p.enterState signal now s = .ok p') : Works now [s] p p' := by
  obtain ⟨n, m₁, p₁, hn, h₁, hp₁, rfl⟩ := exists_of_enterState h
  have hchart : m₁.chart = p.machine.chart := (Machine.runActions_keeps h₁).1.chart
  obtain ⟨htimers, hinvocations⟩ := Machine.runActions_work h₁
  obtain ⟨hon, hkept, hnew⟩ :=
    Machine.armTimers_work (m := m₁) now (by rw [hchart]; exact hn)
  obtain ⟨hlaunch, hstarted⟩ := launchOf_work hp₁
  rw [htimers] at hon hkept hnew
  constructor
  · rw [completeBy_machine, hlaunch]
    exact hon
  · rw [completeBy_machine, hlaunch]
    exact hkept
  · rw [completeBy_machine, hlaunch]
    intro t ht
    refine (hnew t ht).imp_right fun h => ⟨List.mem_singleton.mpr h.1, ?_, h.2.deadline, ?_⟩
    · exact hchart ▸ h.2.declared
    · have hepoch := h.2.epoch
      rwa [htimers] at hepoch
  · rw [completeBy_machine]
    intro x hx
    refine (hstarted x hx).imp (fun hx => hinvocations ▸ hx) fun h => ?_
    obtain ⟨-, hid⟩ := p.machine.chart.node?_eq_some.mp hn
    exact ⟨List.mem_singleton.mpr (h.1.trans hid), n, by rw [h.1, hid]; exact hn, h.2⟩

/-- Entering states arms and starts what they declare, and cancels nothing. -/
theorem foldlM_enterState_work : ∀ {l : List D.State} {p : Progress D},
    l.foldlM (fun p s => p.enterState signal now s) p = .ok p' → Works now l p p'
  | [], p, h => by
    rw [List.foldlM_nil, pure_eq_ok] at h
    exact h ▸ ⟨Timers.onward_refl, fun _ ht => ht, fun _ ht => Or.inl ht, fun _ hx => Or.inl hx⟩
  | s :: l, p, h => by
    rw [List.foldlM_cons, bind_eq_ok] at h
    obtain ⟨p₁, h₁, h₂⟩ := h
    have hchart := (enterState_keeps h₁).1.chart
    have hfirst := enterState_work h₁
    have hrest := foldlM_enterState_work h₂
    refine ⟨Timers.onward_trans hfirst.onward hrest.onward,
      fun t ht => hrest.kept t (hfirst.kept t ht), fun t ht => ?_, fun x hx => ?_⟩
    · rcases hrest.armed t ht with ht | ⟨hl, harms⟩
      · exact (hfirst.armed t ht).imp_right fun h =>
          ⟨List.mem_cons.mpr (Or.inl (List.mem_singleton.mp h.1)), h.2⟩
      · exact Or.inr ⟨List.mem_cons_of_mem _ hl, hchart ▸ harms.declared, harms.deadline,
          Nat.le_trans hfirst.onward.epoch harms.epoch⟩
    · rcases hrest.invoked x hx with hx | ⟨hl, hinvokes⟩
      · exact (hfirst.invoked x hx).imp_right fun h =>
          ⟨List.mem_cons.mpr (Or.inl (List.mem_singleton.mp h.1)), h.2⟩
      · exact Or.inr ⟨List.mem_cons_of_mem _ hl, hchart ▸ hinvokes⟩

end Progress

end Statechart
