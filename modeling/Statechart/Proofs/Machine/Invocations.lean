import Statechart.Proofs.Machine.Work

/-!
# The table of invocations

The table is looked at through `get?`, one state at a time: every operation changes the
entry of one state and leaves those of the others alone. A result is accepted, or retires its
invocation, if and only if the entry carries its number and is in the right stage
(`settle?_eq_some`, `consume?_eq_some`).

Leaving states empties their entries (`get?_exitStates`). Entering them starts the
invocations that they declare (`Starts`): each gets the next identity of the supply, and the
entry of its state. Nothing else in a step touches the table. An identity that is drawn was not
drawn before (`not_drawn_of_mem_upcoming`).
-/

namespace Statechart

variable {D : Domain}

namespace Supply

variable {s : Supply} {id : InvocationId} {m n : Nat}

/-- Whether an identity has been drawn. -/
def Drawn (s : Supply) (id : InvocationId) : Prop := ∃ i < s.drawn, s.id i = id

/-- The supply when `n` identities more have been drawn. -/
def skip (s : Supply) (n : Nat) : Supply := { s with drawn := s.drawn + n }

/-- The `n` identities that are drawn next. -/
def upcoming (s : Supply) (n : Nat) : List InvocationId := (List.range' s.drawn n).map s.id

theorem upcoming_skip (s : Supply) (m n : Nat) :
    s.upcoming m ++ (s.skip m).upcoming n = s.upcoming (m + n) := by
  change (List.range' s.drawn m).map s.id ++ (List.range' (s.drawn + m) n).map s.id = _
  rw [← List.map_append, List.range'_append_1]
  rfl

theorem nodup_upcoming (s : Supply) (n : Nat) : (s.upcoming n).Nodup :=
  List.Nodup.map (fun _ _ h => s.distinct _ _ h) List.nodup_range'

theorem drawn_skip : (s.skip n).Drawn id ↔ s.Drawn id ∨ id ∈ s.upcoming n := by
  unfold upcoming
  simp only [List.mem_map, List.mem_range'_1]
  constructor
  · rintro ⟨i, hi, he⟩
    by_cases hbefore : i < s.drawn
    · exact Or.inl ⟨i, hbefore, he⟩
    · exact Or.inr ⟨i, ⟨Nat.not_lt.mp hbefore, hi⟩, he⟩
  · rintro (⟨i, hi, he⟩ | ⟨i, hi, he⟩)
    · exact ⟨i, Nat.lt_add_right n hi, he⟩
    · exact ⟨i, hi.2, he⟩

theorem not_drawn_of_mem_upcoming (h : id ∈ s.upcoming n) : ¬ s.Drawn id := by
  obtain ⟨i, hi, rfl⟩ := List.mem_map.mp h
  rintro ⟨j, hj, he⟩
  have hbound := (List.mem_range'_1.mp hi).1
  exact absurd (s.distinct _ _ he ▸ hj) (Nat.not_lt.mpr hbound)

theorem not_drawn_next (s : Supply) : ¬ s.Drawn s.next :=
  not_drawn_of_mem_upcoming (n := 1) (List.mem_singleton_self _)

theorem drawn_draw : s.draw.Drawn id ↔ s.Drawn id ∨ id = s.next := by
  refine (drawn_skip (n := 1)).trans (or_congr_right ?_)
  exact List.mem_singleton

end Supply

namespace Invocations

variable {S : Type} [DecidableEq S] {t t' : Invocations S} {s x : S} {id : InvocationId}

theorem get?_remove (t : Invocations S) (s x : S) :
    (t.remove s).get? x = if x = s then none else t.get? x := by
  unfold get? remove
  dsimp only
  induction t.running with
  | nil => simp
  | cons e l ih =>
    obtain ⟨y, r⟩ := e
    by_cases hy : y = s
    · rw [List.filter_cons_of_neg (by simp [hy]), ih, List.lookup_cons]
      by_cases hx : x = s
      · rw [if_pos hx, if_pos hx]
      · rw [if_neg hx, if_neg hx, hy, beq_eq_false_iff_ne.mpr hx]
    · rw [List.filter_cons_of_pos (by simp [hy]), List.lookup_cons, List.lookup_cons, ih]
      by_cases hx : x = y
      · simp [hx, hy]
      · rw [beq_eq_false_iff_ne.mpr hx]

theorem get?_cancel (t : Invocations S) (s x : S) :
    (t.cancel s).get? x = if x = s then none else t.get? x := get?_remove t s x

theorem get?_register (t : Invocations S) (s x : S) :
    (t.register s).get? x = if x = s then some { id := t.supply.next } else t.get? x := by
  have hcons : (t.register s).get? x =
      match x == s with
      | true => some { id := t.supply.next }
      | false => (t.cancel s).get? x := List.lookup_cons ..
  rw [hcons, get?_cancel]
  by_cases hx : x = s
  · simp [hx]
  · rw [if_neg hx, if_neg hx, beq_eq_false_iff_ne.mpr hx]

theorem get?_modify (t : Invocations S) (s x : S) (f : Running → Running) :
    (t.modify s f).get? x = (t.get? x).map fun r => if x = s then f r else r := by
  unfold get? modify
  dsimp only
  induction t.running with
  | nil => rfl
  | cons e l ih =>
    obtain ⟨y, r⟩ := e
    have he : (if y = s then (y, f r) else (y, r)) = (y, if y = s then f r else r) := by
      split <;> rfl
    rw [List.map_cons, he, List.lookup_cons, ih, List.lookup_cons]
    by_cases hx : x = y
    · simp [hx]
    · rw [beq_eq_false_iff_ne.mpr hx]

theorem get?_attach (t : Invocations S) (s x : S) (id : InvocationId) (task : TaskId) :
    (t.attach s id task).get? x =
      (t.get? x).map fun r => if x = s ∧ r.id = id then { r with task := some task } else r := by
  unfold attach isCurrent
  split
  · next hcur =>
    rw [get?_modify]
    refine Option.map_congr fun r hr => ?_
    by_cases hx : x = s
    · have hid : r.id = id := by simpa [← hx, hr] using hcur
      simp [hx, hid]
    · simp [hx]
  · next hcur =>
    change t.get? x = _
    cases hr : t.get? x with
    | none => rfl
    | some r =>
      rw [Option.map_some, if_neg]
      intro h
      rw [← h.1, hr] at hcur
      simp [h.2] at hcur

theorem mem_states : x ∈ t.states ↔ ∃ r, t.get? x = some r := by
  unfold states get?
  induction t.running with
  | nil => simp
  | cons e l ih =>
    obtain ⟨y, r⟩ := e
    rw [List.map_cons, List.mem_cons, ih, List.lookup_cons]
    by_cases hx : x = y
    · simp [hx]
    · rw [beq_eq_false_iff_ne.mpr hx]
      exact or_iff_right hx

/-- The invocation that is running for a state, and whether its result has arrived. -/
def pending? (t : Invocations S) (state : S) : Option (InvocationId × Bool) :=
  (t.get? state).map fun r => (r.id, r.settled)

/-- A result is accepted if its invocation is running and has no result yet. -/
theorem settle?_eq (t : Invocations S) (s : S) (id : InvocationId) : t.settle? s id =
    if t.pending? s = some (id, false) then some (t.modify s ({ · with settled := true }))
    else none := by
  unfold settle? pending?
  cases t.get? s <;> simp

/-- A result retires its invocation if the invocation is running and its result was accepted. -/
theorem consume?_eq (t : Invocations S) (s : S) (id : InvocationId) : t.consume? s id =
    if t.pending? s = some (id, true) then some (t.remove s) else none := by
  unfold consume? pending?
  cases t.get? s <;> simp

theorem pending?_remove (t : Invocations S) (s x : S) :
    (t.remove s).pending? x = if x = s then none else t.pending? x := by
  unfold pending?
  rw [get?_remove]
  split <;> rfl

theorem pending?_settle (h : t.settle? s id = some t') : t.pending? s = some (id, false) ∧
    t'.supply = t.supply ∧ ∀ x, t'.pending? x = if x = s then some (id, true) else t.pending? x := by
  rw [settle?_eq] at h
  split at h
  · next hs =>
    rw [Option.some.injEq] at h
    subst h
    refine ⟨hs, rfl, fun x => ?_⟩
    unfold pending? at hs ⊢
    rw [get?_modify, Option.map_map]
    by_cases hx : x = s
    · rw [hx]
      cases hr : t.get? s with
      | none => simp [hr] at hs
      | some r =>
        rw [hr, Option.map_some, Option.some.injEq, Prod.mk.injEq] at hs
        simp [hs.1]
    · rw [if_neg hx]
      exact Option.map_congr fun r _ => by simp [hx]
  · exact absurd h (by simp)

theorem pending?_attach (t : Invocations S) (s x : S) (id : InvocationId) (task : TaskId) :
    (t.attach s id task).pending? x = t.pending? x := by
  unfold pending?
  rw [get?_attach, Option.map_map]
  refine Option.map_congr fun r _ => ?_
  rw [Function.comp_apply]
  split <;> rfl

theorem supply_attach (t : Invocations S) (s : S) (id : InvocationId) (task : TaskId) :
    (t.attach s id task).supply = t.supply := by
  unfold attach
  split <;> rfl

end Invocations

namespace Machine

variable {m m' : Machine D} {s x : D.State} {signal : Signal D}

/-! ## Leaving -/

/-- Leaving states empties their entries. -/
theorem get?_exitStates : ∀ {l : List D.State} {m : Machine D}, m.exitStates signal l = .ok m' →
    m'.invocations.supply = m.invocations.supply ∧
      ∀ x, m'.invocations.get? x = if x ∈ l then none else m.invocations.get? x
  | [], m, h => by
    rw [exitStates, List.foldlM_nil, pure_eq_ok] at h
    exact h ▸ ⟨rfl, fun _ => rfl⟩
  | s :: l, m, h => by
    rw [exitStates, List.foldlM_cons, bind_eq_ok] at h
    obtain ⟨m₁, h₁, h₂⟩ := h
    have hfirst := (exitState_work h₁).2
    obtain ⟨hsupply, hrest⟩ := get?_exitStates (m := m₁) h₂
    refine ⟨by rw [hsupply, hfirst]; rfl, fun x => ?_⟩
    rw [hrest, hfirst, Invocations.get?_cancel]
    by_cases hx : x = s <;> by_cases hl : x ∈ l <;> simp [hx, hl]

end Machine

/-! ## Entering -/

namespace Progress

variable {p p' p'' : Progress D} {l l' : List D.State} {new new' : List (Launch D)}
  {signal : Signal D} {now : Duration} {s x : D.State}

/-- What entering the states of a list starts, and the table after it: the new invocations have the
next identities, and each is the running one of its state. -/
structure Starts (l : List D.State) (p : Progress D) (new : List (Launch D)) (p' : Progress D) :
    Prop where
  launches : p'.launches = p.launches ++ new
  ids : new.map (·.id) = p.machine.invocations.supply.upcoming new.length
  supply : p'.machine.invocations.supply = p.machine.invocations.supply.skip new.length
  states : (new.map (·.state)).Sublist l
  declared : ∀ x ∈ l, p.machine.chart.Invokes x → ∃ a ∈ new, a.state = x
  running : ∀ x, (∃ a ∈ new, a.state = x) →
    ∃ a ∈ new, a.state = x ∧ p'.machine.invocations.get? x = some { id := a.id }
  kept : ∀ x, (∀ a ∈ new, a.state ≠ x) →
    p'.machine.invocations.get? x = p.machine.invocations.get? x

theorem starts_nil (hlaunches : p'.launches = p.launches)
    (hinvocations : p'.machine.invocations = p.machine.invocations)
    (hnone : ∀ x ∈ l, ¬ p.machine.chart.Invokes x) : Starts l p [] p' where
  launches := by rw [hlaunches, List.append_nil]
  ids := rfl
  supply := by rw [hinvocations]; rfl
  states := List.nil_sublist l
  declared := fun x hx h => absurd h (hnone x hx)
  running := fun x h => by simp at h
  kept := fun x _ => by rw [hinvocations]

theorem starts_append (hchart : p'.machine.chart = p.machine.chart) (h : Starts l p new p')
    (h' : Starts l' p' new' p'') : Starts (l ++ l') p (new ++ new') p'' where
  launches := by rw [h'.launches, h.launches, List.append_assoc]
  ids := by
    rw [List.map_append, h.ids, h'.ids, h.supply, List.length_append, Supply.upcoming_skip]
  supply := by
    rw [h'.supply, h.supply, List.length_append]
    simp only [Supply.skip, Nat.add_assoc]
  states := by
    rw [List.map_append]
    exact h.states.append h'.states
  declared := by
    intro x hx hinvokes
    rcases List.mem_append.mp hx with hx | hx
    · obtain ⟨a, ha, hax⟩ := h.declared x hx hinvokes
      exact ⟨a, List.mem_append_left _ ha, hax⟩
    · obtain ⟨a, ha, hax⟩ := h'.declared x hx (hchart ▸ hinvokes)
      exact ⟨a, List.mem_append_right _ ha, hax⟩
  running := by
    intro x hx
    by_cases hnew' : ∃ a ∈ new', a.state = x
    · obtain ⟨a, ha, hrest⟩ := h'.running x hnew'
      exact ⟨a, List.mem_append_right _ ha, hrest⟩
    · -- what the first states started is not replaced
      have hnone : ∀ a ∈ new', a.state ≠ x := fun a ha hax => hnew' ⟨a, ha, hax⟩
      obtain ⟨a, ha, hax⟩ := hx
      have hfirst : ∃ a ∈ new, a.state = x :=
        (List.mem_append.mp ha).elim (fun ha => ⟨a, ha, hax⟩) fun ha => absurd hax (hnone a ha)
      obtain ⟨b, hb, hbx, hget⟩ := h.running x hfirst
      exact ⟨b, List.mem_append_left _ hb, hbx, (h'.kept x hnone).trans hget⟩
  kept := by
    intro x hx
    rw [h'.kept x fun a ha => hx a (List.mem_append_right _ ha),
      h.kept x fun a ha => hx a (List.mem_append_left _ ha)]

theorem starts_launchOf {n : Node D} (hn : p.machine.chart.node? s = some n)
    (h : p.launchOf n = .ok p') : ∃ new, Starts [s] p new p' := by
  obtain ⟨-, hid⟩ := p.machine.chart.node?_eq_some.mp hn
  rcases launchOf_cases h with ⟨hnone, rfl⟩ | ⟨_, _, _, -, -, -, rfl⟩
  · refine ⟨[], starts_nil rfl rfl fun x hx hinvokes => ?_⟩
    obtain ⟨n', hn', hsome⟩ := hinvokes
    rw [List.mem_singleton.mp hx, hn, Option.some.injEq] at hn'
    simp [← hn', hnone] at hsome
  · rw [hid]
    refine ⟨[_], rfl, rfl, rfl, List.Sublist.refl _, fun x hx _ => ?_, fun x hx => ?_,
      fun x hx => ?_⟩
    · exact ⟨_, List.mem_singleton.mpr rfl, (List.mem_singleton.mp hx).symm⟩
    · obtain ⟨a, ha, rfl⟩ := hx
      rw [List.mem_singleton] at ha
      subst ha
      exact ⟨_, List.mem_singleton.mpr rfl, rfl, by simp [Invocations.get?_register]⟩
    · have hne : x ≠ s := (hx _ (List.mem_singleton.mpr rfl)).symm
      simp [Invocations.get?_register, hne]

theorem starts_enterState (h : p.enterState signal now s = .ok p') : ∃ new, Starts [s] p new p' := by
  obtain ⟨n, m₁, p₁, hn, h₁, hp₁, rfl⟩ := exists_of_enterState h
  have hchart : m₁.chart = p.machine.chart := (Machine.runActions_keeps h₁).1.chart
  have hinvocations : m₁.invocations = p.machine.invocations := (Machine.runActions_work h₁).2
  obtain ⟨new, hstarts⟩ := starts_launchOf (s := s) (by rw [← hn, ← hchart]; rfl) hp₁
  have hlaunches : (p₁.completeBy n).launches = p₁.launches := by
    unfold completeBy
    split <;> rfl
  refine ⟨new, hlaunches.trans hstarts.launches, ?_, ?_, hstarts.states, ?_, ?_, ?_⟩
  · exact hinvocations ▸ hstarts.ids
  · rw [completeBy_machine, hstarts.supply, ← hinvocations]
    rfl
  · rw [← hchart]
    exact hstarts.declared
  · rw [completeBy_machine]
    exact hstarts.running
  · rw [completeBy_machine, ← hinvocations]
    exact hstarts.kept

/-- Entering states starts the invocations that they declare. -/
theorem starts_foldlM_enterState : ∀ {l : List D.State} {p : Progress D},
    l.foldlM (fun p s => p.enterState signal now s) p = .ok p' → ∃ new, Starts l p new p'
  | [], p, h => by
    rw [List.foldlM_nil, pure_eq_ok] at h
    exact ⟨[], h ▸ starts_nil rfl rfl fun x hx => absurd hx List.not_mem_nil⟩
  | s :: l, p, h => by
    rw [List.foldlM_cons, bind_eq_ok] at h
    obtain ⟨p₁, h₁, h₂⟩ := h
    obtain ⟨new, hfirst⟩ := starts_enterState h₁
    obtain ⟨new', hrest⟩ := starts_foldlM_enterState h₂
    exact ⟨new ++ new', starts_append (enterState_keeps h₁).1.chart hfirst hrest⟩

end Progress

namespace Machine

/-! ## Taking a step in -/

/-- The invocations of a machine that has absorbed a step, which has been handed all that was
started. -/
theorem absorb_invocations (p : Progress D) :
    (absorb p).invocations.supply = p.machine.invocations.supply ∧
      (∀ x, (absorb p).invocations.pending? x = p.machine.invocations.pending? x) ∧
      (∀ x, (∀ a ∈ p.launches, a.state ≠ x) →
        (absorb p).invocations.get? x = p.machine.invocations.get? x) ∧
      (p.completed = false → (absorb p).launched = p.machine.launched ++ p.launches) := by
  -- a task is attached to the state that launched it, and others keep theirs
  have hfold : ∀ (l : List (Launch D)) (m : Machine D),
      (l.foldl handOver m).invocations.supply = m.invocations.supply ∧
        (∀ x, (l.foldl handOver m).invocations.pending? x = m.invocations.pending? x) ∧
        (∀ x, (∀ a ∈ l, a.state ≠ x) →
          (l.foldl handOver m).invocations.get? x = m.invocations.get? x) ∧
        (l.foldl handOver m).launched = m.launched ++ l := by
    intro l
    induction l with
    | nil => exact fun m => ⟨rfl, fun _ => rfl, fun _ _ => rfl, (List.append_nil _).symm⟩
    | cons a l ih =>
      intro m
      obtain ⟨hsupply, hpending, hget, hlaunched⟩ := ih (m.handOver a)
      refine ⟨hsupply.trans (Invocations.supply_attach ..),
        fun x => (hpending x).trans (Invocations.pending?_attach ..), fun x hx => ?_,
        hlaunched.trans (List.append_assoc _ [a] l)⟩
      refine (hget x fun b hb => hx b (List.mem_cons_of_mem _ hb)).trans ?_
      have hne : x ≠ a.state := (hx a (List.mem_cons_self ..)).symm
      exact (Invocations.get?_attach ..).trans (by simp [hne])
  unfold absorb
  dsimp only
  cases hc : p.completed with
  | true => exact ⟨rfl, fun _ => rfl, fun _ _ => rfl, fun h => absurd h (by simp)⟩
  | false =>
    obtain ⟨hsupply, hpending, hget, hlaunched⟩ := hfold p.launches
      (p.machine.enqueueAll (p.raised.map fun s => .signal (.done s)))
    exact ⟨hsupply, hpending, hget, fun _ => hlaunched⟩

end Machine

end Statechart
