import Statechart.Proofs.Configuration
import Statechart.Proofs.History
import Statechart.Proofs.Machine.Frames
import Mathlib.Data.List.Pairwise

/-!
# Transitions taken together

The transitions that a signal sets off are declared on states around an active state
(`mem_select`), and which ones they are is read off the signal (`selects_of_select`). Of
these, the ones that are taken do not conflict (`pairwise_withoutConflicts`).

Where they go is another matter (`domains_apart`), and needs the domains.
-/

namespace Statechart

variable {D : Domain}

namespace Machine

variable {m m' : Machine D} {signal : Signal D} {s x a b d : D.State} {t u : Selected D}
  {l selected : List (Selected D)}

/-! ## Selection -/

/-- A transition as the chart declares it. -/
def Declared (c : Chart D) (t : Selected D) : Prop :=
  ∃ n, c.node? t.source = some n ∧ t.transition ∈ n.transitions

theorem mem_listOf {transitions : List (Transition D)}
    (h : t ∈ Selected.listOf s transitions) : t.source = s ∧ t.transition ∈ transitions := by
  obtain ⟨⟨tr, i⟩, hmem, rfl⟩ := List.mem_map.mp h
  exact ⟨rfl, (List.mem_zipIdx' hmem).2 ▸ List.getElem_mem _⟩

/-- What is listed of a state is declared on it, be it a part of its transitions. -/
theorem declared_of_mem_listOf {c : Chart D} {n : Node D} {p : Transition D → Bool}
    (hn : c.node? s = some n) (h : t ∈ Selected.listOf s (n.transitions.filter p)) :
    Declared c t := by
  obtain ⟨hsource, htr⟩ := mem_listOf h
  exact ⟨n, hsource ▸ hn, (List.mem_filter.mp htr).1⟩

theorem mem_firstEnabled : ∀ {l : List (Selected D)},
    m.firstEnabled signal l = .ok (some t) → t ∈ l
  | [], h => absurd h (by simp [firstEnabled])
  | u :: l, h => by
    unfold firstEnabled at h
    split at h
    · obtain ⟨holds, -, h⟩ := bind_eq_ok.mp h
      split at h
      · have he := Option.some.inj (pure_eq_ok.mp h)
        exact he ▸ List.mem_cons_self ..
      · exact List.mem_cons_of_mem _ (mem_firstEnabled h)
    · exact List.mem_cons_of_mem _ (mem_firstEnabled h)

theorem mem_firstEnabledOf : ∀ {states : List D.State},
    m.firstEnabledOf signal states = .ok (some t) → t.source ∈ states ∧ Declared m.chart t
  | [], h => absurd h (by simp [firstEnabledOf])
  | s :: states, h => by
    unfold firstEnabledOf at h
    obtain ⟨n, hn, h⟩ := bind_eq_ok.mp h
    obtain ⟨found, hfound, h⟩ := bind_eq_ok.mp h
    split at h
    · have he := Option.some.inj (pure_eq_ok.mp h)
      subst he
      have hlisted := mem_firstEnabled hfound
      exact ⟨(mem_listOf hlisted).1 ▸ List.mem_cons_self ..,
        declared_of_mem_listOf (lookup_eq_ok hn) hlisted⟩
    · obtain ⟨hmem, hdecl⟩ := mem_firstEnabledOf h
      exact ⟨List.mem_cons_of_mem _ hmem, hdecl⟩

theorem accepts_of_firstEnabled : ∀ {l : List (Selected D)},
    m.firstEnabled signal l = .ok (some t) → t.transition.trigger.accepts signal
  | [], h => absurd h (by simp [firstEnabled])
  | u :: l, h => by
    unfold firstEnabled at h
    split at h
    · next haccepts =>
      obtain ⟨holds, -, h⟩ := bind_eq_ok.mp h
      split at h
      · exact Option.some.inj (pure_eq_ok.mp h) ▸ haccepts
      · exact accepts_of_firstEnabled h
    · exact accepts_of_firstEnabled h

theorem accepts_of_firstEnabledOf : ∀ {states : List D.State},
    m.firstEnabledOf signal states = .ok (some t) → t.transition.trigger.accepts signal
  | [], h => absurd h (by simp [firstEnabledOf])
  | s :: states, h => by
    unfold firstEnabledOf at h
    obtain ⟨n, -, h⟩ := bind_eq_ok.mp h
    obtain ⟨found, hfound, h⟩ := bind_eq_ok.mp h
    split at h
    · obtain rfl := Option.some.inj (pure_eq_ok.mp h)
      exact accepts_of_firstEnabled hfound
    · exact accepts_of_firstEnabledOf h

private theorem mem_foldlM_selectAbove : ∀ {leaves : List D.State} {acc : List (Selected D)},
    leaves.foldlM
      (fun selected leaf => do
        match ← m.firstEnabledOf signal (leaf :: m.chart.ancestors leaf) with
        | some t => return if selected.any t.same then selected else selected ++ [t]
        | none => return selected) acc = (.ok l : Attempt D (List (Selected D))) →
      t ∈ l → t ∈ acc ∨
        ∃ x ∈ leaves, m.firstEnabledOf signal (x :: m.chart.ancestors x) = .ok (some t)
  | [], acc, h, ht => by
    rw [List.foldlM_nil, pure_eq_ok] at h
    exact Or.inl (h ▸ ht)
  | leaf :: leaves, acc, h, ht => by
    rw [List.foldlM_cons, bind_eq_ok] at h
    obtain ⟨acc', h₁, h₂⟩ := h
    rcases mem_foldlM_selectAbove h₂ ht with hacc | ⟨x, hx, hrest⟩
    · obtain ⟨found, hfound, h₁⟩ := bind_eq_ok.mp h₁
      split at h₁
      · next u =>
        have hmem : t ∈ acc ∨ t = u := by
          have he := pure_eq_ok.mp h₁
          split at he
          · exact Or.inl (he ▸ hacc)
          · rw [← he, List.mem_append, List.mem_singleton] at hacc
            exact hacc
        exact hmem.imp_right fun he => ⟨leaf, List.mem_cons_self .., by rw [he]; exact hfound⟩
      · rw [pure_eq_ok] at h₁
        exact Or.inl (h₁ ▸ hacc)
    · exact Or.inr ⟨x, List.mem_cons_of_mem _ hx, hrest⟩

/-- An event sets off the first enabled transition on the way up from some leaf. -/
theorem mem_selectAbove {leaves : List D.State} (h : m.selectAbove signal leaves = .ok l)
    (ht : t ∈ l) :
    ∃ x ∈ leaves, m.firstEnabledOf signal (x :: m.chart.ancestors x) = .ok (some t) :=
  (mem_foldlM_selectAbove h ht).resolve_left List.not_mem_nil

/-- What a signal selects: what is offered for an event by the leaves and the states around them;
nothing; or one transition, of the state that an internal signal is addressed to. -/
inductive Selects (m : Machine D) (signal : Signal D) : List (Selected D) → Prop
  | above {e : D.Event} {l : List (Selected D)} : signal = .event e →
      m.selectAbove signal (m.active.filter m.chart.isAtomic) = .ok l → Selects m signal l
  | nothing : Selects m signal []
  | own {s : D.State} {t : Selected D} : signal.origin? = some s → s ∈ m.configuration →
      m.firstEnabledOf signal [s] = .ok (some t) → Selects m signal [t]
  | timer {s : D.State} {i : Nat} {delay : Duration} {n : Node D} {t : Selected D} :
      signal = .timer s i delay → s ∈ m.configuration → m.chart.node? s = some n →
      (Selected.listOf s n.delayed)[i]? = some t → m.guardHolds signal t = .ok true →
      Selects m signal [t]

theorem selects_of_select (h : m.select signal = .ok l) : m.Selects signal l := by
  -- these signals ask the state that they are addressed to, and no other
  have hown : ∀ {s}, signal.origin? = some s → (if m.isActive s then
        (·.toList) <$> m.firstEnabledOf signal [s] else .ok []) =
          (.ok l : Attempt D (List (Selected D))) → m.Selects signal l := by
    intro s horigin h
    split at h
    · next hactive =>
      rw [map_eq_pure_bind, bind_eq_ok] at h
      obtain ⟨found, hfound, h⟩ := h
      rw [pure_eq_ok] at h
      subst h
      cases found with
      | none => exact .nothing
      | some t => exact .own horigin (of_decide_eq_true hactive) hfound
    · exact Except.ok.inj h ▸ .nothing
  unfold select at h
  cases signal with
  | start | stop => exact Except.ok.inj h ▸ .nothing
  | event e => exact .above rfl h
  | timer s i delay =>
    dsimp only at h
    split at h
    · next hactive =>
      obtain ⟨n, hn, h⟩ := bind_eq_ok.mp h
      split at h
      · next t ht =>
        obtain ⟨holds, hholds, h⟩ := bind_eq_ok.mp h
        split at h
        · next htrue =>
          rw [pure_eq_ok] at h
          exact h ▸ .timer rfl (of_decide_eq_true hactive) (lookup_eq_ok hn) ht (htrue ▸ hholds)
        · exact pure_eq_ok.mp h ▸ .nothing
      · exact pure_eq_ok.mp h ▸ .nothing
    · exact Except.ok.inj h ▸ .nothing
  | invokeDone | invokeError | done => exact hown rfl h

/-- What a signal sets off is declared on a state around an active one. -/
theorem mem_select (h : m.select signal = .ok l) (ht : t ∈ l) :
    Declared m.chart t ∧ ∃ x ∈ m.configuration, m.chart.isWithin x t.source := by
  cases selects_of_select h with
  | above _ habove =>
    obtain ⟨x, hx, hfound⟩ := mem_selectAbove habove ht
    obtain ⟨hsource, hdecl⟩ := mem_firstEnabledOf hfound
    refine ⟨hdecl, x, (Outline.mem_inDocumentOrder ..).mp (List.mem_filter.mp hx).1, ?_⟩
    exact Chart.isWithin_iff.mpr ((List.mem_cons.mp hsource).imp Eq.symm Chart.isDescendant_iff.mpr)
  | nothing => exact absurd ht List.not_mem_nil
  | own _ hactive hfound =>
    obtain rfl := List.mem_singleton.mp ht
    obtain ⟨hsource, hdecl⟩ := mem_firstEnabledOf hfound
    exact ⟨hdecl, _, hactive, List.mem_singleton.mp hsource ▸ Chart.isWithin_refl _⟩
  | timer _ hactive hn hget _ =>
    obtain rfl := List.mem_singleton.mp ht
    have hlisted := List.mem_of_getElem? hget
    exact ⟨declared_of_mem_listOf hn hlisted, _, hactive,
      (mem_listOf hlisted).1 ▸ Chart.isWithin_refl _⟩

/-! ## Conflicts -/

theorem mem_exitSet :
    x ∈ m.exitSet t ↔ ∃ d, m.domain? t = some d ∧ x ∈ m.configuration ∧ m.chart.isDescendant x d := by
  unfold exitSet
  cases m.domain? t with
  | none => simp
  | some d => simp [StateSet.mem_def]

/-- The states left are the active ones below the domains of the transitions taken. -/
theorem mem_leaving {taken : List (Selected D)} :
    x ∈ m.leaving taken ↔ x ∈ m.configuration ∧
      ∃ t ∈ taken, ∃ d, m.domain? t = some d ∧ m.chart.isDescendant x d := by
  unfold leaving
  rw [Outline.mem_inExitOrder, List.mem_filter, decide_eq_true_eq, List.mem_flatMap,
    ← StateSet.mem_def]
  refine and_congr_right fun hx => exists_congr fun t => and_congr_right fun _ => ?_
  rw [mem_exitSet]
  exact exists_congr fun d => and_congr_right fun _ => and_iff_right hx

theorem conflicts_iff : m.conflicts t u ↔ ∃ x, x ∈ m.exitSet t ∧ x ∈ m.exitSet u := by
  simp [conflicts]

theorem conflicts_comm : m.conflicts t u ↔ m.conflicts u t := by
  rw [conflicts_iff, conflicts_iff]
  exact exists_congr fun x => and_comm

theorem keepOrDrop_cases (kept : List (Selected D)) (t : Selected D) :
    m.keepOrDrop kept t = kept.filter (!m.conflicts t ·) ++ [t] ∨ m.keepOrDrop kept t = kept := by
  unfold keepOrDrop
  dsimp only
  split
  · exact Or.inl rfl
  · exact Or.inr rfl

private theorem mem_foldl_keepOrDrop : ∀ {l kept : List (Selected D)},
    t ∈ l.foldl m.keepOrDrop kept → t ∈ kept ∨ t ∈ l
  | [], _, h => Or.inl h
  | u :: l, kept, h => by
    rcases mem_foldl_keepOrDrop (l := l) h with h | h
    · rcases keepOrDrop_cases (m := m) kept u with he | he
      · rw [he, List.mem_append, List.mem_filter, List.mem_singleton] at h
        rcases h with ⟨h, -⟩ | rfl
        · exact Or.inl h
        · exact Or.inr (List.mem_cons_self ..)
      · exact Or.inl (he ▸ h)
    · exact Or.inr (List.mem_cons_of_mem _ h)

theorem mem_withoutConflicts (h : t ∈ m.withoutConflicts l) : t ∈ l :=
  (mem_foldl_keepOrDrop h).resolve_left List.not_mem_nil

private theorem pairwise_foldl_keepOrDrop : ∀ {l kept : List (Selected D)},
    kept.Pairwise (fun t u => ¬ m.conflicts t u) →
      (l.foldl m.keepOrDrop kept).Pairwise fun t u => ¬ m.conflicts t u
  | [], _, h => h
  | t :: l, kept, h => by
    refine pairwise_foldl_keepOrDrop (l := l) ?_
    rcases keepOrDrop_cases (m := m) kept t with he | he
    · rw [he, List.pairwise_append]
      refine ⟨h.filter _, List.pairwise_singleton .., ?_⟩
      intro u hu v hv
      rw [List.mem_singleton] at hv
      subst hv
      rw [conflicts_comm]
      simpa using (List.mem_filter.mp hu).2
    · rwa [he]

/-- The transitions that are left when conflicts are resolved do not conflict. -/
theorem pairwise_withoutConflicts (l : List (Selected D)) :
    (m.withoutConflicts l).Pairwise fun t u => ¬ m.conflicts t u :=
  pairwise_foldl_keepOrDrop List.Pairwise.nil

end Machine

end Statechart
