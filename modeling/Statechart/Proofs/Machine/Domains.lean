import Statechart.Proofs.Entry.Bounds
import Statechart.Proofs.Machine.Selection

/-!
# Domains of transitions

The domain of a transition is the nearest of the states it may stay within that is
compound and has all the targets below it, and the root if there is none
(`domain?_eq`). So the source lies within the domain and the targets lie below it
(`domain_spec`), and in a well-formed configuration neither of two transitions that do
not conflict stays within the domain of the other (`domains_apart`).

A transition to a history state has targets that depend on the history. Its domain does
not, as long as it does not lie below the parent of the history state: it is then the
nearest one that the parent lies within (`nearest_eq_of_not_below`).
-/

namespace Statechart

variable {D : Domain}

namespace Outline

variable (c : Outline D)

/-- The states that a transition may stay within, nearest first. -/
def scopes (t : Selected D) : List D.State :=
  (if t.transition.reenter then [] else [t.source]) ++ c.ancestors t.source

/-- The nearest of them that is compound and satisfies `below`, else the root. -/
def nearest (t : Selected D) (below : D.State → Bool) : D.State :=
  ((c.scopes t).find? fun a => c.isCompound a && below a).getD c.root

end Outline

namespace Chart

variable {c : Chart D} {t : Selected D} {p a d : D.State} {below : D.State → Bool}
  {l : List D.State}

theorem isWithin_of_mem_scopes (h : a ∈ c.scopes t) : c.isWithin t.source a := by
  rw [Outline.scopes, List.mem_append] at h
  rcases h with h | h
  · split at h
    · exact absurd h List.not_mem_nil
    · rw [List.mem_singleton] at h
      exact isWithin_iff.mpr (Or.inl h.symm)
  · exact isWithin_of_isDescendant (isDescendant_iff.mpr h)

theorem nearest_cases (t : Selected D) (below : D.State → Bool) : c.nearest t below = c.root ∨
    (c.isWithin t.source (c.nearest t below) ∧ c.isCompound (c.nearest t below) ∧
      below (c.nearest t below)) := by
  unfold Outline.nearest
  cases hf : (c.scopes t).find? fun a => c.isCompound a && below a with
  | none => exact Or.inl rfl
  | some a =>
    have hp := List.find?_some hf
    rw [Bool.and_eq_true] at hp
    exact Or.inr ⟨isWithin_of_mem_scopes (List.mem_of_find?_eq_some hf), hp.1, hp.2⟩

theorem isWithin_nearest (hs : c.contains t.source) : c.isWithin t.source (c.nearest t below) := by
  rcases nearest_cases (c := c) t below with h | ⟨h, -⟩
  · rw [h]
    exact isWithin_root hs
  · exact h

theorem pairwise_scopes (t : Selected D) : (c.scopes t).Pairwise fun a b => c.isDescendant a b := by
  unfold Outline.scopes
  split
  · exact pairwise_ancestors t.source
  · exact List.pairwise_cons.mpr
      ⟨fun a ha => isDescendant_iff.mpr ha, pairwise_ancestors t.source⟩

/-- The nearest is within every other that would do. -/
theorem isWithin_nearest_of_mem_scopes (hr : a ∈ c.scopes t) (hc : c.isCompound a) (hb : below a) :
    c.isWithin (c.nearest t below) a := by
  obtain ⟨d, hd⟩ : ∃ d, (c.scopes t).find? (fun a => c.isCompound a && below a) = some d :=
    Option.isSome_iff_exists.mp (List.find?_isSome.mpr ⟨a, hr, by simp [hc, hb]⟩)
  rw [Outline.nearest, hd, Option.getD_some]
  by_cases hne : a = d
  · exact hne ▸ isWithin_refl a
  · exact isWithin_of_isDescendant
      (isDescendant_of_find? (pairwise_scopes t) hd hr (by simp [hc, hb]) hne)

/-- Where the nearest state that has states below `p` below it does not itself lie below `p`, it is
the nearest that `p` lies within. -/
theorem nearest_eq_of_not_below (hne : l ≠ []) (hl : ∀ x ∈ l, c.isDescendant x p)
    (hnot : ¬ c.isDescendant (c.nearest t fun a => l.all (c.isDescendant · a)) p) :
    c.nearest t (fun a => l.all (c.isDescendant · a)) = c.nearest t (c.isWithin p ·) := by
  unfold Outline.nearest at hnot ⊢
  generalize c.scopes t = scopes at hnot ⊢
  induction scopes with
  | nil => rfl
  | cons a scopes ih =>
    -- a scope that has the states below it and is not below `p` is one that `p` lies within
    by_cases hc : c.isCompound a
    · by_cases hpa : c.isWithin p a
      · have hall : l.all (c.isDescendant · a) := List.all_eq_true.mpr fun x hx =>
          isDescendant_of_isDescendant_of_isWithin (hl x hx) hpa
        rw [List.find?_cons_of_pos (by simp [hc, hall]), List.find?_cons_of_pos (by simp [hc, hpa])]
      · by_cases hall : l.all (c.isDescendant · a)
        · rw [List.find?_cons_of_pos (by simp [hc, hall]), Option.getD_some] at hnot
          obtain ⟨x, hx⟩ := List.exists_mem_of_ne_nil l hne
          rcases isWithin_or_of_common (isWithin_of_isDescendant (hl x hx))
            (isWithin_of_isDescendant (List.all_eq_true.mp hall x hx)) with h | h
          · exact absurd h hpa
          · exact absurd h hnot
        · rw [List.find?_cons_of_neg (by simp [hall])] at hnot ⊢
          rw [List.find?_cons_of_neg (by simp [hpa])]
          exact ih hnot
    · rw [List.find?_cons_of_neg (by simp [hc])] at hnot ⊢
      rw [List.find?_cons_of_neg (by simp [hc])]
      exact ih hnot

theorem isWithin_nearest_isWithin (hp : c.contains p) :
    c.isWithin p (c.nearest t (c.isWithin p ·)) := by
  rcases nearest_cases (c := c) t (c.isWithin p ·) with h | ⟨-, -, h⟩
  · rw [h]
    exact isWithin_root hp
  · exact h

end Chart

namespace Machine

open Chart

variable {m m' : Machine D} {t u : Selected D} {g x p d e : D.State} {n : Node D}

/-! ## Targets -/

theorem targets_of_not_isHistory (ht : t.transition.target = some g) (hc : m.chart.contains g)
    (hh : ¬ m.chart.isHistory g) : m.targets t = [g] := by
  obtain ⟨n, hn⟩ := contains_iff.mp hc
  have hk : ¬ n.kind.isHistory := fun hk => hh ((isHistory_of_node hn).mpr hk)
  simp only [targets, ht, hn, if_neg hk]

theorem targets_of_isHistory (ht : t.transition.target = some g) (hn : m.chart.node? g = some n)
    (hk : n.kind.isHistory) : m.targets t = m.chart.restored m.history n := by
  simp only [targets, ht, hn, if_pos hk]

theorem target_of_declared (hdecl : Declared m.chart t) (ht : t.transition.target = some g) :
    m.chart.contains g ∧ g ≠ m.chart.root := by
  obtain ⟨n, hn, htr⟩ := hdecl
  exact target_of_transition hn htr ht

theorem source_of_declared (hdecl : Declared m.chart t) : m.chart.contains t.source := by
  obtain ⟨n, hn, -⟩ := hdecl
  exact contains_iff.mpr ⟨n, hn⟩

/-- The targets of a transition to a history state lie below the parent of the history state. -/
theorem targets_below (hb : m.chart.BoundedHistory m.history) (ht : t.transition.target = some g)
    (hh : m.chart.isHistory g) (hp : m.chart.parent? g = some p) (hx : x ∈ m.targets t) :
    m.chart.isDescendant x p := by
  obtain ⟨n, hn⟩ := contains_iff.mp (contains_of_parent hp)
  have hk := (isHistory_of_node hn).mp hh
  rw [targets_of_isHistory ht hn hk] at hx
  exact restored_below hb hn hk hp hx

theorem targets_below_root (hb : m.chart.BoundedHistory m.history) (hdecl : Declared m.chart t)
    (hx : x ∈ m.targets t) : m.chart.isDescendant x m.chart.root := by
  cases ht : t.transition.target with
  | none => exact absurd hx (by simp [targets, ht])
  | some g =>
    obtain ⟨hc, hne⟩ := target_of_declared hdecl ht
    by_cases hh : m.chart.isHistory g
    · obtain ⟨p, hp⟩ := parent_of_isHistory hh
      exact isDescendant_of_isDescendant_of_isWithin (targets_below hb ht hh hp hx)
        (isWithin_root (contains_parent hp))
    · rw [targets_of_not_isHistory ht hc hh, List.mem_singleton] at hx
      rw [hx]
      exact isDescendant_of_isWithin_of_ne (isWithin_root hc) hne

/-! ## Domains -/

theorem domain?_eq (m : Machine D) (t : Selected D) : m.domain? t =
    if t.transition.isActionOnly t.source || (m.targets t).isEmpty then none
    else some (m.chart.nearest t fun a => (m.targets t).all (m.chart.isDescendant · a)) := by
  unfold domain? Outline.nearest Outline.scopes Outline.lcca?
  dsimp only
  split
  · rfl
  · cases t.transition.reenter with
    | true => simp
    | false =>
      simp only [Bool.not_false, Bool.true_and, Bool.false_eq_true, if_false, List.singleton_append,
        List.find?_cons]
      cases m.chart.isCompound t.source && (m.targets t).all (m.chart.isDescendant · t.source) <;> rfl

theorem domain?_congr (hchart : m'.chart = m.chart) (htargets : m'.targets t = m.targets t) :
    m'.domain? t = m.domain? t := by
  rw [domain?_eq, domain?_eq, hchart, htargets]

theorem domain_eq_nearest (h : m.domain? t = some d) : m.targets t ≠ [] ∧
    d = m.chart.nearest t fun a => (m.targets t).all (m.chart.isDescendant · a) := by
  rw [domain?_eq] at h
  split at h
  · exact absurd h (by simp)
  · next hcond =>
    rw [Bool.or_eq_true, not_or, List.isEmpty_iff] at hcond
    exact ⟨hcond.2, (Option.some.inj h).symm⟩

/-- The source of a transition lies within its domain, and its targets below it. -/
theorem domain_spec (hb : m.chart.BoundedHistory m.history) (hdecl : Declared m.chart t)
    (h : m.domain? t = some d) :
    m.chart.isWithin t.source d ∧ (∃ x, x ∈ m.targets t) ∧
      ∀ x ∈ m.targets t, m.chart.isDescendant x d := by
  obtain ⟨hne, rfl⟩ := domain_eq_nearest h
  refine ⟨isWithin_nearest (source_of_declared hdecl), List.exists_mem_of_ne_nil _ hne, ?_⟩
  intro x hx
  rcases nearest_cases (c := m.chart) t
    (fun a => (m.targets t).all (m.chart.isDescendant · a)) with hr | ⟨-, -, hall⟩
  · rw [hr]
    exact targets_below_root hb hdecl hx
  · exact List.all_eq_true.mp hall x hx

theorem exists_target (h : m.domain? t = some d) : ∃ g, t.transition.target = some g := by
  obtain ⟨hne, -⟩ := domain_eq_nearest h
  cases ht : t.transition.target with
  | none => exact absurd (by simp [targets, ht]) hne
  | some g => exact ⟨g, rfl⟩

/-- The domain of a transition to a history state depends on the history only if it lies below the
parent of the history state. -/
theorem domain_eq_of_not_below (hb : m.chart.BoundedHistory m.history)
    (ht : t.transition.target = some g) (hh : m.chart.isHistory g)
    (hp : m.chart.parent? g = some p) (hd : m.domain? t = some d)
    (hnot : ¬ m.chart.isDescendant d p) : d = m.chart.nearest t (m.chart.isWithin p ·) := by
  obtain ⟨hne, rfl⟩ := domain_eq_nearest hd
  exact nearest_eq_of_not_below hne (fun x hx => targets_below hb ht hh hp hx) hnot

/-- On a chart whose root is not parallel, domains are compound. -/
theorem isCompound_domain (hroot : ¬ m.chart.isParallel m.chart.root)
    (hb : m.chart.BoundedHistory m.history) (hdecl : Declared m.chart t)
    (h : m.domain? t = some d) : m.chart.isCompound d := by
  obtain ⟨-, ⟨x, hx⟩, hbelow⟩ := domain_spec hb hdecl h
  obtain ⟨-, rfl⟩ := domain_eq_nearest h
  rcases nearest_cases (c := m.chart) t
    (fun a => (m.targets t).all (m.chart.isDescendant · a)) with hr | ⟨-, hc, -⟩
  · rw [hr] at hbelow ⊢
    obtain ⟨u, hu, -⟩ := exists_child_towards (hbelow x hx)
    exact (isCompound_or_isParallel_of_parent hu).resolve_right hroot
  · exact hc

/-! ## Domains of transitions that do not conflict -/

/-- Where one transition stays within the domain of another, both leave the states that the first
one leaves. -/
theorem conflicts_of_isWithin (hwf : m.chart.WellFormed m.configuration)
    (hb : m.chart.BoundedHistory m.history) (hdecl : Declared m.chart t)
    (hactive : ∃ x ∈ m.configuration, m.chart.isWithin x t.source)
    (hd : m.domain? t = some d) (he : m.domain? u = some e) (hde : m.chart.isWithin d e) :
    m.conflicts t u := by
  obtain ⟨hsource, ⟨x, hx⟩, hbelow⟩ := domain_spec hb hdecl hd
  obtain ⟨y, hy, hys⟩ := hactive
  -- the domain is active and has a child, so it has an active child: that is left by both
  have hda := active_of_isWithin hwf hy (isWithin_trans hys hsource)
  obtain ⟨v, hv, -⟩ := exists_child_towards (hbelow x hx)
  obtain ⟨w, hwa, hw⟩ := exists_active_child hwf hda hv
  exact conflicts_iff.mpr ⟨w, mem_exitSet.mpr ⟨d, hd, hwa, isDescendant_parent hw⟩,
    mem_exitSet.mpr ⟨e, he, hwa,
      isDescendant_of_isDescendant_of_isWithin (isDescendant_parent hw) hde⟩⟩

/-- Neither of two transitions taken together stays within the domain of the other. -/
theorem domains_apart (hwf : m.chart.WellFormed m.configuration)
    (hb : m.chart.BoundedHistory m.history) {taken : List (Selected D)}
    (hpairs : taken.Pairwise fun t u => ¬ m.conflicts t u)
    (htaken : ∀ t ∈ taken, Declared m.chart t ∧ ∃ x ∈ m.configuration, m.chart.isWithin x t.source) :
    taken.Pairwise fun t u => ∀ d e, m.domain? t = some d → m.domain? u = some e →
      ¬ m.chart.isWithin d e ∧ ¬ m.chart.isWithin e d := by
  refine hpairs.imp_of_mem ?_
  intro t u ht hu hnot d e hd he
  obtain ⟨htdecl, htactive⟩ := htaken t ht
  obtain ⟨hudecl, huactive⟩ := htaken u hu
  exact ⟨fun h => hnot (conflicts_of_isWithin hwf hb htdecl htactive hd he h),
    fun h => hnot (conflicts_comm.mp (conflicts_of_isWithin hwf hb hudecl huactive he hd h))⟩

end Machine

end Statechart
