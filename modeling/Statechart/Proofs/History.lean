import Statechart.Proofs.Configuration
import Statechart.Proofs.Entry.Restore
import Statechart.Proofs.Machine.Frames

/-!
# What is recorded

When a state is left, each history state that belongs to it records what it has to
recall of the configuration: the active children, or the active leaves below
(`Recalls`). Of a well-formed configuration that is a set of compatible goals
(`compatible_of_active`), and entering these goals again brings back what was active:
all of it from the leaves (`brought_leaves`), from the children only these with what
they come with by default (`brought_children`).

Records are only made for the history states of states that are left, and all of them
are made of the same configuration (`get?_recordHistories`).
-/

namespace Statechart

namespace Outline

variable {D : Domain} (c : Outline D)

/-- Whether a history state that belongs to `p` recalls `x`. -/
def Recalls (mode : HistoryMode) (p x : D.State) : Prop :=
  match mode with
  | .shallow => c.parent? x = some p
  | .deep => c.isLeaf x ∧ c.isDescendant x p

end Outline

namespace Chart

variable {D : Domain} {c : Chart D} {s t x p q a b d g : D.State} {active : StateSet D.State}
  {goal : D.State → Prop} {mode : HistoryMode}

/-! ## Well-formed configurations, up and down -/

/-- The states around an active state are active. -/
theorem active_of_isWithin (hwf : c.WellFormed active) (hx : x ∈ active) (ha : c.isWithin x a) :
    a ∈ active := by
  induction a using c.induction_from_children with
  | step a ih =>
    rcases isWithin_iff.mp ha with rfl | ha
    · exact hx
    · obtain ⟨t, ht, hxt⟩ := exists_child_towards ha
      exact hwf.parent t (ih t ht hxt) a ht

/-- An active state with a child has an active child. -/
theorem exists_active_child (hwf : c.WellFormed active) (hs : s ∈ active)
    (ht : c.parent? t = some s) : ∃ u ∈ active, c.parent? u = some s := by
  rcases isCompound_or_isParallel_of_parent ht with hc | hp
  · obtain ⟨u, ⟨hu, hua⟩, -⟩ := hwf.compound s hs hc
    exact ⟨u, hua, (mem_substates.mp hu).1⟩
  · obtain ⟨u, hu⟩ := exists_region hp
    exact ⟨u, hwf.parallel s hs hp u hu, (mem_substates.mp hu).1⟩

/-- Of the states in a compound state one is active at a time. -/
theorem eq_of_siblings (hwf : c.WellFormed active) (hp : c.isCompound p) (hs : s ∈ active)
    (ht : t ∈ active) (hsp : c.parent? s = some p) (htp : c.parent? t = some p) : s = t := by
  obtain ⟨u, -, hunique⟩ := hwf.compound p (hwf.parent s hs p hsp) hp
  have hone : ∀ x ∈ active, c.parent? x = some p → x = u := fun x hx hxp =>
    hunique x ⟨mem_substates.mpr ⟨hxp, hwf.plain x hx⟩, hx⟩
  exact (hone s hs hsp).trans (hone t ht htp).symm

/-- Within every active state lies an active leaf. -/
theorem exists_active_leaf (hwf : c.WellFormed active) (hs : s ∈ active) :
    ∃ x ∈ active, c.isLeaf x ∧ c.isWithin x s := by
  induction s using c.induction_from_children with
  | step s ih =>
    have hdown : ∀ t, c.parent? t = some s → ∃ x ∈ active, c.isLeaf x ∧ c.isWithin x s := by
      intro t ht
      obtain ⟨u, hua, hu⟩ := exists_active_child hwf hs ht
      obtain ⟨x, hx, hleaf, hxu⟩ := ih u hu hua
      exact ⟨x, hx, hleaf, isWithin_trans hxu (isWithin_of_isDescendant (isDescendant_parent hu))⟩
    rcases kind_cases (hwf.contains s hs) with hc | hp | hh | hl
    · obtain ⟨i, hi⟩ := isCompound_iff.mp hc
      exact hdown i (mem_substates.mp (initial_mem_substates hi)).1
    · obtain ⟨r, hr⟩ := exists_region hp
      exact hdown r (mem_substates.mp hr).1
    · exact absurd hh (hwf.plain s hs)
    · exact ⟨s, hs, hl, isWithin_refl s⟩

/-! ## What is recalled -/

theorem isDescendant_of_recalls (h : c.Recalls mode p x) : c.isDescendant x p := by
  cases mode with
  | shallow => exact isDescendant_parent h
  | deep => exact h.2

theorem recalls_apart (hx : c.Recalls mode p x) (ht : c.Recalls mode p t) :
    ¬ c.isDescendant x t := by
  intro hxt
  cases mode with
  | shallow =>
    exact not_isDescendant_of_isWithin (isWithin_parent hx hxt) (isDescendant_parent ht)
  | deep => exact not_isLeaf_of_isDescendant hxt ht.1

/-- Of an active state with children there is something to recall. -/
theorem exists_recalled (hwf : c.WellFormed active) (hp : p ∈ active) (ht : c.parent? t = some p)
    (mode : HistoryMode) : ∃ x ∈ active, c.Recalls mode p x := by
  obtain ⟨u, hua, hu⟩ := exists_active_child hwf hp ht
  cases mode with
  | shallow => exact ⟨u, hua, hu⟩
  | deep =>
    obtain ⟨x, hx, hleaf, hxu⟩ := exists_active_leaf hwf hua
    exact ⟨x, hx, hleaf, isDescendant_of_isWithin hxu (isDescendant_parent hu)⟩

/-- What is recalled of a well-formed configuration can be entered together. -/
theorem compatible_of_active (hwf : c.WellFormed active) (hp : p ∈ active)
    (ht : c.parent? t = some p) (mode : HistoryMode) :
    c.Compatible fun x => x ∈ active ∧ c.Recalls mode p x where
  nonempty := exists_recalled hwf hp ht mode
  contains := fun g hg => hwf.contains g hg.1
  plain := fun g hg => hwf.plain g hg.1
  apart := fun g g' hg hg' => recalls_apart hg.2 hg'.2
  together := by
    intro q a b g g' hq ha hb hg hg' hga hgb
    have haa := active_of_isWithin hwf hg.1 hga
    have hba := active_of_isWithin hwf hg'.1 hgb
    obtain ⟨_, _, huniq⟩ := hwf.compound q (hwf.parent a haa q ha) hq
    rw [huniq a ⟨mem_substates.mpr ⟨ha, hwf.plain a haa⟩, haa⟩,
      huniq b ⟨mem_substates.mpr ⟨hb, hwf.plain b hba⟩, hba⟩]

/-! ## Entering again what is recalled -/

/-- Below `p`, a region that is completed for want of a goal belongs to a state below `p` or to
`p` itself: in the regions of the states around `p` the goals lie. -/
theorem isWithin_of_region_free (hgoal : ∀ g, goal g → c.isDescendant g p) (hg : goal g)
    (hr : c.parent? s = some a) (hfree : ∀ g, goal g → ¬ c.isWithin g s) (hxs : c.isWithin x s)
    (hxp : c.isDescendant x p) : c.isWithin a p := by
  rcases isWithin_or_of_common hxs (isWithin_of_isDescendant hxp) with hsp | hps
  · rcases isWithin_iff.mp hsp with rfl | hsp
    · exact absurd (isWithin_of_isDescendant (hgoal g hg)) (hfree g hg)
    · exact isWithin_parent hr hsp
  · exact absurd (isWithin_of_isDescendant (isDescendant_trans (hgoal g hg) hps)) (hfree g hg)

/-- Entering the leaves recalled brings back everything that was active below `p`. -/
theorem brought_leaves (hwf : c.WellFormed active)
    (hgoal : ∀ x, goal x ↔ x ∈ active ∧ c.Recalls .deep p x) (hpd : c.isWithin p d)
    (hxp : c.isDescendant x p) : c.Brought goal (c.Around goal d) x ↔ x ∈ active := by
  have hbelow : ∀ g, goal g → c.isDescendant g p := fun g hg => ((hgoal g).mp hg).2.2
  constructor
  · intro h
    rcases h with ⟨g, hg, hx⟩ | ⟨-, g, hg, hgx⟩ | ⟨a, r, ⟨-, g, hg, hga⟩, hpar, hr, hfree, hx⟩
    · -- nothing but itself comes with a leaf
      obtain ⟨hga, hleaf, -⟩ := (hgoal g).mp hg
      rcases isWithin_iff.mp (isWithin_of_comesWith hx) with rfl | hxg
      · exact hga
      · exact absurd hleaf (not_isLeaf_of_isDescendant hxg)
    · exact active_of_isWithin hwf ((hgoal g).mp hg).1 (isWithin_of_isDescendant hgx)
    · -- a region below `p` was active, and the leaf within it is a goal
      have hra := (mem_substates.mp hr).1
      have hap := isWithin_of_region_free hbelow hg hra hfree (isWithin_of_comesWith hx) hxp
      have haa := active_of_isWithin hwf ((hgoal g).mp hg).1 (isWithin_of_isDescendant hga)
      obtain ⟨l, hl, hleaf, hlr⟩ := exists_active_leaf hwf (hwf.parallel a haa hpar r hr)
      have hlp := isDescendant_of_isDescendant_of_isWithin
        (isDescendant_of_isWithin hlr (isDescendant_parent hra)) hap
      exact absurd hlr (hfree l ((hgoal l).mpr ⟨hl, hleaf, hlp⟩))
  · intro hx
    obtain ⟨l, hl, hleaf, hlx⟩ := exists_active_leaf hwf hx
    exact brought_of_isWithin ((hgoal l).mpr ⟨hl, hleaf, isDescendant_of_isWithin hlx hxp⟩) hlx
      (isDescendant_of_isDescendant_of_isWithin hxp hpd)

/-- Entering children of `p`, all of them if `p` is parallel, brings along what comes with them. -/
theorem brought_children (hgoal : ∀ g, goal g → c.parent? g = some p)
    (hregions : c.isParallel p → ∀ r ∈ c.substates p, goal r) (hxp : c.isDescendant x p) :
    c.Brought goal (c.Around goal d) x ↔ ∃ g, goal g ∧ c.ComesWith g x := by
  have hbelow : ∀ g, goal g → c.isDescendant g p := fun g hg => isDescendant_parent (hgoal g hg)
  constructor
  · intro h
    rcases h with hx | ⟨-, g, hg, hgx⟩ | ⟨a, r, ⟨-, g, hg, hga⟩, hpar, hr, hfree, hx⟩
    · exact hx
    · exact absurd hxp (not_isDescendant_of_isWithin (isWithin_parent (hgoal g hg) hgx))
    · -- a region without a goal would be one of `p`, but all of these are goals
      have hra := (mem_substates.mp hr).1
      have hap := isWithin_of_region_free hbelow hg hra hfree (isWithin_of_comesWith hx) hxp
      have hpa := isWithin_parent (hgoal g hg) hga
      rcases isWithin_iff.mp hap with rfl | hap
      · exact absurd (isWithin_refl r) (hfree r (hregions hpar r hr))
      · exact absurd hap (not_isDescendant_of_isWithin hpa)
  · exact Or.inl

end Chart

/-! ## Records -/

namespace Machine

variable {D : Domain} {m : Machine D} {s p x : D.State} {mode : HistoryMode} {leaving : List D.State}

theorem mem_remember : x ∈ m.remember mode p ↔ x ∈ m.configuration ∧ m.chart.Recalls mode p x := by
  rw [remember, List.mem_filter, active, Outline.mem_inDocumentOrder, StateSet.mem_def]
  cases mode <;> simp [Outline.Recalls]

theorem nodup_remember : (m.remember mode p).Nodup := by
  have hperm := List.mergeSort_perm m.configuration.elems m.chart.documentLe
  exact (hperm.nodup_iff.mpr m.configuration.nodup).filter _

private theorem get?_recordHistory_of_ne (h : History D.State) {t : D.State} (hne : s ≠ t) :
    (m.recordHistory p h t).get? s = h.get? s := by
  unfold recordHistory
  split
  · exact History.get?_record_of_ne h hne _
  · rfl

private theorem get?_recordHistory_foldl (hk : m.chart.kind? s = some (.history mode)) :
    ∀ (l : List D.State) (h : History D.State), (l.foldl (m.recordHistory p) h).get? s =
      if s ∈ l then some (m.remember mode p) else h.get? s
  | [], h => by simp
  | t :: l, h => by
    rw [List.foldl_cons, get?_recordHistory_foldl hk l]
    by_cases hl : s ∈ l
    · rw [if_pos hl, if_pos (List.mem_cons_of_mem _ hl)]
    · rw [if_neg hl]
      by_cases hst : s = t
      · subst hst
        rw [if_pos (List.mem_cons_self ..), recordHistory, hk]
        exact History.get?_record_self ..
      · rw [if_neg (by simp [hst, hl]), get?_recordHistory_of_ne h hst]

private theorem get?_recordHistory_foldl_of_not_mem :
    ∀ (l : List D.State) (h : History D.State), s ∉ l →
      (l.foldl (m.recordHistory p) h).get? s = h.get? s
  | [], _, _ => rfl
  | t :: l, h, hs => by
    rw [List.mem_cons, not_or] at hs
    rw [List.foldl_cons, get?_recordHistory_foldl_of_not_mem l _ hs.2,
      get?_recordHistory_of_ne h hs.1]

/-- A history state has a new record exactly if the state it belongs to is about to be left. -/
theorem get?_recordHistories (hk : m.chart.kind? s = some (.history mode))
    (hp : m.chart.parent? s = some p) :
    (m.recordHistories leaving).history.get? s =
      if p ∈ leaving then some (m.remember mode p) else m.history.get? s := by
  have hhist : m.chart.isHistory s := Chart.isHistory_iff.mpr ⟨mode, hk⟩
  have hmem : ∀ q, s ∈ m.chart.historyChildren q ↔ p = q := by
    intro q
    rw [Outline.historyChildren, List.mem_filter, Chart.mem_children, hp, Option.some.injEq]
    exact and_iff_left hhist
  -- only the turn of the parent records for `s`
  have hfold : ∀ (l : List D.State) (h : History D.State),
      (l.foldl (fun h q => (m.chart.historyChildren q).foldl (m.recordHistory q) h) h).get? s =
        if p ∈ l then some (m.remember mode p) else h.get? s := by
    intro l
    induction l with
    | nil => simp
    | cons q l ih =>
      intro h
      rw [List.foldl_cons, ih, get?_recordHistory_foldl hk]
      by_cases hl : p ∈ l
      · rw [if_pos hl, if_pos (List.mem_cons_of_mem _ hl)]
      · rw [if_neg hl]
        by_cases hq : p = q
        · subst hq
          rw [if_pos ((hmem p).mpr rfl), if_pos (List.mem_cons_self ..)]
        · rw [if_neg (fun h => hq ((hmem q).mp h)), if_neg (by simp [hq, hl])]
  exact hfold leaving m.history

/-- Nothing is recorded for other states. -/
theorem get?_recordHistories_of_not_isHistory (hs : ¬ m.chart.isHistory s) :
    (m.recordHistories leaving).history.get? s = m.history.get? s := by
  have hmem : ∀ q, s ∉ m.chart.historyChildren q :=
    fun q h => hs (List.mem_filter.mp h).2
  have hfold : ∀ (l : List D.State) (h : History D.State),
      (l.foldl (fun h q => (m.chart.historyChildren q).foldl (m.recordHistory q) h) h).get? s =
        h.get? s := by
    intro l
    induction l with
    | nil => exact fun _ => rfl
    | cons q l ih =>
      intro h
      rw [List.foldl_cons, ih, get?_recordHistory_foldl_of_not_mem _ h (hmem q)]
  exact hfold leaving m.history

end Machine

end Statechart
