import Statechart.Proofs.Chart.Ancestry

/-!
# What a chart without flaws promises

A chart was checked state by state. Here each check is read as a fact about the tree:
a compound state starts in a child (`initial_mem_substates`), a parallel state has a
region (`exists_region`), states with children are compound or parallel
(`isCompound_or_isParallel_of_parent`), a history state has a parent and falls back
to a state below it (`fallback_below`), and transitions lead to states of the chart
other than the root (`target_of_transition`).
-/

namespace Statechart.Chart

variable {D : Domain} {c : Chart D} {s t p i : D.State}

theorem nodeFlaws_eq_nil {n : Node D} (h : c.node? s = some n) : c.nodeFlaws n = [] :=
  (Outline.flaws_eq_nil_iff _).mp c.flawless |>.2 n (c.node?_eq_some.mp h).1

/-! ## Kinds -/

theorem kind?_of_node {n : Node D} (h : c.node? s = some n) : c.kind? s = some n.kind := by
  simp [Outline.kind?, h]

theorem node_of_kind? {k : NodeKind D.State} (h : c.kind? s = some k) :
    ∃ n, c.node? s = some n ∧ n.kind = k := by
  simpa [Outline.kind?] using h

theorem hasKind_of_kind? {k : NodeKind D.State} {f : NodeKind D.State → Bool}
    (h : c.kind? s = some k) : c.hasKind f s = f k := by
  simp [Outline.hasKind, h]

theorem hasKind_iff {f : NodeKind D.State → Bool} :
    c.hasKind f s ↔ ∃ k, c.kind? s = some k ∧ f k := by
  rw [Outline.hasKind, Option.any_eq_true]

theorem contains_of_kind? {k : NodeKind D.State} (h : c.kind? s = some k) : c.contains s := by
  obtain ⟨n, hn, -⟩ := node_of_kind? h
  exact contains_iff.mpr ⟨n, hn⟩

theorem isCompound_iff : c.isCompound s ↔ ∃ i, c.kind? s = some (.compound i) := by
  rw [Outline.isCompound, hasKind_iff]
  constructor
  · intro hex
    obtain ⟨k, hk, h⟩ := hex
    cases k <;> simp_all [NodeKind.isCompound]
  · intro hex
    obtain ⟨i, h⟩ := hex
    exact ⟨_, h, rfl⟩

theorem isParallel_iff : c.isParallel s ↔ c.kind? s = some .parallel := by
  rw [Outline.isParallel, hasKind_iff]
  constructor
  · intro hex
    obtain ⟨k, hk, h⟩ := hex
    cases k <;> simp_all [NodeKind.isParallel]
  · intro h
    exact ⟨_, h, rfl⟩

theorem isHistory_iff : c.isHistory s ↔ ∃ mode, c.kind? s = some (.history mode) := by
  rw [Outline.isHistory, hasKind_iff]
  constructor
  · intro hex
    obtain ⟨k, hk, h⟩ := hex
    cases k <;> simp_all [NodeKind.isHistory]
  · intro hex
    obtain ⟨mode, h⟩ := hex
    exact ⟨_, h, rfl⟩

theorem not_isParallel_of_isCompound (h : c.isCompound s) : ¬ c.isParallel s := by
  obtain ⟨i, hi⟩ := isCompound_iff.mp h
  rw [isParallel_iff, hi]
  simp

theorem isHistory_of_node {n : Node D} (h : c.node? s = some n) :
    c.isHistory s ↔ n.kind.isHistory := by
  rw [Outline.isHistory, hasKind_of_kind? (kind?_of_node h)]

/-- The children that can be active are those that are not history states. -/
theorem mem_substates : t ∈ c.substates s ↔ c.parent? t = some s ∧ ¬ c.isHistory t := by
  rw [Outline.substates, List.mem_filter, mem_children]
  refine and_congr_right fun hp => ?_
  obtain ⟨n, hn⟩ := contains_iff.mp (contains_of_parent hp)
  rw [isHistory_of_node hn, hasKind_of_kind? (kind?_of_node hn)]
  simp

/-! ## Children -/

/-- A state with children is compound or parallel. -/
theorem isCompound_or_isParallel_of_parent (h : c.parent? t = some p) :
    c.isCompound p ∨ c.isParallel p := by
  obtain ⟨n, hn⟩ := contains_iff.mp (contains_parent h)
  have hflaws := nodeFlaws_eq_nil hn
  have hchild : t ∈ n.children := by rw [← children_of_node hn]; exact mem_children.mpr h
  have hne : n.children.isEmpty = false := by
    cases hc : n.children with
    | nil => rw [hc] at hchild; exact absurd hchild (by simp)
    | cons => rfl
  rw [Outline.isCompound, Outline.isParallel, hasKind_of_kind? (kind?_of_node hn),
    hasKind_of_kind? (kind?_of_node hn)]
  cases hk : n.kind <;>
    simp_all [Outline.nodeFlaws, Outline.childFlaws, NodeKind.isCompound, NodeKind.isParallel]

theorem not_isHistory_of_parent (h : c.parent? t = some p) : ¬ c.isHistory p := by
  intro hh
  obtain ⟨mode, hmode⟩ := isHistory_iff.mp hh
  rcases isCompound_or_isParallel_of_parent h with hc | hp
  · obtain ⟨i, hi⟩ := isCompound_iff.mp hc
    exact absurd (hmode.symm.trans hi) (by simp)
  · exact absurd (hmode.symm.trans (isParallel_iff.mp hp)) (by simp)

theorem not_isHistory_of_isDescendant {a : D.State} (h : c.isDescendant s a) : ¬ c.isHistory a := by
  obtain ⟨t, ht, -⟩ := exists_child_towards h
  exact not_isHistory_of_parent ht

theorem initial_mem_substates (h : c.kind? s = some (.compound i)) : i ∈ c.substates s := by
  obtain ⟨n, hn, hk⟩ := node_of_kind? h
  have hflaws := nodeFlaws_eq_nil hn
  rw [Outline.nodeFlaws, Outline.childFlaws, hk] at hflaws
  have hchild : i ∈ n.children ∧ ¬ c.isHistory i := by
    by_cases hi : i ∈ n.children
    · by_cases hh : c.isHistory i
      · simp_all
      · exact ⟨hi, hh⟩
    · simp_all
  refine mem_substates.mpr ⟨mem_children.mp ?_, hchild.2⟩
  rw [children_of_node hn]
  exact hchild.1

theorem exists_region (h : c.isParallel s) : ∃ t, t ∈ c.substates s := by
  obtain ⟨n, hn, hk⟩ := node_of_kind? (isParallel_iff.mp h)
  have hflaws := nodeFlaws_eq_nil hn
  obtain ⟨-, rfl⟩ := c.node?_eq_some.mp hn
  rw [Outline.nodeFlaws, Outline.childFlaws, hk] at hflaws
  refine List.exists_mem_of_ne_nil _ fun hnil => ?_
  simp [hnil] at hflaws

/-! ## History states -/

theorem parent_of_isHistory (h : c.isHistory s) : ∃ p, c.parent? s = some p := by
  obtain ⟨mode, hmode⟩ := isHistory_iff.mp h
  obtain ⟨n, hn, hk⟩ := node_of_kind? hmode
  have hflaws := nodeFlaws_eq_nil hn
  rw [Outline.parent?, ancestors_of_node hn]
  cases hp : n.ancestors.head? with
  | some p => exact ⟨p, rfl⟩
  | none =>
    simp [Outline.nodeFlaws, Outline.historyFlaws, hk, NodeKind.isHistory, Node.parent?, hp]
      at hflaws

theorem node_of_isHistory (h : c.isHistory s) :
    ∃ n p, c.node? s = some n ∧ n.kind.isHistory ∧ c.parent? s = some p := by
  obtain ⟨p, hp⟩ := parent_of_isHistory h
  obtain ⟨n, hn⟩ := contains_iff.mp (contains_of_parent hp)
  exact ⟨n, p, hn, (isHistory_of_node hn).mp h, hp⟩

/-- A history state falls back to a state of the chart that lies below its parent. -/
theorem fallback_below {n : Node D} (hn : c.node? s = some n) (hh : n.kind.isHistory)
    (hf : n.fallback = some t) (hp : c.parent? s = some p) : c.isDescendant t p := by
  have hflaws := nodeFlaws_eq_nil hn
  have hparent : n.parent? = some p := (parent?_of_node hn).trans hp
  have hkind := isCompound_or_isParallel_of_parent hp
  have hhist : c.historyFlaws n = [] := by
    simp only [Outline.nodeFlaws, List.append_eq_nil_iff, if_pos hh] at hflaws
    exact hflaws.1.1.2
  rw [Outline.historyFlaws, hparent, Option.filter_some, if_pos (by simpa using hkind)] at hhist
  simp only [hf] at hhist
  by_contra hnot
  split at hhist
  · simp at hhist
  · simp [hnot] at hhist

/-! ## Transitions -/

/-- A history state has no transitions. -/
theorem transitions_of_isHistory {n : Node D} (hn : c.node? s = some n) (hh : c.isHistory s) :
    n.transitions = [] := by
  have hflaws := nodeFlaws_eq_nil hn
  have hk := (isHistory_of_node hn).mp hh
  simp only [Outline.nodeFlaws, List.append_eq_nil_iff] at hflaws
  have hmis := hflaws.1.1.1.2
  cases hkind : n.kind <;> simp_all [Outline.misbehaves, NodeKind.isHistory]

/-- A transition leads to a state of the chart other than the root. -/
theorem target_of_transition {n : Node D} {tr : Transition D} (hn : c.node? s = some n)
    (htr : tr ∈ n.transitions) (ht : tr.target = some t) : c.contains t ∧ t ≠ c.root := by
  have hflaws := nodeFlaws_eq_nil hn
  have hmem : tr ∈ n.immediate ++ n.delayed := by
    rw [Node.immediate, Node.delayed, List.mem_append, List.mem_filter, List.mem_filter]
    cases tr.delay? <;> simp [htr]
  have htarget : c.targetFlaws n.id tr = [] := by
    simp only [Outline.nodeFlaws, List.append_eq_nil_iff] at hflaws
    exact List.flatMap_eq_nil_iff.mp hflaws.1.2 tr hmem
  rw [Outline.targetFlaws, ht] at htarget
  by_cases hc : c.contains t
  · refine ⟨hc, fun hr => ?_⟩
    subst hr
    simp [hc] at htarget
  · simp [hc] at htarget

end Statechart.Chart
