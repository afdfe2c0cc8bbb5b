import Mathlib.Data.List.Nodup
import Mathlib.Data.List.Perm.Subperm
import Mathlib.Logic.Relation
import Statechart.Proofs.Chart.Entries

/-!
# Ancestors in a chart

An outline answers every question about ancestors from the path that each node
carries. In a chart these paths fit together: the path of a state is its parent
followed by the parent's path (`ancestors_of_parent`), and the children that a state
names are the states whose parent it is (`mem_children`). So "below" is the strict
order of a tree (`isDescendant_trans`, `isDescendant_irrefl`), in which the states
around one state form a chain (`isWithin_or_of_common`), and a state below another is
reached through exactly one of its children (`exists_child_towards`,
`child_towards_unique`).

What is said of every state is proved by induction along the paths, from the root down
(`induction_from_parent`), or, as a chart is finite, from the leaves up
(`induction_from_children`).
-/

namespace Statechart.Chart

variable {D : Domain} {c : Chart D} {s t a b p q : D.State} {l : List D.State}

/-! ## Parents and children -/

theorem ancestors_of_node {n : Node D} (h : c.node? s = some n) : c.ancestors s = n.ancestors := by
  simp [Outline.ancestors, h]

theorem parent?_of_node {n : Node D} (h : c.node? s = some n) : n.parent? = c.parent? s := by
  rw [Node.parent?, Outline.parent?, ancestors_of_node h]

theorem children_of_node {n : Node D} (h : c.node? s = some n) : c.children s = n.children := by
  simp [Outline.children, h]

theorem contains_iff : c.contains s ↔ ∃ n, c.node? s = some n := by
  rw [Outline.contains, Option.isSome_iff_exists]

theorem node?_of_mem {n : Node D} (h : n ∈ c.nodes) : c.node? n.id = some n :=
  c.node?_eq_some.mpr ⟨h, rfl⟩

theorem contains_of_mem {n : Node D} (h : n ∈ c.nodes) : c.contains n.id :=
  contains_iff.mpr ⟨n, node?_of_mem h⟩

/-- A node is the root's, or its path starts at a node that names it as a child. -/
theorem node_parent {n : Node D} (h : n ∈ c.nodes) :
    (n.ancestors = [] ∧ n.id = c.root) ∨
      ∃ p ∈ c.nodes, n.ancestors = p.id :: p.ancestors ∧ n.id ∈ p.children := by
  rw [c.nodes_eq] at h ⊢
  rw [c.root_eq]
  exact StateTree.entries_parent c.tree h

theorem contains_of_parent (h : c.parent? s = some p) : c.contains s := by
  rw [Outline.parent?, Outline.ancestors] at h
  cases hn : c.node? s with
  | none => rw [hn] at h; exact absurd h (by simp)
  | some n => exact contains_iff.mpr ⟨n, hn⟩

/-- The node of a parent, as the node of its child sees it. -/
theorem node_of_parent (h : c.parent? s = some p) :
    ∃ n m, c.node? s = some n ∧ c.node? p = some m ∧ n.ancestors = p :: m.ancestors ∧
      s ∈ m.children := by
  obtain ⟨n, hn⟩ := contains_iff.mp (contains_of_parent h)
  have hhead : n.ancestors.head? = some p := by rw [← ancestors_of_node hn]; exact h
  obtain ⟨hmem, rfl⟩ := c.node?_eq_some.mp hn
  rcases node_parent hmem with ⟨hnil, -⟩ | ⟨m, hm, hanc, hchild⟩
  · rw [hnil] at hhead
    exact absurd hhead (by simp)
  · rw [hanc, List.head?_cons, Option.some.injEq] at hhead
    subst hhead
    exact ⟨n, m, hn, node?_of_mem hm, hanc, hchild⟩

theorem contains_parent (h : c.parent? s = some p) : c.contains p := by
  obtain ⟨-, m, -, hm, -, -⟩ := node_of_parent h
  exact contains_iff.mpr ⟨m, hm⟩

/-- The path of a state is its parent and the parent's path. -/
theorem ancestors_of_parent (h : c.parent? s = some p) : c.ancestors s = p :: c.ancestors p := by
  obtain ⟨n, m, hn, hm, hanc, -⟩ := node_of_parent h
  rw [ancestors_of_node hn, ancestors_of_node hm, hanc]

theorem ancestors_eq_nil (h : c.parent? s = none) : c.ancestors s = [] :=
  List.head?_eq_none_iff.mp h

/-- The children named by a state are those whose parent it is. -/
theorem mem_children : t ∈ c.children s ↔ c.parent? t = some s := by
  constructor
  · intro h
    cases hp : c.node? s with
    | none => rw [Outline.children, hp] at h; exact absurd h (by simp)
    | some p =>
      rw [children_of_node hp] at h
      obtain ⟨hmem, rfl⟩ := c.node?_eq_some.mp hp
      rw [c.nodes_eq] at hmem
      obtain ⟨n, hn, rfl, hanc⟩ := StateTree.entries_child h c.tree hmem
      rw [← c.nodes_eq] at hn
      rw [Outline.parent?, ancestors_of_node (node?_of_mem hn), hanc, List.head?_cons]
  · intro h
    obtain ⟨-, m, -, hm, -, hchild⟩ := node_of_parent h
    rwa [children_of_node hm]

/-- What holds of a state once it holds of its parent holds of every state. -/
theorem induction_from_parent {motive : D.State → Prop}
    (step : ∀ s, (∀ p, c.parent? s = some p → motive p) → motive s) (s : D.State) : motive s := by
  induction hlen : c.ancestors s generalizing s with
  | nil =>
    refine step s fun p hp => ?_
    rw [Outline.parent?, hlen] at hp
    exact absurd hp (by simp)
  | cons q path ih =>
    refine step s fun p hp => ih p ?_
    have hpath := ancestors_of_parent hp
    rw [hlen] at hpath
    exact (List.cons.inj hpath).2.symm

theorem nodup_children (s : D.State) : (c.children s).Nodup := by
  cases hn : c.node? s with
  | none => simp [Outline.children, hn]
  | some n =>
    rw [children_of_node hn]
    exact c.nodup_children_of_mem (c.node?_eq_some.mp hn).1

/-! ## The root -/

theorem contains_root : c.contains c.root := by
  obtain ⟨n, hn, hid, -⟩ := StateTree.exists_entry_top [] c.tree
  rw [← c.nodes_eq] at hn
  rw [c.root_eq, ← hid]
  exact contains_of_mem hn

theorem ancestors_root : c.ancestors c.root = [] := by
  obtain ⟨n, hn, hid, hanc⟩ := StateTree.exists_entry_top [] c.tree
  rw [← c.nodes_eq] at hn
  rw [c.root_eq, ← hid, ancestors_of_node (node?_of_mem hn), hanc]

theorem parent_root : c.parent? c.root = none := by
  rw [Outline.parent?, ancestors_root, List.head?_nil]

theorem eq_root_of_parent (hs : c.contains s) (h : c.parent? s = none) : s = c.root := by
  obtain ⟨n, hn⟩ := contains_iff.mp hs
  obtain ⟨hmem, rfl⟩ := c.node?_eq_some.mp hn
  rcases node_parent hmem with ⟨-, hroot⟩ | ⟨p, -, hanc, -⟩
  · exact hroot
  · rw [Outline.parent?, ancestors_of_node hn, hanc] at h
    exact absurd h (by simp)

/-! ## Below and within -/

theorem isDescendant_iff : c.isDescendant s a ↔ a ∈ c.ancestors s := by
  simp [Outline.isDescendant]

theorem isWithin_iff : c.isWithin s a ↔ s = a ∨ c.isDescendant s a := by
  simp [Outline.isWithin]

theorem isWithin_refl (s : D.State) : c.isWithin s s := isWithin_iff.mpr (Or.inl rfl)

theorem isWithin_of_isDescendant (h : c.isDescendant s a) : c.isWithin s a :=
  isWithin_iff.mpr (Or.inr h)

/-- A state is below another if its parent is that one or below it. -/
theorem isDescendant_iff_parent :
    c.isDescendant s a ↔ ∃ p, c.parent? s = some p ∧ c.isWithin p a := by
  rw [isDescendant_iff]
  cases hp : c.parent? s with
  | none => simp [ancestors_eq_nil hp]
  | some p =>
    rw [ancestors_of_parent hp, List.mem_cons]
    simp only [Option.some.injEq, isWithin_iff, isDescendant_iff]
    constructor
    · intro h
      exact ⟨p, rfl, h.imp_left Eq.symm⟩
    · intro hex
      obtain ⟨q, rfl, h⟩ := hex
      exact h.imp_left Eq.symm

theorem isDescendant_parent (h : c.parent? s = some p) : c.isDescendant s p :=
  isDescendant_iff_parent.mpr ⟨p, h, isWithin_refl p⟩

theorem isWithin_parent (h : c.parent? s = some p) (hs : c.isDescendant s a) : c.isWithin p a := by
  obtain ⟨q, hq, hwithin⟩ := isDescendant_iff_parent.mp hs
  rw [h, Option.some.injEq] at hq
  exact hq ▸ hwithin

theorem contains_of_isDescendant (h : c.isDescendant s a) : c.contains s := by
  obtain ⟨p, hp, -⟩ := isDescendant_iff_parent.mp h
  exact contains_of_parent hp

theorem not_isDescendant_root : ¬ c.isDescendant c.root a := by
  rw [isDescendant_iff, ancestors_root]
  exact List.not_mem_nil

/-- The paths around a state are nested. -/
private theorem ancestors_suffix (h : a ∈ c.ancestors s) : a :: c.ancestors a <:+ c.ancestors s := by
  induction s using induction_from_parent (c := c) with
  | step s ih =>
    obtain ⟨p, hp, hpa⟩ := isDescendant_iff_parent.mp (isDescendant_iff.mpr h)
    rw [ancestors_of_parent hp]
    rcases isWithin_iff.mp hpa with rfl | hpa
    · exact List.suffix_rfl
    · exact (ih p hp (isDescendant_iff.mp hpa)).trans (List.suffix_cons ..)

theorem isDescendant_trans (h : c.isDescendant s a) (h' : c.isDescendant a b) :
    c.isDescendant s b := by
  rw [isDescendant_iff] at h h' ⊢
  exact (ancestors_suffix h).subset (List.mem_cons_of_mem _ h')

/-- A state is below another if one comes to the other by going from parent to parent. -/
def Below (c : Chart D) : D.State → D.State → Prop :=
  Relation.TransGen fun s p => c.parent? s = some p

theorem below_iff : c.Below s a ↔ c.isDescendant s a := by
  constructor
  · intro h
    induction h with
    | single hp => exact isDescendant_parent hp
    | tail _ hp ih => exact isDescendant_trans ih (isDescendant_parent hp)
  · induction s using induction_from_parent (c := c) with
    | step s ih =>
      intro h
      obtain ⟨p, hp, hpa⟩ := isDescendant_iff_parent.mp h
      rcases isWithin_iff.mp hpa with rfl | hpa
      · exact .single hp
      · exact .head hp (ih p hp hpa)

theorem isDescendant_irrefl : ¬ c.isDescendant s s := by
  intro h
  have hlen := (ancestors_suffix (isDescendant_iff.mp h)).length_le
  rw [List.length_cons] at hlen
  omega

theorem isDescendant_asymm (h : c.isDescendant s a) : ¬ c.isDescendant a s :=
  fun h' => isDescendant_irrefl (isDescendant_trans h h')

theorem ne_of_isDescendant (h : c.isDescendant s a) : s ≠ a :=
  fun he => isDescendant_irrefl (he ▸ h)

theorem isDescendant_of_isWithin (h : c.isWithin s a) (h' : c.isDescendant a b) :
    c.isDescendant s b := by
  rcases isWithin_iff.mp h with rfl | h
  · exact h'
  · exact isDescendant_trans h h'

theorem isDescendant_of_isDescendant_of_isWithin (h : c.isDescendant s a) (h' : c.isWithin a b) :
    c.isDescendant s b := by
  rcases isWithin_iff.mp h' with rfl | h'
  · exact h
  · exact isDescendant_trans h h'

theorem isWithin_trans (h : c.isWithin s a) (h' : c.isWithin a b) : c.isWithin s b := by
  rcases isWithin_iff.mp h' with rfl | h'
  · exact h
  · exact isWithin_of_isDescendant (isDescendant_of_isWithin h h')

theorem not_isDescendant_of_isWithin (h : c.isWithin s a) : ¬ c.isDescendant a s :=
  fun h' => isDescendant_irrefl (isDescendant_of_isWithin h h')

theorem isDescendant_of_isWithin_of_ne (h : c.isWithin s a) (hne : s ≠ a) : c.isDescendant s a :=
  (isWithin_iff.mp h).resolve_left hne

/-- The states around one state form a chain. -/
theorem isWithin_or_of_common (ha : c.isWithin s a) (hb : c.isWithin s b) :
    c.isWithin a b ∨ c.isDescendant b a := by
  rcases isWithin_iff.mp ha with rfl | ha
  · exact Or.inl hb
  rcases isWithin_iff.mp hb with rfl | hb
  · exact Or.inr ha
  have hsufa := ancestors_suffix (isDescendant_iff.mp ha)
  have hsufb := ancestors_suffix (isDescendant_iff.mp hb)
  rcases List.suffix_or_suffix_of_suffix hsufa hsufb with h | h
  · have hmem : a ∈ b :: c.ancestors b := h.subset (List.mem_cons_self ..)
    rcases List.mem_cons.mp hmem with rfl | hmem
    · exact Or.inl (isWithin_refl _)
    · exact Or.inr (isDescendant_iff.mpr hmem)
  · have hmem : b ∈ a :: c.ancestors a := h.subset (List.mem_cons_self ..)
    rcases List.mem_cons.mp hmem with rfl | hmem
    · exact Or.inl (isWithin_refl _)
    · exact Or.inl (isWithin_of_isDescendant (isDescendant_iff.mpr hmem))

/-- Every state of a chart is within its root. -/
theorem isWithin_root (h : c.contains s) : c.isWithin s c.root := by
  induction s using induction_from_parent (c := c) with
  | step s ih =>
    cases hp : c.parent? s with
    | none =>
      rw [eq_root_of_parent h hp]
      exact isWithin_refl _
    | some p =>
      exact isWithin_of_isDescendant (isDescendant_of_isDescendant_of_isWithin
        (isDescendant_parent hp) (ih p hp (contains_parent hp)))

/-- Of the states around a state, each lies below those further out. -/
theorem pairwise_ancestors (s : D.State) :
    (c.ancestors s).Pairwise fun a b => c.isDescendant a b := by
  induction s using induction_from_parent (c := c) with
  | step s ih =>
    cases hp : c.parent? s with
    | none =>
      rw [ancestors_eq_nil hp]
      exact List.Pairwise.nil
    | some p =>
      rw [ancestors_of_parent hp]
      exact List.pairwise_cons.mpr ⟨fun a ha => isDescendant_iff.mpr ha, ih p hp⟩

/-- What is found first on a way up is below everything else that would do. -/
theorem isDescendant_of_find? {f : D.State → Bool} (hl : l.Pairwise fun a b => c.isDescendant a b)
    (ha : l.find? f = some a) (hb : b ∈ l) (hf : f b) (hne : b ≠ a) : c.isDescendant a b := by
  obtain ⟨-, front, back, rfl, hfront⟩ := List.find?_eq_some_iff_append.mp ha
  rcases List.mem_append.mp hb with hb | hb
  · have hnot := hfront b hb
    rw [hf] at hnot
    exact absurd hnot (by simp)
  · have hback := (List.pairwise_cons.mp (List.pairwise_append.mp hl).2.1).1
    exact hback b ((List.mem_cons.mp hb).resolve_left hne)

/-- No state is come to twice on the way up. -/
theorem nodup_path (s : D.State) : (s :: c.ancestors s).Nodup :=
  List.nodup_cons.mpr ⟨fun h => isDescendant_irrefl (isDescendant_iff.mpr h),
    (pairwise_ancestors s).imp ne_of_isDescendant⟩

/-! ## The child that leads to a state -/

/-- A state below another is within one of its children. -/
theorem exists_child_towards (h : c.isDescendant s a) :
    ∃ t, c.parent? t = some a ∧ c.isWithin s t := by
  induction s using induction_from_parent (c := c) with
  | step s ih =>
    obtain ⟨p, hp, hpa⟩ := isDescendant_iff_parent.mp h
    rcases isWithin_iff.mp hpa with rfl | hpa
    · exact ⟨s, hp, isWithin_refl s⟩
    · obtain ⟨t, ht, hpt⟩ := ih p hp hpa
      exact ⟨t, ht, isWithin_trans (isWithin_of_isDescendant (isDescendant_parent hp)) hpt⟩

theorem contains_of_mem_ancestors (h : a ∈ c.ancestors s) : c.contains a := by
  obtain ⟨t, ht, -⟩ := exists_child_towards (isDescendant_iff.mpr h)
  exact contains_parent ht

/-- The path from a state up to the root is on the chart. -/
theorem contains_of_mem_path (hs : c.contains s) (h : a ∈ s :: c.ancestors s) : c.contains a := by
  rcases List.mem_cons.mp h with rfl | h
  · exact hs
  · exact contains_of_mem_ancestors h

/-- Two children of one state with a state in common are one. -/
theorem child_towards_unique (ha : c.parent? a = some p) (hb : c.parent? b = some p)
    (hsa : c.isWithin s a) (hsb : c.isWithin s b) : a = b := by
  by_contra hne
  rcases isWithin_or_of_common hsa hsb with h | h
  · have hpb := isWithin_parent ha (isDescendant_of_isWithin_of_ne h hne)
    exact not_isDescendant_of_isWithin hpb (isDescendant_parent hb)
  · exact not_isDescendant_of_isWithin (isWithin_parent hb h) (isDescendant_parent ha)

/-! ## On the way up to a bound -/

theorem mem_ancestorsBelow (h : c.isDescendant s b) :
    a ∈ c.ancestorsBelow s (some b) ↔ c.isDescendant s a ∧ c.isDescendant a b := by
  induction s using induction_from_parent (c := c) with
  | step s ih =>
    obtain ⟨p, hp, -⟩ := isDescendant_iff_parent.mp h
    have hpath := ancestors_of_parent hp
    -- the path ends below the bound, or goes on with the parent
    by_cases hpb : p = b
    · subst hpb
      have hnil : c.ancestorsBelow s (some p) = [] := by simp [Outline.ancestorsBelow, hpath]
      rw [hnil]
      simp only [List.not_mem_nil, false_iff, not_and]
      intro hsa hap
      exact not_isDescendant_of_isWithin (isWithin_parent hp hsa) hap
    · have hpb' := isDescendant_of_isWithin_of_ne (isWithin_parent hp h) hpb
      have hcons : c.ancestorsBelow s (some b) = p :: c.ancestorsBelow p (some b) := by
        simp [Outline.ancestorsBelow, hpath, hpb]
      rw [hcons, List.mem_cons, ih p hp hpb']
      constructor
      · intro hor
        rcases hor with rfl | ⟨hpa, hab⟩
        · exact ⟨isDescendant_parent hp, hpb'⟩
        · exact ⟨isDescendant_trans (isDescendant_parent hp) hpa, hab⟩
      · intro hex
        obtain ⟨hsa, hab⟩ := hex
        rcases isWithin_iff.mp (isWithin_parent hp hsa) with rfl | hpa
        · exact Or.inl rfl
        · exact Or.inr ⟨hpa, hab⟩

/-! ## Induction from the leaves -/

theorem depth_eq (c : Chart D) (s : D.State) : c.depth s = (c.ancestors s).length := by
  rw [Outline.depth, Outline.ancestors]
  cases c.node? s <;> rfl

theorem depth_lt_size (h : c.contains s) : c.depth s < c.size := by
  have hsub : s :: c.ancestors s ⊆ c.nodes.map (·.id) := by
    intro x hx
    obtain ⟨m, hm⟩ := contains_iff.mp (contains_of_mem_path h hx)
    obtain ⟨hmem, rfl⟩ := c.node?_eq_some.mp hm
    exact List.mem_map_of_mem hmem
  have hle := ((nodup_path s).subperm hsub).length_le
  rw [List.length_cons, List.length_map] at hle
  rw [depth_eq, Outline.size]
  omega

theorem depth_of_parent (h : c.parent? s = some p) : c.depth s = c.depth p + 1 := by
  obtain ⟨n, m, hn, hm, hanc, -⟩ := node_of_parent h
  simp [Outline.depth, Node.depth, hn, hm, hanc]

/-- What holds of a state once it holds of all its children holds of every state. -/
theorem induction_from_children {motive : D.State → Prop}
    (step : ∀ s, (∀ t, c.parent? t = some s → motive t) → motive s) (s : D.State) : motive s := by
  induction hk : c.size - c.depth s using Nat.strongRecOn generalizing s with
  | ind k ih =>
    subst hk
    refine step s fun t ht => ih _ ?_ t rfl
    have hlt := depth_lt_size (contains_of_parent ht)
    rw [depth_of_parent ht] at hlt ⊢
    omega

end Statechart.Chart
