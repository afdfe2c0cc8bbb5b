import Statechart.Proofs.Entry.Goals

/-!
# Well-formed configurations

`WellFormed` is what a configuration looks like between two steps: the root is active,
no history state is, a state is only active inside its parent, a compound state has
one active child and a parallel state all its regions.

A step replaces what is active below some bounds. `Completes` is the part of
well-formedness that concerns the states below one bound, and two facts make up a
step: what compatible goals bring along completes the bound they lie below
(`completes_brought`), and a well-formed configuration stays well formed when, below
bounds that lie apart, what was active is exchanged for what completes them (`Exchange`,
`wellFormed_exchange`).
-/

namespace Statechart

namespace Outline

variable {D : Domain} (c : Outline D)

/-- What a configuration looks like between two steps. -/
structure WellFormed (active : StateSet D.State) : Prop where
  root : c.root ∈ active
  contains : ∀ s ∈ active, c.contains s
  plain : ∀ s ∈ active, ¬ c.isHistory s
  parent : ∀ s ∈ active, ∀ p, c.parent? s = some p → p ∈ active
  compound : ∀ s ∈ active, c.isCompound s → ∃! t, t ∈ c.substates s ∧ t ∈ active
  parallel : ∀ s ∈ active, c.isParallel s → ∀ t ∈ c.substates s, t ∈ active
  leaf : ∀ s ∈ active, c.isLeaf s → ∀ t ∈ active, c.parent? t ≠ some s

/-- What is to be active below `d` when `d` is active. -/
structure Completes (d : D.State) (new : D.State → Prop) : Prop where
  below : ∀ x, new x → c.isDescendant x d
  plain : ∀ x, new x → ¬ c.isHistory x
  parent : ∀ x, new x → ∀ p, c.parent? x = some p → p = d ∨ new p
  compound : ∀ s, s = d ∨ new s → c.isCompound s → ∃! t, t ∈ c.substates s ∧ new t
  parallel : ∀ s, s = d ∨ new s → c.isParallel s → ∀ t ∈ c.substates s, new t

/-- What is active below bounds that lie apart is exchanged for what completes them. -/
structure Exchange (active active' : StateSet D.State) (bound : D.State → Prop)
    (new : D.State → D.State → Prop) : Prop where
  bounds : ∀ d, bound d → d ∈ active
  apart : ∀ d d', bound d → bound d' → c.isWithin d d' → d = d'
  completes : ∀ d, bound d → c.Completes d (new d)
  after : ∀ x, x ∈ active' ↔
    (x ∈ active ∧ ∀ d, bound d → ¬ c.isDescendant x d) ∨ ∃ d, bound d ∧ new d x

end Outline

namespace Chart

variable {D : Domain} {c : Chart D} {s t x d p a b g : D.State} {goal climbed : D.State → Prop}
  {active active' : StateSet D.State}

/-- Whether a configuration is well formed can be read off its elements. -/
theorem wellFormed_iff : c.WellFormed active ↔
    c.root ∈ active.elems ∧ ∀ s ∈ active.elems, c.contains s ∧ ¬ c.isHistory s ∧
      (∀ p ∈ c.parent? s, p ∈ active.elems) ∧
      (c.isCompound s → ∃ t ∈ c.substates s, t ∈ active.elems ∧
        ∀ u ∈ c.substates s, u ∈ active.elems → u = t) ∧
      (c.isParallel s → ∀ t ∈ c.substates s, t ∈ active.elems) ∧
      (c.isLeaf s → ∀ t ∈ active.elems, c.parent? t ≠ some s) := by
  constructor
  · intro h
    refine ⟨h.root, fun s hs => ⟨h.contains s hs, h.plain s hs, h.parent s hs, fun hc => ?_,
      h.parallel s hs, h.leaf s hs⟩⟩
    obtain ⟨t, ⟨ht, hta⟩, huniq⟩ := h.compound s hs hc
    exact ⟨t, ht, hta, fun u hu hua => huniq u ⟨hu, hua⟩⟩
  · intro hex
    obtain ⟨hroot, h⟩ := hex
    refine ⟨hroot, fun s hs => (h s hs).1, fun s hs => (h s hs).2.1, fun s hs => (h s hs).2.2.1,
      fun s hs hc => ?_, fun s hs => (h s hs).2.2.2.2.1, fun s hs => (h s hs).2.2.2.2.2⟩
    obtain ⟨t, ht, hta, huniq⟩ := (h s hs).2.2.2.1 hc
    exact ⟨t, ⟨ht, hta⟩, fun u hu => huniq u hu.1 hu.2⟩

instance : Decidable (c.WellFormed active) := decidable_of_iff _ wellFormed_iff.symm

/-- A leaf has nothing below it. -/
theorem not_isLeaf_of_parent (h : c.parent? t = some s) : ¬ c.isLeaf s := by
  intro hleaf
  obtain ⟨k, hk, hkl⟩ := hasKind_iff.mp hleaf
  rcases isCompound_or_isParallel_of_parent h with hc | hp
  · obtain ⟨i, hi⟩ := isCompound_iff.mp hc
    rw [hk, Option.some.injEq] at hi
    subst hi
    exact absurd hkl (by simp [NodeKind.isLeaf, NodeKind.isAtomic, NodeKind.isFinal])
  · rw [isParallel_iff, hk, Option.some.injEq] at hp
    subst hp
    exact absurd hkl (by simp [NodeKind.isLeaf, NodeKind.isAtomic, NodeKind.isFinal])

theorem not_isLeaf_of_isDescendant (h : c.isDescendant t s) : ¬ c.isLeaf s := by
  obtain ⟨u, hu, -⟩ := exists_child_towards h
  exact not_isLeaf_of_parent hu

/-- The states of a chart by what can be below them. -/
theorem kind_cases (hs : c.contains s) :
    c.isCompound s ∨ c.isParallel s ∨ c.isHistory s ∨ c.isLeaf s := by
  obtain ⟨n, hn⟩ := contains_iff.mp hs
  rw [Outline.isCompound, Outline.isParallel, Outline.isHistory, Outline.isLeaf,
    hasKind_of_kind? (kind?_of_node hn), hasKind_of_kind? (kind?_of_node hn),
    hasKind_of_kind? (kind?_of_node hn), hasKind_of_kind? (kind?_of_node hn)]
  cases n.kind <;>
    simp [NodeKind.isCompound, NodeKind.isParallel, NodeKind.isHistory, NodeKind.isLeaf,
      NodeKind.isAtomic, NodeKind.isFinal]

/-! ## What goals bring along -/

/-- A state from which a default completion starts: a goal, or a region without one. -/
def Top (c : Chart D) (goal : D.State → Prop) (d t : D.State) : Prop :=
  goal t ∨ ∃ a, c.Around goal d a ∧ c.isParallel a ∧ t ∈ c.substates a ∧
    ∀ g, goal g → ¬ c.isWithin g t

theorem brought_iff : c.Brought goal (c.Around goal d) x ↔
    c.Around goal d x ∨ ∃ t, c.Top goal d t ∧ c.ComesWith t x := by
  constructor
  · intro h
    rcases h with ⟨g, hg, hx⟩ | hx | ⟨a, r, ha, hpar, hr, hfree, hx⟩
    · exact Or.inr ⟨g, Or.inl hg, hx⟩
    · exact Or.inl hx
    · exact Or.inr ⟨r, Or.inr ⟨a, ha, hpar, hr, hfree⟩, hx⟩
  · intro h
    rcases h with hx | ⟨t, ht | ⟨a, ha, hpar, hr, hfree⟩, hx⟩
    · exact Or.inr (Or.inl hx)
    · exact Or.inl ⟨t, ht, hx⟩
    · exact Or.inr (Or.inr ⟨a, t, ha, hpar, hr, hfree, hx⟩)

theorem top_below (hgoal : ∀ g, goal g → c.isDescendant g d) (ht : c.Top goal d t) :
    c.isDescendant t d := by
  rcases ht with ht | ⟨a, ⟨ha, -⟩, -, hr, -⟩
  · exact hgoal t ht
  · exact isDescendant_trans (isDescendant_parent (mem_substates.mp hr).1) ha

theorem not_goal_below_top (hcompat : c.Compatible goal) (ht : c.Top goal d t) (hg : goal g) :
    ¬ c.isDescendant g t := by
  rcases ht with ht | ⟨-, -, -, -, hfree⟩
  · exact hcompat.apart g t hg ht
  · exact fun hgt => hfree g hg (isWithin_of_isDescendant hgt)

/-- Default completions start from states apart from each other. -/
theorem tops_apart (hcompat : c.Compatible goal) (hs : c.Top goal d s) (ht : c.Top goal d t) :
    ¬ c.isDescendant s t := by
  intro hst
  rcases hs with hs | ⟨a, ⟨-, g, hg, hga⟩, -, hsa, -⟩
  · exact not_goal_below_top hcompat ht hs hst
  · have hat := isWithin_parent (mem_substates.mp hsa).1 hst
    exact not_goal_below_top hcompat ht hg (isDescendant_of_isDescendant_of_isWithin hga hat)

theorem brought_below (hgoal : ∀ g, goal g → c.isDescendant g d)
    (hx : c.Brought goal (c.Around goal d) x) : c.isDescendant x d := by
  rcases brought_iff.mp hx with ⟨hx, -⟩ | ⟨t, ht, hx⟩
  · exact hx
  · exact isDescendant_of_isWithin (isWithin_of_comesWith hx) (top_below hgoal ht)

theorem brought_plain (hcompat : c.Compatible goal)
    (hx : c.Brought goal (c.Around goal d) x) : ¬ c.isHistory x := by
  rcases brought_iff.mp hx with ⟨-, g, -, hgx⟩ | ⟨t, ht, hx⟩
  · exact not_isHistory_of_isDescendant hgx
  · refine not_isHistory_of_comesWith ?_ hx
    rcases ht with ht | ⟨_, -, -, hr, -⟩
    · exact hcompat.plain t ht
    · exact (mem_substates.mp hr).2

/-- A state on the way to a goal is brought along. -/
theorem brought_of_isWithin (hg : goal g) (hgx : c.isWithin g x) (hx : c.isDescendant x d) :
    c.Brought goal (c.Around goal d) x := by
  rcases isWithin_iff.mp hgx with rfl | hgx
  · exact Or.inl ⟨g, hg, .self g⟩
  · exact Or.inr (Or.inl ⟨hx, g, hg, hgx⟩)

theorem brought_parent (hgoal : ∀ g, goal g → c.isDescendant g d)
    (hx : c.Brought goal (c.Around goal d) x) (hp : c.parent? x = some p) :
    p = d ∨ c.Brought goal (c.Around goal d) p := by
  have hpd := isWithin_parent hp (brought_below hgoal hx)
  by_cases he : p = d
  · exact Or.inl he
  have hpd := isDescendant_of_isWithin_of_ne hpd he
  refine Or.inr ?_
  rcases brought_iff.mp hx with ⟨-, g, hg, hgx⟩ | ⟨t, ht, hx⟩
  · exact brought_of_isWithin hg
      (isWithin_of_isDescendant (isDescendant_trans hgx (isDescendant_parent hp))) hpd
  · by_cases hxt : x = t
    · subst hxt
      rcases ht with ht | ⟨a, ha, -, hr, -⟩
      · exact brought_of_isWithin ht (isWithin_of_isDescendant (isDescendant_parent hp)) hpd
      · rw [(mem_substates.mp hr).1, Option.some.injEq] at hp
        exact brought_iff.mpr (Or.inl (hp ▸ ha))
    · obtain ⟨q, hq, hcomes, -⟩ := parent_of_comesWith hx hxt
      rw [hp, Option.some.injEq] at hq
      subst hq
      exact brought_iff.mpr (Or.inr ⟨t, ht, hcomes⟩)

/-- Within a default completion, a child is brought along exactly if it comes by default. -/
private theorem brought_child_of_top (hcompat : c.Compatible goal) {top : D.State}
    (htop : c.Top goal d top) (hs : c.ComesWith top s) (ht : c.parent? t = some s) :
    c.Brought goal (c.Around goal d) t ↔ c.ComesWith top t := by
  have htt : c.isDescendant t top :=
    isDescendant_of_isDescendant_of_isWithin (isDescendant_parent ht) (isWithin_of_comesWith hs)
  refine ⟨fun hx => ?_, fun hx => brought_iff.mpr (Or.inr ⟨top, htop, hx⟩)⟩
  rcases brought_iff.mp hx with ⟨-, g, hg, hgt⟩ | ⟨top', htop', hx⟩
  · exact absurd (isDescendant_trans hgt htt) (not_goal_below_top hcompat htop hg)
  · -- default completions do not meet, so it is the same one
    rcases isWithin_or_of_common (isWithin_of_isDescendant htt) (isWithin_of_comesWith hx)
      with h | h
    · rcases isWithin_iff.mp h with rfl | h
      · exact hx
      · exact absurd h (tops_apart hcompat htop htop')
    · exact absurd h (tops_apart hcompat htop' htop)

/-- On the way down a compound state, a child is brought along only if a goal lies there. -/
private theorem goal_of_brought_child (hcompat : c.Compatible goal) (hg : goal g)
    (hgs : c.isDescendant g s) (hs : c.isCompound s) (ht : c.parent? t = some s)
    (hx : c.Brought goal (c.Around goal d) t) : ∃ g', goal g' ∧ c.isWithin g' t := by
  rcases brought_iff.mp hx with ⟨-, g', hg', hgt⟩ | ⟨top, htop, hx⟩
  · exact ⟨g', hg', isWithin_of_isDescendant hgt⟩
  · rcases isWithin_iff.mp (isWithin_of_comesWith hx) with rfl | hlt
    · rcases htop with htop | ⟨a, -, hpar, hr, -⟩
      · exact ⟨t, htop, isWithin_refl t⟩
      · rw [(mem_substates.mp hr).1, Option.some.injEq] at ht
        exact absurd (ht ▸ hpar) (not_isParallel_of_isCompound hs)
    · exact absurd (isDescendant_of_isDescendant_of_isWithin hgs (isWithin_parent ht hlt))
        (not_goal_below_top hcompat htop hg)

private theorem brought_cases (hcompat : c.Compatible goal)
    (hgoal : ∀ g, goal g → c.isDescendant g d)
    (hs : s = d ∨ c.Brought goal (c.Around goal d) s) :
    (∃ g, goal g ∧ c.isDescendant g s) ∨ ∃ top, c.Top goal d top ∧ c.ComesWith top s := by
  rcases hs with rfl | hs
  · obtain ⟨g, hg⟩ := hcompat.nonempty
    exact Or.inl ⟨g, hg, hgoal g hg⟩
  · exact (brought_iff.mp hs).imp_left fun h => h.2

/-- What compatible goals bring along completes the bound they lie below, provided that they reach
every region of it if it is parallel. -/
theorem completes_brought (hcompat : c.Compatible goal)
    (hgoal : ∀ g, goal g → c.isDescendant g d)
    (hregions : c.isParallel d → ∀ r ∈ c.substates d, ∃ g, goal g ∧ c.isWithin g r) :
    c.Completes d (c.Brought goal (c.Around goal d)) where
  below := fun _ hx => brought_below hgoal hx
  plain := fun _ hx => brought_plain hcompat hx
  parent := fun _ hx _ hp => brought_parent hgoal hx hp
  compound := by
    intro s hs hc
    have hsd : c.isWithin s d := by
      rcases hs with rfl | hs
      · exact isWithin_refl s
      · exact isWithin_of_isDescendant (brought_below hgoal hs)
    rcases brought_cases hcompat hgoal hs with ⟨g, hg, hgs⟩ | ⟨top, htop, hcomes⟩
    · -- on the way to a goal it is the child on that way
      obtain ⟨t, ht, hgt⟩ := exists_child_towards hgs
      have htd := isDescendant_of_isDescendant_of_isWithin (isDescendant_parent ht) hsd
      have hbrought := brought_of_isWithin hg hgt htd
      refine ⟨t, ⟨mem_substates.mpr ⟨ht, brought_plain hcompat hbrought⟩, hbrought⟩, ?_⟩
      intro u h
      obtain ⟨hu, hxu⟩ := h
      have hu := (mem_substates.mp hu).1
      obtain ⟨g', hg', hgu⟩ := goal_of_brought_child hcompat hg hgs hc hu hxu
      exact hcompat.together s u t g' g hc hu ht hg' hg hgu hgt
    · -- in a default completion it is the initial child
      obtain ⟨i, hi⟩ := isCompound_iff.mp hc
      have hsub := initial_mem_substates hi
      have hip := (mem_substates.mp hsub).1
      have hchild := brought_child_of_top hcompat htop hcomes hip
      refine ⟨i, ⟨hsub, hchild.mpr ((comesWith_child_of_compound hcomes hi hip).mpr rfl)⟩, ?_⟩
      intro u h
      obtain ⟨hu, hxu⟩ := h
      have hu := (mem_substates.mp hu).1
      exact (comesWith_child_of_compound hcomes hi hu).mp
        ((brought_child_of_top hcompat htop hcomes hu).mp hxu)
  parallel := by
    intro s hs hpar t ht
    have htp := (mem_substates.mp ht).1
    rcases brought_cases hcompat hgoal hs with ⟨g, hg, hgs⟩ | ⟨top, htop, hcomes⟩
    · by_cases hfree : ∃ g, goal g ∧ c.isWithin g t
      · obtain ⟨g', hg', hgt⟩ := hfree
        rcases hs with rfl | hs
        · exact brought_of_isWithin hg' hgt (isDescendant_parent htp)
        · exact brought_of_isWithin hg' hgt
            (isDescendant_trans (isDescendant_parent htp) (brought_below hgoal hs))
      · -- a region without a goal is completed, except in the bound, which is not climbed
        rcases hs with rfl | hs
        · exact absurd (hregions hpar t ht) hfree
        · refine brought_iff.mpr (Or.inr ⟨t, Or.inr ⟨s, ⟨brought_below hgoal hs, g, hg, hgs⟩, hpar,
            ht, fun g' hg' hgt => hfree ⟨g', hg', hgt⟩⟩, .self t⟩)
    · exact (brought_child_of_top hcompat htop hcomes htp).mpr (comesWith_region hcomes hpar ht)

/-! ## Exchanging what is active below some bounds -/

section

variable {bound : D.State → Prop} {new : D.State → D.State → Prop}
  (hex : c.Exchange active active' bound new)

include hex

/-- What is below no bound stays as it was. -/
theorem mem_exchange_outside (hx : ∀ d, bound d → ¬ c.isDescendant x d) :
    x ∈ active' ↔ x ∈ active := by
  rw [hex.after]
  constructor
  · intro h
    rcases h with ⟨hxa, -⟩ | ⟨d, hd, hnx⟩
    · exact hxa
    · exact absurd ((hex.completes d hd).below x hnx) (hx d hd)
  · exact fun hxa => Or.inl ⟨hxa, hx⟩

/-- Below a bound only what is new there is active: a second bound around it would not lie apart
from the first. -/
theorem mem_exchange_below (hd : bound d) (hxd : c.isDescendant x d) :
    x ∈ active' ↔ new d x := by
  rw [hex.after]
  constructor
  · intro hor
    rcases hor with ⟨-, hx⟩ | ⟨d', hd', hnx⟩
    · exact absurd hxd (hx d hd)
    · have hdd' : d = d' := by
        rcases isWithin_or_of_common (isWithin_of_isDescendant hxd)
          (isWithin_of_isDescendant ((hex.completes d' hd').below x hnx)) with h | h
        · exact hex.apart d d' hd hd' h
        · exact (hex.apart d' d hd' hd (isWithin_of_isDescendant h)).symm
      exact hdd' ▸ hnx
  · exact fun hnx => Or.inr ⟨d, hd, hnx⟩

/-- The children of an active state are either all new or all as they were. -/
theorem exchange_children (hs : s ∈ active') :
    (∃ d, bound d ∧ (s = d ∨ new d s) ∧ ∀ t, c.parent? t = some s → (t ∈ active' ↔ new d t)) ∨
      (s ∈ active ∧ ∀ t, c.parent? t = some s → (t ∈ active' ↔ t ∈ active)) := by
  by_cases hsd : ∃ d, bound d ∧ c.isWithin s d
  · obtain ⟨d, hd, hsd⟩ := hsd
    refine Or.inl ⟨d, hd, ?_, fun t ht => mem_exchange_below hex hd
      (isDescendant_of_isDescendant_of_isWithin (isDescendant_parent ht) hsd)⟩
    rcases isWithin_iff.mp hsd with rfl | hsd
    · exact Or.inl rfl
    · exact Or.inr ((mem_exchange_below hex hd hsd).mp hs)
  · have hout : ∀ d, bound d → ¬ c.isDescendant s d :=
      fun d hd h => hsd ⟨d, hd, isWithin_of_isDescendant h⟩
    exact Or.inr ⟨(mem_exchange_outside hex hout).mp hs, fun t ht =>
      mem_exchange_outside hex fun d hd h => hsd ⟨d, hd, isWithin_parent ht h⟩⟩

private theorem exchange_parent (hwf : c.WellFormed active) (hs : s ∈ active')
    (hp : c.parent? s = some p) : p ∈ active' := by
  rcases (hex.after s).mp hs with ⟨hsa, hout⟩ | ⟨d, hd, hns⟩
  · refine (mem_exchange_outside hex fun d hd hpd => hout d hd ?_).mpr (hwf.parent s hsa p hp)
    exact isDescendant_trans (isDescendant_parent hp) hpd
  · rcases (hex.completes d hd).parent s hns p hp with rfl | hnp
    · -- the bound itself lies below no other bound
      refine (mem_exchange_outside hex fun d' hd' hpd' => ?_).mpr (hex.bounds p hd)
      exact ne_of_isDescendant hpd' (hex.apart p d' hd hd' (isWithin_of_isDescendant hpd'))
    · exact (hex.after p).mpr (Or.inr ⟨d, hd, hnp⟩)

private theorem exchange_compound (hwf : c.WellFormed active) (hs : s ∈ active')
    (hc : c.isCompound s) : ∃! t, t ∈ c.substates s ∧ t ∈ active' := by
  rcases exchange_children hex hs with ⟨d, hd, hsd, hch⟩ | ⟨hsa, hch⟩
  · obtain ⟨t, ⟨ht, hnt⟩, huniq⟩ := (hex.completes d hd).compound s hsd hc
    refine ⟨t, ⟨ht, (hch t (mem_substates.mp ht).1).mpr hnt⟩, ?_⟩
    intro u h
    obtain ⟨hu, hua⟩ := h
    exact huniq u ⟨hu, (hch u (mem_substates.mp hu).1).mp hua⟩
  · obtain ⟨t, ⟨ht, hta⟩, huniq⟩ := hwf.compound s hsa hc
    refine ⟨t, ⟨ht, (hch t (mem_substates.mp ht).1).mpr hta⟩, ?_⟩
    intro u h
    obtain ⟨hu, hua⟩ := h
    exact huniq u ⟨hu, (hch u (mem_substates.mp hu).1).mp hua⟩

/-- A well-formed configuration stays well formed in an exchange. -/
theorem wellFormed_exchange (hwf : c.WellFormed active) : c.WellFormed active' where
  root := (mem_exchange_outside hex fun d _ => not_isDescendant_root).mpr hwf.root
  contains := by
    intro s hs
    rcases (hex.after s).mp hs with ⟨hs, -⟩ | ⟨d, hd, hs⟩
    · exact hwf.contains s hs
    · exact contains_of_isDescendant ((hex.completes d hd).below s hs)
  plain := by
    intro s hs
    rcases (hex.after s).mp hs with ⟨hs, -⟩ | ⟨d, hd, hs⟩
    · exact hwf.plain s hs
    · exact (hex.completes d hd).plain s hs
  parent := fun s hs p hp => exchange_parent hex hwf hs hp
  compound := fun s hs hc => exchange_compound hex hwf hs hc
  parallel := by
    intro s hs hpar t ht
    rcases exchange_children hex hs with ⟨d, hd, hsd, hch⟩ | ⟨hsa, hch⟩
    · exact (hch t (mem_substates.mp ht).1).mpr ((hex.completes d hd).parallel s hsd hpar t ht)
    · exact (hch t (mem_substates.mp ht).1).mpr (hwf.parallel s hsa hpar t ht)
  leaf := fun s _ hleaf t _ ht => not_isLeaf_of_parent ht hleaf

end

/-- The default completion of the root is well formed. -/
theorem wellFormed_default (hmem : ∀ x, x ∈ active ↔ c.ComesWith c.root x) :
    c.WellFormed active := by
  have hroot : ¬ c.isHistory c.root := by
    intro hh
    obtain ⟨p, hp⟩ := parent_of_isHistory hh
    rw [parent_root] at hp
    exact absurd hp (by simp)
  -- what comes with the root is closed upwards, and downwards as each kind asks for
  refine ⟨(hmem _).mpr (.self _), ?_, ?_, ?_, ?_, ?_, ?_⟩
  · intro s hs
    rcases isWithin_iff.mp (isWithin_of_comesWith ((hmem s).mp hs)) with rfl | hs
    · exact contains_root
    · exact contains_of_isDescendant hs
  · exact fun s hs => not_isHistory_of_comesWith hroot ((hmem s).mp hs)
  · intro s hs p hp
    have hne : s ≠ c.root := by
      intro h
      obtain rfl := h
      rw [parent_root] at hp
      exact absurd hp (by simp)
    obtain ⟨q, hq, hcomes, -⟩ := parent_of_comesWith ((hmem s).mp hs) hne
    rw [hp, Option.some.injEq] at hq
    exact (hmem p).mpr (hq ▸ hcomes)
  · intro s hs hc
    obtain ⟨i, hi⟩ := isCompound_iff.mp hc
    have hsub := initial_mem_substates hi
    have hiff := fun t ht => comesWith_child_of_compound (t := t) ((hmem s).mp hs) hi ht
    refine ⟨i, ⟨hsub, (hmem i).mpr ((hiff i (mem_substates.mp hsub).1).mpr rfl)⟩, ?_⟩
    intro u h
    obtain ⟨hu, hua⟩ := h
    exact (hiff u (mem_substates.mp hu).1).mp ((hmem u).mp hua)
  · intro s hs hpar t ht
    exact (hmem t).mpr (comesWith_region ((hmem s).mp hs) hpar ht)
  · intro s _ hleaf t _ ht
    exact not_isLeaf_of_parent ht hleaf

end Chart

end Statechart
