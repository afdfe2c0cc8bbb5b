import Statechart.Machine.EntrySet
import Statechart.Proofs.Chart.Flawless

/-!
# Default completion

`ComesWith` says, without a set to fill and without fuel, which states are entered
when nothing is known but the state to enter: a compound state comes with its initial
child, a parallel state with all its regions, and so on down. The two sides meet in
`mem_addDescendants`: into a set that has nothing at or below a state yet,
`addDescendants` puts exactly the states that come with it.

The same is said of completing a parallel state (`mem_addRegions`): the regions from
which nothing is in the set yet are entered by default, the others are left alone.
-/

namespace Statechart

namespace Outline

variable {D : Domain} (c : Outline D)

/-- `x` is entered along with `s` when `s` is entered by default. -/
inductive ComesWith : D.State → D.State → Prop
  | self (s : D.State) : ComesWith s s
  | initial {s i x : D.State} :
      c.kind? s = some (.compound i) → ComesWith i x → ComesWith s x
  | region {s r x : D.State} :
      c.isParallel s → r ∈ c.substates s → ComesWith r x → ComesWith s x

/-- The set has neither `s` nor a state below it. -/
def Clear (set : StateSet D.State) (s : D.State) : Prop := ∀ y ∈ set, ¬ c.isWithin y s

theorem any_isWithin_iff {c : Outline D} {set : StateSet D.State} {s : D.State} :
    set.elems.any (c.isWithin · s) ↔ ¬ c.Clear set s := by
  simp [Clear, StateSet.mem_def]

end Outline

namespace Chart

variable {D : Domain} {c : Chart D} {s t x y p i r : D.State} {set set' : StateSet D.State}

/-! ## The shape of a default completion -/

theorem isWithin_of_comesWith (h : c.ComesWith s x) : c.isWithin x s := by
  induction h with
  | self s => exact isWithin_refl s
  | initial hk _ ih =>
    have hp := (mem_substates.mp (initial_mem_substates hk)).1
    exact isWithin_trans ih (isWithin_of_isDescendant (isDescendant_parent hp))
  | region _ hr _ ih =>
    exact isWithin_trans ih
      (isWithin_of_isDescendant (isDescendant_parent (mem_substates.mp hr).1))

theorem not_isHistory_of_comesWith (hs : ¬ c.isHistory s) (h : c.ComesWith s x) :
    ¬ c.isHistory x := by
  induction h with
  | self s => exact hs
  | initial hk _ ih => exact ih (mem_substates.mp (initial_mem_substates hk)).2
  | region _ hr _ ih => exact ih (mem_substates.mp hr).2

theorem comesWith_trans (h : c.ComesWith s x) (h' : c.ComesWith x y) : c.ComesWith s y := by
  induction h with
  | self s => exact h'
  | initial hk _ ih => exact .initial hk (ih h')
  | region hp hr _ ih => exact .region hp hr (ih h')

/-- Below the top, a state comes with another because its parent does, and it is the initial one
if the parent is compound. -/
theorem parent_of_comesWith (h : c.ComesWith s x) (hne : x ≠ s) :
    ∃ p, c.parent? x = some p ∧ c.ComesWith s p ∧
      ∀ i, c.kind? p = some (.compound i) → x = i := by
  induction h with
  | self s => exact absurd rfl hne
  | @initial s i x hk _ ih =>
    by_cases hx : x = i
    · subst hx
      refine ⟨s, (mem_substates.mp (initial_mem_substates hk)).1, .self s, fun j hj => ?_⟩
      rw [hk, Option.some.injEq, NodeKind.compound.injEq] at hj
      exact hj
    · obtain ⟨p, hp, hcomes, hinit⟩ := ih hx
      exact ⟨p, hp, .initial hk hcomes, hinit⟩
  | @region s r x hpar hr _ ih =>
    by_cases hx : x = r
    · subst hx
      refine ⟨s, (mem_substates.mp hr).1, .self s, fun j hj => ?_⟩
      rw [isParallel_iff.mp hpar] at hj
      exact absurd hj (by simp)
    · obtain ⟨p, hp, hcomes, hinit⟩ := ih hx
      exact ⟨p, hp, .region hpar hr hcomes, hinit⟩

/-- Of the children of a compound state, the initial one comes with it. -/
theorem comesWith_child_of_compound (h : c.ComesWith s x) (hk : c.kind? x = some (.compound i))
    (ht : c.parent? t = some x) : c.ComesWith s t ↔ t = i := by
  constructor
  · intro htc
    have hne : t ≠ s := by
      intro he
      obtain rfl := he
      exact not_isDescendant_of_isWithin (isWithin_of_comesWith h) (isDescendant_parent ht)
    obtain ⟨p, hp, -, hinit⟩ := parent_of_comesWith htc hne
    rw [ht, Option.some.injEq] at hp
    subst hp
    exact hinit i hk
  · intro he
    obtain rfl := he
    exact comesWith_trans h (.initial hk (.self t))

theorem comesWith_region (h : c.ComesWith s x) (hp : c.isParallel x) (ht : t ∈ c.substates x) :
    c.ComesWith s t :=
  comesWith_trans h (.region hp ht (.self t))

private theorem comesWith_compound_iff (hk : c.kind? s = some (.compound i)) :
    c.ComesWith s x ↔ x = s ∨ c.ComesWith i x := by
  constructor
  · intro h
    cases h with
    | self => exact Or.inl rfl
    | initial hk' hx =>
      rw [hk, Option.some.injEq, NodeKind.compound.injEq] at hk'
      exact Or.inr (hk' ▸ hx)
    | region hp _ _ =>
      rw [isParallel_iff, hk] at hp
      exact absurd hp (by simp)
  · intro hor
    rcases hor with rfl | h
    · exact .self _
    · exact .initial hk h

private theorem comesWith_parallel_iff (hp : c.isParallel s) :
    c.ComesWith s x ↔ x = s ∨ ∃ r ∈ c.substates s, c.ComesWith r x := by
  constructor
  · intro h
    cases h with
    | self => exact Or.inl rfl
    | initial hk _ =>
      rw [isParallel_iff.mp hp] at hk
      exact absurd hk (by simp)
    | region _ hr hx => exact Or.inr ⟨_, hr, hx⟩
  · intro hor
    rcases hor with rfl | ⟨r, hr, h⟩
    · exact .self _
    · exact .region hp hr h

private theorem comesWith_leaf_iff (hc : ¬ c.isCompound s) (hp : ¬ c.isParallel s) :
    c.ComesWith s x ↔ x = s := by
  constructor
  · intro h
    cases h with
    | self => rfl
    | initial hk _ => exact absurd (isCompound_iff.mpr ⟨_, hk⟩) hc
    | region hpar _ _ => exact absurd hpar hp
  · intro he
    obtain rfl := he
    exact .self _

/-! ## Clear states -/

theorem clear_of_isWithin (h : c.Clear set s) (ht : c.isWithin t s) : c.Clear set t :=
  fun y hy hyt => h y hy (isWithin_trans hyt ht)

theorem clear_insert : c.Clear (set.insert x) s ↔ c.Clear set s ∧ ¬ c.isWithin x s := by
  constructor
  · intro h
    exact ⟨fun y hy => h y (StateSet.mem_insert.mpr (Or.inl hy)),
      h x (StateSet.mem_insert.mpr (Or.inr rfl))⟩
  · intro hex y hy
    obtain ⟨h, hx⟩ := hex
    rcases StateSet.mem_insert.mp hy with hy | rfl
    · exact h y hy
    · exact hx

theorem not_isWithin_of_parent (h : c.parent? s = some p) : ¬ c.isWithin p s :=
  fun hps => not_isDescendant_of_isWithin hps (isDescendant_parent h)

/-! ## Completing a parallel state -/

/-- What `add` does with a region that is clear: it puts in what comes with it. -/
def AddsDefaults (c : Chart D)
    (add : D.State → StateSet D.State → Option (StateSet D.State)) (p : D.State) : Prop :=
  ∀ r ∈ c.substates p, ∀ set set', c.Clear set r → add r set = some set' →
    ∀ x, x ∈ set' ↔ x ∈ set ∨ c.ComesWith r x

private theorem mem_foldlM_regions
    {add : D.State → StateSet D.State → Option (StateSet D.State)} (hadd : c.AddsDefaults add p) :
    ∀ {l : List D.State} {set set' : StateSet D.State}, (∀ r ∈ l, r ∈ c.substates p) →
      l.foldlM (fun set r => if set.elems.any (c.isWithin · r) then some set else add r set) set
        = some set' →
      ∀ x, x ∈ set' ↔ x ∈ set ∨ ∃ r ∈ l, c.Clear set r ∧ c.ComesWith r x
  | [], set, set', _, h, x => by
    rw [List.foldlM_nil, Option.pure_def, Option.some.injEq] at h
    subst h
    simp
  | r :: l, set, set', hl, h, x => by
    have hr := hl r (List.mem_cons_self ..)
    have htail : ∀ r' ∈ l, r' ∈ c.substates p := fun r' h' => hl r' (List.mem_cons_of_mem _ h')
    rw [List.foldlM_cons, Option.bind_eq_bind, Option.bind_eq_some_iff] at h
    obtain ⟨set₁, h₁, h₂⟩ := h
    rw [mem_foldlM_regions hadd htail h₂ x]
    split at h₁
    · next hany =>
      have hnot := Outline.any_isWithin_iff.mp hany
      rw [Option.some.injEq] at h₁
      subst h₁
      simp only [List.mem_cons, exists_eq_or_imp, hnot, false_and, false_or]
    · next hany =>
      have hclear : c.Clear set r := by
        by_contra hnot
        exact hany (Outline.any_isWithin_iff.mpr hnot)
      have hmem := hadd r hr set set₁ hclear h₁
      rw [hmem x]
      -- regions are side by side: filling one leaves the others as clear as they were
      have hothers : ∀ r' ∈ l, c.Clear set₁ r' ↔ c.Clear set r' ∧ r' ≠ r := by
        intro r' hr'
        constructor
        · intro hc
          refine ⟨fun y hy => hc y ((hmem y).mpr (Or.inl hy)), ?_⟩
          intro heq
          obtain rfl := heq
          exact hc r' ((hmem r').mpr (Or.inr (.self r'))) (isWithin_refl r')
        · intro hex y hy hyr'
          obtain ⟨hc, hne⟩ := hex
          rcases (hmem y).mp hy with hy | hy
          · exact hc y hy hyr'
          · exact hne (child_towards_unique (mem_substates.mp (htail r' hr')).1
              (mem_substates.mp hr).1 hyr' (isWithin_of_comesWith hy))
      constructor
      · intro hor
        rcases hor with (hx | hx) | ⟨r', hr', hc, hx⟩
        · exact Or.inl hx
        · exact Or.inr ⟨r, List.mem_cons_self .., hclear, hx⟩
        · exact Or.inr ⟨r', List.mem_cons_of_mem _ hr', ((hothers r' hr').mp hc).1, hx⟩
      · intro hor
        rcases hor with hx | ⟨r', hr', hc, hx⟩
        · exact Or.inl (Or.inl hx)
        · rcases List.mem_cons.mp hr' with rfl | hr'
          · exact Or.inl (Or.inr hx)
          · by_cases he : r' = r
            · exact Or.inl (Or.inr (he ▸ hx))
            · exact Or.inr ⟨r', hr', (hothers r' hr').mpr ⟨hc, he⟩, hx⟩

/-- Completing a parallel state enters the clear regions by default. -/
theorem mem_addRegions {add : D.State → StateSet D.State → Option (StateSet D.State)}
    (hadd : c.AddsDefaults add p) (h : c.addRegions add p set = some set') (x : D.State) :
    x ∈ set' ↔ x ∈ set ∨ ∃ r ∈ c.substates p, c.Clear set r ∧ c.ComesWith r x :=
  mem_foldlM_regions hadd (fun _ hr => hr) h x

/-! ## Entering a state -/

theorem ancestorsBelow_parent (h : c.parent? s = some p) : c.ancestorsBelow s (some p) = [] := by
  simp [Outline.ancestorsBelow, ancestors_of_parent h]

theorem addDescendants_outside {h : History D.State} (hs : ¬ c.contains s) (fuel : Nat)
    (set : StateSet D.State) : c.addDescendants h (fuel + 1) s set = some set := by
  have hnone : c.node? s = none :=
    Option.eq_none_iff_forall_ne_some.mpr fun n hn => hs (contains_iff.mpr ⟨n, hn⟩)
  rw [Outline.addDescendants, hnone]

/-- How `addDescendants` goes on from a state that can be active, by its kind. There is nothing to
climb from the initial child to its parent. -/
theorem addDescendants_plain {h : History D.State} {fuel : Nat} (hs : c.contains s)
    (hh : ¬ c.isHistory s) (h' : c.addDescendants h (fuel + 1) s set = some set') :
    (∃ i, c.kind? s = some (.compound i) ∧ c.addDescendants h fuel i (set.insert s) = some set') ∨
      (c.isParallel s ∧ c.addRegions (c.addDescendants h fuel) s (set.insert s) = some set') ∨
      (¬ c.isCompound s ∧ ¬ c.isParallel s ∧ set' = set.insert s) := by
  obtain ⟨n, hn⟩ := contains_iff.mp hs
  have hkind := kind?_of_node hn
  rw [Outline.addDescendants, hn] at h'
  dsimp only at h'
  cases hk : n.kind with
  | history mode => exact absurd (isHistory_iff.mpr ⟨mode, hk ▸ hkind⟩) hh
  | compound i =>
    rw [hk] at h' hkind
    have hi := mem_substates.mp (initial_mem_substates hkind)
    -- the initial child lies right below, so there is nothing in between to climb
    simp only [Option.bind_eq_bind, Option.bind_eq_some_iff, Outline.addAncestors,
      ancestorsBelow_parent hi.1, List.foldlM_nil, Option.pure_def, Option.some.injEq] at h'
    obtain ⟨set₁, h₁, rfl⟩ := h'
    exact Or.inl ⟨i, hkind, h₁⟩
  | parallel =>
    rw [hk] at h' hkind
    exact Or.inr (Or.inl ⟨isParallel_iff.mpr hkind, h'⟩)
  | atomic | final =>
    rw [hk] at h' hkind
    refine Or.inr (Or.inr ⟨?_, ?_, (Option.some.inj h').symm⟩)
    · simp [isCompound_iff, hkind]
    · simp [isParallel_iff, hkind]

/-- Into a set that has nothing at or below a state, `addDescendants` puts what comes with it. -/
theorem mem_addDescendants {h : History D.State} :
    ∀ (fuel : Nat) {s : D.State} {set set' : StateSet D.State}, c.contains s → ¬ c.isHistory s →
      c.Clear set s → c.addDescendants h fuel s set = some set' →
      ∀ x, x ∈ set' ↔ x ∈ set ∨ c.ComesWith s x := by
  intro fuel
  induction fuel with
  | zero => intro s set set' _ _ _ h'; exact absurd h' (by simp [Outline.addDescendants])
  | succ fuel ih =>
    intro s set set' hs hh hclear h' x
    -- the children are still clear when the state itself has been put in
    have hself : ∀ t, c.parent? t = some s → c.Clear (set.insert s) t := fun t ht =>
      clear_insert.mpr ⟨clear_of_isWithin hclear
        (isWithin_of_isDescendant (isDescendant_parent ht)), not_isWithin_of_parent ht⟩
    rcases addDescendants_plain hs hh h' with ⟨i, hkind, h₁⟩ | ⟨hpar, h₁⟩ | ⟨hc, hpar, rfl⟩
    · have hi := mem_substates.mp (initial_mem_substates hkind)
      rw [ih (contains_of_parent hi.1) hi.2 (hself i hi.1) h₁ x, StateSet.mem_insert,
        comesWith_compound_iff hkind, or_assoc]
    · have hadd : c.AddsDefaults (c.addDescendants h fuel) s := fun r hr S S' hc hS =>
        ih (contains_of_parent (mem_substates.mp hr).1) (mem_substates.mp hr).2 hc hS
      rw [mem_addRegions hadd h₁ x, StateSet.mem_insert, comesWith_parallel_iff hpar, or_assoc]
      refine or_congr_right (or_congr_right (exists_congr fun r => and_congr_right fun hr => ?_))
      exact and_iff_right (hself r (mem_substates.mp hr).1)
    · rw [StateSet.mem_insert, comesWith_leaf_iff hc hpar]

end Chart

end Statechart
