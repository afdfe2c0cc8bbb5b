import Statechart.Machine.Completion
import Statechart.Proofs.Chart.Flawless

/-!
# When a state is in its final state

`inFinalState` follows regions within regions with the size of the chart for fuel, which is
enough (`inFinalStateWithin_eq`). So it satisfies the equations one expects: a compound state
is in its final state if a final child is active, a parallel state if all its regions are in
theirs, a final state if it is active.

Only final states below a state count (`inFinalState_mono`). If a parallel state gets into
its final state by one more state becoming active, that state is a final one within one of
its regions, the one that was missing (`exists_last_region`). It is that region itself or a
child of it, where the parallel state looks (`endsIn`), unless the region is parallel too
(`endsIn_iff`).
-/

namespace Statechart

/-- Whether a parallel state looks at its regions when a state is entered: the state is a final one,
and a region of the parallel state or a child of a compound region. -/
def Outline.endsIn {D : Domain} (c : Outline D) (p g : D.State) : Bool :=
  c.isFinal g && (c.parent? g).any fun r => r = p || (c.isCompound r && c.parent? r = some p)

namespace Chart

variable {D : Domain} {c : Chart D} {active active' : D.State → Bool} {s t p r g i : D.State}

/-! ## Enough fuel -/

theorem contains_of_mem_substates (h : t ∈ c.substates s) : c.contains t :=
  contains_of_parent (mem_substates.mp h).1

/-- As much fuel as there are levels below a state is enough. -/
theorem inFinalStateWithin_eq : ∀ (fuel fuel' : Nat) {s : D.State}, c.contains s →
    c.size ≤ fuel + c.depth s → c.size ≤ fuel' + c.depth s →
      c.inFinalStateWithin active fuel s = c.inFinalStateWithin active fuel' s
  | 0, _, s, hs, h, _ => by
    have hlt := depth_lt_size hs
    omega
  | _ + 1, 0, s, hs, _, h => by
    have hlt := depth_lt_size hs
    omega
  | fuel + 1, fuel' + 1, s, _, h, h' => by
    unfold Outline.inFinalStateWithin
    split
    · rfl
    · rw [Bool.eq_iff_iff, List.all_eq_true, List.all_eq_true]
      refine forall₂_congr fun t ht => ?_
      have hdepth := depth_of_parent (mem_substates.mp ht).1
      rw [inFinalStateWithin_eq fuel fuel' (contains_of_mem_substates ht) (by omega) (by omega)]
    · rfl
    · rfl

private theorem inFinalStateWithin_size (h : t ∈ c.substates s) {fuel : Nat}
    (hfuel : fuel + 1 = c.size) :
    c.inFinalStateWithin active fuel t = c.inFinalState active t := by
  have hdepth := depth_of_parent (mem_substates.mp h).1
  exact inFinalStateWithin_eq _ _ (contains_of_mem_substates h) (by omega) (by omega)

theorem exists_size (h : c.contains s) : ∃ fuel, fuel + 1 = c.size := by
  have hlt := depth_lt_size h
  exact ⟨c.size - 1, by omega⟩

theorem inFinalState_compound (h : c.isCompound s) : c.inFinalState active s ↔
    ∃ t, c.parent? t = some s ∧ c.isFinal t ∧ active t := by
  obtain ⟨i, hkind⟩ := isCompound_iff.mp h
  obtain ⟨fuel, hfuel⟩ := exists_size (contains_of_kind? hkind)
  rw [Outline.inFinalState, ← hfuel, Outline.inFinalStateWithin, hkind]
  simp only [List.any_eq_true, Bool.and_eq_true]
  refine exists_congr fun t => ⟨fun h => ⟨(mem_substates.mp h.1).1, h.2⟩, fun h => ⟨?_, h.2⟩⟩
  refine mem_substates.mpr ⟨h.1, fun hh => ?_⟩
  -- a final state is no history state
  obtain ⟨mode, hmode⟩ := isHistory_iff.mp hh
  have hf := h.2.1
  rw [Outline.isFinal, hasKind_of_kind? hmode] at hf
  exact absurd hf (by simp [NodeKind.isFinal])

theorem inFinalState_parallel (h : c.isParallel s) :
    c.inFinalState active s ↔ ∀ t ∈ c.substates s, c.inFinalState active t := by
  have hkind := isParallel_iff.mp h
  obtain ⟨fuel, hfuel⟩ := exists_size (contains_of_kind? hkind)
  rw [Outline.inFinalState, ← hfuel, Outline.inFinalStateWithin, hkind]
  simp only [List.all_eq_true]
  exact forall₂_congr fun t ht => by rw [inFinalStateWithin_size ht hfuel]

theorem isFinal_iff : c.isFinal s ↔ c.kind? s = some .final := by
  rw [Outline.isFinal, hasKind_iff]
  constructor
  · intro hex
    obtain ⟨k, hk, h⟩ := hex
    cases k <;> simp_all [NodeKind.isFinal]
  · intro h
    exact ⟨_, h, rfl⟩

theorem inFinalState_final (h : c.isFinal s) : c.inFinalState active s = active s := by
  have hkind := isFinal_iff.mp h
  obtain ⟨fuel, hfuel⟩ := exists_size (contains_of_kind? hkind)
  rw [Outline.inFinalState, ← hfuel, Outline.inFinalStateWithin, hkind]

/-- No other state is ever in its final state. -/
theorem inFinalState_cases (h : c.inFinalState active s) :
    c.isCompound s ∨ c.isParallel s ∨ c.isFinal s := by
  unfold Outline.inFinalState at h
  cases hsize : c.size with
  | zero => simp [hsize, Outline.inFinalStateWithin] at h
  | succ fuel =>
    rw [hsize] at h
    unfold Outline.inFinalStateWithin at h
    split at h
    · next i hk => exact Or.inl (isCompound_iff.mpr ⟨i, hk⟩)
    · next hk => exact Or.inr (Or.inl (isParallel_iff.mpr hk))
    · next hk => exact Or.inr (Or.inr (isFinal_iff.mpr hk))
    · exact absurd h (by simp)

/-! ## What it depends on -/

/-- A state stays in its final state as long as the final states within it stay active. -/
theorem inFinalState_mono (s : D.State)
    (h : ∀ x, c.isFinal x → c.isWithin x s → active x → active' x) :
    c.inFinalState active s → c.inFinalState active' s := by
  induction s using induction_from_children (c := c) with
  | step s ih =>
    intro hs
    rcases inFinalState_cases hs with hk | hk | hk
    · obtain ⟨t, ht, hfinal, hactive⟩ := (inFinalState_compound hk).mp hs
      refine (inFinalState_compound hk).mpr ⟨t, ht, hfinal, h t hfinal ?_ hactive⟩
      exact isWithin_of_isDescendant (isDescendant_parent ht)
    · refine (inFinalState_parallel hk).mpr fun t ht => ?_
      have hparent := (mem_substates.mp ht).1
      refine ih t hparent (fun x hx hxt => h x hx ?_) ((inFinalState_parallel hk).mp hs t ht)
      exact isWithin_trans hxt (isWithin_of_isDescendant (isDescendant_parent hparent))
    · rw [inFinalState_final hk] at hs ⊢
      exact h s hk (isWithin_refl s) hs

/-! ## The last region -/

/-- If a parallel state gets into its final state by `g` becoming active, then `g` is a final state
within one of its regions, which gets into its own final state. -/
theorem exists_last_region (hp : c.isParallel p)
    (hg : ∀ x, active' x ↔ active x ∨ x = g) (hbefore : ¬ c.inFinalState active p)
    (hafter : c.inFinalState active' p) : ∃ r ∈ c.substates p, c.isFinal g ∧ c.isWithin g r ∧
      ¬ c.inFinalState active r ∧ c.inFinalState active' r := by
  rw [inFinalState_parallel hp] at hbefore hafter
  obtain ⟨r, hr, hnot⟩ : ∃ r ∈ c.substates p, ¬ c.inFinalState active r := by
    by_contra hall
    push Not at hall
    exact hbefore hall
  have hwithin : c.isFinal g ∧ c.isWithin g r := by
    by_contra hout
    refine hnot (inFinalState_mono r (fun x hx hxr hactive => ?_) (hafter r hr))
    rcases (hg x).mp hactive with h | rfl
    · exact h
    · exact absurd ⟨hx, hxr⟩ hout
  exact ⟨r, hr, hwithin.1, hwithin.2, hnot, hafter r hr⟩

/-- Whether that region is the place where the parallel state looks for final states, depends on
whether it is parallel. -/
theorem endsIn_iff (hr : r ∈ c.substates p) (hfinal : c.isFinal g) (hgr : c.isWithin g r)
    (hg : ∀ x, active' x ↔ active x ∨ x = g) (hbefore : ¬ c.inFinalState active r)
    (hafter : c.inFinalState active' r) : c.endsIn p g ↔ ¬ c.isParallel r := by
  have hparent := (mem_substates.mp hr).1
  rcases inFinalState_cases hafter with hk | hk | hk
  · -- a child of the region became active, and that can only be `g`
    obtain ⟨t, ht, htfinal, htactive⟩ := (inFinalState_compound hk).mp hafter
    have htg : t = g := by
      refine ((hg t).mp htactive).resolve_left fun h => hbefore ?_
      exact (inFinalState_compound hk).mpr ⟨t, ht, htfinal, h⟩
    refine iff_of_true ?_ (not_isParallel_of_isCompound hk)
    simp [Outline.endsIn, ← htg, htfinal, ht, hk, hparent]
  · refine iff_of_false (fun hends => ?_) (fun h => h hk)
    -- the state around `g` lies within the region, and is neither the parallel state nor compound
    have hne : g ≠ r := by
      intro he
      rw [he, isFinal_iff, isParallel_iff.mp hk] at hfinal
      exact absurd hfinal (by simp)
    simp only [Outline.endsIn, Bool.and_eq_true, Option.any_eq_true, Bool.or_eq_true,
      decide_eq_true_eq] at hends
    obtain ⟨-, q, hq, hor⟩ := hends
    have hqr := isWithin_parent hq (isDescendant_of_isWithin_of_ne hgr hne)
    rcases hor with rfl | ⟨hcompound, hqp⟩
    · exact not_isDescendant_of_isWithin hqr (isDescendant_parent hparent)
    · have he := child_towards_unique hqp hparent (isWithin_refl q) hqr
      exact not_isParallel_of_isCompound hcompound (he ▸ hk)
  · have hrg : r = g := by
      rw [inFinalState_final hk] at hbefore hafter
      exact ((hg r).mp hafter).resolve_left hbefore
    refine iff_of_true ?_ fun hpar => ?_
    · simp [Outline.endsIn, ← hrg, hk, hparent]
    · rw [isFinal_iff, isParallel_iff.mp hpar] at hk
      exact absurd hk (by simp)

end Chart

end Statechart
