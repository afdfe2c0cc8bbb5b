import Statechart.Proofs.Entry.Bounds

/-!
# Entering stays local

What is entered along with a state below `r` lies below `r`. So what history states elsewhere
remember makes no difference: with two histories that agree below `r`, the same states are entered,
or it has no end with either (`addDescendants_congr`). The statements are equations, as the loops
stop at the same state in either case.
-/

namespace Statechart.Chart

variable {D : Domain} {c : Chart D} {h h' : History D.State} {r s b p : D.State}
  {add add' : D.State → StateSet D.State → Option (StateSet D.State)} {set : StateSet D.State}

theorem foldlM_congr {α β : Type} {f g : β → α → Option β} :
    ∀ {l : List α} {b : β}, (∀ a ∈ l, ∀ b, f b a = g b a) → l.foldlM f b = l.foldlM g b
  | [], _, _ => rfl
  | a :: l, b, hfg => by
    rw [List.foldlM_cons, List.foldlM_cons, hfg a (List.mem_cons_self ..) b]
    exact bind_congr fun b' => foldlM_congr fun x hx => hfg x (List.mem_cons_of_mem _ hx)

section

variable (hadd : ∀ t set, c.isDescendant t r → add t set = add' t set)

include hadd

theorem addRegions_congr (hp : c.isWithin p r) : c.addRegions add p set = c.addRegions add' p set := by
  refine foldlM_congr fun t ht S => ?_
  have htr : c.isDescendant t r :=
    isDescendant_of_isDescendant_of_isWithin (isDescendant_parent (mem_substates.mp ht).1) hp
  rw [hadd t S htr]

theorem addAncestors_congr (hs : c.isDescendant s b) (hb : c.isWithin b r) :
    c.addAncestors add s b set = c.addAncestors add' s b set := by
  refine foldlM_congr fun a ha S => ?_
  have har : c.isDescendant a r :=
    isDescendant_of_isDescendant_of_isWithin ((mem_ancestorsBelow hs).mp ha).2 hb
  rw [addRegions_congr hadd (isWithin_of_isDescendant har)]

end

/-- A history state below `r` stands for the same with two histories that agree below `r`. -/
theorem restored_congr {n : Node D} (hn : c.node? s = some n) (hagree : h'.get? s = h.get? s) :
    c.restored h' n = c.restored h n := by
  rw [Outline.restored, Outline.restored, (c.node?_eq_some.mp hn).2, hagree]

/-- Entering a state below `r` is the same with two histories that agree below `r`. -/
theorem addDescendants_congr (hb : c.BoundedHistory h)
    (hagree : ∀ s, c.isDescendant s r → h'.get? s = h.get? s) (fuel : Nat) :
    ∀ s set, c.isDescendant s r →
      c.addDescendants h' fuel s set = c.addDescendants h fuel s set := by
  induction fuel with
  | zero => exact fun _ _ _ => rfl
  | succ fuel ih =>
    intro s set hs
    unfold Outline.addDescendants
    -- all that comes along lies below `r` again, where the records agree
    cases hn : c.node? s with
    | none => rfl
    | some n =>
      cases hk : n.kind with
      | history mode =>
        simp only [hk]
        cases hp : n.parent? with
        | none => rfl
        | some p =>
          have hparent : c.parent? s = some p := (parent?_of_node hn).symm.trans hp
          have hpr : c.isWithin p r := isWithin_parent hparent hs
          have hbelow : ∀ t ∈ c.restored h n, c.isDescendant t p := fun t ht =>
            restored_below hb hn (by rw [hk]; rfl) hparent ht
          simp only [restored_congr hn (hagree s hs)]
          rw [foldlM_congr fun t ht S =>
            ih t S (isDescendant_of_isDescendant_of_isWithin (hbelow t ht) hpr)]
          exact bind_congr fun S => foldlM_congr fun t ht S =>
            addAncestors_congr ih (hbelow t ht) hpr
      | compound initial =>
        simp only [hk]
        have hkind : c.kind? s = some (.compound initial) := by rw [kind?_of_node hn, hk]
        have hi : c.isDescendant initial s :=
          isDescendant_parent (mem_substates.mp (initial_mem_substates hkind)).1
        rw [ih initial _ (isDescendant_trans hi hs)]
        exact bind_congr fun S => addAncestors_congr ih hi (isWithin_of_isDescendant hs)
      | parallel =>
        simp only [hk]
        exact addRegions_congr ih (isWithin_of_isDescendant hs)
      | atomic | final => simp only [hk]

end Statechart.Chart
