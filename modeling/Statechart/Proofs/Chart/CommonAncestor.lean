import Statechart.Proofs.Chart.Flawless
import Statechart.Proofs.Trace

/-!
# The least common compound ancestor

`lcca?` looks at one state of a list only, from which it goes up to the first compound state around
all the others. What it finds is nevertheless determined by the states alone, not by how they are
listed: the compound states around all of them lie one below the other, since they all lie around
the first, and it is the innermost of them that is found (`lcca?_eq_some_iff`). There are none only
if nothing is found (`lcca?_innermost`).

That the way up from the first state goes through all of them, from the inside out, is
`pairwise_ancestors`.
-/

namespace Statechart

namespace Chart

variable {D : Domain} (c : Chart D)

/-- `a` is a compound state and lies around all the states of a list. -/
def Encloses (l : List D.State) (a : D.State) : Prop := c.isCompound a ∧ ∀ s ∈ l, c.Below s a

/-- `a` is the innermost compound state around all the states of a list. -/
structure Innermost (l : List D.State) (a : D.State) : Prop where
  encloses : c.Encloses l a
  inside : ∀ b, c.Encloses l b → b ≠ a → c.Below a b

variable {c : Chart D} {s a b : D.State} {l l' : List D.State}

theorem encloses_cons_iff : c.Encloses (s :: l) a ↔
    a ∈ c.ancestors s ∧ (c.isCompound a && l.all fun t => c.isDescendant t a) = true := by
  simp only [Encloses, List.forall_mem_cons, below_iff, isDescendant_iff, Bool.and_eq_true,
    List.all_eq_true]
  exact and_left_comm

theorem innermost_unique (ha : c.Innermost l a) (hb : c.Innermost l b) : a = b := by
  by_contra hne
  exact isDescendant_asymm (below_iff.mp (ha.inside b hb.encloses (Ne.symm hne)))
    (below_iff.mp (hb.inside a ha.encloses hne))

theorem innermost_of_lcca? (h : c.lcca? (s :: l) = some a) : c.Innermost (s :: l) a := by
  -- the ancestors of `s` are listed from the inside out, so the first found is the innermost
  have hfound := List.find?_some h
  refine ⟨encloses_cons_iff.mpr ⟨List.mem_of_find?_eq_some h, hfound⟩, fun b hb hne => ?_⟩
  obtain ⟨hmem, hb⟩ := encloses_cons_iff.mp hb
  exact below_iff.mpr (isDescendant_of_find? (pairwise_ancestors s) h hmem hb hne)

theorem exists_lcca?_of_encloses (h : c.Encloses (s :: l) b) : ∃ a, c.lcca? (s :: l) = some a := by
  obtain ⟨hmem, hb⟩ := encloses_cons_iff.mp h
  exact Option.isSome_iff_exists.mp (List.find?_isSome.mpr ⟨b, hmem, hb⟩)

theorem lcca?_eq_some_iff (hl : l ≠ []) : c.lcca? l = some a ↔ c.Innermost l a := by
  obtain ⟨s, l, rfl⟩ := List.exists_cons_of_ne_nil hl
  refine ⟨innermost_of_lcca?, fun h => ?_⟩
  obtain ⟨b, hb⟩ := exists_lcca?_of_encloses h.encloses
  rw [hb, innermost_unique (innermost_of_lcca? hb) h]

theorem exists_lcca?_iff (hl : l ≠ []) : (∃ a, c.lcca? l = some a) ↔ ∃ a, c.Encloses l a := by
  obtain ⟨s, l, rfl⟩ := List.exists_cons_of_ne_nil hl
  constructor
  · rintro ⟨a, ha⟩
    exact ⟨a, (innermost_of_lcca? ha).encloses⟩
  · rintro ⟨b, hb⟩
    exact exists_lcca?_of_encloses hb

/-- The states of a list are all that counts, not their order, nor how often each is listed. -/
theorem innermost_congr (h : ∀ s, s ∈ l' ↔ s ∈ l) : c.Innermost l' a ↔ c.Innermost l a := by
  have hencloses : ∀ b, c.Encloses l' b ↔ c.Encloses l b := fun b => by simp only [Encloses, h]
  constructor
  · intro ha
    exact ⟨(hencloses a).mp ha.encloses, fun b hb => ha.inside b ((hencloses b).mpr hb)⟩
  · intro ha
    exact ⟨(hencloses a).mpr ha.encloses, fun b hb => ha.inside b ((hencloses b).mp hb)⟩

theorem lcca?_congr (hl : l ≠ []) (h : ∀ s, s ∈ l' ↔ s ∈ l) : c.lcca? l' = c.lcca? l := by
  have hl' : l' ≠ [] := by
    obtain ⟨s, hs⟩ := List.exists_mem_of_ne_nil l hl
    exact List.ne_nil_of_mem ((h s).mpr hs)
  refine Option.ext fun a => ?_
  rw [lcca?_eq_some_iff hl', lcca?_eq_some_iff hl, innermost_congr h]

/-- There is a least common compound ancestor if there is a compound state around all the states of
a list. It is the innermost of these, in whatever order and however often the states are listed. -/
theorem lcca?_innermost (c : Chart D) (hl : l ≠ []) :
    ((∃ a, c.lcca? l = some a) ↔ ∃ a, c.Encloses l a) ∧
      (∀ a, c.lcca? l = some a ↔ c.Innermost l a) ∧
      ∀ l', (∀ s, s ∈ l' ↔ s ∈ l) → c.lcca? l' = c.lcca? l :=
  ⟨exists_lcca?_iff hl, fun _ => lcca?_eq_some_iff hl, fun _ h => lcca?_congr hl h⟩

end Chart

/-! ## A hotel -/

inductive HotelState | hotel | open | kitchen | cold | hot | bar | quiet | busy | closed
deriving DecidableEq

/-- A hotel whose kitchen and bar are open at the same times. -/
def hotelTree : StateTree (.bare HotelState) :=
  .bare .hotel (.compound .open) []
    [.bare .open .parallel []
      [.bare .kitchen (.compound .cold) [] [.bare .cold .atomic, .bare .hot .atomic],
      .bare .bar (.compound .quiet) [] [.bare .quiet .atomic, .bare .busy .atomic]],
    .bare .closed .atomic]

def hotel : Chart (.bare HotelState) :=
  { hotelTree.outline with tree := hotelTree, outline_eq := rfl, flawless := by cbv }

/-- Of the states around a hot kitchen and a busy bar, the nearer is parallel, so that the hotel is
the innermost compound one, whichever of the two is named first and however often. -/
theorem hotel_innermost : ([.hot, .busy] : List HotelState) ≠ [] ∧
    hotel.Innermost [.hot, .busy] .hotel ∧ ¬ hotel.Encloses [.hot, .busy] .open ∧
    hotel.lcca? [.busy, .hot, .busy] = some .hotel := by
  have hl : ([.hot, .busy] : List HotelState) ≠ [] := by simp
  obtain ⟨-, hinnermost, hcongr⟩ := Chart.lcca?_innermost hotel hl
  have hfound : hotel.lcca? [.hot, .busy] = some .hotel := by decide
  refine ⟨hl, (hinnermost .hotel).mp hfound, fun h => absurd h.1 (by decide), ?_⟩
  rw [hcongr [.busy, .hot, .busy] (by simp [or_comm]), hfound]

end Statechart
