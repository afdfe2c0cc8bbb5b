import Statechart.Proofs.Machine.Offers
import Statechart.Proofs.Trace

/-!
# How conflicts are resolved

Selected transitions are gone through in order, and a transition may be kept at first and replaced
later on, by one that may be replaced itself. Whatever happens, the transitions that are left do not
conflict, and one that is left out has lost to one of them (`LosesTo`): to one declared below it, or
to one that was selected before it and is not declared around it (`exists_resolved`).

Two facts about the tree are behind this. Transitions that leave anything, declared on states one of
which lies below the other, conflict (`conflicts_of_isWithin_source`), so that one that was replaced
may be said to have lost to the replacement of its replacement. And if two leaves lie within a state
then so do all leaves between them: one that has lost to an earlier transition, which is replaced by
a later one, is declared on a state around both, and loses to the later one as well
(`losesTo_of_dropped`).
-/

namespace Statechart.Machine

open Chart

variable {D : Domain} {m : Machine D} {signal : Signal D} {s x y : D.State}
  {t u d k : Selected D} {l : List (Selected D)} {leaves : List D.State} {e : D.Event}

/-! ## Leaves in order -/

/-- A transition is selected for one leaf. -/
theorem selectedFor_unique (hleaves : ∀ x ∈ leaves, m.chart.contains x)
    (hx : m.SelectedFor signal leaves x t) (hy : m.SelectedFor signal leaves y t) : x = y :=
  position_inj (hleaves x hx.mem) (hleaves y hy.mem)
    (le_antisymm (hx.first y hy.mem hy.offers) (hy.first x hx.mem hx.offers))

/-- What is selected for a leaf is declared on it or around it. -/
theorem isWithin_source (h : m.SelectedFor signal leaves x t) : m.chart.isWithin x t.source :=
  isWithin_iff.mpr
    ((List.mem_cons.mp (mem_firstEnabledOf h.offers).1).imp Eq.symm isDescendant_iff.mpr)

/-- Where one of three transitions selected in order is declared below the first, the one between
them is declared below the first or around it. -/
theorem comparable_of_between (h : m.select (.event e) = .ok l) (hsub : [k, d, t].Sublist l)
    (htk : m.chart.isDescendant t.source k.source) :
    m.chart.isDescendant d.source k.source ∨ m.chart.isDescendant k.source d.source := by
  have hleaves : ∀ x ∈ m.active.filter m.chart.isAtomic, m.chart.contains x :=
    fun x hx => contains_of_isAtomic (List.mem_filter.mp hx).2
  obtain ⟨-, hpairs⟩ := pairwise_selectAbove pairwise_active_atomic h
  have hpairs := hpairs.sublist hsub
  simp only [List.pairwise_cons, List.mem_cons, List.not_mem_nil, or_false, forall_eq_or_imp,
    forall_eq] at hpairs
  obtain ⟨⟨⟨x, y, hx, hy, hxy⟩, -⟩, ⟨y', z, hy', hz, hyz⟩, -⟩ := hpairs
  obtain rfl := selectedFor_unique hleaves hy hy'
  have hyk : m.chart.isWithin y k.source :=
    isWithin_of_between (hleaves x hx.mem) (hleaves y hy.mem) (hleaves z hz.mem) hxy hyz
      (isWithin_source hx) (isWithin_trans (isWithin_source hz) (isWithin_of_isDescendant htk))
  rcases isWithin_or_of_common (isWithin_source hy) hyk with hdk | hkd
  · refine Or.inl (isDescendant_of_isWithin_of_ne hdk fun he => ?_)
    -- a state has one transition to offer
    have hne : k ≠ d := by
      rintro rfl
      have hnodup := (nodup_selectAbove h).sublist hsub
      simp at hnodup
    exact hne (eq_of_source hx.offers hy.offers he.symm)
  · exact Or.inr hkd

/-! ## What overlaps -/

theorem isWithin_domain_of_contains {r : D.State} (hsource : m.chart.contains t.source)
    (h : m.domain? t = some r) : m.chart.isWithin t.source r := by
  rw [(domain_eq_nearest h).2]
  exact isWithin_nearest hsource

/-- Transitions that leave anything conflict if one is declared within the source of the other. -/
theorem conflicts_of_isWithin_source (ht : m.chart.contains t.source)
    (hd : m.chart.contains d.source) (h : m.chart.isWithin t.source d.source)
    (hx : x ∈ m.exitSet t) (hy : y ∈ m.exitSet d) : m.conflicts d t := by
  obtain ⟨r, hr, hxactive, hxr⟩ := mem_exitSet.mp hx
  obtain ⟨q, hq, hyactive, hyq⟩ := mem_exitSet.mp hy
  -- both domains are on the way up from the deeper source
  have htr : m.chart.isWithin t.source r := isWithin_domain_of_contains ht hr
  have htq : m.chart.isWithin t.source q := isWithin_trans h (isWithin_domain_of_contains hd hq)
  rcases isWithin_or_of_common htr htq with hrq | hqr
  · have hxq := isDescendant_of_isDescendant_of_isWithin hxr hrq
    exact conflicts_iff.mpr ⟨x, mem_exitSet.mpr ⟨q, hq, hxactive, hxq⟩, hx⟩
  · have hyr := isDescendant_trans hyq hqr
    exact conflicts_iff.mpr ⟨y, hy, mem_exitSet.mpr ⟨r, hr, hyactive, hyr⟩⟩

/-! ## What is left -/

/-- Whether a transition loses to another that was selected with it: both leave some state, and the
other is declared below it, or was selected before it and is not declared around it. -/
def LosesTo (m : Machine D) (selected : List (Selected D)) (d k : Selected D) : Prop :=
  (∃ x, x ∈ m.exitSet d ∧ x ∈ m.exitSet k) ∧
    (m.chart.isDescendant k.source d.source ∨
      ([k, d].Sublist selected ∧ ¬ m.chart.isDescendant d.source k.source))

/-- A transition replaces what it conflicts with if it is declared below all of it. -/
theorem keepOrDrop_spec (kept : List (Selected D)) (t : Selected D) :
    (m.keepOrDrop kept t = kept.filter (!m.conflicts t ·) ++ [t] ∧
      ∀ k ∈ kept, m.conflicts t k → m.chart.isDescendant t.source k.source) ∨
    (m.keepOrDrop kept t = kept ∧
      ∃ k ∈ kept, m.conflicts t k ∧ ¬ m.chart.isDescendant t.source k.source) := by
  unfold keepOrDrop
  dsimp only
  split
  · next hall =>
    refine Or.inl ⟨rfl, fun k hk hconflicts => ?_⟩
    exact List.all_eq_true.mp hall k (List.mem_filter.mpr ⟨hk, hconflicts⟩)
  · next hall =>
    simp only [List.all_eq_true, List.mem_filter, not_forall] at hall
    obtain ⟨k, ⟨hk, hconflicts⟩, hnot⟩ := hall
    exact Or.inr ⟨rfl, k, hk, hconflicts, hnot⟩

theorem withoutConflicts_concat (front : List (Selected D)) (t : Selected D) :
    m.withoutConflicts (front ++ [t]) = m.keepOrDrop (m.withoutConflicts front) t := by
  rw [withoutConflicts, List.foldl_append]
  rfl

/-- What is left out has lost to something that is left, as long as transitions are declared below
or around the first of three if they are selected between it and one declared below it. -/
theorem losesTo_of_dropped (hsources : ∀ t ∈ l, m.chart.contains t.source) (hnodup : l.Nodup)
    (hbetween : ∀ k d t, [k, d, t].Sublist l → m.chart.isDescendant t.source k.source →
      m.chart.isDescendant d.source k.source ∨ m.chart.isDescendant k.source d.source) :
    ∀ d ∈ l, d ∉ m.withoutConflicts l → ∃ k ∈ m.withoutConflicts l, m.LosesTo l d k := by
  induction l using List.reverseRecOn with
  | nil => exact fun d hd => absurd hd List.not_mem_nil
  | append_singleton front t ih =>
    have hfront : front.Sublist (front ++ [t]) := List.sublist_append_left ..
    have ih := ih (fun u hu => hsources u (hfront.subset hu)) (hnodup.sublist hfront)
      fun k d u hsub => hbetween k d u (hsub.trans hfront)
    have hkept : ∀ k ∈ m.withoutConflicts front, k ∈ front :=
      fun k hk => (sublist_withoutConflicts front).subset hk
    have hbefore : ∀ k ∈ front, [k, t].Sublist (front ++ [t]) := fun k hk =>
      (List.singleton_sublist.mpr hk).append (List.Sublist.refl [t])
    intro d hd hdropped
    rw [withoutConflicts_concat] at hdropped ⊢
    rcases keepOrDrop_spec (m := m) (m.withoutConflicts front) t with
      ⟨he, hbelow⟩ | ⟨he, k, hk, hconflicts, hnot⟩
    · -- `t` is kept
      rw [he, List.mem_append, List.mem_singleton, not_or] at hdropped
      obtain ⟨hdropped, hdt⟩ := hdropped
      have hd : d ∈ front := (List.mem_append.mp hd).resolve_right (by simpa using hdt)
      by_cases hdkept : d ∈ m.withoutConflicts front
      · have hconflicts : m.conflicts t d := by
          by_contra hfree
          exact hdropped (List.mem_filter.mpr ⟨hdkept, by simpa using hfree⟩)
        exact ⟨t, by rw [he]; simp, conflicts_iff.mp (conflicts_comm.mp hconflicts),
          Or.inl (hbelow d hdkept hconflicts)⟩
      · obtain ⟨k, hk, ⟨x, hxd, hxk⟩, hwhy⟩ := ih d hd hdkept
        by_cases hconflicts : m.conflicts t k
        · -- what `d` has lost to is replaced by `t`, which is declared below `d` as well
          have htk := hbelow k hk hconflicts
          have hkd : m.chart.isDescendant k.source d.source := by
            rcases hwhy with hkd | ⟨hsub, hndk⟩
            · exact hkd
            · exact (hbetween k d t (hsub.append (List.Sublist.refl [t])) htk).resolve_left hndk
          have htd := isDescendant_trans htk hkd
          obtain ⟨y, hyt, -⟩ := conflicts_iff.mp hconflicts
          refine ⟨t, by rw [he]; simp, conflicts_iff.mp ?_, Or.inl htd⟩
          exact conflicts_of_isWithin_source (hsources t (by simp))
            (hsources d (hfront.subset hd)) (isWithin_of_isDescendant htd) hyt hxd
        · refine ⟨k, ?_, ⟨x, hxd, hxk⟩, hwhy.imp_right fun h => ⟨h.1.trans hfront, h.2⟩⟩
          rw [he]
          exact List.mem_append_left _ (List.mem_filter.mpr ⟨hk, by simpa using hconflicts⟩)
    · -- `t` is dropped
      rw [he] at hdropped ⊢
      rcases List.mem_append.mp hd with hd | hd
      · obtain ⟨k, hk, hover, hwhy⟩ := ih d hd hdropped
        exact ⟨k, hk, hover, hwhy.imp_right fun h => ⟨h.1.trans hfront, h.2⟩⟩
      · obtain rfl := List.mem_singleton.mp hd
        exact ⟨k, hk, conflicts_iff.mp hconflicts, Or.inr ⟨hbefore k (hkept k hk), hnot⟩⟩

/-! ## Selecting -/

/-- An event sets off some transitions or none, unless a guard panics. -/
theorem select_event_guards :
    (m.select (.event e)).Ends (fun _ => True) (fun _ d => d.OfGuard) False := by
  refine selectAbove_ends (fun t _ => ?_) fun x hx s hs => ?_
  · exact Attempt.ends_mono guardHolds_ends (fun _ h => h) (fun _ _ h => h.2) id
  · exact lookup_of_contains
      (contains_of_mem_path (contains_of_isAtomic (List.mem_filter.mp hx).2) hs)

/-- What is left when conflicts between some transitions are resolved. -/
structure Resolved (m : Machine D) (selected kept : List (Selected D)) : Prop where
  sublist : kept.Sublist selected
  apart : kept.Pairwise fun t u => ∀ x, x ∈ m.exitSet t → x ∉ m.exitSet u
  /-- Nothing is left out for nothing, nor for what is declared around it. -/
  lost : ∀ d ∈ selected, d ∉ kept →
    ∃ k ∈ kept, m.LosesTo selected d k ∧ ¬ m.chart.isDescendant d.source k.source

/-- If no guard panics, an event sets off some transitions, each once, and those that are left when
conflicts are resolved leave no state in common, every other one having lost to one of them. -/
theorem exists_resolved (hguards : ∀ m' d, m.select (.event e) = .error (.defect m' d) → ¬ d.OfGuard) :
    ∃ selected, m.select (.event e) = .ok selected ∧ selected.Nodup ∧
      m.Resolved selected (m.withoutConflicts selected) := by
  obtain ⟨l, hl⟩ : ∃ l, m.select (.event e) = .ok l :=
    Attempt.exists_ok select_event_guards fun m' d h =>
      hguards m' d h (select_event_guards.defect h)
  have hnodup : l.Nodup := nodup_selectAbove hl
  refine ⟨l, hl, hnodup, sublist_withoutConflicts l, ?_, ?_⟩
  · refine (pairwise_withoutConflicts l).imp fun h x hxt hxu => ?_
    exact h (conflicts_iff.mpr ⟨x, hxt, hxu⟩)
  · intro d hd hdropped
    obtain ⟨k, hk, hloses⟩ := losesTo_of_dropped
      (fun t ht => source_of_declared (mem_select hl ht).1) hnodup
      (fun k d t hsub htk => comparable_of_between hl hsub htk) d hd hdropped
    exact ⟨k, hk, hloses, hloses.2.elim isDescendant_asymm And.right⟩

end Statechart.Machine

namespace Statechart

/-! ## An office -/

inductive OfficeState | building | floor | west | desk | east | lamp | north | door | closed
deriving DecidableEq

/-- An office that is closed on an alarm, by whom it may concern. -/
def officeTree : StateTree (.bare OfficeState) :=
  .bare .building (.compound .floor) []
    [.bare .floor .parallel [.bare "alarm" .closed]
      [.bare .west (.compound .desk) [] [.bare .desk .atomic],
      .bare .east (.compound .lamp) [] [.bare .lamp .atomic [.bare "alarm" .closed]],
      .bare .north (.compound .door) [] [.bare .door .atomic [.bare "alarm" .closed]]],
    .bare .closed .atomic]

def office : Chart (.bare OfficeState) :=
  { officeTree.outline with tree := officeTree, outline_eq := rfl, flawless := by cbv }

open Machine in
/-- On an alarm, the floor is replaced by the lamp, which is below it, and the door is too late. -/
theorem office_resolved : ∃ steps m selected, Run office steps m ∧
    m.select (.event "alarm") = .ok selected ∧
    selected.map (·.source) = [.floor, .lamp, .door] ∧
    (m.withoutConflicts selected).map (·.source) = [.lamp] ∧
    m.Resolved selected (m.withoutConflicts selected) := by
  have hselects : ((office.machine.trace [.start]).2.select (.event "alarm")).toOption.map
      (fun l => (l.map (·.source),
        ((office.machine.trace [.start]).2.withoutConflicts l).map (·.source))) =
        some ([.floor, .lamp, .door], [.lamp]) := by cbv
  obtain ⟨selected, hselected, hsources⟩ := Option.map_eq_some_iff.mp hselects
  have hselected := toOption_eq_some hselected
  obtain ⟨selected', hselected', -, hresolved⟩ := exists_resolved fun m' d h =>
    absurd (hselected.symm.trans h) (by simp)
  obtain rfl := Except.ok.inj (hselected.symm.trans hselected')
  rw [Prod.mk.injEq] at hsources
  exact ⟨_, _, selected, office.run_trace [.start], hselected, hsources.1, hsources.2, hresolved⟩

end Statechart
