import Mathlib.Data.List.Sort
import Statechart.Chart.Order
import Statechart.Proofs.Chart.Ancestry

/-!
# The states of a chart in order

The orders in which states are listed, left and entered go by depth and by position in the
document. No two states of a chart have the same position (`position_inj`), so each order puts the
same states into the same sequence, however they were listed before (`sort_congr`), and leaving
some of them out does not disturb the others (`filter_sort`). Document order is the one in which
the chart lists its states (`inDocumentOrder_eq`). In the order of leaving no state comes after a
state around it (`pairwise_inExitOrder`).
-/

namespace Statechart.Chart

variable {D : Domain} {c : Chart D} {s a b r : D.State} {le : D.State → D.State → Bool}
  {l l' : List D.State} {p : D.State → Bool}

theorem depth_lt_of_isDescendant (h : c.isDescendant s a) : c.depth a < c.depth s := by
  induction hk : c.depth s generalizing s with
  | zero =>
    obtain ⟨p, hp, -⟩ := isDescendant_iff_parent.mp h
    have hdepth := depth_of_parent hp
    omega
  | succ k ih =>
    obtain ⟨p, hp, hpa⟩ := isDescendant_iff_parent.mp h
    have hdepth := depth_of_parent hp
    rcases isWithin_iff.mp hpa with rfl | hpa
    · omega
    · have hlt := ih hpa (by omega)
      omega

theorem order_of_contains (h : c.contains s) : ∃ (i : Nat) (hi : i < c.nodes.length),
    c.order? s = some i ∧ (c.nodes[i]).id = s := by
  obtain ⟨n, hn⟩ := contains_iff.mp h
  obtain ⟨hmem, hid⟩ := c.node?_eq_some.mp hn
  cases ho : c.order? s with
  | none =>
    rw [Outline.order?, List.findIdx?_eq_none_iff] at ho
    exact absurd (ho n hmem) (by simp [hid])
  | some i =>
    obtain ⟨hi, hp, -⟩ := List.findIdx?_eq_some_iff_getElem.mp ho
    exact ⟨i, hi, rfl, by simpa using hp⟩

/-- No two states of a chart have the same position. -/
theorem position_inj (ha : c.contains a) (hb : c.contains b) (h : c.position a = c.position b) :
    a = b := by
  obtain ⟨i, hi, hoa, hida⟩ := order_of_contains ha
  obtain ⟨j, hj, hob, hidb⟩ := order_of_contains hb
  rw [Outline.position, Outline.position, hoa, hob] at h
  obtain rfl : i = j := h
  exact hida.symm.trans hidb

/-- The states within one state stand together in the document. -/
theorem isWithin_of_between (ha : c.contains a) (hs : c.contains s) (hb : c.contains b)
    (has : c.position a < c.position s) (hsb : c.position s < c.position b)
    (hawithin : c.isWithin a r) (hbwithin : c.isWithin b r) : c.isWithin s r := by
  obtain ⟨i, hi, hoa, hida⟩ := order_of_contains ha
  obtain ⟨j, hj, hos, hids⟩ := order_of_contains hs
  obtain ⟨k, hk, hob, hidb⟩ := order_of_contains hb
  rw [Outline.position, Outline.position, hoa, hos] at has
  rw [Outline.position, Outline.position, hos, hob] at hsb
  -- the entry at a position is that of the state there
  have hentry : ∀ {x : D.State} {n : Node D}, n ∈ c.nodes → n.id = x →
      (c.isWithin x r ↔ r = n.id ∨ r ∈ n.ancestors) := by
    rintro _ n hn rfl
    rw [isWithin_iff, isDescendant_iff, ancestors_of_node (node?_of_mem hn), eq_comm]
  have hlisted : [c.nodes[i], c.nodes[j], c.nodes[k]].Sublist c.nodes := by
    have hfront : c.nodes[i] ∈ c.nodes.take j := List.mem_take_iff_getElem.mpr
      ⟨i, lt_min has hi, rfl⟩
    have hback : c.nodes[k] ∈ c.nodes.drop (j + 1) := List.mem_drop_iff_getElem.mpr
      ⟨k - (j + 1), by simp only [Option.getD_some] at hsb; omega, by
        congr 1
        simp only [Option.getD_some] at hsb
        omega⟩
    have hsub := (List.singleton_sublist.mpr hfront).append
      ((List.singleton_sublist.mpr hback).cons_cons c.nodes[j])
    rwa [← List.drop_eq_getElem_cons hj, List.take_append_drop] at hsub
  rw [hentry (List.getElem_mem hi) hida] at hawithin
  rw [hentry (List.getElem_mem hk) hidb] at hbwithin
  rw [hentry (List.getElem_mem hj) hids]
  have hnodup := c.nodup_ids
  rw [c.nodes_eq] at hnodup
  exact StateTree.entries_between List.not_mem_nil hawithin hbwithin c.tree hnodup
    (c.nodes_eq ▸ hlisted)

/-! ## Orders -/

/-- An order that tells any two states of the chart apart. -/
structure IsOrder (c : Chart D) (le : D.State → D.State → Bool) : Prop where
  trans : ∀ a b d, le a b = true → le b d = true → le a d = true
  total : ∀ a b, (le a b || le b a) = true
  antisymm : ∀ a b, c.contains a → c.contains b → le a b = true → le b a = true → a = b

theorem isOrder_documentLe : c.IsOrder c.documentLe where
  trans := by
    intro a b d
    simp only [Outline.documentLe, decide_eq_true_eq]
    omega
  total := by
    intro a b
    simp only [Outline.documentLe, Bool.or_eq_true, decide_eq_true_eq]
    omega
  antisymm := by
    intro a b ha hb hab hba
    simp only [Outline.documentLe, decide_eq_true_eq] at hab hba
    exact position_inj ha hb (by omega)

theorem isOrder_exitLe : c.IsOrder c.exitLe where
  trans := by
    intro a b d
    simp only [Outline.exitLe, Bool.or_eq_true, Bool.and_eq_true, decide_eq_true_eq]
    omega
  total := by
    intro a b
    simp only [Outline.exitLe, Bool.or_eq_true, Bool.and_eq_true, decide_eq_true_eq]
    omega
  antisymm := by
    intro a b ha hb hab hba
    simp only [Outline.exitLe, Bool.or_eq_true, Bool.and_eq_true, decide_eq_true_eq] at hab hba
    exact position_inj ha hb (by omega)

theorem isOrder_entryLe : c.IsOrder c.entryLe where
  trans := by
    intro a b d
    simp only [Outline.entryLe, Bool.or_eq_true, Bool.and_eq_true, decide_eq_true_eq]
    omega
  total := by
    intro a b
    simp only [Outline.entryLe, Bool.or_eq_true, Bool.and_eq_true, decide_eq_true_eq]
    omega
  antisymm := by
    intro a b ha hb hab hba
    simp only [Outline.entryLe, Bool.or_eq_true, Bool.and_eq_true, decide_eq_true_eq] at hab hba
    exact position_inj ha hb (by omega)

/-- Two lists of the same states of a chart are the same when they are put in order. -/
theorem sort_congr (hle : c.IsOrder le) (hl : ∀ x ∈ l, c.contains x) (h : l.Perm l') :
    l.mergeSort le = l'.mergeSort le := by
  refine List.Perm.eq_of_pairwise (fun a b ha hb => ?_) (List.pairwise_mergeSort hle.trans hle.total l)
    (List.pairwise_mergeSort hle.trans hle.total l')
    ((List.mergeSort_perm l le).trans (h.trans (List.mergeSort_perm l' le).symm))
  exact hle.antisymm a b (hl a (List.mem_mergeSort.mp ha))
    (hl b (h.mem_iff.mpr (List.mem_mergeSort.mp hb)))

/-- States left out beforehand are missing afterwards, and nothing else has changed. -/
theorem filter_sort (hle : c.IsOrder le) (hl : ∀ x ∈ l, c.contains x) :
    (l.mergeSort le).filter p = (l.filter p).mergeSort le := by
  refine List.Perm.eq_of_pairwise (fun a b ha hb => ?_)
    ((List.pairwise_mergeSort hle.trans hle.total l).filter p)
    (List.pairwise_mergeSort hle.trans hle.total _)
    (((List.mergeSort_perm l le).filter p).trans (List.mergeSort_perm _ le).symm)
  exact hle.antisymm a b (hl a (List.mem_mergeSort.mp (List.mem_filter.mp ha).1))
    (hl b (List.mem_filter.mp (List.mem_mergeSort.mp hb)).1)

/-- Of two states that are put in order, the lesser comes first. -/
theorem pair_sublist_sort (hle : c.IsOrder le) (hl : ∀ x ∈ l, c.contains x) (ha : a ∈ l)
    (hb : b ∈ l) (hne : a ≠ b) (hab : le a b) : [a, b].Sublist (l.mergeSort le) := by
  have ha' : a ∈ l.mergeSort le := List.mem_mergeSort.mpr ha
  have hb' : b ∈ l.mergeSort le := List.mem_mergeSort.mpr hb
  obtain ⟨front, back, he⟩ := List.append_of_mem ha'
  have hsorted := List.pairwise_mergeSort hle.trans hle.total l
  rw [he] at hb' hsorted ⊢
  rcases List.mem_append.mp hb' with hfront | hback
  · have hba : le b a := (List.pairwise_append.mp hsorted).2.2 b hfront a (List.mem_cons_self ..)
    exact absurd (hle.antisymm a b (hl a ha) (hl b hb) hab hba) hne
  · have hback := (List.mem_cons.mp hback).resolve_left (Ne.symm hne)
    exact List.Sublist.trans ((List.singleton_sublist.mpr hback).cons_cons a)
      (List.sublist_append_right ..)

/-- The states of a chart stand in the order of their positions. -/
theorem pairwise_nodes : (c.nodes.map (·.id)).Pairwise fun s t => c.documentLe s t := by
  have hposition : ∀ (i : Nat) (hi : i < c.nodes.length), c.position (c.nodes[i]).id = i := by
    intro i hi
    obtain ⟨j, hj, horder, hid⟩ := order_of_contains (contains_of_mem (List.getElem_mem hi))
    have hsame : c.nodes[j] = c.nodes[i] :=
      List.inj_on_of_nodup_map c.nodup_ids (List.getElem_mem hj) (List.getElem_mem hi) hid
    rw [Outline.position, horder]
    exact ((List.Nodup.of_map _ c.nodup_ids).getElem_inj_iff).mp hsame
  refine List.pairwise_iff_getElem.mpr fun i j hi hj hij => ?_
  rw [List.length_map] at hi hj
  rw [List.getElem_map, List.getElem_map, Outline.documentLe, hposition i hi, hposition j hj]
  exact decide_eq_true hij.le

/-- Document order is the order in which the chart lists its states. -/
theorem inDocumentOrder_eq (hnodup : l.Nodup) (hl : ∀ s ∈ l, c.contains s) :
    c.inDocumentOrder l = (c.nodes.map (·.id)).filter (· ∈ l) := by
  have hmem : ∀ s, s ∈ (c.nodes.map (·.id)).filter (· ∈ l) ↔ s ∈ l := by
    intro s
    rw [List.mem_filter, decide_eq_true_iff]
    refine and_iff_right_of_imp fun hs => ?_
    obtain ⟨n, hn⟩ := contains_iff.mp (hl s hs)
    obtain ⟨hnode, rfl⟩ := c.node?_eq_some.mp hn
    exact List.mem_map_of_mem hnode
  have hperm : l.Perm ((c.nodes.map (·.id)).filter (· ∈ l)) :=
    (List.perm_ext_iff_of_nodup hnodup (c.nodup_ids.filter _)).mpr fun s => (hmem s).symm
  refine List.Perm.eq_of_pairwise (fun s t hs ht => ?_)
    (List.pairwise_mergeSort isOrder_documentLe.trans isOrder_documentLe.total l)
    (pairwise_nodes.filter _) ((List.mergeSort_perm l _).trans hperm)
  exact isOrder_documentLe.antisymm s t (hl s (List.mem_mergeSort.mp hs)) (hl t ((hmem t).mp ht))

/-- In the order of leaving no state comes after a state around it. -/
theorem pairwise_inExitOrder (l : List D.State) :
    (c.inExitOrder l).Pairwise fun a b => ¬ c.isDescendant b a := by
  refine (List.pairwise_mergeSort isOrder_exitLe.trans isOrder_exitLe.total l).imp fun hab hba => ?_
  have hdepth := depth_lt_of_isDescendant hba
  simp only [Outline.exitLe, Bool.or_eq_true, Bool.and_eq_true, decide_eq_true_eq] at hab
  omega

theorem nodup_inExitOrder (h : l.Nodup) : (c.inExitOrder l).Nodup :=
  (List.mergeSort_perm l c.exitLe).nodup_iff.mpr h

/-! ## Leaving and entering -/

/-- States in the order in which they are left: each after those below it, and those of one depth
backwards. There is one such list of them. -/
structure Leaving (c : Chart D) (l : List D.State) : Prop where
  nodup : l.Nodup
  inward : ∀ a ∈ l, ∀ s ∈ l, c.isDescendant s a → [s, a].Sublist l
  backward : ∀ a ∈ l, ∀ b ∈ l, c.depth a = c.depth b → c.position a < c.position b → [b, a].Sublist l
  unique : ∀ l', l'.Nodup → (∀ x, x ∈ l' ↔ x ∈ l) → c.inExitOrder l' = l

/-- States in the order in which they are entered: each before those below it, and those of one depth
forwards. There is one such list of them. -/
structure Entering (c : Chart D) (l : List D.State) : Prop where
  nodup : l.Nodup
  outward : ∀ a ∈ l, ∀ s ∈ l, c.isDescendant s a → [a, s].Sublist l
  forward : ∀ a ∈ l, ∀ b ∈ l, c.depth a = c.depth b → c.position a < c.position b → [a, b].Sublist l
  unique : ∀ l', l'.Nodup → (∀ x, x ∈ l' ↔ x ∈ l) → c.inEntryOrder l' = l

theorem leaving_inExitOrder (hnodup : l.Nodup) (hl : ∀ x ∈ l, c.contains x) :
    c.Leaving (c.inExitOrder l) := by
  have hpair : ∀ {a b}, a ∈ c.inExitOrder l → b ∈ c.inExitOrder l → a ≠ b → c.exitLe a b →
      [a, b].Sublist (c.inExitOrder l) := fun ha hb hne hab =>
    pair_sublist_sort isOrder_exitLe hl (List.mem_mergeSort.mp ha) (List.mem_mergeSort.mp hb) hne hab
  refine ⟨nodup_inExitOrder hnodup, fun a ha s hs hsa => ?_, fun a ha b hb hdepth hpos => ?_,
    fun l' hnodup' hmem => ?_⟩
  · have hdepth := depth_lt_of_isDescendant hsa
    exact hpair hs ha (ne_of_isDescendant hsa) (by simp [Outline.exitLe, hdepth])
  · refine hpair hb ha (fun he => ?_) (by simp [Outline.exitLe, hdepth, hpos.le])
    rw [he] at hpos
    exact lt_irrefl _ hpos
  · have hperm : l'.Perm l := (List.perm_ext_iff_of_nodup hnodup' hnodup).mpr fun x =>
      (hmem x).trans List.mem_mergeSort
    exact sort_congr isOrder_exitLe (fun x hx => hl x (hperm.mem_iff.mp hx)) hperm

theorem entering_inEntryOrder (hnodup : l.Nodup) (hl : ∀ x ∈ l, c.contains x) :
    c.Entering (c.inEntryOrder l) := by
  have hpair : ∀ {a b}, a ∈ c.inEntryOrder l → b ∈ c.inEntryOrder l → a ≠ b → c.entryLe a b →
      [a, b].Sublist (c.inEntryOrder l) := fun ha hb hne hab =>
    pair_sublist_sort isOrder_entryLe hl (List.mem_mergeSort.mp ha) (List.mem_mergeSort.mp hb) hne hab
  refine ⟨(List.mergeSort_perm l c.entryLe).nodup_iff.mpr hnodup, fun a ha s hs hsa => ?_,
    fun a ha b hb hdepth hpos => ?_, fun l' hnodup' hmem => ?_⟩
  · have hdepth := depth_lt_of_isDescendant hsa
    exact hpair ha hs (ne_of_isDescendant hsa).symm (by simp [Outline.entryLe, hdepth])
  · refine hpair ha hb (fun he => ?_) (by simp [Outline.entryLe, hdepth, hpos.le])
    rw [he] at hpos
    exact lt_irrefl _ hpos
  · have hperm : l'.Perm l := (List.perm_ext_iff_of_nodup hnodup' hnodup).mpr fun x =>
      (hmem x).trans List.mem_mergeSort
    exact sort_congr isOrder_entryLe (fun x hx => hl x (hperm.mem_iff.mp hx)) hperm

end Statechart.Chart
