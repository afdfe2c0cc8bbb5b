import Mathlib.Data.Set.Function
import Statechart.Proofs.Chart.Building
import Statechart.Proofs.Chart.Orders

/-!
# The tree in the document

A chart lists its states in document order, and forgets the tree. Nothing is lost: the position of
a state is the one at which the tree declares it, and the states below it are those that follow it
at less than the size of its tree (`isDescendant_iff_between`).

What a tree declares at the end of a path is listed without a gap (`entries_contiguous`). A tree
that declares every state once has one thing of a name (`has_unique`), so all that is below a state
is declared there, and the states below it are the rest of that stretch.

The outline was made by recursion over the tree. `tour` goes over the chart instead, with a stack of
states that are still to be come to and their depths. What is on the stack is always a forest of
trees that the chart has, each at the length of the path that leads there, and what the walk still
comes to are the entries of that forest (`tour_eq`).
-/

namespace Statechart

variable {D : Domain}

namespace StateTree

variable {t u v : StateTree D} {path path' : List D.State} {s a : D.State}

/-! ## What a tree declares where -/

/-- The entry of a state is followed by the entries of what is declared below it. -/
theorem entries_eq (path : List D.State) (t : StateTree D) :
    t.entries path = t.entry path :: allEntries (t.id :: path) t.children := by
  cases t with
  | node d children => rw [entries]; rfl

theorem allEntries_eq (path : List D.State) (ts : List (StateTree D)) :
    allEntries path ts = ts.flatMap (entries path) := by
  induction ts with
  | nil => rfl
  | cons t ts ih => rw [allEntries, ih, List.flatMap_cons]

mutual

/-- The states of a tree are the same wherever it is found. -/
theorem map_id_entries (path : List D.State) : ∀ t : StateTree D,
    (t.entries path).map (·.id) = t.ids
  | .node d children => by
    rw [ids, entries, entries, List.map_cons, List.map_cons, map_id_allEntries _ children,
      map_id_allEntries _ children]

theorem map_id_allEntries (path : List D.State) : ∀ ts : List (StateTree D),
    (allEntries path ts).map (·.id) = ts.flatMap ids
  | [] => rfl
  | t :: ts => by
    rw [allEntries, List.map_append, map_id_entries path t, map_id_allEntries path ts,
      List.flatMap_cons]

end

/-- Each state comes before those below it, and these come child by child. -/
theorem ids_eq (t : StateTree D) : t.ids = t.id :: t.children.flatMap ids := by
  rw [ids, entries_eq, List.map_cons, map_id_allEntries]
  rfl

theorem mem_ids : s ∈ t.ids ↔ ∃ path u, t.Has path u ∧ u.id = s := by
  simp only [ids, List.mem_map, mem_entries, List.append_nil]
  constructor
  · rintro ⟨_, ⟨path, u, h, rfl⟩, rfl⟩
    exact ⟨path, u, h, rfl⟩
  · rintro ⟨path, u, h, rfl⟩
    exact ⟨_, ⟨path, u, h, rfl⟩, rfl⟩

/-- What is declared at the end of a path is listed without a gap. -/
theorem entries_contiguous (h : t.Has path u) : u.entries path <:+: t.entries [] := by
  induction h with
  | top => exact List.infix_rfl
  | @child path u v _ hv ih =>
    refine List.IsInfix.trans ?_ ih
    obtain ⟨front, back, hsplit⟩ := List.append_of_mem hv
    rw [entries_eq path u, allEntries_eq, hsplit, List.flatMap_append, List.flatMap_cons]
    exact ⟨u.entry path :: front.flatMap (entries (u.id :: path)),
      back.flatMap (entries (u.id :: path)), by simp⟩

theorem ids_contiguous (h : t.Has path u) : u.ids <:+: t.ids := by
  have hmap := (entries_contiguous h).map (·.id)
  rwa [map_id_entries] at hmap

/-- What a tree has below its top, it has below the end of the path without its last step. -/
theorem has_cons (h : t.Has (a :: path) v) : ∃ u, t.Has path u ∧ u.id = a ∧ v ∈ u.children := by
  generalize hp : a :: path = p at h
  cases h with
  | top => exact absurd hp (by simp)
  | child hu hv =>
    obtain ⟨rfl, rfl⟩ := List.cons.inj hp
    exact ⟨_, hu, rfl, hv⟩

/-- A state on the path to something is declared by the tree, with that thing below it. -/
theorem exists_has_around (h : t.Has path v) (ha : a ∈ path) :
    ∃ above u w rel, t.Has above u ∧ u.id = a ∧ w ∈ u.children ∧ w.Has rel v := by
  induction h with
  | top => exact absurd ha List.not_mem_nil
  | @child path u v hu hv ih =>
    rcases List.mem_cons.mp ha with rfl | ha
    · exact ⟨path, u, v, [], hu, rfl, hv, .top⟩
    · obtain ⟨above, u', w, rel, hu', hid, hw, hrel⟩ := ih ha
      exact ⟨above, u', w, u.id :: rel, hu', hid, hw, hrel.child hv⟩

section

variable (hd : t.ids.Nodup)

include hd

theorem path_unique (h : t.Has path u) (h' : t.Has path' v) (hid : u.id = v.id) : path = path' := by
  have hnode := node?_of_has hd h
  rw [hid, node?_of_has hd h', Option.some.injEq] at hnode
  exact (congrArg Node.ancestors hnode).symm

/-- A tree that declares every state once has one thing of a name. -/
theorem has_unique (h : t.Has path u) (h' : t.Has path' v) (hid : u.id = v.id) : u = v := by
  obtain rfl := path_unique hd h h' hid
  induction path generalizing u v with
  | nil =>
    have htop : ∀ {w}, t.Has [] w → w = t := fun hw => by
      rcases has_iff.mp hw with ⟨-, he⟩ | ⟨_, _, _, _, hrel⟩
      · exact he
      · exact absurd hrel (by simp)
    rw [htop h, htop h']
  | cons a path ih =>
    obtain ⟨p, hp, rfl, hu⟩ := has_cons h
    obtain ⟨q, hq, hid', hv⟩ := has_cons h'
    -- the parents are one tree, whose children have different names
    obtain rfl := ih hp hid'.symm hq
    have hnodup : (p.children.map StateTree.id).Nodup :=
      nodup_children_of_entries (n := p.entry path) t hd
        ((mem_entries t).mpr ⟨path, p, hp, by rw [List.append_nil]⟩)
    exact List.inj_on_of_nodup_map hnodup hu hv hid

end

end StateTree

/-- In a list without repetition, what is in a stretch of it stands between its ends. -/
private theorem mem_iff_idxOf {α : Type} [DecidableEq α] {front mid back : List α} {x : α}
    (h : (front ++ (mid ++ back)).Nodup) : x ∈ mid ↔
      front.length ≤ (front ++ (mid ++ back)).idxOf x ∧
        (front ++ (mid ++ back)).idxOf x < front.length + mid.length := by
  by_cases hfront : x ∈ front
  · have hmid : x ∉ mid := fun hmid =>
      (List.nodup_append.mp h).2.2 x hfront x (List.mem_append_left _ hmid) rfl
    have hlt := List.idxOf_lt_length_of_mem hfront
    rw [List.idxOf_append_of_mem hfront]
    exact iff_of_false hmid (by omega)
  · rw [List.idxOf_append_of_notMem hfront]
    by_cases hmid : x ∈ mid
    · have hlt := List.idxOf_lt_length_of_mem hmid
      rw [List.idxOf_append_of_mem hmid]
      exact iff_of_true hmid (by omega)
    · rw [List.idxOf_append_of_notMem hmid]
      exact iff_of_false hmid (by omega)

/-- A walk of at most so many steps, with a stack of states that are still to be come to and their
depths. A step takes the state on top of the stack off, and puts its children on in its place, the
first of them on top. -/
def Outline.tour (c : Outline D) : Nat → List (D.State × Nat) → List (D.State × Nat)
  | 0, _ | _, [] => []
  | steps + 1, (s, depth) :: stack =>
    match c.node? s with
    | none => c.tour steps stack
    | some n => (s, depth) :: c.tour steps (n.children.map (·, depth + 1) ++ stack)

namespace Chart

variable {c : Chart D} {u : StateTree D} {path l : List D.State} {s : D.State} {steps : Nat}

/-! ## Positions -/

theorem map_id_nodes (c : Chart D) : c.nodes.map (·.id) = c.tree.ids := by
  rw [c.nodes_eq, StateTree.ids]

theorem nodup_tree_ids (c : Chart D) : c.tree.ids.Nodup := c.map_id_nodes ▸ c.nodup_ids

theorem size_eq (c : Chart D) : c.size = c.tree.ids.length := by
  rw [← c.map_id_nodes, List.length_map, Outline.size]

theorem mem_tree_ids : s ∈ c.tree.ids ↔ c.contains s := by
  rw [StateTree.mem_ids, c.outline_eq, StateTree.contains_iff_has c.nodup_tree_ids]

/-- The position of a state is the one at which the tree declares it. -/
theorem position_eq (c : Chart D) (s : D.State) : c.position s = c.tree.ids.idxOf s := by
  rw [← c.map_id_nodes, List.idxOf, List.findIdx_map, List.findIdx_eq_getD_findIdx?]
  rfl

theorem order?_eq (hs : c.contains s) : c.order? s = some (c.position s) := by
  obtain ⟨i, -, horder, -⟩ := order_of_contains hs
  rw [Outline.position, horder, Option.getD_some]

theorem getElem?_position (hs : c.contains s) : c.tree.ids[c.position s]? = some s := by
  have hlt := List.idxOf_lt_length_of_mem (mem_tree_ids.mpr hs)
  rw [c.position_eq, List.getElem?_eq_getElem hlt, List.getElem_idxOf hlt]

theorem bijOn_position (c : Chart D) :
    Set.BijOn c.position {s | c.contains s} {i | i < c.size} := by
  refine ⟨fun s hs => ?_, fun s hs t ht => position_inj hs ht, fun i hi => ?_⟩
  · rw [Set.mem_ofPred_eq, c.size_eq, c.position_eq]
    exact List.idxOf_lt_length_of_mem (mem_tree_ids.mpr hs)
  · rw [Set.mem_ofPred_eq, c.size_eq] at hi
    refine ⟨c.tree.ids[i], mem_tree_ids.mp (List.getElem_mem hi), ?_⟩
    rw [c.position_eq, c.nodup_tree_ids.idxOf_getElem]

/-! ## The stretch of a state -/

/-- A state of a chart is declared where its ancestors lead. -/
theorem exists_has (hs : c.contains s) : ∃ u, c.tree.Has (c.ancestors s) u ∧ u.id = s := by
  obtain ⟨path, u, hu, rfl⟩ := StateTree.mem_ids.mp (mem_tree_ids.mpr hs)
  have hnode := StateTree.node?_of_has c.nodup_tree_ids hu
  rw [← c.outline_eq] at hnode
  exact ⟨u, (ancestors_of_node hnode).symm ▸ hu, rfl⟩

theorem isDescendant_iff_mem (h : c.tree.Has path u) :
    c.isDescendant s u.id ↔ s ∈ u.children.flatMap StateTree.ids := by
  rw [c.outline_eq, StateTree.isDescendant_iff_has c.nodup_tree_ids, List.mem_flatMap]
  constructor
  · rintro ⟨path', v, hv, rfl, hu⟩
    obtain ⟨above, u', w, rel, hu', hid, hw, hrel⟩ := StateTree.exists_has_around hv hu
    obtain rfl := StateTree.has_unique c.nodup_tree_ids hu' h hid
    exact ⟨w, hw, StateTree.mem_ids.mpr ⟨rel, v, hrel, rfl⟩⟩
  · rintro ⟨w, hw, hs⟩
    obtain ⟨rel, v, hrel, rfl⟩ := StateTree.mem_ids.mp hs
    exact ⟨rel ++ u.id :: path, v, StateTree.has_trans (h.child hw) hrel, rfl,
      List.mem_append_right _ (List.mem_cons_self ..)⟩

/-- The stretch of a state begins at its position. -/
theorem ids_split (h : c.tree.Has path u) : ∃ front back,
    c.tree.ids = front ++ (u.ids ++ back) ∧ c.position u.id = front.length := by
  obtain ⟨front, back, hsplit⟩ := StateTree.ids_contiguous h
  rw [List.append_assoc] at hsplit
  refine ⟨front, back, hsplit.symm, ?_⟩
  have hnodup := c.nodup_tree_ids
  rw [← hsplit] at hnodup
  have hfront : u.id ∉ front := fun hu => (List.nodup_append.mp hnodup).2.2 _ hu u.id
    (List.mem_append_left _ (StateTree.ids_eq u ▸ List.mem_cons_self ..)) rfl
  rw [c.position_eq, ← hsplit, List.idxOf_append_of_notMem hfront, StateTree.ids_eq,
    List.cons_append, List.idxOf_cons_self, Nat.add_zero]

/-- The states below a state are those that follow it at less than the size of its tree. -/
theorem isDescendant_iff_between (h : c.tree.Has path u) : c.isDescendant s u.id ↔
    c.position u.id < c.position s ∧ c.position s < c.position u.id + u.ids.length := by
  obtain ⟨front, back, hsplit, hposition⟩ := ids_split h
  -- what lies below is the stretch without the state that it begins with
  have hbelow : c.tree.ids = (front ++ [u.id]) ++ (u.children.flatMap StateTree.ids ++ back) := by
    rw [hsplit, StateTree.ids_eq u]
    simp
  have hnodup := c.nodup_tree_ids
  rw [hbelow] at hnodup
  rw [isDescendant_iff_mem h, mem_iff_idxOf hnodup, ← hbelow, ← c.position_eq, hposition,
    StateTree.ids_eq u, List.length_append, List.length_singleton, List.length_cons]
  omega

theorem take_drop_ids (h : c.tree.Has path u) :
    (c.tree.ids.drop (c.position u.id)).take u.ids.length = u.ids := by
  obtain ⟨front, back, hsplit, hposition⟩ := ids_split h
  rw [hsplit, hposition, List.drop_left, List.take_left]

/-! ## Walking with a stack -/

/-- While the trees of a forest are on the stack, their entries are come to one after another. -/
theorem tour_eq (steps : Nat) : ∀ forest : List (List D.State × StateTree D),
    (∀ x ∈ forest, c.tree.Has x.1 x.2) → (forest.flatMap (·.2.ids)).length ≤ steps →
      c.tour steps (forest.map fun x => (x.2.id, x.1.length)) =
        forest.flatMap fun x => (x.2.entries x.1).map fun n => (n.id, n.depth) := by
  induction steps with
  | zero =>
    rintro (_ | ⟨⟨path, u⟩, forest⟩) - hsteps
    · rfl
    · rw [List.flatMap_cons, StateTree.ids_eq, List.cons_append, List.length_cons] at hsteps
      omega
  | succ steps ih =>
    rintro (_ | ⟨⟨path, u⟩, forest⟩) hhas hsteps
    · rfl
    · obtain ⟨hu, hforest⟩ := List.forall_mem_cons.mp hhas
      have hnode := StateTree.node?_of_has c.nodup_tree_ids hu
      rw [← c.outline_eq] at hnode
      -- the trees of the children take the place of the tree on top
      have hstack : (u.entry path).children.map (·, path.length + 1) ++
          forest.map (fun x => (x.2.id, x.1.length)) =
          (u.children.map (u.id :: path, ·) ++ forest).map fun x => (x.2.id, x.1.length) := by
        simp [StateTree.entry]
      have hhas' : ∀ x ∈ u.children.map (u.id :: path, ·) ++ forest, c.tree.Has x.1 x.2 := by
        intro x hx
        rcases List.mem_append.mp hx with hx | hx
        · obtain ⟨v, hv, rfl⟩ := List.mem_map.mp hx
          exact hu.child hv
        · exact hforest x hx
      have hsteps' :
          ((u.children.map (u.id :: path, ·) ++ forest).flatMap (·.2.ids)).length ≤ steps := by
        rw [List.flatMap_cons, StateTree.ids_eq, List.cons_append, List.length_cons] at hsteps
        rw [List.flatMap_append, List.flatMap_map]
        exact Nat.le_of_succ_le_succ hsteps
      rw [List.map_cons, Outline.tour, hnode]
      dsimp only
      rw [hstack, ih _ hhas' hsteps', List.flatMap_cons, StateTree.entries_eq,
        StateTree.allEntries_eq, List.flatMap_append, List.flatMap_map, List.map_cons,
        List.map_flatMap]
      rfl

theorem tour_root (h : c.size ≤ steps) :
    c.tour steps [(c.root, 0)] = c.nodes.map fun n => (n.id, n.depth) := by
  have hall := tour_eq (c := c) steps [([], c.tree)]
    (fun x hx => List.mem_singleton.mp hx ▸ StateTree.Has.top) (by simpa [← c.size_eq] using h)
  rw [c.root_eq, c.nodes_eq]
  simpa using hall

theorem getElem?_tour (h : c.size ≤ steps) (hs : c.contains s) :
    (c.tour steps [(c.root, 0)])[c.position s]? = some (s, c.depth s) := by
  obtain ⟨i, hi, horder, hid⟩ := order_of_contains hs
  have hposition : c.position s = i := Option.some.inj ((order?_eq hs).symm.trans horder)
  have hdepth : (c.nodes[i]).depth = c.depth s := by
    rw [Outline.depth, ← hid, node?_of_mem (List.getElem_mem hi)]
    rfl
  rw [tour_root h, hposition, List.getElem?_map, List.getElem?_eq_getElem hi, Option.map_some, hid,
    hdepth]

/-! ## Leaving and entering -/

/-- States are left in the order opposite to that in which they are entered. -/
theorem inExitOrder_eq_reverse (hl : ∀ s ∈ l, c.contains s) :
    c.inExitOrder l = (c.inEntryOrder l).reverse := by
  have hswap : ∀ a b, c.exitLe a b = c.entryLe b a := by
    intro a b
    rw [Outline.exitLe, Outline.entryLe]
    simp only [eq_comm]
  -- both lists are sorted by one order, in which no two states of the chart are level
  refine List.Perm.eq_of_pairwise (fun a b ha hb => ?_)
    (List.pairwise_mergeSort isOrder_exitLe.trans isOrder_exitLe.total l) ?_ ?_
  · exact isOrder_exitLe.antisymm a b (hl a (c.mem_inExitOrder.mp ha))
      (hl b (c.mem_inEntryOrder.mp (List.mem_reverse.mp hb)))
  · rw [List.pairwise_reverse]
    refine (List.pairwise_mergeSort isOrder_entryLe.trans isOrder_entryLe.total l).imp fun hab => ?_
    rwa [hswap]
  · exact (List.mergeSort_perm l _).trans
      ((List.mergeSort_perm l _).symm.trans (List.reverse_perm _).symm)

/-! ## Document order -/

/-- What the document of a chart tells about its tree. -/
structure Documented (c : Chart D) : Prop where
  /-- The positions are the numbers below the number of states, one for each state. -/
  bijective : Set.BijOn c.position {s | c.contains s} {i | i < c.size}
  /-- A state has the position at which the tree declares it. -/
  declared : c.size = c.tree.ids.length ∧ ∀ s, c.contains s →
    c.order? s = some (c.position s) ∧ c.tree.ids[c.position s]? = some s
  /-- A walk with a stack, given the steps it takes or more, comes to each state at its position,
  and at its depth. -/
  toured : ∀ steps, c.size ≤ steps → (c.tour steps [(c.root, 0)]).length = c.size ∧
    ∀ s, c.contains s → (c.tour steps [(c.root, 0)])[c.position s]? = some (s, c.depth s)
  /-- The ancestors of a state are come to by going from parent to parent. -/
  climbed : ∀ s, c.ancestors s = (c.parent? s).elim [] fun p => p :: c.ancestors p
  depth : ∀ s, c.depth s = (c.ancestors s).length
  /-- What is declared at a state takes up a stretch of the document that begins with the state, and
  the rest of the stretch is what lies below it. -/
  stretch : ∀ s, c.contains s → ∃ u, c.tree.Has (c.ancestors s) u ∧ u.id = s ∧
    (c.tree.ids.drop (c.position s)).take u.ids.length = u.ids ∧
    ∀ t, c.isDescendant t s ↔
      c.position s < c.position t ∧ c.position t < c.position s + u.ids.length
  /-- States are left in the order opposite to that in which they are entered. -/
  mirrored : ∀ l, (∀ s ∈ l, c.contains s) → c.inExitOrder l = (c.inEntryOrder l).reverse

theorem documented (c : Chart D) : c.Documented where
  bijective := c.bijOn_position
  declared := ⟨c.size_eq, fun _ hs => ⟨order?_eq hs, getElem?_position hs⟩⟩
  toured steps h := by
    refine ⟨?_, fun _ => getElem?_tour h⟩
    rw [tour_root h, List.length_map, Outline.size]
  climbed s := by
    cases hp : c.parent? s with
    | none => exact ancestors_eq_nil hp
    | some p => exact ancestors_of_parent hp
  depth := c.depth_eq
  stretch s hs := by
    obtain ⟨u, hu, rfl⟩ := exists_has hs
    exact ⟨u, hu, rfl, take_drop_ids hu, fun _ => isDescendant_iff_between hu⟩
  mirrored _ := inExitOrder_eq_reverse

end Chart

end Statechart
