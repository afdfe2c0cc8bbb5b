import Mathlib.Data.List.Nodup
import Statechart.Chart

/-!
# The entries of a tree

`StateTree.outline` lists a tree by appending to an outline, and drops what is
declared twice. This file says what comes out where nothing is: `entries` is the
plain recursion that lists a tree in document order, and the nodes of a chart are the
entries of its tree (`Chart.nodes_eq`), no state occurring twice
(`Chart.nodup_ids`).

Two facts about entries carry everything that is said later about the shape of a
chart: an entry that is not at the top has its parent among the entries
(`entries_parent`), and every child declared has an entry of its own
(`entries_child`).
-/

namespace Statechart

namespace StateTree

variable {D : Domain}

mutual

/-- The entries of a tree found below `path`, in document order. -/
def entries (path : List D.State) : StateTree D → List (Node D)
  | .node d children =>
    { toStateDecl := d, ancestors := path, children := children.map StateTree.id } ::
      allEntries (d.id :: path) children

/-- The entries of the trees found below `path`. -/
def allEntries (path : List D.State) : List (StateTree D) → List (Node D)
  | [] => []
  | t :: ts => t.entries path ++ allEntries path ts

end

/-! ## Listing is appending the entries -/

mutual

theorem listInto_root {path : List D.State} {c : Outline D} :
    ∀ t : StateTree D, (t.listInto path c).root = c.root
  | .node d children => by
    unfold listInto
    split
    · rfl
    · exact listAllInto_root children

theorem listAllInto_root {path : List D.State} {c : Outline D} :
    ∀ ts : List (StateTree D), (listAllInto path c ts).root = c.root
  | [] => rfl
  | t :: ts => by rw [listAllInto, listAllInto_root ts, listInto_root t]

end

mutual

/-- A listing that notes no repetition left nothing out. -/
theorem nodes_listInto {path : List D.State} {c : Outline D} :
    ∀ t : StateTree D, (t.listInto path c).repeated = [] →
      c.repeated = [] ∧ (t.listInto path c).nodes = c.nodes ++ t.entries path
  | .node d children, h => by
    unfold listInto at h ⊢
    split at h
    · exact absurd h (by simp)
    · next hnew =>
      obtain ⟨hrep, hnodes⟩ := nodes_listAllInto children h
      refine ⟨hrep, ?_⟩
      rw [if_neg hnew, hnodes, entries, List.append_assoc, List.singleton_append]

theorem nodes_listAllInto {path : List D.State} {c : Outline D} :
    ∀ ts : List (StateTree D), (listAllInto path c ts).repeated = [] →
      c.repeated = [] ∧ (listAllInto path c ts).nodes = c.nodes ++ allEntries path ts
  | [], h => ⟨h, by rw [listAllInto, allEntries, List.append_nil]⟩
  | t :: ts, h => by
    unfold listAllInto at h ⊢
    obtain ⟨hrep, hnodes⟩ := nodes_listAllInto ts h
    obtain ⟨hrep', hnodes'⟩ := nodes_listInto t hrep
    refine ⟨hrep', ?_⟩
    rw [hnodes, hnodes', allEntries, List.append_assoc]

end

/-- An entry is only appended for a state that has none yet. -/
private theorem nodup_append_entry {c : Outline D} {n : Node D} (hnew : ¬ c.contains n.id)
    (h : (c.nodes.map (·.id)).Nodup) : ((c.nodes ++ [n]).map (·.id)).Nodup := by
  rw [List.map_append, List.nodup_append]
  refine ⟨h, by simp, ?_⟩
  intro s hs s' hs' he
  obtain ⟨m, hm, rfl⟩ := List.mem_map.mp hs
  apply hnew
  rw [Outline.contains, Outline.node?, List.find?_isSome]
  exact ⟨m, hm, by simpa using he.trans (by simpa using hs')⟩

mutual

theorem nodup_listInto {path : List D.State} {c : Outline D} :
    ∀ t : StateTree D, (c.nodes.map (·.id)).Nodup → ((t.listInto path c).nodes.map (·.id)).Nodup
  | .node d children, h => by
    unfold listInto
    split
    · exact h
    · next hnew => exact nodup_listAllInto children (nodup_append_entry hnew h)

theorem nodup_listAllInto {path : List D.State} {c : Outline D} :
    ∀ ts : List (StateTree D), (c.nodes.map (·.id)).Nodup →
      ((listAllInto path c ts).nodes.map (·.id)).Nodup
  | [], h => h
  | t :: ts, h => by
    unfold listAllInto
    exact nodup_listAllInto ts (nodup_listInto t h)

end

/-! ## Parents and children among the entries -/

mutual

/-- An entry is the top one, or its parent's entry is listed too. -/
theorem entries_parent {path : List D.State} {n : Node D} :
    ∀ t : StateTree D, n ∈ t.entries path →
      (n.ancestors = path ∧ n.id = t.id) ∨
        ∃ p ∈ t.entries path, n.ancestors = p.id :: p.ancestors ∧ n.id ∈ p.children
  | .node d children, h => by
    rw [entries] at h ⊢
    rcases List.mem_cons.mp h with rfl | h
    · exact Or.inl ⟨rfl, rfl⟩
    · refine Or.inr ?_
      rcases allEntries_parent children h with ⟨hpath, hid⟩ | ⟨p, hp, hanc, hid⟩
      · exact ⟨_, List.mem_cons_self .., hpath, hid⟩
      · exact ⟨p, List.mem_cons_of_mem _ hp, hanc, hid⟩

theorem allEntries_parent {path : List D.State} {n : Node D} :
    ∀ ts : List (StateTree D), n ∈ allEntries path ts →
      (n.ancestors = path ∧ n.id ∈ ts.map StateTree.id) ∨
        ∃ p ∈ allEntries path ts, n.ancestors = p.id :: p.ancestors ∧ n.id ∈ p.children
  | [], h => absurd h (by simp [allEntries])
  | t :: ts, h => by
    rw [allEntries] at h ⊢
    rcases List.mem_append.mp h with h | h
    · rcases entries_parent t h with ⟨hpath, hid⟩ | ⟨p, hp, hanc, hid⟩
      · exact Or.inl ⟨hpath, by simp [hid]⟩
      · exact Or.inr ⟨p, List.mem_append_left _ hp, hanc, hid⟩
    · rcases allEntries_parent ts h with ⟨hpath, hid⟩ | ⟨p, hp, hanc, hid⟩
      · exact Or.inl ⟨hpath, List.mem_cons_of_mem _ hid⟩
      · exact Or.inr ⟨p, List.mem_append_right _ hp, hanc, hid⟩

end

mutual

/-- The entries of a tree lie below whatever the tree lies below. -/
theorem entries_below {path : List D.State} {n : Node D} {a : D.State} (ha : a ∈ path) :
    ∀ t : StateTree D, n ∈ t.entries path → a ∈ n.ancestors
  | .node d children, h => by
    rw [entries] at h
    rcases List.mem_cons.mp h with rfl | h
    · exact ha
    · exact allEntries_below (List.mem_cons_of_mem _ ha) children h

theorem allEntries_below {path : List D.State} {n : Node D} {a : D.State} (ha : a ∈ path) :
    ∀ ts : List (StateTree D), n ∈ allEntries path ts → a ∈ n.ancestors
  | [], h => absurd h (by simp [allEntries])
  | t :: ts, h => by
    rw [allEntries, List.mem_append] at h
    exact h.elim (entries_below ha t) (allEntries_below ha ts)

end

mutual

/-- Whatever else an entry lies below has an entry too. -/
theorem entries_ancestors {path : List D.State} {n : Node D} {a : D.State}
    (ha : a ∈ n.ancestors) : ∀ t : StateTree D, n ∈ t.entries path →
      a ∈ path ∨ a ∈ (t.entries path).map (·.id)
  | .node d children, h => by
    rw [entries] at h ⊢
    rw [List.map_cons, List.mem_cons]
    rcases List.mem_cons.mp h with rfl | h
    · exact Or.inl ha
    · rcases allEntries_ancestors ha children h with hpath | hlisted
      · exact (List.mem_cons.mp hpath).elim (fun he => Or.inr (Or.inl he)) Or.inl
      · exact Or.inr (Or.inr hlisted)

theorem allEntries_ancestors {path : List D.State} {n : Node D} {a : D.State}
    (ha : a ∈ n.ancestors) : ∀ ts : List (StateTree D), n ∈ allEntries path ts →
      a ∈ path ∨ a ∈ (allEntries path ts).map (·.id)
  | [], h => absurd h (by simp [allEntries])
  | t :: ts, h => by
    rw [allEntries, List.mem_append] at h
    rw [allEntries, List.map_append, List.mem_append]
    rcases h with h | h
    · exact (entries_ancestors ha t h).imp_right Or.inl
    · exact (allEntries_ancestors ha ts h).imp_right Or.inr

end

mutual

/-- What is listed between two entries that a state is or lies around, it is or lies around too. -/
theorem entries_between {path : List D.State} {l m n : Node D} {r : D.State} (hr : r ∉ path)
    (hl : r = l.id ∨ r ∈ l.ancestors) (hn : r = n.id ∨ r ∈ n.ancestors) :
    ∀ t : StateTree D, ((t.entries path).map (·.id)).Nodup → [l, m, n].Sublist (t.entries path) →
      r = m.id ∨ r ∈ m.ancestors
  | .node d children, hnodup, h => by
    rw [entries] at h hnodup
    by_cases hrd : r = d.id
    · rcases List.mem_cons.mp (h.subset (List.mem_cons_of_mem _ (List.mem_cons_self ..))) with rfl | hm
      · exact Or.inl hrd
      · exact Or.inr (allEntries_below (hrd ▸ List.mem_cons_self ..) children hm)
    · rcases List.sublist_cons_iff.mp h with h | ⟨rest, he, -⟩
      · exact allEntries_between (by simp [hrd, hr]) hl hn children
          (List.nodup_cons.mp hnodup).2 h
      · -- the top of the tree lies around nothing else than what the tree lies below
        obtain ⟨rfl, -⟩ := List.cons.inj he
        exact absurd hl (by simp [hrd, hr])

theorem allEntries_between {path : List D.State} {l m n : Node D} {r : D.State} (hr : r ∉ path)
    (hl : r = l.id ∨ r ∈ l.ancestors) (hn : r = n.id ∨ r ∈ n.ancestors) :
    ∀ ts : List (StateTree D), ((allEntries path ts).map (·.id)).Nodup →
      [l, m, n].Sublist (allEntries path ts) → r = m.id ∨ r ∈ m.ancestors
  | [], _, h => absurd h (by simp [allEntries])
  | t :: ts, hnodup, h => by
    rw [allEntries] at h hnodup
    rw [List.map_append, List.nodup_append] at hnodup
    obtain ⟨hfirst, hrest, happart⟩ := hnodup
    obtain ⟨front, back, he, hfront, hback⟩ := List.sublist_append_iff.mp h
    -- a state with something below it in two trees would have an entry in each
    have hone : l ∈ t.entries path → n ∉ allEntries path ts := by
      intro hlt hnts
      have hin : r ∈ (t.entries path).map (·.id) := by
        rcases hl with rfl | hl
        · exact List.mem_map_of_mem hlt
        · exact (entries_ancestors hl t hlt).resolve_left hr
      have hin' : r ∈ (allEntries path ts).map (·.id) := by
        rcases hn with rfl | hn
        · exact List.mem_map_of_mem hnts
        · exact (allEntries_ancestors hn ts hnts).resolve_left hr
      exact happart r hin r hin' rfl
    match front, he with
    | [], he =>
      rw [List.nil_append] at he
      exact allEntries_between hr hl hn ts hrest (he ▸ hback)
    | [x], he =>
      obtain ⟨rfl, rfl⟩ : l = x ∧ [m, n] = back := by simpa using he
      exact absurd (hback.subset (by simp)) (hone (hfront.subset (by simp)))
    | [x, y], he =>
      obtain ⟨rfl, -, rfl⟩ : l = x ∧ m = y ∧ [n] = back := by simpa using he
      exact absurd (hback.subset (by simp)) (hone (hfront.subset (by simp)))
    | x :: y :: z :: front, he =>
      have hfront' : [l, m, n].Sublist (x :: y :: z :: front) := by
        obtain ⟨rfl, rfl, rfl, -⟩ : l = x ∧ m = y ∧ n = z ∧ front = [] ∧ back = [] := by
          simpa using he
        simp
      exact entries_between hr hl hn t hfirst (hfront'.trans hfront)

end

/-- The entry of the top of a tree. -/
theorem exists_entry_top (path : List D.State) :
    ∀ t : StateTree D, ∃ n ∈ t.entries path, n.id = t.id ∧ n.ancestors = path
  | .node d children => by
    rw [entries]
    exact ⟨_, List.mem_cons_self .., rfl, rfl⟩

/-- The entries of one tree are among those of a list that has it. -/
theorem mem_allEntries {path : List D.State} {n : Node D} {t : StateTree D} :
    ∀ {ts : List (StateTree D)}, t ∈ ts → n ∈ t.entries path → n ∈ allEntries path ts
  | u :: us, ht, hn => by
    rw [allEntries]
    rcases List.mem_cons.mp ht with rfl | ht
    · exact List.mem_append_left _ hn
    · exact List.mem_append_right _ (mem_allEntries ht hn)

mutual

/-- Every child that an entry names has an entry below it. -/
theorem entries_child {path : List D.State} {p : Node D} {s : D.State} (hs : s ∈ p.children) :
    ∀ t : StateTree D, p ∈ t.entries path →
      ∃ n ∈ t.entries path, n.id = s ∧ n.ancestors = p.id :: p.ancestors
  | .node d children, hp => by
    rw [entries] at hp ⊢
    rcases List.mem_cons.mp hp with rfl | hp
    · obtain ⟨t, ht, rfl⟩ := List.mem_map.mp hs
      obtain ⟨n, hn, hid, hanc⟩ := exists_entry_top (d.id :: path) t
      exact ⟨n, List.mem_cons_of_mem _ (mem_allEntries ht hn), hid, hanc⟩
    · obtain ⟨n, hn, hid, hanc⟩ := allEntries_child hs children hp
      exact ⟨n, List.mem_cons_of_mem _ hn, hid, hanc⟩

theorem allEntries_child {path : List D.State} {p : Node D} {s : D.State} (hs : s ∈ p.children) :
    ∀ ts : List (StateTree D), p ∈ allEntries path ts →
      ∃ n ∈ allEntries path ts, n.id = s ∧ n.ancestors = p.id :: p.ancestors
  | [], hp => absurd hp (by simp [allEntries])
  | t :: ts, hp => by
    rw [allEntries] at hp ⊢
    rcases List.mem_append.mp hp with hp | hp
    · obtain ⟨n, hn, h⟩ := entries_child hs t hp
      exact ⟨n, List.mem_append_left _ hn, h⟩
    · obtain ⟨n, hn, h⟩ := allEntries_child hs ts hp
      exact ⟨n, List.mem_append_right _ hn, h⟩

end

/-- The states at the top of several trees, in order, are among those of their entries. -/
private theorem tops_sublist (path : List D.State) :
    ∀ ts : List (StateTree D),
      (ts.map StateTree.id).Sublist ((allEntries path ts).map (·.id))
  | [] => by rw [allEntries]; exact List.Sublist.refl _
  | .node d children :: ts => by
    rw [allEntries, entries, List.map_cons, List.cons_append, List.map_cons]
    refine List.Sublist.cons_cons _ ?_
    rw [List.map_append]
    exact (tops_sublist path ts).trans (List.sublist_append_right ..)

mutual

theorem nodup_children_of_entries {path : List D.State} {n : Node D} :
    ∀ t : StateTree D, ((t.entries path).map (·.id)).Nodup → n ∈ t.entries path → n.children.Nodup
  | .node d children, hids, hn => by
    rw [entries] at hids hn
    rw [List.map_cons, List.nodup_cons] at hids
    rcases List.mem_cons.mp hn with rfl | hn
    · exact hids.2.sublist (tops_sublist (d.id :: path) children)
    · exact nodup_children_of_allEntries children hids.2 hn

theorem nodup_children_of_allEntries {path : List D.State} {n : Node D} :
    ∀ ts : List (StateTree D), ((allEntries path ts).map (·.id)).Nodup →
      n ∈ allEntries path ts → n.children.Nodup
  | [], _, hn => absurd hn (by simp [allEntries])
  | t :: ts, hids, hn => by
    rw [allEntries] at hids hn
    rw [List.map_append, List.nodup_append] at hids
    rcases List.mem_append.mp hn with hn | hn
    · exact nodup_children_of_entries t hids.1 hn
    · exact nodup_children_of_allEntries ts hids.2.1 hn

end

end StateTree

/-! ## The nodes of a chart -/

namespace Chart

variable {D : Domain} (c : Chart D)

theorem repeated_eq_nil : c.repeated = [] := (Outline.flaws_eq_nil_iff _).mp c.flawless |>.1

/-- The nodes of a chart are the entries of its tree, in document order. -/
theorem nodes_eq : c.nodes = c.tree.entries [] := by
  have hrep : c.tree.outline.repeated = [] := by rw [← c.outline_eq]; exact c.repeated_eq_nil
  have hnodes := (StateTree.nodes_listInto c.tree hrep).2
  rw [c.outline_eq]
  exact hnodes

theorem root_eq : c.root = c.tree.id := by
  rw [c.outline_eq]
  exact StateTree.listInto_root c.tree

/-- No state has two nodes. -/
theorem nodup_ids : (c.nodes.map (·.id)).Nodup := by
  rw [c.outline_eq]
  exact StateTree.nodup_listInto c.tree (by simp)

theorem node?_eq_some {s : D.State} {n : Node D} : c.node? s = some n ↔ n ∈ c.nodes ∧ n.id = s := by
  constructor
  · intro h
    exact ⟨List.mem_of_find?_eq_some h, by simpa using List.find?_some h⟩
  · intro hex
    obtain ⟨hn, rfl⟩ := hex
    cases hfind : c.node? n.id with
    | none => exact absurd (List.find?_eq_none.mp hfind n hn) (by simp)
    | some m =>
      have hm : m ∈ c.nodes := List.mem_of_find?_eq_some hfind
      have hid : m.id = n.id := by simpa using List.find?_some hfind
      rw [List.inj_on_of_nodup_map c.nodup_ids hm hn hid]

theorem nodup_children_of_mem {n : Node D} (hn : n ∈ c.nodes) : n.children.Nodup := by
  have hids := c.nodup_ids
  rw [c.nodes_eq] at hids hn
  exact StateTree.nodup_children_of_entries c.tree hids hn

end Chart

end Statechart
