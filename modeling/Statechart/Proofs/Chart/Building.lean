import Mathlib.Data.List.Perm.Subperm
import Statechart.Proofs.Chart.Entries

/-!
# Building a chart

`StateTree.build` makes an outline of a tree and looks for flaws in it. The outline is keyed by
states, so a tree that declares a state twice is not even listed as it was declared. Here both are
said of the tree itself: what it has, where (`StateTree.Has`), and what is asked of it
(`StateTree.Runnable`). A tree that declares every state once is listed as it is (`node?_of_has`,
`has_of_node?`), and then each check asks just what it is meant to ask (`nodeFlaws_eq_nil_iff`).
So a chart is built of a tree if and only if the tree can be run, and the chart has what the tree
declares, nothing else and nothing twice (`build_iff`).
-/

namespace Statechart

variable {D : Domain}

/-- The state that a flaw is about. -/
def Flaw.state {S : Type} : Flaw S → S
  | .repeatedState s | .unknownTarget s _ | .initialNotChild s _ | .initialIsHistory s _
  | .emptyCompound s | .emptyParallel s | .childrenNotAllowed s _ | .orphanHistory s
  | .fallbackOutsideParent s _ | .behaviourNotAllowed s _ | .targetIsRoot s
  | .missingInvocation s => s

/-- Each check names the state that it checks. -/
theorem Outline.state_of_nodeFlaws {c : Outline D} {n : Node D} {flaw : Flaw D.State}
    (h : flaw ∈ c.nodeFlaws n) : flaw.state = n.id := by
  -- most checks come to a list of one flaw or none
  have hone : ∀ {b : Prop} [Decidable b] {f : Flaw D.State} {rest : List (Flaw D.State)},
      f.state = n.id → (flaw ∈ rest → flaw.state = n.id) →
        flaw ∈ (if b then [f] else rest) → flaw.state = n.id := by
    intro b _ f rest hf hrest hflaw
    split at hflaw
    · exact List.mem_singleton.mp hflaw ▸ hf
    · exact hrest hflaw
  have hnil : flaw ∈ [] → flaw.state = n.id := fun h => absurd h List.not_mem_nil
  simp only [nodeFlaws, List.mem_append] at h
  -- the lists of checks in the order in which `nodeFlaws` appends them
  rcases h with (((h | h) | h) | h) | h
  · unfold childFlaws at h
    dsimp only at h
    split at h
    · rcases List.mem_append.mp h with h | h
      · exact hone rfl hnil h
      · exact hone rfl (hone rfl hnil) h
    · exact hone rfl hnil h
    · split at h
      · exact hnil h
      · exact List.mem_singleton.mp h ▸ rfl
    · split at h
      · exact hnil h
      · exact List.mem_singleton.mp h ▸ rfl
    · split at h
      · exact hnil h
      · exact List.mem_singleton.mp h ▸ rfl
  · exact hone rfl hnil h
  · split at h
    · unfold historyFlaws at h
      split at h
      · exact List.mem_singleton.mp h ▸ rfl
      · split at h
        · exact hnil h
        · exact hone rfl (hone rfl hnil) h
    · exact hnil h
  · obtain ⟨tr, -, h⟩ := List.mem_flatMap.mp h
    unfold targetFlaws at h
    split at h
    · exact hnil h
    · exact hone rfl (hone rfl hnil) h
  · exact hone rfl hnil h

theorem Outline.mem_flaws {c : Outline D} {flaw : Flaw D.State} : flaw ∈ c.flaws ↔
    (∃ s ∈ c.repeated, flaw = .repeatedState s) ∨ ∃ n ∈ c.nodes, flaw ∈ c.nodeFlaws n := by
  simp [flaws, nodesByLastVisit, eq_comm]

namespace StateTree

/-- What a tree has at the end of a path. The path is listed from there up. -/
inductive Has (t : StateTree D) : List D.State → StateTree D → Prop
  | top : Has t [] t
  | child {path : List D.State} {u v : StateTree D} :
      Has t path u → v ∈ u.children → Has t (u.id :: path) v

/-- The entry of a state that is declared at the end of a path. -/
def entry (path : List D.State) (u : StateTree D) : Node D :=
  { toStateDecl := u.decl, ancestors := path, children := u.children.map StateTree.id }

/-- The states declared in a tree, in document order. -/
def ids (t : StateTree D) : List D.State := (t.entries []).map (·.id)

/-- What is asked of a state that a tree declares at the end of a path. -/
structure RunnableAt (t : StateTree D) (path : List D.State) (u : StateTree D) : Prop where
  /-- There is something to be in. -/
  substate : u.decl.kind.isCompound ∨ u.decl.kind.isParallel →
    ∃ v ∈ u.children, ¬ v.decl.kind.isHistory
  initial : ∀ i, u.decl.kind = .compound i → ∃ v ∈ u.children, v.id = i ∧ ¬ v.decl.kind.isHistory
  leaf : u.decl.kind.isLeaf ∨ u.decl.kind.isHistory → u.children = []
  final : u.decl.kind.isFinal → u.decl.transitions = [] ∧ u.decl.invocation = none
  history : u.decl.kind.isHistory → u.decl.transitions = [] ∧ u.decl.invocation = none ∧
    u.decl.entry = [] ∧ u.decl.exit = []
  parent : u.decl.kind.isHistory → ∃ above p, path = p.id :: above ∧ t.Has above p ∧
    u ∈ p.children ∧ (p.decl.kind.isCompound ∨ p.decl.kind.isParallel)
  /-- A history state falls back to another state properly below its parent. -/
  fallback : u.decl.kind.isHistory → ∀ s, u.decl.fallback = some s →
    s ≠ u.id ∧ ∃ p ∈ path.head?, ∃ there v, t.Has there v ∧ v.id = s ∧ p ∈ there
  target : ∀ tr ∈ u.decl.transitions, ∀ s, tr.target = some s →
    s ≠ t.id ∧ ∃ there v, t.Has there v ∧ v.id = s
  invocation : ∀ tr ∈ u.decl.transitions, tr.trigger = .invokeDone ∨ tr.trigger = .invokeError →
    u.decl.invocation ≠ none

/-- A tree of which a chart can be made. -/
structure Runnable (t : StateTree D) : Prop where
  distinct : t.ids.Nodup
  states : ∀ path u, t.Has path u → t.RunnableAt path u

/-- A chart has what a tree declares. -/
structure Faithful (t : StateTree D) (c : Chart D) : Prop where
  root : c.root = t.id
  nodes : ∀ n, n ∈ c.nodes ↔ ∃ path u, t.Has path u ∧ n = u.entry path
  /-- Each state is found under its name, and no other state is. -/
  node : ∀ s n, c.node? s = some n ↔ ∃ path u, t.Has path u ∧ u.id = s ∧ n = u.entry path
  top : c.parent? t.id = none
  parent : ∀ path p u, t.Has path p → u ∈ p.children → c.parent? u.id = some p.id
  children : ∀ path p, t.Has path p → c.children p.id = p.children.map StateTree.id
  /-- The transitions declared are those that wait for a signal and those that wait for time to
  pass, either in the order declared. -/
  transitions : ∀ path u, t.Has path u →
    (u.entry path).immediate.Sublist u.decl.transitions ∧
    (u.entry path).delayed.Sublist u.decl.transitions ∧
    ((u.entry path).immediate ++ (u.entry path).delayed).Perm u.decl.transitions ∧
    (∀ tr ∈ (u.entry path).immediate, ∀ delay, tr.trigger ≠ .after delay) ∧
    ∀ tr ∈ (u.entry path).delayed, ∃ delay, tr.trigger = .after delay

/-- What is said of a tree of which no chart can be made: of each state, if it is declared otherwise
than it should be, or that some are declared again. -/
structure Refused (t : StateTree D) (flaws : List (Flaw D.State)) : Prop where
  some : flaws ≠ []
  named : t.ids.Nodup → ∀ path u, t.Has path u →
    ((∃ flaw ∈ flaws, flaw.state = u.id) ↔ ¬ t.RunnableAt path u)
  repeated : ¬ t.ids.Nodup → ∃ s, .repeatedState s ∈ flaws

variable {t u v : StateTree D} {path : List D.State} {s : D.State} {n : Node D}

/-! ## What a tree has -/

theorem has_trans {rel : List D.State} (h : t.Has path u) (h' : u.Has rel v) :
    t.Has (rel ++ path) v := by
  induction h' with
  | top => exact h
  | child _ hv ih => exact ih.child hv

/-- What a tree has is the tree itself or what one of the trees below its top has. -/
theorem has_iff : t.Has path u ↔ (path = [] ∧ u = t) ∨
    ∃ v ∈ t.children, ∃ rel, v.Has rel u ∧ path = rel ++ [t.id] := by
  constructor
  · intro h
    induction h with
    | top => exact Or.inl ⟨rfl, rfl⟩
    | @child path u v _ hv ih =>
      refine Or.inr ?_
      rcases ih with ⟨rfl, rfl⟩ | ⟨w, hw, rel, hrel, rfl⟩
      · exact ⟨v, hv, [], .top, rfl⟩
      · exact ⟨w, hw, u.id :: rel, hrel.child hv, rfl⟩
  · rintro (⟨rfl, rfl⟩ | ⟨v, hv, rel, hrel, rfl⟩)
    · exact .top
    · exact has_trans (.child .top hv) hrel

mutual

/-- The entries of a tree are those of what it has. -/
theorem mem_entries {path : List D.State} {n : Node D} : ∀ t : StateTree D,
    n ∈ t.entries path ↔ ∃ rel u, t.Has rel u ∧ n = u.entry (rel ++ path)
  | .node d children => by
    rw [entries, List.mem_cons, mem_allEntries_iff children]
    constructor
    · rintro (rfl | ⟨v, hv, rel, u, hrel, rfl⟩)
      · exact ⟨[], _, .top, rfl⟩
      · exact ⟨rel ++ [d.id], u, has_iff.mpr (Or.inr ⟨v, hv, rel, hrel, rfl⟩), by simp⟩
    · rintro ⟨rel, u, hrel, rfl⟩
      rcases has_iff.mp hrel with ⟨rfl, rfl⟩ | ⟨v, hv, rel', hrel', rfl⟩
      · exact Or.inl rfl
      · exact Or.inr ⟨v, hv, rel', u, hrel', by simp [StateTree.id, decl]⟩

theorem mem_allEntries_iff {path : List D.State} {n : Node D} : ∀ ts : List (StateTree D),
    n ∈ allEntries path ts ↔ ∃ t ∈ ts, ∃ rel u, t.Has rel u ∧ n = u.entry (rel ++ path)
  | [] => by simp [allEntries]
  | t :: ts => by
    rw [allEntries, List.mem_append, mem_entries t, mem_allEntries_iff ts, List.exists_mem_cons_iff]

end

mutual

/-- A tree that declares nothing again is listed as it is. -/
theorem listInto_of_distinct {path : List D.State} {c : Outline D} : ∀ t : StateTree D,
    ((c.nodes ++ t.entries path).map (·.id)).Nodup →
      (t.listInto path c).repeated = c.repeated ∧
        (t.listInto path c).nodes = c.nodes ++ t.entries path
  | .node d children, h => by
    have hnew : ¬ c.contains d.id := by
      intro hold
      rw [Outline.contains, Outline.node?, List.find?_isSome] at hold
      obtain ⟨m, hm, hid⟩ := hold
      rw [List.map_append, List.nodup_append, entries] at h
      exact h.2.2 _ (List.mem_map_of_mem hm) _ (List.mem_cons_self ..) (by simpa using hid)
    rw [entries, ← List.singleton_append, ← List.append_assoc] at h
    rw [listInto, if_neg hnew]
    obtain ⟨hrepeated, hnodes⟩ := listAllInto_of_distinct (c := { c with nodes := c.nodes ++ _ })
      children h
    refine ⟨hrepeated, ?_⟩
    rw [hnodes, entries, List.append_assoc, List.singleton_append]

theorem listAllInto_of_distinct {path : List D.State} {c : Outline D} :
    ∀ ts : List (StateTree D), ((c.nodes ++ allEntries path ts).map (·.id)).Nodup →
      (listAllInto path c ts).repeated = c.repeated ∧
        (listAllInto path c ts).nodes = c.nodes ++ allEntries path ts
  | [], _ => by simp [listAllInto, allEntries]
  | t :: ts, h => by
    rw [allEntries, ← List.append_assoc] at h
    have hfirst : ((c.nodes ++ t.entries path).map (·.id)).Nodup :=
      h.sublist ((List.sublist_append_left ..).map _)
    obtain ⟨hrepeated, hnodes⟩ := listInto_of_distinct t hfirst
    obtain ⟨hrepeated', hnodes'⟩ := listAllInto_of_distinct ts (hnodes.symm ▸ h)
    rw [listAllInto, allEntries]
    exact ⟨hrepeated'.trans hrepeated, by rw [hnodes', hnodes, List.append_assoc]⟩

end

/-- The outline notes a repetition if there is one. -/
theorem repeated_eq_nil_iff : t.outline.repeated = [] ↔ t.ids.Nodup := by
  constructor
  · intro h
    have hnodes := (nodes_listInto t h).2
    have hdistinct : (t.outline.nodes.map (·.id)).Nodup := nodup_listInto t List.nodup_nil
    rw [outline, hnodes] at hdistinct
    exact hdistinct
  · exact fun h => (listInto_of_distinct (c := { root := t.id }) t h).1

/-! ## A tree that declares every state once -/

section

variable (hd : t.ids.Nodup)

include hd

theorem nodes_of_distinct : t.outline.nodes = t.entries [] :=
  (listInto_of_distinct (c := { root := t.id }) t hd).2

theorem node?_of_has (h : t.Has path u) : t.outline.node? u.id = some (u.entry path) := by
  have hmem : u.entry path ∈ t.entries [] :=
    (mem_entries t).mpr ⟨path, u, h, by rw [List.append_nil]⟩
  cases hfind : t.outline.node? u.id with
  | none =>
    rw [Outline.node?, nodes_of_distinct hd] at hfind
    exact absurd (List.find?_eq_none.mp hfind _ hmem) (by simp [entry, StateTree.id])
  | some m =>
    have hm := List.mem_of_find?_eq_some hfind
    rw [nodes_of_distinct hd] at hm
    have hid : m.id = u.id := by simpa using List.find?_some hfind
    exact congrArg some (List.inj_on_of_nodup_map hd hm hmem hid)

theorem has_of_node? (h : t.outline.node? s = some n) :
    ∃ path u, t.Has path u ∧ u.id = s ∧ n = u.entry path := by
  have hn := List.mem_of_find?_eq_some h
  rw [nodes_of_distinct hd] at hn
  obtain ⟨path, u, hu, rfl⟩ := (mem_entries t).mp hn
  rw [List.append_nil] at h ⊢
  have hid := List.find?_some h
  exact ⟨path, u, hu, of_decide_eq_true hid, rfl⟩

theorem contains_iff_has : t.outline.contains s ↔ ∃ path u, t.Has path u ∧ u.id = s := by
  rw [Outline.contains, Option.isSome_iff_exists]
  constructor
  · rintro ⟨n, hn⟩
    obtain ⟨path, u, hu, hid, -⟩ := has_of_node? hd hn
    exact ⟨path, u, hu, hid⟩
  · rintro ⟨path, u, hu, rfl⟩
    exact ⟨_, node?_of_has hd hu⟩

theorem hasKind_of_has (f : NodeKind D.State → Bool) (h : t.Has path u) :
    t.outline.hasKind f u.id = f u.decl.kind := by
  rw [Outline.hasKind, Outline.kind?, node?_of_has hd h]
  rfl

theorem isDescendant_iff_has {a : D.State} : t.outline.isDescendant s a ↔
    ∃ path u, t.Has path u ∧ u.id = s ∧ a ∈ path := by
  rw [Outline.isDescendant, Outline.ancestors, decide_eq_true_eq]
  constructor
  · intro h
    cases hn : t.outline.node? s with
    | none =>
      rw [hn] at h
      exact absurd h List.not_mem_nil
    | some n =>
      obtain ⟨path, u, hu, hid, rfl⟩ := has_of_node? hd hn
      rw [hn] at h
      exact ⟨path, u, hu, hid, h⟩
  · rintro ⟨path, u, hu, rfl, ha⟩
    rw [node?_of_has hd hu]
    exact ha

theorem substates_isEmpty_iff (h : t.Has path u) :
    (t.outline.substates u.id).isEmpty = false ↔ ∃ v ∈ u.children, ¬ v.decl.kind.isHistory := by
  have hchildren : t.outline.children u.id = u.children.map StateTree.id := by
    rw [Outline.children, node?_of_has hd h]
    rfl
  rw [Outline.substates, hchildren, List.isEmpty_eq_false_iff_exists_mem]
  constructor
  · rintro ⟨s, hs⟩
    obtain ⟨hchild, hkind⟩ := List.mem_filter.mp hs
    obtain ⟨v, hv, rfl⟩ := List.mem_map.mp hchild
    rw [hasKind_of_has hd _ (h.child hv)] at hkind
    exact ⟨v, hv, by simpa using hkind⟩
  · rintro ⟨v, hv, hkind⟩
    refine ⟨v.id, List.mem_filter.mpr ⟨List.mem_map_of_mem hv, ?_⟩⟩
    rw [hasKind_of_has hd _ (h.child hv)]
    simpa using hkind

/-! ## The checks -/

omit hd in
private theorem flawIf_eq_nil {b : Bool} {flaw : Flaw D.State} :
    (if b then [flaw] else []) = [] ↔ b = false := by
  cases b <;> simp

/-- A child that a state is to be entered by. -/
theorem initial_iff (h : t.Has path u) {i : D.State} :
    (i ∈ u.children.map StateTree.id ∧ t.outline.isHistory i = false) ↔
      ∃ v ∈ u.children, v.id = i ∧ ¬ v.decl.kind.isHistory := by
  constructor
  · rintro ⟨hi, hkind⟩
    obtain ⟨v, hv, rfl⟩ := List.mem_map.mp hi
    rw [Outline.isHistory, hasKind_of_has hd _ (h.child hv)] at hkind
    exact ⟨v, hv, rfl, by simp [hkind]⟩
  · rintro ⟨v, hv, rfl, hkind⟩
    rw [Outline.isHistory, hasKind_of_has hd _ (h.child hv)]
    exact ⟨List.mem_map_of_mem hv, by simpa using hkind⟩

theorem childFlaws_eq_nil_iff (h : t.Has path u) : t.outline.childFlaws (u.entry path) = [] ↔
    (u.decl.kind.isCompound ∨ u.decl.kind.isParallel →
        ∃ v ∈ u.children, ¬ v.decl.kind.isHistory) ∧
      (∀ i, u.decl.kind = .compound i → ∃ v ∈ u.children, v.id = i ∧ ¬ v.decl.kind.isHistory) ∧
      (u.decl.kind.isLeaf ∨ u.decl.kind.isHistory → u.children = []) := by
  have hsome := substates_isEmpty_iff hd h
  -- each kind has checks of its own, and the other clauses are vacuous for it
  cases hk : u.decl.kind with
  | compound i =>
    have hkind : (u.entry path).kind = .compound i := hk
    have hinitial := initial_iff hd h (i := i)
    have hflaws : t.outline.childFlaws (u.entry path) = [] ↔
        (t.outline.substates u.id).isEmpty = false ∧
          (i ∈ u.children.map StateTree.id ∧ t.outline.isHistory i = false) := by
      unfold Outline.childFlaws
      rw [hkind]
      change (if (t.outline.substates u.id).isEmpty then _ else _) ++
        (if i ∉ u.children.map StateTree.id then _ else _) = [] ↔ _
      by_cases hi : i ∈ u.children.map StateTree.id
      · cases (t.outline.substates u.id).isEmpty <;> cases t.outline.isHistory i <;> simp [hi]
      · simp [hi]
    rw [hflaws, hsome, hinitial]
    simp [NodeKind.isCompound, NodeKind.isLeaf, NodeKind.isAtomic, NodeKind.isFinal,
      NodeKind.isHistory]
  | parallel =>
    have hkind : (u.entry path).kind = .parallel := hk
    have hflaws : t.outline.childFlaws (u.entry path) = [] ↔
        (t.outline.substates u.id).isEmpty = false := by
      unfold Outline.childFlaws
      rw [hkind]
      change (if (t.outline.substates u.id).isEmpty then _ else _) = [] ↔ _
      cases (t.outline.substates u.id).isEmpty <;> simp
    rw [hflaws, hsome]
    simp [NodeKind.isParallel, NodeKind.isLeaf, NodeKind.isAtomic, NodeKind.isFinal,
      NodeKind.isHistory]
  | atomic | final | history =>
    have hkind : (u.entry path).kind = _ := hk
    have hflaws : t.outline.childFlaws (u.entry path) = [] ↔ u.children = [] := by
      unfold Outline.childFlaws
      rw [hkind]
      change (if (u.children.map StateTree.id).isEmpty then _ else _) = [] ↔ _
      cases u.children <;> simp
    rw [hflaws]
    simp [NodeKind.isCompound, NodeKind.isParallel, NodeKind.isLeaf, NodeKind.isAtomic,
      NodeKind.isFinal, NodeKind.isHistory]

omit hd in
theorem misbehaves_iff : Outline.misbehaves (u.entry path) = false ↔
    (u.decl.kind.isFinal → u.decl.transitions = [] ∧ u.decl.invocation = none) ∧
      (u.decl.kind.isHistory → u.decl.transitions = [] ∧ u.decl.invocation = none ∧
        u.decl.entry = [] ∧ u.decl.exit = []) := by
  have hkind : (u.entry path).kind = u.decl.kind := rfl
  have htransitions : (u.entry path).transitions = u.decl.transitions := rfl
  have hinvocation : (u.entry path).invocation = u.decl.invocation := rfl
  have hactions : (u.entry path).entry = u.decl.entry ∧ (u.entry path).exit = u.decl.exit :=
    ⟨rfl, rfl⟩
  unfold Outline.misbehaves
  rw [hkind, htransitions, hinvocation, hactions.1, hactions.2]
  cases u.decl.kind <;> simp [NodeKind.isFinal, NodeKind.isHistory, and_assoc]

theorem historyFlaws_eq_nil_iff (h : t.Has path u) : t.outline.historyFlaws (u.entry path) = [] ↔
    (∃ above p, path = p.id :: above ∧ t.Has above p ∧ u ∈ p.children ∧
        (p.decl.kind.isCompound ∨ p.decl.kind.isParallel)) ∧
      ∀ s, u.decl.fallback = some s →
        s ≠ u.id ∧ ∃ p ∈ path.head?, ∃ there v, t.Has there v ∧ v.id = s ∧ p ∈ there := by
  have hparent : (u.entry path).parent? = path.head? := rfl
  have hfallback : (u.entry path).fallback = u.decl.fallback := rfl
  unfold Outline.historyFlaws
  rw [hparent, hfallback]
  cases h with
  | top => simp
  | @child above p u hp hu =>
    have hkind : ∀ {there q}, t.Has there q →
        ((t.outline.isCompound q.id || t.outline.isParallel q.id) = true ↔
          (q.decl.kind.isCompound ∨ q.decl.kind.isParallel)) := by
      intro there q hq
      rw [Outline.isCompound, Outline.isParallel, hasKind_of_has hd _ hq, hasKind_of_has hd _ hq,
        Bool.or_eq_true]
    have hparent : (∃ above' p', p.id :: above = p'.id :: above' ∧ t.Has above' p' ∧
        u ∈ p'.children ∧ (p'.decl.kind.isCompound ∨ p'.decl.kind.isParallel)) ↔
          (t.outline.isCompound p.id || t.outline.isParallel p.id) = true := by
      constructor
      · rintro ⟨above', p', he, hp', -, hk⟩
        rw [(List.cons.inj he).1]
        exact (hkind hp').mpr hk
      · exact fun hk => ⟨above, p, rfl, hp, hu, (hkind hp).mp hk⟩
    have hbelow : ∀ s, (∀ s', some s = some s' → s' ≠ u.id ∧
        ∃ q ∈ some p.id, ∃ there v, t.Has there v ∧ v.id = s' ∧ q ∈ there) ↔
          s ≠ u.id ∧ t.outline.isDescendant s p.id = true := by
      intro s
      rw [isDescendant_iff_has hd]
      simp
    rw [hparent, List.head?_cons, Option.filter_some]
    cases t.outline.isCompound p.id || t.outline.isParallel p.id with
    | false => simp
    | true =>
      rw [if_pos rfl]
      cases u.decl.fallback with
      | none => simp
      | some s =>
        -- what lies below the parent is a state of the chart, so one of the two tests decides
        have hcontains : t.outline.isDescendant s p.id = true → t.outline.contains s = true := by
          rw [isDescendant_iff_has hd, contains_iff_has hd]
          exact fun ⟨there, v, hv, hid, _⟩ => ⟨there, v, hv, hid⟩
        rw [hbelow]
        change (if !t.outline.contains s then _
          else if !t.outline.isDescendant s p.id || decide (s = u.id) then _ else _) = [] ↔ _
        cases hs : t.outline.isDescendant s p.id with
        | false => cases t.outline.contains s <;> simp
        | true =>
          rw [hcontains hs]
          by_cases hself : s = u.id <;> simp [hself]

omit hd in
theorem mem_transitions {tr : Transition D} :
    tr ∈ (u.entry path).immediate ++ (u.entry path).delayed ↔ tr ∈ u.decl.transitions := by
  rw [Node.immediate, Node.delayed, List.mem_append, List.mem_filter, List.mem_filter,
    ← and_or_left]
  change tr ∈ u.decl.transitions ∧ _ ↔ _
  cases tr.delay? <;> simp

theorem targetFlaws_eq_nil_iff {tr : Transition D} : t.outline.targetFlaws u.id tr = [] ↔
    ∀ s, tr.target = some s → s ≠ t.id ∧ ∃ there v, t.Has there v ∧ v.id = s := by
  have hroot : t.outline.root = t.id := listInto_root t
  unfold Outline.targetFlaws
  cases tr.target with
  | none => simp
  | some target =>
    simp only [Option.some.injEq, forall_eq', ← contains_iff_has hd, hroot]
    cases t.outline.contains target with
    | false => simp
    | true => by_cases htop : target = t.id <;> simp [htop]

omit hd in
theorem awaitsInvocation_iff : (Outline.awaitsInvocation (u.entry path) &&
      (u.entry path).invocation.isNone) = false ↔
    ∀ tr ∈ u.decl.transitions, tr.trigger = .invokeDone ∨ tr.trigger = .invokeError →
      u.decl.invocation ≠ none := by
  unfold Outline.awaitsInvocation
  change (u.decl.transitions.any _ && u.decl.invocation.isNone) = false ↔ _
  cases u.decl.invocation with
  | none => simp
  | some => simp

/-- A state is found without a flaw if and only if it is declared as it should be. -/
theorem nodeFlaws_eq_nil_iff (h : t.Has path u) :
    t.outline.nodeFlaws (u.entry path) = [] ↔ t.RunnableAt path u := by
  have hhistory : (if (u.entry path).kind.isHistory then
      t.outline.historyFlaws (u.entry path) else []) = [] ↔
        (u.decl.kind.isHistory → t.outline.historyFlaws (u.entry path) = []) := by
    change (if u.decl.kind.isHistory then _ else _) = [] ↔ _
    cases u.decl.kind.isHistory <;> simp
  have htargets : ((u.entry path).immediate ++ (u.entry path).delayed).flatMap
      (t.outline.targetFlaws (u.entry path).id) = [] ↔
        ∀ tr ∈ u.decl.transitions, t.outline.targetFlaws u.id tr = [] := by
    rw [List.flatMap_eq_nil_iff]
    exact forall_congr' fun tr => imp_congr_left mem_transitions
  rw [Outline.nodeFlaws, List.append_eq_nil_iff, List.append_eq_nil_iff, List.append_eq_nil_iff,
    List.append_eq_nil_iff, flawIf_eq_nil, hhistory, htargets, flawIf_eq_nil, childFlaws_eq_nil_iff hd h,
    misbehaves_iff, historyFlaws_eq_nil_iff hd h, awaitsInvocation_iff]
  simp only [targetFlaws_eq_nil_iff hd]
  constructor
  · rintro ⟨⟨⟨⟨⟨h₁, h₂, h₃⟩, h₄, h₅⟩, h₆⟩, h₇⟩, h₈⟩
    exact ⟨h₁, h₂, h₃, h₄, h₅, fun hk => (h₆ hk).1, fun hk => (h₆ hk).2, h₇, h₈⟩
  · rintro ⟨h₁, h₂, h₃, h₄, h₅, h₆, h₇, h₈, h₉⟩
    exact ⟨⟨⟨⟨⟨h₁, h₂, h₃⟩, h₄, h₅⟩, fun hk => ⟨h₆ hk, h₇ hk⟩⟩, h₈⟩, h₉⟩

end

/-! ## Building -/

theorem flaws_eq_nil_iff_runnable : t.outline.flaws = [] ↔ t.Runnable := by
  rw [Outline.flaws_eq_nil_iff, repeated_eq_nil_iff]
  constructor
  · rintro ⟨hd, hflaws⟩
    refine ⟨hd, fun path u h => (nodeFlaws_eq_nil_iff hd h).mp (hflaws _ ?_)⟩
    exact List.mem_of_find?_eq_some (node?_of_has hd h)
  · rintro ⟨hd, hstates⟩
    refine ⟨hd, fun n hn => ?_⟩
    rw [nodes_of_distinct hd] at hn
    obtain ⟨path, u, h, rfl⟩ := (mem_entries t).mp hn
    rw [List.append_nil]
    exact (nodeFlaws_eq_nil_iff hd h).mpr (hstates path u h)

theorem build_cases (t : StateTree D) :
    (∃ c, t.build = .ok c ∧ c.toOutline = t.outline ∧ t.outline.flaws = []) ∨
      (t.build = .error t.outline.flaws ∧ t.outline.flaws ≠ []) := by
  unfold build
  dsimp only
  split
  · next h => exact Or.inl ⟨_, rfl, rfl, h⟩
  · next h => exact Or.inr ⟨rfl, fun hnil => h hnil⟩

theorem faithful_of_outline {c : Chart D} (hd : t.ids.Nodup) (hc : c.toOutline = t.outline) :
    t.Faithful c where
  root := (congrArg Outline.root hc).trans (listInto_root t)
  nodes n := by
    rw [hc, nodes_of_distinct hd, mem_entries]
    simp only [List.append_nil]
  node s n := by
    rw [hc]
    refine ⟨has_of_node? hd, ?_⟩
    rintro ⟨path, u, h, rfl, rfl⟩
    exact node?_of_has hd h
  top := by
    rw [hc, Outline.parent?, Outline.ancestors, node?_of_has hd .top]
    rfl
  parent path p u hp hu := by
    rw [hc, Outline.parent?, Outline.ancestors, node?_of_has hd (hp.child hu)]
    rfl
  children path p hp := by
    rw [hc, Outline.children, node?_of_has hd hp]
    rfl
  transitions path u _ := by
    refine ⟨List.filter_sublist, List.filter_sublist, ?_, fun tr htr => ?_, fun tr htr => ?_⟩
    · have hdelayed : (u.entry path).delayed = u.decl.transitions.filter (!·.delay?.isNone) :=
        List.filter_congr fun tr _ => by cases tr.delay? <;> rfl
      rw [hdelayed]
      exact List.filter_append_perm _ _
    · intro delay hafter
      have hnone := (List.mem_filter.mp htr).2
      rw [Transition.delay?, hafter] at hnone
      exact absurd hnone (by simp [Trigger.delay?])
    · have hsome := (List.mem_filter.mp htr).2
      unfold Transition.delay? Trigger.delay? at hsome
      split at hsome
      · next delay hafter => exact ⟨delay, hafter⟩
      · exact absurd hsome (by simp)

theorem refused_of_flaws (h : t.outline.flaws ≠ []) : t.Refused t.outline.flaws where
  some := h
  named hd path u hu := by
    have hrepeated := repeated_eq_nil_iff.mpr hd
    rw [← nodeFlaws_eq_nil_iff hd hu]
    constructor
    · rintro ⟨flaw, hflaw, hstate⟩ hnil
      obtain ⟨s, hs, -⟩ | ⟨n, hn, hflaw⟩ := Outline.mem_flaws.mp hflaw
      · rw [hrepeated] at hs
        exact absurd hs List.not_mem_nil
      · have hentry := List.mem_of_find?_eq_some (node?_of_has hd hu)
        rw [nodes_of_distinct hd] at hn hentry
        have hsame : n = u.entry path := List.inj_on_of_nodup_map hd hn hentry
          ((Outline.state_of_nodeFlaws hflaw).symm.trans hstate)
        rw [hsame, hnil] at hflaw
        exact absurd hflaw List.not_mem_nil
    · intro hne
      obtain ⟨flaw, hflaw⟩ := List.exists_mem_of_ne_nil _ hne
      exact ⟨flaw, Outline.mem_flaws.mpr (Or.inr
        ⟨_, List.mem_of_find?_eq_some (node?_of_has hd hu), hflaw⟩), Outline.state_of_nodeFlaws hflaw⟩
  repeated hd := by
    obtain ⟨s, hs⟩ := List.exists_mem_of_ne_nil _ (mt repeated_eq_nil_iff.mp hd)
    exact ⟨s, Outline.mem_flaws.mpr (Or.inl ⟨s, hs, rfl⟩)⟩

/-- A chart is made of a tree if and only if what the tree declares can be run. It has what is
declared, and otherwise what is wrong is said. -/
theorem build_iff (t : StateTree D) : ((∃ c, t.build = .ok c) ↔ t.Runnable) ∧
    (∀ c, t.build = .ok c → t.Faithful c) ∧ ∀ flaws, t.build = .error flaws → t.Refused flaws := by
  rcases build_cases t with ⟨c, hbuild, hc, hflaws⟩ | ⟨hbuild, hflaws⟩
  · have hrunnable := flaws_eq_nil_iff_runnable.mp hflaws
    refine ⟨iff_of_true ⟨c, hbuild⟩ hrunnable, fun c' hc' => ?_, fun flaws he => ?_⟩
    · obtain rfl := Except.ok.inj (hbuild.symm.trans hc')
      exact faithful_of_outline hrunnable.distinct hc
    · exact absurd (hbuild.symm.trans he) (by simp)
  · refine ⟨iff_of_false ?_ fun h => hflaws (flaws_eq_nil_iff_runnable.mpr h), fun c hc => ?_,
      fun flaws he => ?_⟩
    · rintro ⟨c, hc⟩
      exact absurd (hbuild.symm.trans hc) (by simp)
    · exact absurd (hbuild.symm.trans hc) (by simp)
    · obtain rfl := Except.error.inj (hbuild.symm.trans he)
      exact refused_of_flaws hflaws

end StateTree

end Statechart
