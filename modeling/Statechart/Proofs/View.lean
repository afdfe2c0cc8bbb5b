import Statechart.Proofs.Chart.Orders
import Statechart.Proofs.Journal

/-!
# What a snapshot shows

A snapshot shows the configuration twice: as a list in document order, and as a tree. The tree is
made from the list by going down the chart from the root, one active child at a time or all of
them. `Shows` says what such a tree is at every level: the parts of a tree are those of the active
children of the state at its top, in the order declared, and a tree without parts is that of a
leaf.

A well-formed configuration is shown by the tree that is made from it (`shows_valueFrom`). Once a
tree shows a configuration, nothing else is needed of how it was made: its states are listed along
the chart (`states_of_shows`), its leaves among them (`leaves_of_shows`), and a path can be walked
down in it if and only if each state of the path is an active child of the one before
(`contains_iff_of_shows`).

When a machine has stopped nothing is active, and there is no tree.
-/

namespace Statechart

variable {D : Domain}

/-! ## Trees and their parts -/

namespace StateValue

variable {S : Type} {s : S} {path : List S}

/-- The trees directly below the top. -/
def parts : StateValue S → List (StateValue S)
  | .leaf _ => []
  | .compound _ active => [active]
  | .parallel _ regions => regions

theorem allStates_eq : ∀ vs : List (StateValue S), allStates vs = vs.flatMap states
  | [] => rfl
  | v :: vs => by rw [allStates, allStates_eq vs, List.flatMap_cons]

theorem allLeaves_eq : ∀ vs : List (StateValue S), allLeaves vs = vs.flatMap leaves
  | [] => rfl
  | v :: vs => by rw [allLeaves, allLeaves_eq vs, List.flatMap_cons]

theorem states_eq (v : StateValue S) : v.states = v.state :: v.parts.flatMap states := by
  cases v with
  | leaf s => rfl
  | compound s active => rw [states, parts, List.flatMap_singleton]; rfl
  | parallel s regions => rw [states, allStates_eq]; rfl

theorem leaves_eq {v : StateValue S} (h : v.parts ≠ []) : v.leaves = v.parts.flatMap leaves := by
  cases v with
  | leaf s => exact absurd rfl h
  | compound s active => rw [leaves, parts, List.flatMap_singleton]
  | parallel s regions => rw [leaves, allLeaves_eq]; rfl

variable [DecidableEq S]

theorem anyFollows_iff : ∀ {vs : List (StateValue S)},
    anyFollows path vs ↔ ∃ v ∈ vs, v.follows path
  | [] => by simp [anyFollows]
  | v :: vs => by rw [anyFollows, Bool.or_eq_true, anyFollows_iff, List.exists_mem_cons_iff]

theorem anyContains_iff : ∀ {vs : List (StateValue S)},
    anyContains path vs ↔ ∃ v ∈ vs, v.contains path
  | [] => by simp [anyContains]
  | v :: vs => by rw [anyContains, Bool.or_eq_true, anyContains_iff, List.exists_mem_cons_iff]

theorem follows_nil (v : StateValue S) : v.follows [] := by
  cases v <;> rfl

theorem follows_cons (v : StateValue S) :
    v.follows (s :: path) ↔ s = v.state ∧ (path = [] ∨ ∃ w ∈ v.parts, w.follows path) := by
  cases v with
  | leaf x => simp [follows, state, parts]
  | compound x active => simp [follows, state, parts]
  | parallel x regions => simp [follows, state, parts, anyFollows_iff]

theorem contains_iff (v : StateValue S) :
    v.contains path ↔ v.follows path ∨ ∃ w ∈ v.parts, w.contains path := by
  cases v with
  | leaf x => simp [contains, parts]
  | compound x active => simp [contains, parts]
  | parallel x regions => simp [contains, parts, anyContains_iff]

end StateValue

/-! ## Trees that show a configuration -/

namespace Outline

variable (c : Outline D)

/-- Whether a path of states goes from an active state to an active child at each step. -/
def IsActivePath (active : StateSet D.State) : List D.State → Prop
  | [] => True
  | s :: rest => s ∈ active ∧ (s :: rest).IsChain fun p t => t ∈ active ∧ c.parent? t = some p

end Outline

namespace Chart

variable {c : Chart D} {active : StateSet D.State} {s t : D.State} {v : StateValue D.State}
  {path : List D.State}

/-- Whether a tree shows what is active below and including the state at its top. -/
inductive Shows (c : Chart D) (active : StateSet D.State) : StateValue D.State → Prop
  | intro {v : StateValue D.State} :
      v.state ∈ active → v.parts.map (·.state) = (c.children v.state).filter (· ∈ active) →
      (v.parts = [] → v = .leaf v.state ∧ c.isLeaf v.state) →
      (∀ w ∈ v.parts, Shows c active w) → Shows c active v

/-- What is active is no history state, and so among the states that can be active. -/
theorem filter_substates (h : c.WellFormed active) (s : D.State) :
    (c.substates s).filter (· ∈ active) = (c.children s).filter (· ∈ active) := by
  rw [Outline.substates, List.filter_filter]
  refine List.filter_congr fun t ht => ?_
  by_cases hactive : t ∈ active
  · have hsub : t ∈ c.substates s := mem_substates.mpr ⟨mem_children.mp ht, h.plain t hactive⟩
    simpa [hactive] using (List.mem_filter.mp hsub).2
  · simp [hactive]

theorem state_valueFrom (p : D.State → Bool) (fuel : Nat) (s : D.State) :
    (c.valueFrom p fuel s).state = s := by
  cases fuel with
  | zero => rfl
  | succ fuel =>
    unfold Chart.valueFrom
    dsimp only
    split
    · split <;> rfl
    · rfl
    · rfl

/-- The tree made from a well-formed configuration shows it. -/
theorem shows_valueFrom (h : c.WellFormed active) : ∀ (fuel : Nat) {s : D.State}, s ∈ active →
    c.size ≤ c.depth s + fuel → c.Shows active (c.valueFrom (· ∈ active) fuel s)
  | 0, s, hs, hfuel => absurd (depth_lt_size (h.contains s hs)) (by omega)
  | fuel + 1, s, hs, hfuel => by
    have hfilter := filter_substates h s
    have hchild : ∀ t ∈ (c.substates s).filter (· ∈ active),
        c.Shows active (c.valueFrom (· ∈ active) fuel t) := by
      intro t ht
      rw [List.mem_filter, decide_eq_true_iff] at ht
      have hdepth := depth_of_parent (mem_substates.mp ht.1).1
      exact shows_valueFrom h fuel ht.2 (by omega)
    rcases kind_cases (h.contains s hs) with hk | hk | hk | hk
    · -- the one active child of a compound state
      obtain ⟨i, hi⟩ := isCompound_iff.mp hk
      obtain ⟨t, ⟨ht, hta⟩, huniq⟩ := h.compound s hs hk
      have hone : (c.substates s).filter (· ∈ active) = [t] := by
        refine List.perm_singleton.mp ((List.perm_ext_iff_of_nodup ((nodup_substates s).filter _)
          (List.nodup_singleton t)).mpr fun u => ?_)
        rw [List.mem_filter, decide_eq_true_iff, List.mem_singleton]
        exact ⟨huniq u, fun he => he ▸ ⟨ht, hta⟩⟩
      rw [hone] at hfilter hchild
      rw [Chart.valueFrom, hi]
      simp only [hone]
      refine .intro hs ?_ (fun hnil => absurd hnil (by simp [StateValue.parts])) ?_
      · exact (congrArg (· :: []) (state_valueFrom ..)).trans hfilter
      · intro w hw
        rw [List.mem_singleton.mp hw]
        exact hchild t (List.mem_singleton_self t)
    · -- all regions of a parallel state, of which there is one at least
      rw [Chart.valueFrom, isParallel_iff.mp hk]
      refine .intro hs ?_ (fun hnil => ?_) ?_
      · refine (List.map_map ..).trans (Eq.trans ?_ hfilter)
        exact List.map_id'' (fun t => state_valueFrom ..) _
      · obtain ⟨t, ht⟩ := exists_region hk
        have hmem : t ∈ (c.substates s).filter (· ∈ active) :=
          List.mem_filter.mpr ⟨ht, decide_eq_true (h.parallel s hs hk t ht)⟩
        rw [List.map_eq_nil_iff.mp hnil] at hmem
        exact absurd hmem List.not_mem_nil
      · intro w hw
        obtain ⟨t, ht, rfl⟩ := List.mem_map.mp hw
        exact hchild t ht
    · exact absurd hk (h.plain s hs)
    · have hnone : (c.children s).filter (· ∈ active) = [] := by
        refine List.filter_eq_nil_iff.mpr fun t ht hta => ?_
        exact h.leaf s hs hk t (of_decide_eq_true hta) (mem_children.mp ht)
      have hvalue : c.valueFrom (· ∈ active) (fuel + 1) s = .leaf s := by
        obtain ⟨k, hkind, hleaf⟩ := hasKind_iff.mp hk
        rw [Chart.valueFrom, hkind]
        cases k with
        | atomic | final => rfl
        | compound | parallel | history =>
          exact absurd hleaf (by simp [NodeKind.isLeaf, NodeKind.isAtomic, NodeKind.isFinal])
      rw [hvalue]
      exact .intro hs hnone.symm (fun _ => ⟨rfl, hk⟩) fun w hw => absurd hw List.not_mem_nil

/-! ### What a tree shows -/

/-- The parts of a tree are at the active children of the state at its top. -/
theorem exists_part (h : c.Shows active v) :
    (∃ w ∈ v.parts, w.state = t) ↔ t ∈ active ∧ c.parent? t = some v.state := by
  cases h with
  | intro hs hparts _ _ =>
    rw [← List.mem_map (f := StateValue.state), hparts, List.mem_filter, mem_children,
      decide_eq_true_iff, and_comm]

/-- The paths that can be walked down from the top are those of active children. -/
theorem follows_iff_of_shows (h : c.Shows active v) : v.follows path ↔ path = [] ∨
    (path.head? = some v.state ∧ path.IsChain fun p t => t ∈ active ∧ c.parent? t = some p) := by
  induction h generalizing path with
  | @intro v hs hparts hleaf hshows ih =>
    have hpart : ∀ t, _ := fun t => exists_part (t := t) (.intro hs hparts hleaf hshows)
    cases path with
    | nil => simp [StateValue.follows_nil]
    | cons s rest =>
      rw [StateValue.follows_cons]
      simp only [List.cons_ne_nil, false_or, List.head?_cons, Option.some.injEq]
      refine and_congr_right fun hsv => ?_
      cases rest with
      | nil => simp
      | cons t rest =>
        simp only [List.cons_ne_nil, false_or]
        rw [List.isChain_cons_cons, hsv, ← hpart t]
        constructor
        · rintro ⟨w, hw, hfollows⟩
          obtain ⟨hhead, hchain⟩ := ((ih w hw).mp hfollows).resolve_left (by simp)
          exact ⟨⟨w, hw, (Option.some.inj hhead).symm⟩, hchain⟩
        · rintro ⟨⟨w, hw, rfl⟩, hchain⟩
          exact ⟨w, hw, (ih w hw).mpr (Or.inr ⟨rfl, hchain⟩)⟩

/-- A path can be walked down from somewhere if it is one of active children. -/
theorem contains_iff_of_shows (h : c.Shows active v) : v.contains path ↔ path = [] ∨
    ((∃ s ∈ v.states, path.head? = some s) ∧
      path.IsChain fun p t => t ∈ active ∧ c.parent? t = some p) := by
  induction h generalizing path with
  | @intro v hs hparts hleaf hshows ih =>
    have hfollows : v.follows path ↔ _ := follows_iff_of_shows (.intro hs hparts hleaf hshows)
    have hbelow : (∃ w ∈ v.parts, w.contains path) ↔ (∃ w ∈ v.parts, path = [] ∨
        ((∃ s ∈ w.states, path.head? = some s) ∧
          path.IsChain fun p t => t ∈ active ∧ c.parent? t = some p)) :=
      exists_congr fun w => and_congr_right fun hw => ih w hw
    rw [StateValue.contains_iff, hfollows, hbelow, StateValue.states_eq]
    cases path with
    | nil => simp
    | cons s rest =>
      simp only [List.cons_ne_nil, false_or, List.head?_cons, List.mem_cons, List.mem_flatMap]
      constructor
      · rintro (⟨hhead, hchain⟩ | ⟨w, hw, ⟨x, hx, hhead⟩, hchain⟩)
        · exact ⟨⟨v.state, Or.inl rfl, hhead⟩, hchain⟩
        · exact ⟨⟨x, Or.inr ⟨w, hw, hx⟩, hhead⟩, hchain⟩
      · rintro ⟨⟨x, rfl | ⟨w, hw, hx⟩, hhead⟩, hchain⟩
        · exact Or.inl ⟨hhead, hchain⟩
        · exact Or.inr ⟨w, hw, ⟨x, hx, hhead⟩, hchain⟩

/-- The leaves of a tree are those of its states that are leaves of the chart. -/
theorem leaves_of_shows (h : c.Shows active v) : v.leaves = v.states.filter c.isLeaf := by
  induction h with
  | @intro v hs hparts hleaf hshows ih =>
    by_cases hnil : v.parts = []
    · obtain ⟨hv, hkind⟩ := hleaf hnil
      rw [hv, StateValue.states, StateValue.leaves, List.filter_cons_of_pos hkind, List.filter_nil]
    · obtain ⟨w, hw⟩ := List.exists_mem_of_ne_nil _ hnil
      have hparent := ((exists_part (.intro hs hparts hleaf hshows)).mp ⟨w, hw, rfl⟩).2
      rw [StateValue.leaves_eq hnil, StateValue.states_eq,
        List.filter_cons_of_neg (not_isLeaf_of_parent hparent), List.filter_flatMap]
      exact List.flatMap_congr ih

/-! ### Along the tree of the chart -/

/-- Nothing of a tree is active below a top that is not. -/
theorem inactive_entries (h : c.WellFormed active) {path : List D.State} :
    ∀ {t : StateTree D}, (∀ n ∈ t.entries path, n ∈ c.nodes) → t.id ∉ active →
      ((t.entries path).map (·.id)).filter (· ∈ active) = []
  | .node d children, hnodes, htop => by
    refine List.filter_eq_nil_iff.mpr fun s hs hactive => htop ?_
    obtain ⟨n, hn, rfl⟩ := List.mem_map.mp hs
    refine active_of_isWithin h (of_decide_eq_true hactive) ?_
    have hnode := node?_of_mem (hnodes n hn)
    rw [StateTree.entries] at hn
    rcases List.mem_cons.mp hn with rfl | hn
    · exact isWithin_refl _
    · refine isWithin_of_isDescendant (isDescendant_iff.mpr ?_)
      rw [ancestors_of_node hnode]
      exact StateTree.allEntries_below (List.mem_cons_self ..) children hn

mutual

/-- The states of a tree that shows a configuration are listed as in the chart. -/
theorem states_of_shows (h : c.WellFormed active) {path : List D.State} :
    ∀ {t : StateTree D} {v : StateValue D.State}, (∀ n ∈ t.entries path, n ∈ c.nodes) →
      c.Shows active v → v.state = t.id →
      v.states = ((t.entries path).map (·.id)).filter (· ∈ active)
  | .node d children, v, hnodes, hv, htop => by
    cases hv with
    | intro hs hparts hleaf hshows =>
      have hchildren := children_of_node (node?_of_mem (hnodes _ (List.mem_cons_self ..)))
      have hbelow : ∀ n ∈ StateTree.allEntries (d.id :: path) children, n ∈ c.nodes :=
        fun n hn => hnodes n (List.mem_cons_of_mem _ hn)
      have htop : v.state = d.id := htop
      rw [htop] at hs hparts
      rw [StateTree.entries, List.map_cons, List.filter_cons_of_pos (by simpa using hs),
        StateValue.states_eq, htop]
      exact congrArg _ (flatMap_states_of_shows h hbelow hshows (hparts.trans (by rw [hchildren])))

/-- So are those of trees beside each other. -/
theorem flatMap_states_of_shows (h : c.WellFormed active) {path : List D.State} :
    ∀ {ts : List (StateTree D)} {vs : List (StateValue D.State)},
      (∀ n ∈ StateTree.allEntries path ts, n ∈ c.nodes) → (∀ v ∈ vs, c.Shows active v) →
      vs.map (·.state) = (ts.map (·.id)).filter (· ∈ active) →
      vs.flatMap StateValue.states =
        ((StateTree.allEntries path ts).map (·.id)).filter (· ∈ active)
  | [], vs, _, _, htops => by
    rw [List.map_nil, List.filter_nil, List.map_eq_nil_iff] at htops
    rw [htops]
    rfl
  | t :: ts, vs, hnodes, hshows, htops => by
    rw [StateTree.allEntries, List.map_append, List.filter_append]
    rw [StateTree.allEntries] at hnodes
    have hfirst : ∀ n ∈ t.entries path, n ∈ c.nodes :=
      fun n hn => hnodes n (List.mem_append_left _ hn)
    have hrest : ∀ n ∈ StateTree.allEntries path ts, n ∈ c.nodes :=
      fun n hn => hnodes n (List.mem_append_right _ hn)
    by_cases hactive : t.id ∈ active
    · rw [List.map_cons, List.filter_cons_of_pos (by simpa using hactive)] at htops
      obtain ⟨v, vs, rfl, htop, htops⟩ := List.map_eq_cons_iff.mp htops
      rw [List.flatMap_cons, states_of_shows h hfirst (hshows v (List.mem_cons_self ..)) htop,
        flatMap_states_of_shows h hrest (fun w hw => hshows w (List.mem_cons_of_mem _ hw)) htops]
    · rw [List.map_cons, List.filter_cons_of_neg (by simpa using hactive)] at htops
      rw [inactive_entries h hfirst hactive, List.nil_append]
      exact flatMap_states_of_shows h hrest hshows htops

end

end Chart

/-! ## Snapshots -/

namespace Machine

variable {c : Chart D} {m m' : Machine D} {steps : List (Settled D)}

/-- What a snapshot shows of a well-formed configuration. -/
structure Viewed (m : Machine D) : Prop where
  /-- The active states are listed in document order, each once. -/
  configuration : m.snapshot.configuration =
    (m.chart.nodes.map (·.id)).filter (· ∈ m.configuration)
  nodup : m.snapshot.configuration.Nodup
  mem : ∀ s, s ∈ m.snapshot.configuration ↔ s ∈ m.configuration
  /-- The tree has the same states in the same order, and its leaves are the active leaves. -/
  value : ∃ v, m.snapshot.value = some v ∧ v.states = m.snapshot.configuration ∧
    v.leaves = m.snapshot.configuration.filter m.chart.isLeaf
  /-- The paths in the tree are those that go from an active state to active children. -/
  paths : ∀ path, m.snapshot.hasPath path ↔ m.chart.IsActivePath m.configuration path

theorem viewed_of_wellFormed (h : m.chart.WellFormed m.configuration) : m.Viewed := by
  have hlisted : m.snapshot.configuration =
      (m.chart.nodes.map (·.id)).filter (· ∈ m.configuration) :=
    Chart.inDocumentOrder_eq m.configuration.nodup h.contains
  have hmem : ∀ s, s ∈ m.snapshot.configuration ↔ s ∈ m.configuration :=
    fun s => m.chart.mem_inDocumentOrder
  have hshows := Chart.shows_valueFrom h m.chart.size h.root (Nat.le_add_left ..)
  have hvalue : m.snapshot.value =
      some (m.chart.valueFrom (· ∈ m.configuration) m.chart.size m.chart.root) :=
    if_pos (decide_eq_true h.root)
  have hstates : (m.chart.valueFrom (· ∈ m.configuration) m.chart.size m.chart.root).states =
      m.snapshot.configuration := by
    rw [hlisted, m.chart.nodes_eq]
    refine Chart.states_of_shows h (fun n hn => m.chart.nodes_eq ▸ hn) hshows ?_
    rw [Chart.state_valueFrom, m.chart.root_eq]
  refine ⟨hlisted, ?_, hmem, ⟨_, hvalue, hstates, ?_⟩, fun path => ?_⟩
  · rw [hlisted]
    exact m.chart.nodup_ids.filter _
  · rw [Chart.leaves_of_shows hshows, hstates]
  · have hpath : m.snapshot.hasPath path =
        (m.chart.valueFrom (· ∈ m.configuration) m.chart.size m.chart.root).contains path := by
      unfold Snapshot.hasPath
      rw [hvalue]
    rw [hpath, Chart.contains_iff_of_shows hshows, hstates]
    cases path with
    | nil => simp [Outline.IsActivePath]
    | cons s rest => simp [Outline.IsActivePath, hmem]

/-- Nothing is active in a machine that has stopped. -/
theorem inactive_of_stopped {s : D.State} (hrun : Run c steps m) (hs : m.status = .stopped) :
    s ∉ m.configuration := by
  induction hrun with
  | fresh _ hfresh => exact absurd (hfresh.status.symm.trans hs) (by simp)
  | move _ hmove ih =>
    rcases move_work hmove with ⟨hfaulted, -⟩ | hpasses
    · exact absurd (hfaulted.symm.trans hs) (by simp)
    · rw [hpasses.configuration]
      rcases hpasses.status with hstatus | ⟨-, hrunning⟩
      · exact ih (hstatus.symm.trans hs)
      · exact absurd (hrunning.symm.trans hs) (by simp)
  | settle hrun hsettling _ => exact inactive_of_settling hrun hsettling (Or.inl hs)

/-- A snapshot shows a well-formed configuration as it is, and after stop it shows none. -/
theorem faithful_view (c : Chart D) :
    (∀ m : Machine D, m.chart = c → c.WellFormed m.configuration → m.Viewed) ∧
      ∀ steps m, Run c steps m → m.status = .stopped →
        m.snapshot.configuration = [] ∧ m.snapshot.value = none ∧
          ∀ path, m.snapshot.hasPath path = false := by
  refine ⟨fun m hc h => viewed_of_wellFormed (hc ▸ h), fun steps m hrun hs => ?_⟩
  have hnone : m.snapshot.value = none :=
    if_neg fun hroot => inactive_of_stopped hrun hs (of_decide_eq_true hroot)
  refine ⟨?_, hnone, fun path => by rw [Snapshot.hasPath, hnone]⟩
  refine List.eq_nil_iff_forall_not_mem.mpr fun s hmem => ?_
  exact inactive_of_stopped hrun hs (m.chart.mem_inDocumentOrder.mp hmem)

end Machine

/-! ## A stereo -/

inductive StereoState | stereo | set | tuned | talk | music | lamp | lit
deriving DecidableEq

/-- A stereo that is tuned while its lamp is lit. -/
def stereoTree : StateTree (.bare StereoState) :=
  .bare .stereo .parallel []
    [.bare .set (.compound .tuned) []
      [.bare .tuned (.compound .talk) []
        [.bare .talk .atomic [.bare "next" .music], .bare .music .atomic]],
    .bare .lamp (.compound .lit) [] [.bare .lit .atomic]]

def stereo : Chart (.bare StereoState) :=
  { stereoTree.outline with tree := stereoTree, outline_eq := rfl, flawless := by cbv }

/-- A stereo that plays music. -/
def playing : Machine (.bare StereoState) :=
  { stereo.machine with configuration := .ofList [.lit, .music, .stereo, .tuned, .lamp, .set] }

open Machine in
/-- Where the music is within the stereo can be asked for from any state down, however the active
states were put in. When the stereo is off there is no path at all. -/
theorem stereo_viewed : stereo.WellFormed playing.configuration ∧ playing.Viewed ∧
    playing.snapshot.configuration = [.stereo, .set, .tuned, .music, .lamp, .lit] ∧
    playing.snapshot.hasPath [.set, .tuned, .music] = true ∧
    playing.snapshot.hasPath [.set, .music] = false ∧
    ∃ steps m, Run stereo steps m ∧ m.status = .stopped ∧ m.snapshot.hasPath [] = false := by
  have hwf : stereo.WellFormed playing.configuration := by decide
  have hfresh : stereo.machine.Fresh := ⟨rfl, rfl, rfl, rfl, rfl, rfl, rfl, rfl, rfl, rfl, rfl⟩
  obtain ⟨⟨steps, hrun⟩, -⟩ :=
    run_of_atRest (atRest_after (.fresh (c := stereo) rfl hfresh) 9 [.start, .stop])
  have hstatus : (stereo.machine.after 9 [.start, .stop]).status = .stopped := by cbv
  exact ⟨hwf, (faithful_view stereo).1 playing rfl hwf, by cbv, by cbv, by cbv, steps, _, hrun,
    hstatus, ((faithful_view stereo).2 steps _ hrun hstatus).2.2 []⟩

end Statechart
