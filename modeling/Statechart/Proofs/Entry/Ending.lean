import Statechart.Proofs.Entry.Bounds

/-!
# Entering comes to an end

The fuel of an entry is never used up on a chart in which no history state falls back to itself by
way of others (`AcyclicFallbacks`). Whatever a state that can be active comes with lies deeper in
the tree and can be active too, so that there are not more levels to go down than there are such
states (`exists_addDescendants`). Only a history state leads anywhere else: to states that can be
active, from which the entry goes down and climbs as before, or to the history state that it falls
back to. Depth says nothing about the next history state, which may be anywhere below the parent.
But the history states on the way are all different, and none of them is among the states that the
way down goes through. So the fuel used for them is more than made up for by the states that are
left (`count_lt_size`, `exists_addDescendants_history`).

Of the history all that is used is that records are of states that can be active (`PlainRecords`).
-/

namespace Statechart

namespace Outline

variable {D : Domain} (c : Outline D)

/-- The number of states of a kind that satisfies `p`. -/
def count (p : NodeKind D.State → Bool) : Nat := c.nodes.countP fun n => p n.kind

/-- `s` is a history state that falls back to `t`, which is one too. -/
def FallsBackTo (s t : D.State) : Prop :=
  ∃ n, c.node? s = some n ∧ n.kind.isHistory ∧ n.fallback = some t ∧ c.isHistory t

/-- No history state falls back to itself by way of history states. -/
def AcyclicFallbacks : Prop := ∀ s, ¬ Relation.TransGen c.FallsBackTo s s

/-- Every record is of states that can be active. -/
def PlainRecords (h : History D.State) : Prop :=
  ∀ s l, c.isHistory s → h.get? s = some l → ∀ g ∈ l, c.contains g ∧ ¬ c.isHistory g

theorem size_eq_count (p : NodeKind D.State → Bool) :
    c.size = c.count p + c.count fun k => !p k := by
  rw [size, count, count, List.length_eq_countP_add_countP fun n => p n.kind]
  simp

end Outline

namespace Chart

variable {D : Domain} {c : Chart D} {h : History D.State} {s t p b : D.State}
  {l : List D.State} {f : NodeKind D.State → Bool}
  {add : D.State → StateSet D.State → Option (StateSet D.State)}

/-- No history state falls back to a history state. -/
def PlainFallbacks (c : Chart D) : Prop :=
  ∀ n ∈ c.nodes, ∀ t, n.fallback = some t → ¬ c.isHistory t

/-! ## Counting states -/

/-- There are not more different states of some kinds than the chart has. -/
theorem length_le_count (hl : l.Nodup) (hkind : ∀ s ∈ l, c.hasKind f s) : l.length ≤ c.count f := by
  have hsub : l ⊆ (c.nodes.filter fun n => f n.kind).map (·.id) := by
    intro s hs
    obtain ⟨k, hk, hf⟩ := hasKind_iff.mp (hkind s hs)
    obtain ⟨n, hn, rfl⟩ := node_of_kind? hk
    obtain ⟨hmem, rfl⟩ := c.node?_eq_some.mp hn
    exact List.mem_map_of_mem (List.mem_filter.mpr ⟨hmem, hf⟩)
  have hle := (hl.subperm hsub).length_le
  rwa [List.length_map, ← List.countP_eq_length_filter] at hle

theorem hasKind_of_not_isHistory (hs : c.contains s) (hh : ¬ c.isHistory s) :
    c.hasKind (fun k => !k.isHistory) s := by
  obtain ⟨n, hn⟩ := contains_iff.mp hs
  rw [isHistory_of_node hn] at hh
  rw [hasKind_of_kind? (kind?_of_node hn)]
  simpa using hh

/-- The path of a state that can be active consists of such states. -/
theorem depth_lt_count (hs : c.contains s) (hh : ¬ c.isHistory s) :
    c.depth s < c.count fun k => !k.isHistory := by
  have hpath : ∀ x ∈ s :: c.ancestors s, c.hasKind (fun k => !k.isHistory) x := by
    intro x hx
    rcases List.mem_cons.mp hx with he | hx
    · exact he ▸ hasKind_of_not_isHistory hs hh
    · exact hasKind_of_not_isHistory (contains_of_mem_ancestors hx)
        (not_isHistory_of_isDescendant (isDescendant_iff.mpr hx))
  -- the path is longer than the depth, by the state itself
  have hle := length_le_count (nodup_path s) hpath
  rw [List.length_cons, ← c.depth_eq] at hle
  omega

/-! ## Going down and climbing -/

theorem exists_foldlM {α β : Type} {f : β → α → Option β} :
    ∀ {l : List α}, (∀ a ∈ l, ∀ b, ∃ b', f b a = some b') → ∀ b, ∃ b', l.foldlM f b = some b'
  | [], _, b => ⟨b, rfl⟩
  | a :: l, hf, b => by
    obtain ⟨b₁, h₁⟩ := hf a (List.mem_cons_self ..) b
    rw [List.foldlM_cons, h₁]
    exact exists_foldlM (fun x hx => hf x (List.mem_cons_of_mem _ hx)) b₁

theorem exists_addRegions (hadd : ∀ r ∈ c.substates p, ∀ S, ∃ S', add r S = some S')
    (set : StateSet D.State) : ∃ set', c.addRegions add p set = some set' := by
  refine exists_foldlM (fun r hr S => ?_) set
  split
  · exact ⟨S, rfl⟩
  · exact hadd r hr S

theorem exists_addAncestors
    (hadd : ∀ r, c.contains r → ¬ c.isHistory r → ∀ S, ∃ S', add r S = some S')
    (set : StateSet D.State) : ∃ set', c.addAncestors add s b set = some set' := by
  refine exists_foldlM (fun a _ S => ?_) set
  split
  · refine exists_addRegions (fun r hr => ?_) _
    have hrp := mem_substates.mp hr
    exact hadd r (contains_of_parent hrp.1) hrp.2
  · exact ⟨_, rfl⟩

/-- Fuel for the levels below a state that can be active is enough to enter it. -/
theorem exists_addDescendants (fuel : Nat) : ∀ s, c.contains s → ¬ c.isHistory s →
    (c.count fun k => !k.isHistory) ≤ c.depth s + fuel →
      ∀ set, ∃ set', c.addDescendants h fuel s set = some set' := by
  induction fuel with
  | zero =>
    intro s hs hh hfuel
    have hdepth := depth_lt_count hs hh
    omega
  | succ fuel ih =>
    intro s hs hh hfuel set
    have hchild : ∀ t ∈ c.substates s, ∀ S, ∃ S', c.addDescendants h fuel t S = some S' := by
      intro t ht
      have hts := mem_substates.mp ht
      have hdepth := depth_of_parent hts.1
      exact ih t (contains_of_parent hts.1) hts.2 (by omega)
    obtain ⟨n, hn⟩ := contains_iff.mp hs
    have hkind := kind?_of_node hn
    rw [Outline.addDescendants, hn]
    dsimp only
    cases hk : n.kind with
    | history mode => exact absurd (isHistory_iff.mpr ⟨mode, hk ▸ hkind⟩) hh
    | compound i =>
      have hi := initial_mem_substates (hk ▸ hkind)
      obtain ⟨set₁, h₁⟩ := hchild i hi (set.insert s)
      dsimp only
      rw [h₁]
      -- there is nothing to climb from the initial child
      exact ⟨set₁, by simp [Outline.addAncestors, ancestorsBelow_parent (mem_substates.mp hi).1]⟩
    | parallel => exact exists_addRegions hchild _
    | atomic | final => exact ⟨_, rfl⟩

/-! ## History states -/

/-- What a history state stands for can be active, or is a history state that it falls back to. -/
theorem plain_or_fallsBackTo_of_restored {n : Node D} (hrecords : c.PlainRecords h)
    (hn : c.node? s = some n) (hk : n.kind.isHistory) (hp : c.parent? s = some p)
    (ht : t ∈ c.restored h n) :
    (c.contains t ∧ ¬ c.isHistory t) ∨ c.FallsBackTo s t := by
  cases hrec : h.get? s with
  | some l =>
    rw [restored_of_record hn hrec] at ht
    exact Or.inl (hrecords s l ((isHistory_of_node hn).mpr hk) hrec t ht)
  | none =>
    rw [restored_of_none hn hrec] at ht
    rcases fallbacks_cases hn hk hp with ⟨u, hu, hl, hup⟩ | ⟨i, -, -, hl, hi⟩ | ⟨-, -, hl⟩
    · rw [hl, List.mem_singleton] at ht
      obtain rfl := ht
      by_cases hh : c.isHistory t
      · exact Or.inr ⟨n, hn, hk, hu, hh⟩
      · exact Or.inl ⟨contains_of_isDescendant hup, hh⟩
    · rw [hl, List.mem_singleton] at ht
      obtain rfl := ht
      have hts := mem_substates.mp hi
      exact Or.inl ⟨contains_of_parent hts.1, hts.2⟩
    · rw [hl] at ht
      have hts := mem_substates.mp ht
      exact Or.inl ⟨contains_of_parent hts.1, hts.2⟩

section

variable (hacyclic : c.AcyclicFallbacks)

include hacyclic

/-- On the way to a history state no history state is come to twice. -/
theorem count_lt_size (hh : c.isHistory s) (hl : l.Nodup)
    (hway : ∀ v ∈ l, c.isHistory v ∧ Relation.TransGen c.FallsBackTo v s) :
    (c.count fun k => !k.isHistory) + l.length < c.size := by
  have hnew : s ∉ l := fun hs => hacyclic s (hway s hs).2
  have hkind : ∀ x ∈ s :: l, c.hasKind NodeKind.isHistory x := by
    intro x hx
    rcases List.mem_cons.mp hx with rfl | hx
    · exact hh
    · exact (hway x hx).1
  -- `s` is one history state more than there are on the way
  have hle := length_le_count (List.nodup_cons.mpr ⟨hnew, hl⟩) hkind
  rw [c.size_eq_count NodeKind.isHistory]
  rw [List.length_cons] at hle
  omega

/-- Fuel for the states of the chart, but for the history states `l` on the way to it, is enough to
enter a history state. -/
theorem exists_addDescendants_history (hrecords : c.PlainRecords h) (fuel : Nat) :
    ∀ (s : D.State) (l : List D.State), c.isHistory s → l.Nodup →
      (∀ v ∈ l, c.isHistory v ∧ Relation.TransGen c.FallsBackTo v s) → c.size ≤ fuel + l.length →
        ∀ set, ∃ set', c.addDescendants h fuel s set = some set' := by
  induction fuel with
  | zero =>
    intro s l hh hl hway hfuel
    have hroom := count_lt_size hacyclic hh hl hway
    omega
  | succ fuel ih =>
    intro s l hh hl hway hfuel set
    have hroom := count_lt_size hacyclic hh hl hway
    have hadd : ∀ r, c.contains r → ¬ c.isHistory r → ∀ S,
        ∃ S', c.addDescendants h fuel r S = some S' := fun r hr hh =>
      exists_addDescendants fuel r hr hh (by omega)
    obtain ⟨n, p, hn, hk, hp⟩ := node_of_isHistory hh
    have hnext : ∀ t ∈ c.restored h n, ∀ S, ∃ S', c.addDescendants h fuel t S = some S' := by
      intro t ht
      rcases plain_or_fallsBackTo_of_restored hrecords hn hk hp ht with ⟨ht, hht⟩ | hst
      · exact hadd t ht hht
      · -- the way goes on through `s`
        have hway' : ∀ v ∈ s :: l, c.isHistory v ∧ Relation.TransGen c.FallsBackTo v t := by
          intro v hv
          rcases List.mem_cons.mp hv with rfl | hv
          · exact ⟨hh, .single hst⟩
          · exact ⟨(hway v hv).1, (hway v hv).2.tail hst⟩
        obtain ⟨-, -, -, -, hht⟩ := hst
        have hl' : (s :: l).Nodup :=
          List.nodup_cons.mpr ⟨fun hs => hacyclic s (hway s hs).2, hl⟩
        refine ih t (s :: l) hht hl' hway' ?_
        rw [List.length_cons]
        omega
    -- what is climbed to lies outside the way and can be active
    obtain ⟨set₁, h₁⟩ := exists_foldlM hnext set
    obtain ⟨set₂, h₂⟩ := exists_foldlM (l := c.restored h n)
      (f := fun set t => c.addAncestors (c.addDescendants h fuel) t p set)
      (fun _ _ => exists_addAncestors hadd) set₁
    obtain ⟨mode, hmode⟩ := isHistory_iff.mp hh
    rw [kind?_of_node hn, Option.some.injEq] at hmode
    refine ⟨set₂, ?_⟩
    rw [Outline.addDescendants, hn]
    dsimp only
    rw [hmode, (parent?_of_node hn).trans hp]
    exact Option.bind_eq_some_iff.mpr ⟨set₁, h₁, h₂⟩

/-- As much fuel as there are states, and one for a state that the chart does not have, is enough to
enter any state. -/
theorem exists_addDescendants_of_entryFuel (hrecords : c.PlainRecords h) {fuel : Nat}
    (hfuel : c.entryFuel ≤ fuel) (s : D.State) (set : StateSet D.State) :
    ∃ set', c.addDescendants h fuel s set = some set' := by
  rw [Outline.entryFuel] at hfuel
  by_cases hs : c.contains s
  · by_cases hh : c.isHistory s
    · exact exists_addDescendants_history hacyclic hrecords fuel s [] hh List.nodup_nil
        (fun _ hv => absurd hv List.not_mem_nil) (by rw [List.length_nil]; omega) set
    · have hcount := c.size_eq_count NodeKind.isHistory
      exact exists_addDescendants fuel s hs hh (by omega) set
  · obtain ⟨fuel, rfl⟩ : ∃ k, fuel = k + 1 := ⟨fuel - 1, by omega⟩
    exact ⟨set, addDescendants_outside hs fuel set⟩

end

/-! ## Plain fallbacks -/

/-- Fallbacks do not run in a circle if they always lead to something of less rank. -/
theorem acyclicFallbacks_of_rank (rank : D.State → Nat)
    (hrank : ∀ n ∈ c.nodes, ∀ t ∈ n.fallback, c.isHistory t → rank t < rank n.id) :
    c.AcyclicFallbacks := by
  intro s hs
  have hless : ∀ t, Relation.TransGen c.FallsBackTo s t → rank t < rank s := by
    have hstep : ∀ u v, c.FallsBackTo u v → rank v < rank u := by
      rintro u v ⟨n, hn, -, hf, hv⟩
      obtain ⟨hmem, rfl⟩ := c.node?_eq_some.mp hn
      exact hrank n hmem v hf hv
    intro t ht
    induction ht with
    | single hst => exact hstep _ _ hst
    | tail _ huv ih => exact Nat.lt_trans (hstep _ _ huv) ih
  exact Nat.lt_irrefl _ (hless s hs)

theorem acyclicFallbacks_of_plain (hplain : c.PlainFallbacks) : c.AcyclicFallbacks :=
  acyclicFallbacks_of_rank (fun _ => 0) fun n hn t hf ht => absurd ht (hplain n hn t hf)

theorem plainRecords_of_bounded (hb : c.BoundedHistory h) : c.PlainRecords h := by
  intro s l hh hl g hg
  obtain ⟨p, hp⟩ := parent_of_isHistory hh
  exact ⟨contains_of_isDescendant (hb s l p hl hp g hg).1, (hb s l p hl hp g hg).2⟩

theorem exists_enterInto (hplain : c.PlainFallbacks) (hb : c.BoundedHistory h) (s : D.State)
    (set : StateSet D.State) : ∃ set', c.enterInto h s set = some set' :=
  exists_addDescendants_of_entryFuel (acyclicFallbacks_of_plain hplain) (plainRecords_of_bounded hb)
    (Nat.le_refl _) s set

theorem exists_climbInto (s b : D.State) (set : StateSet D.State) :
    ∃ set', c.climbInto h s b set = some set' := by
  have hcount := c.size_eq_count NodeKind.isHistory
  exact exists_addAncestors (fun r hr hh =>
    exists_addDescendants c.entryFuel r hr hh (by rw [Outline.entryFuel]; omega)) set

end Chart

end Statechart
