import Statechart.Proofs.Entry.Default

/-!
# Goals of an entry

What a transition enters is determined by its goals: the states its target stands
for. A history state stands for what it remembers or falls back to, and what it falls
back to may be a history state again; `StandsFor` follows such a chain to its end.

Several goals can be entered together if none lies below another and if at every
compound state around them they all go the same way (`Compatible`). Records are kept
of nothing else (`SoundHistory`), and what a history state falls back to without a
record is compatible by the shape of the chart (`compatible_singleton`,
`compatible_substates`).

`Brought` says what compatible goals bring along once the states of a set
`climbed` around them are entered too: the goals with what comes with them, the states
climbed, and of the parallel ones among these the regions in which no goal lies. It is
the closed form of what the entry loops compute one state at a time: climbing one
state further adds that state to the set climbed and nothing else
(`fills_addAncestors`).
-/

namespace Statechart

namespace Outline

variable {D : Domain} (c : Outline D)

/-- `x` is one of the states that `s` stands for. -/
inductive StandsFor (h : History D.State) : D.State → D.State → Prop
  | plain {s : D.State} : c.contains s → ¬ c.isHistory s → StandsFor h s s
  | restored {s t x : D.State} {n : Node D} :
      c.node? s = some n → n.kind.isHistory → t ∈ c.restored h n → StandsFor h t x →
        StandsFor h s x

/-- States that can be entered together. -/
structure Compatible (goal : D.State → Prop) : Prop where
  nonempty : ∃ g, goal g
  contains : ∀ g, goal g → c.contains g
  plain : ∀ g, goal g → ¬ c.isHistory g
  apart : ∀ g g', goal g → goal g' → ¬ c.isDescendant g g'
  together : ∀ p a b g g', c.isCompound p → c.parent? a = some p → c.parent? b = some p →
    goal g → goal g' → c.isWithin g a → c.isWithin g' b → a = b

/-- Every record is of states below the parent of the history state that go together. -/
def SoundHistory (h : History D.State) : Prop :=
  ∀ s l p, h.get? s = some l → c.parent? s = some p →
    c.Compatible (· ∈ l) ∧ l.Nodup ∧ ∀ g ∈ l, c.isDescendant g p

/-- What goals bring along when the states `climbed` around them are entered too. -/
def Brought (goal climbed : D.State → Prop) (x : D.State) : Prop :=
  (∃ g, goal g ∧ c.ComesWith g x) ∨ climbed x ∨
    ∃ a r, climbed a ∧ c.isParallel a ∧ r ∈ c.substates a ∧ (∀ g, goal g → ¬ c.isWithin g r) ∧
      c.ComesWith r x

/-- `set'` is `set` with what goals bring along. -/
def Fills (goal climbed : D.State → Prop) (set set' : StateSet D.State) : Prop :=
  ∀ x, x ∈ set' ↔ x ∈ set ∨ c.Brought goal climbed x

/-- The states strictly below `b` that have a goal strictly below them. -/
def Around (goal : D.State → Prop) (b a : D.State) : Prop :=
  c.isDescendant a b ∧ ∃ g, goal g ∧ c.isDescendant g a

end Outline

namespace Chart

variable {D : Domain} {c : Chart D} {h : History D.State} {s t x y p a b g r : D.State}
  {goal goal' climbed climbed' : D.State → Prop} {set set₀ set' : StateSet D.State}

/-! ## Compatible goals -/

theorem compatible_singleton (hs : c.contains s) (hh : ¬ c.isHistory s) : c.Compatible (· = s) where
  nonempty := ⟨s, rfl⟩
  contains := fun _ hg => hg ▸ hs
  plain := fun _ hg => hg ▸ hh
  apart := fun _ _ hg hg' => hg ▸ hg' ▸ isDescendant_irrefl
  together := by
    intro p a b g g' _ ha hb hg hg' hga hgb
    obtain rfl := hg
    obtain rfl := hg'
    exact child_towards_unique ha hb hga hgb

/-- The way down to the regions of a parallel state is one way as long as it is above them. -/
theorem compatible_substates (hp : c.isParallel p) : c.Compatible (· ∈ c.substates p) where
  nonempty := exists_region hp
  contains := fun g hg => contains_of_parent (mem_substates.mp hg).1
  plain := fun g hg => (mem_substates.mp hg).2
  apart := by
    intro g g' hg hg' hgg'
    have hwithin := isWithin_parent (mem_substates.mp hg).1 hgg'
    exact not_isDescendant_of_isWithin hwithin (isDescendant_parent (mem_substates.mp hg').1)
  together := by
    intro q a b g g' hq ha hb hg hg' hga hgb
    have hway : ∀ t u, c.parent? t = some q → u ∈ c.substates p → c.isWithin u t →
        c.isWithin p t := by
      intro t u ht hu hut
      rcases isWithin_iff.mp hut with rfl | hut
      · rw [(mem_substates.mp hu).1, Option.some.injEq] at ht
        subst ht
        exact absurd hp (not_isParallel_of_isCompound hq)
      · exact isWithin_parent (mem_substates.mp hu).1 hut
    exact child_towards_unique ha hb (hway a g ha hg hga) (hway b g' hb hg' hgb)

theorem compatible_congr (hgoal : ∀ x, goal x ↔ goal' x) (hc : c.Compatible goal) :
    c.Compatible goal' := by
  have he : goal = goal' := funext fun x => propext (hgoal x)
  exact he ▸ hc

/-! ## What a state stands for -/

/-- A history state without a record falls back to the state it names, else to the initial child or
the regions of its parent. -/
theorem fallbacks_cases {n : Node D} (hn : c.node? s = some n) (hk : n.kind.isHistory)
    (hp : c.parent? s = some p) :
    (∃ t, n.fallback = some t ∧ c.fallbacks n = [t] ∧ c.isDescendant t p) ∨
      (∃ i, n.fallback = none ∧ c.kind? p = some (.compound i) ∧ c.fallbacks n = [i] ∧
        i ∈ c.substates p) ∨
      (n.fallback = none ∧ c.isParallel p ∧ c.fallbacks n = c.substates p) := by
  have hparent : n.parent? = some p := (parent?_of_node hn).trans hp
  cases hf : n.fallback with
  | some t =>
    exact Or.inl ⟨t, rfl, by simp [Outline.fallbacks, hf], fallback_below hn hk hf hp⟩
  | none =>
    rcases isCompound_or_isParallel_of_parent hp with hc | hpar
    · obtain ⟨i, hi⟩ := isCompound_iff.mp hc
      exact Or.inr (Or.inl ⟨i, rfl, hi, by simp [Outline.fallbacks, hf, hparent, hi],
        initial_mem_substates hi⟩)
    · exact Or.inr (Or.inr ⟨rfl, hpar,
        by simp [Outline.fallbacks, hf, hparent, isParallel_iff.mp hpar]⟩)

theorem restored_of_record {n : Node D} {l : List D.State} (hn : c.node? s = some n)
    (hl : h.get? s = some l) : c.restored h n = l := by
  rw [Outline.restored, (c.node?_eq_some.mp hn).2, hl, Option.getD_some]

theorem restored_of_none {n : Node D} (hn : c.node? s = some n) (hl : h.get? s = none) :
    c.restored h n = c.fallbacks n := by
  rw [Outline.restored, (c.node?_eq_some.mp hn).2, hl, Option.getD_none]

/-- Entering a history state enters what it is restored to, one after another, and then climbs from
there to its parent. -/
theorem addDescendants_history {n : Node D} {fuel : Nat} (hn : c.node? s = some n)
    (hk : n.kind.isHistory) (hp : c.parent? s = some p)
    (h' : c.addDescendants h (fuel + 1) s set = some set') :
    ∃ set₁, (c.restored h n).foldlM (fun set t => c.addDescendants h fuel t set) set = some set₁ ∧
      (c.restored h n).foldlM
        (fun set t => c.addAncestors (c.addDescendants h fuel) t p set) set₁ = some set' := by
  have hparent : n.parent? = some p := (parent?_of_node hn).trans hp
  obtain ⟨mode, hmode⟩ := isHistory_iff.mp ((isHistory_of_node hn).mpr hk)
  rw [kind?_of_node hn, Option.some.injEq] at hmode
  rw [Outline.addDescendants, hn] at h'
  dsimp only at h'
  rw [hmode, hparent] at h'
  simpa only [Option.bind_eq_bind, Option.bind_eq_some_iff] using h'

theorem standsFor_plain_iff (hs : c.contains s) (hh : ¬ c.isHistory s) :
    c.StandsFor h s x ↔ x = s := by
  constructor
  · intro hx
    cases hx with
    | plain => rfl
    | restored hn hk _ _ => exact absurd ((isHistory_of_node hn).mpr hk) hh
  · intro he
    obtain rfl := he
    exact .plain hs hh

theorem standsFor_history_iff {n : Node D} (hn : c.node? s = some n) (hk : n.kind.isHistory) :
    c.StandsFor h s x ↔ ∃ t ∈ c.restored h n, c.StandsFor h t x := by
  constructor
  · intro hx
    cases hx with
    | plain _ hh => exact absurd ((isHistory_of_node hn).mpr hk) hh
    | restored hn' _ ht hx =>
      rw [hn, Option.some.injEq] at hn'
      exact ⟨_, hn' ▸ ht, hx⟩
  · intro hex
    obtain ⟨t, ht, hx⟩ := hex
    exact .restored hn hk ht hx

/-! ## Climbing -/

theorem brought_congr (hgoal : ∀ x, goal x ↔ goal' x) (hclimbed : ∀ x, climbed x ↔ climbed' x) :
    c.Brought goal climbed x ↔ c.Brought goal' climbed' x := by
  have hg : goal = goal' := funext fun x => propext (hgoal x)
  have hc : climbed = climbed' := funext fun x => propext (hclimbed x)
  rw [hg, hc]

theorem fills_congr (hgoal : ∀ x, goal x ↔ goal' x) (hclimbed : ∀ x, climbed x ↔ climbed' x)
    (hf : c.Fills goal climbed set set') : c.Fills goal' climbed' set set' :=
  fun x => (hf x).trans (or_congr_right (brought_congr hgoal hclimbed))

/-- A region without a goal is clear until the parallel state around it is climbed: whatever was
brought along at or below it would have a goal there, or have come to it from above. -/
private theorem clear_region (hgoal : c.Compatible goal)
    (hclimbed : ∀ a, climbed a → ∃ g, goal g ∧ c.isDescendant g a)
    (hfills : c.Fills goal climbed set₀ set) (hset₀ : ∀ y ∈ set₀, ¬ c.isDescendant y a)
    (ha : ∃ g, goal g ∧ c.isDescendant g a) (hnot : ¬ climbed a) (hr : r ∈ c.substates a)
    (hfree : ∀ g, goal g → ¬ c.isWithin g r) : c.Clear set r := by
  have hra := (mem_substates.mp hr).1
  obtain ⟨g', hg', hg'a⟩ := ha
  intro y hy hyr
  rcases (hfills y).mp hy with hy | ⟨g, hg, hgy⟩ | hy | ⟨a', r', ha', hpar', hr', hfree', hy⟩
  · exact hset₀ y hy (isDescendant_of_isWithin hyr (isDescendant_parent hra))
  · -- a goal around the region would lie around the goal below `a` too
    rcases isWithin_or_of_common (isWithin_of_comesWith hgy) hyr with hgr | hrg
    · exact hfree g hg hgr
    · exact hgoal.apart g' g hg' hg
        (isDescendant_of_isDescendant_of_isWithin hg'a (isWithin_parent hra hrg))
  · obtain ⟨g, hg, hgy⟩ := hclimbed y hy
    exact hfree g hg (isWithin_of_isDescendant
      (isDescendant_of_isDescendant_of_isWithin hgy hyr))
  · -- a region completed before lies below this one, is this one, or is around all of `a`
    have hra' := (mem_substates.mp hr').1
    rcases isWithin_or_of_common (isWithin_of_comesWith hy) hyr with h' | h'
    · rcases isWithin_iff.mp h' with rfl | h'
      · rw [hra, Option.some.injEq] at hra'
        exact hnot (hra' ▸ ha')
      · obtain ⟨g, hg, hga'⟩ := hclimbed a' ha'
        exact hfree g hg (isWithin_of_isDescendant
          (isDescendant_of_isDescendant_of_isWithin hga' (isWithin_parent hra' h')))
    · exact hfree' g' hg' (isWithin_of_isDescendant
        (isDescendant_of_isDescendant_of_isWithin hg'a (isWithin_parent hra h')))

/-- One state of a climb. -/
def climbStep (c : Chart D) (add : D.State → StateSet D.State → Option (StateSet D.State))
    (set : StateSet D.State) (a : D.State) : Option (StateSet D.State) :=
  if c.isParallel a then c.addRegions add a (set.insert a) else some (set.insert a)

private theorem fills_climbStep {add : D.State → StateSet D.State → Option (StateSet D.State)}
    (hadd : ∀ p, c.AddsDefaults add p) (hgoal : c.Compatible goal)
    (hclimbed : ∀ a, climbed a → ∃ g, goal g ∧ c.isDescendant g a)
    (hfills : c.Fills goal climbed set₀ set) (hset₀ : ∀ y ∈ set₀, ¬ c.isDescendant y a)
    (ha : ∃ g, goal g ∧ c.isDescendant g a) (h' : c.climbStep add set a = some set') :
    c.Fills goal (fun x => climbed x ∨ x = a) set₀ set' := by
  intro x
  unfold climbStep at h'
  split at h'
  · next hpar =>
    rw [mem_addRegions (hadd a) h' x, StateSet.mem_insert, hfills x]
    constructor
    · intro h
      rcases h with ((hx | hx | hx | ⟨a', r, ha', hx⟩) | rfl) | ⟨r, hr, hclear, hx⟩
      · exact Or.inl hx
      · exact Or.inr (Or.inl hx)
      · exact Or.inr (Or.inr (Or.inl (Or.inl hx)))
      · exact Or.inr (Or.inr (Or.inr ⟨a', r, Or.inl ha', hx⟩))
      · exact Or.inr (Or.inr (Or.inl (Or.inr rfl)))
      · -- a region that is clear has no goal, since the goals are in the set
        refine Or.inr (Or.inr (Or.inr ⟨a, r, Or.inr rfl, hpar, hr, fun g hg hgr => ?_, hx⟩))
        have hmem : g ∈ set := (hfills g).mpr (Or.inr (Or.inl ⟨g, hg, .self g⟩))
        exact hclear g (StateSet.mem_insert.mpr (Or.inl hmem)) hgr
    · intro h
      rcases h with hx | hx | (hx | rfl) | ⟨a', r, (ha' | rfl), hpar', hr, hfree, hx⟩
      · exact Or.inl (Or.inl (Or.inl hx))
      · exact Or.inl (Or.inl (Or.inr (Or.inl hx)))
      · exact Or.inl (Or.inl (Or.inr (Or.inr (Or.inl hx))))
      · exact Or.inl (Or.inr rfl)
      · exact Or.inl (Or.inl (Or.inr (Or.inr (Or.inr ⟨a', r, ha', hpar', hr, hfree, hx⟩))))
      · by_cases hca : climbed a'
        · exact Or.inl (Or.inl (Or.inr (Or.inr (Or.inr ⟨a', r, hca, hpar', hr, hfree, hx⟩))))
        · have hclear := clear_region hgoal hclimbed hfills hset₀ ha hca hr hfree
          exact Or.inr ⟨r, hr, clear_insert.mpr
            ⟨hclear, not_isWithin_of_parent (mem_substates.mp hr).1⟩, hx⟩
  · next hpar =>
    rw [Option.some.injEq] at h'
    subst h'
    rw [StateSet.mem_insert, hfills x]
    constructor
    · intro h
      rcases h with (hx | hx | hx | ⟨a', r, ha', hx⟩) | rfl
      · exact Or.inl hx
      · exact Or.inr (Or.inl hx)
      · exact Or.inr (Or.inr (Or.inl (Or.inl hx)))
      · exact Or.inr (Or.inr (Or.inr ⟨a', r, Or.inl ha', hx⟩))
      · exact Or.inr (Or.inr (Or.inl (Or.inr rfl)))
    · intro h
      rcases h with hx | hx | (hx | rfl) | ⟨a', r, (ha' | rfl), hpar', hx⟩
      · exact Or.inl (Or.inl hx)
      · exact Or.inl (Or.inr (Or.inl hx))
      · exact Or.inl (Or.inr (Or.inr (Or.inl hx)))
      · exact Or.inr rfl
      · exact Or.inl (Or.inr (Or.inr (Or.inr ⟨a', r, ha', hpar', hx⟩)))
      · exact absurd hpar' hpar

private theorem fills_climbList {add : D.State → StateSet D.State → Option (StateSet D.State)}
    (hadd : ∀ p, c.AddsDefaults add p) (hgoal : c.Compatible goal) :
    ∀ {l : List D.State} {climbed : D.State → Prop} {set : StateSet D.State},
      (∀ a, climbed a → ∃ g, goal g ∧ c.isDescendant g a) → c.Fills goal climbed set₀ set →
      (∀ a ∈ l, (∃ g, goal g ∧ c.isDescendant g a) ∧ ∀ y ∈ set₀, ¬ c.isDescendant y a) →
      l.foldlM (c.climbStep add) set = some set' →
      c.Fills goal (fun x => climbed x ∨ x ∈ l) set₀ set'
  | [], climbed, set, _, hfills, _, h' => by
    rw [List.foldlM_nil, Option.pure_def, Option.some.injEq] at h'
    subst h'
    exact fills_congr (fun _ => Iff.rfl) (fun x => by simp) hfills
  | a :: l, climbed, set, hclimbed, hfills, hl, h' => by
    rw [List.foldlM_cons, Option.bind_eq_bind, Option.bind_eq_some_iff] at h'
    obtain ⟨set₁, h₁, h₂⟩ := h'
    obtain ⟨ha, hset₀⟩ := hl a (List.mem_cons_self ..)
    have hfills₁ := fills_climbStep hadd hgoal hclimbed hfills hset₀ ha h₁
    have hclimbed₁ : ∀ b, climbed b ∨ b = a → ∃ g, goal g ∧ c.isDescendant g b := by
      intro b h
      rcases h with hb | rfl
      · exact hclimbed b hb
      · exact ha
    have := fills_climbList hadd hgoal hclimbed₁ hfills₁
      (fun b hb => hl b (List.mem_cons_of_mem _ hb)) h₂
    exact fills_congr (fun _ => Iff.rfl) (fun x => by simp [or_assoc]) this

/-- Climbing from `x` to a bound puts in the states on the way and what they bring along. -/
theorem fills_addAncestors {add : D.State → StateSet D.State → Option (StateSet D.State)}
    (hadd : ∀ p, c.AddsDefaults add p) (hgoal : c.Compatible goal)
    (hclimbed : ∀ a, climbed a → ∃ g, goal g ∧ c.isDescendant g a)
    (hfills : c.Fills goal climbed set₀ set) (hset₀ : ∀ y ∈ set₀, ¬ c.isDescendant y b)
    (hxb : c.isDescendant x b)
    (hx : ∀ a, c.isDescendant x a → ∃ g, goal g ∧ c.isDescendant g a)
    (h' : c.addAncestors add x b set = some set') :
    c.Fills goal (fun a => climbed a ∨ (c.isDescendant x a ∧ c.isDescendant a b)) set₀ set' := by
  have hl : ∀ a ∈ c.ancestorsBelow x (some b),
      (∃ g, goal g ∧ c.isDescendant g a) ∧ ∀ y ∈ set₀, ¬ c.isDescendant y a := by
    intro a ha
    obtain ⟨hxa, hab⟩ := (mem_ancestorsBelow hxb).mp ha
    exact ⟨hx a hxa, fun y hy hya => hset₀ y hy (isDescendant_trans hya hab)⟩
  have := fills_climbList hadd hgoal hclimbed hfills hl h'
  exact fills_congr (fun _ => Iff.rfl) (fun a => or_congr_right (mem_ancestorsBelow hxb)) this

end Chart

end Statechart
