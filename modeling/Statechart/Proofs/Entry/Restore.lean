import Statechart.Proofs.Entry.Goals

/-!
# Entering what a history state stands for

Entering a history state enters what it stands for, and around each of these states
all that lies below the parent of the history state (`fills_history`). The proof
follows the recursion: a record, or what the chart itself offers in its place, is a
list of compatible states, which are entered one after another and then climbed from
one after another; a history state that falls back to another adds nothing but the
rest of the climb.

From a bound that the parent lies within, climbing further is the same again
(`fills_climbs`), so that in the end the states entered depend on the goals and the
bound alone.
-/

namespace Statechart.Chart

variable {D : Domain} {c : Chart D} {h : History D.State} {s t x y p q a b g : D.State}
  {goal climbed : D.State → Prop} {set set₀ set' : StateSet D.State}

theorem addsDefaults_addDescendants (fuel : Nat) (p : D.State) :
    c.AddsDefaults (c.addDescendants h fuel) p :=
  fun _ hr _ _ hclear h' =>
    mem_addDescendants fuel (contains_of_parent (mem_substates.mp hr).1) (mem_substates.mp hr).2
      hclear h'

theorem nodup_substates (p : D.State) : (c.substates p).Nodup :=
  (nodup_children p).filter _

/-! ## What a history state is restored to -/

/-- A history state is restored to states that go together, or to one other history state. -/
theorem restored_cases {n : Node D} (hsound : c.SoundHistory h) (hn : c.node? s = some n)
    (hk : n.kind.isHistory) (hp : c.parent? s = some p) :
    (c.Compatible (· ∈ c.restored h n) ∧ (c.restored h n).Nodup ∧
        ∀ g ∈ c.restored h n, c.isDescendant g p) ∨
      ∃ t, c.restored h n = [t] ∧ c.isHistory t ∧ c.isDescendant t p := by
  cases hrec : h.get? s with
  | some l =>
    rw [restored_of_record hn hrec]
    exact Or.inl (hsound s l p hrec hp)
  | none =>
    rw [restored_of_none hn hrec]
    -- the declared fallback, the initial child, or all regions
    rcases fallbacks_cases hn hk hp with ⟨t, -, hl, ht⟩ | ⟨i, -, -, hl, hi⟩ | ⟨-, hpar, hl⟩
    · rw [hl]
      by_cases hh : c.isHistory t
      · exact Or.inr ⟨t, rfl, hh, ht⟩
      · refine Or.inl ⟨compatible_congr (fun x => by simp)
          (compatible_singleton (contains_of_isDescendant ht) hh), by simp, ?_⟩
        simpa using ht
    · have hsub := mem_substates.mp hi
      rw [hl]
      refine Or.inl ⟨compatible_congr (fun x => by simp)
        (compatible_singleton (contains_of_parent hsub.1) hsub.2), by simp, ?_⟩
      simpa using isDescendant_parent hsub.1
    · rw [hl]
      exact Or.inl ⟨compatible_substates hpar, nodup_substates p,
        fun g hg => isDescendant_parent (mem_substates.mp hg).1⟩

/-! ## Entering and climbing for several states -/

/-- States apart from each other are entered one after another without getting in each other's
way. -/
theorem mem_foldlM_addDescendants (fuel : Nat) :
    ∀ {l : List D.State} {set : StateSet D.State}, l.Nodup →
      (∀ g ∈ l, ∀ g' ∈ l, ¬ c.isDescendant g g') →
      (∀ g ∈ l, c.contains g ∧ ¬ c.isHistory g ∧ c.Clear set g) →
      l.foldlM (fun set g => c.addDescendants h fuel g set) set = some set' →
      ∀ x, x ∈ set' ↔ x ∈ set ∨ ∃ g ∈ l, c.ComesWith g x
  | [], set, _, _, _, h', x => by
    rw [List.foldlM_nil, Option.pure_def, Option.some.injEq] at h'
    subst h'
    simp
  | g :: l, set, hnodup, hapart, hl, h', x => by
    rw [List.foldlM_cons, Option.bind_eq_bind, Option.bind_eq_some_iff] at h'
    obtain ⟨set₁, h₁, h₂⟩ := h'
    obtain ⟨hg, hh, hclear⟩ := hl g (List.mem_cons_self ..)
    have hmem := mem_addDescendants fuel hg hh hclear h₁
    -- what came with the first state is not in the way of the others, which lie apart from it
    have hrest : ∀ g' ∈ l, c.contains g' ∧ ¬ c.isHistory g' ∧ c.Clear set₁ g' := by
      intro g' hg'
      obtain ⟨hc, hh', hclear'⟩ := hl g' (List.mem_cons_of_mem _ hg')
      refine ⟨hc, hh', fun y hy hyg' => ?_⟩
      rcases (hmem y).mp hy with hy | hy
      · exact hclear' y hy hyg'
      · rcases isWithin_or_of_common (isWithin_of_comesWith hy) hyg' with hgg' | hgg'
        · rcases isWithin_iff.mp hgg' with rfl | hgg'
          · exact (List.nodup_cons.mp hnodup).1 hg'
          · exact hapart g (List.mem_cons_self ..) g' (List.mem_cons_of_mem _ hg') hgg'
        · exact hapart g' (List.mem_cons_of_mem _ hg') g (List.mem_cons_self ..) hgg'
    rw [mem_foldlM_addDescendants fuel (List.nodup_cons.mp hnodup).2
      (fun a ha b hb => hapart a (List.mem_cons_of_mem _ ha) b (List.mem_cons_of_mem _ hb))
      hrest h₂ x, hmem x, List.exists_mem_cons_iff, or_assoc]

/-- Climbing to a bound from several states. -/
theorem fills_climbs {add : D.State → StateSet D.State → Option (StateSet D.State)}
    (hadd : ∀ p, c.AddsDefaults add p) (hgoal : c.Compatible goal)
    (hset₀ : ∀ y ∈ set₀, ¬ c.isDescendant y b) :
    ∀ {l : List D.State} {climbed : D.State → Prop} {set : StateSet D.State},
      (∀ a, climbed a → ∃ g, goal g ∧ c.isDescendant g a) → c.Fills goal climbed set₀ set →
      (∀ x ∈ l, c.isDescendant x b ∧
        ∀ a, c.isDescendant x a → ∃ g, goal g ∧ c.isDescendant g a) →
      l.foldlM (fun set x => c.addAncestors add x b set) set = some set' →
      c.Fills goal (fun a => climbed a ∨ ∃ x ∈ l, c.isDescendant x a ∧ c.isDescendant a b) set₀ set'
  | [], climbed, set, _, hfills, _, h' => by
    rw [List.foldlM_nil, Option.pure_def, Option.some.injEq] at h'
    subst h'
    exact fills_congr (fun _ => Iff.rfl) (fun a => by simp) hfills
  | x :: l, climbed, set, hclimbed, hfills, hl, h' => by
    rw [List.foldlM_cons, Option.bind_eq_bind, Option.bind_eq_some_iff] at h'
    obtain ⟨set₁, h₁, h₂⟩ := h'
    obtain ⟨hxb, hx⟩ := hl x (List.mem_cons_self ..)
    have hfills₁ := fills_addAncestors hadd hgoal hclimbed hfills hset₀ hxb hx h₁
    -- what the first climb passes counts as climbed for the others
    have hclimbed₁ : ∀ a, climbed a ∨ (c.isDescendant x a ∧ c.isDescendant a b) →
        ∃ g, goal g ∧ c.isDescendant g a := by
      intro a h
      rcases h with ha | ha
      · exact hclimbed a ha
      · exact hx a ha.1
    have := fills_climbs hadd hgoal hset₀ hclimbed₁ hfills₁
      (fun y hy => hl y (List.mem_cons_of_mem _ hy)) h₂
    exact fills_congr (fun _ => Iff.rfl) (fun a => by simp [or_assoc]) this

/-! ## Entering a history state -/

/-- A state that can be entered stands for something: a chain of fallbacks that is followed to its
end has an end. -/
theorem exists_standsFor (hsound : c.SoundHistory h) :
    ∀ (fuel : Nat) {s : D.State} {set set' : StateSet D.State}, c.contains s →
      c.addDescendants h fuel s set = some set' → ∃ x, c.StandsFor h s x := by
  intro fuel
  induction fuel with
  | zero => intro s set set' _ h'; exact absurd h' (by simp [Outline.addDescendants])
  | succ fuel ih =>
    intro s set set' hs h'
    by_cases hh : c.isHistory s
    · obtain ⟨n, p, hn, hkh, hp⟩ := node_of_isHistory hh
      rcases restored_cases hsound hn hkh hp with ⟨hcompat, -, -⟩ | ⟨t, hl, -, htp⟩
      · obtain ⟨x, hx⟩ := hcompat.nonempty
        exact ⟨x, .restored hn hkh hx (.plain (hcompat.contains x hx) (hcompat.plain x hx))⟩
      · obtain ⟨set₁, h₁, -⟩ := addDescendants_history hn hkh hp h'
        simp only [hl, List.foldlM_cons, List.foldlM_nil, bind_pure] at h₁
        obtain ⟨x, hx⟩ := ih (contains_of_isDescendant htp) h₁
        exact ⟨x, .restored hn hkh (hl ▸ List.mem_singleton.mpr rfl) hx⟩
    · exact ⟨s, .plain hs hh⟩

/-- What a history state is entered with: the record, or what stands in for it. -/
private theorem fills_history_of_compatible {n : Node D} {fuel : Nat} (hn : c.node? s = some n)
    (hk : n.kind.isHistory) (hcompat : c.Compatible (· ∈ c.restored h n))
    (hnodup : (c.restored h n).Nodup) (hbelow : ∀ g ∈ c.restored h n, c.isDescendant g p)
    (hset : ∀ y ∈ set, ¬ c.isDescendant y p) {set₁ : StateSet D.State}
    (h₁ : (c.restored h n).foldlM (fun set t => c.addDescendants h fuel t set) set = some set₁)
    (h₂ : (c.restored h n).foldlM
      (fun set t => c.addAncestors (c.addDescendants h fuel) t p set) set₁ = some set') :
    c.Compatible (c.StandsFor h s) ∧ (∀ g, c.StandsFor h s g → c.isDescendant g p) ∧
      c.Fills (c.StandsFor h s) (c.Around (c.StandsFor h s) p) set set' := by
  -- compatible goals are plain, so each of them stands for itself
  have hgoal : ∀ x, x ∈ c.restored h n ↔ c.StandsFor h s x := by
    intro x
    rw [standsFor_history_iff hn hk]
    constructor
    · intro hx
      exact ⟨x, hx, .plain (hcompat.contains x hx) (hcompat.plain x hx)⟩
    · intro hex
      obtain ⟨t, ht, hx⟩ := hex
      rwa [(standsFor_plain_iff (hcompat.contains t ht) (hcompat.plain t ht)).mp hx]
  have hmem := mem_foldlM_addDescendants fuel hnodup
    (fun g hg g' hg' => hcompat.apart g g' hg hg')
    (fun g hg => ⟨hcompat.contains g hg, hcompat.plain g hg,
      fun y hy hyg => hset y hy (isDescendant_of_isWithin hyg (hbelow g hg))⟩) h₁
  have hfills₁ : c.Fills (· ∈ c.restored h n) (fun _ => False) set set₁ := by
    intro x
    rw [hmem x]
    simp [Outline.Brought]
  have hfills := fills_climbs (addsDefaults_addDescendants fuel) hcompat hset
    (fun _ hf => hf.elim) hfills₁
    (fun g hg => ⟨hbelow g hg, fun a ha => ⟨g, hg, ha⟩⟩) h₂
  refine ⟨compatible_congr hgoal hcompat, fun g hg => hbelow g ((hgoal g).mpr hg), ?_⟩
  refine fills_congr hgoal (fun a => ?_) hfills
  rw [false_or, Outline.Around]
  constructor
  · intro hex
    obtain ⟨g, hg, hga, hap⟩ := hex
    exact ⟨hap, g, (hgoal g).mp hg, hga⟩
  · intro hex
    obtain ⟨hap, g, hg, hga⟩ := hex
    exact ⟨g, (hgoal g).mpr hg, hga, hap⟩

/-- Entering a history state enters what it stands for and all that is around it below the parent
of the history state. -/
theorem fills_history (hsound : c.SoundHistory h) :
    ∀ (fuel : Nat) {s p : D.State} {set set' : StateSet D.State}, c.isHistory s →
      c.parent? s = some p → (∀ y ∈ set, ¬ c.isDescendant y p) →
      c.addDescendants h fuel s set = some set' →
      c.Compatible (c.StandsFor h s) ∧ (∀ g, c.StandsFor h s g → c.isDescendant g p) ∧
        c.Fills (c.StandsFor h s) (c.Around (c.StandsFor h s) p) set set' := by
  intro fuel
  induction fuel with
  | zero => intro s p set set' _ _ _ h'; exact absurd h' (by simp [Outline.addDescendants])
  | succ fuel ih =>
    intro s p set set' hh hp hset h'
    obtain ⟨n, hn⟩ := contains_iff.mp (contains_of_parent hp)
    have hkh := (isHistory_of_node hn).mp hh
    obtain ⟨set₁, h₁, h₂⟩ := addDescendants_history hn hkh hp h'
    rcases restored_cases hsound hn hkh hp with ⟨hcompat, hnodup, hbelow⟩ | ⟨t, hl, hht, htp⟩
    · exact fills_history_of_compatible hn hkh hcompat hnodup hbelow hset h₁ h₂
    · -- the fallback is a history state: what it stands for, climbed from up to its own parent
      obtain ⟨q, hq⟩ := parent_of_isHistory hht
      have hqp : c.isWithin q p := isWithin_parent hq htp
      simp only [hl, List.foldlM_cons, List.foldlM_nil, bind_pure] at h₁ h₂
      obtain ⟨hcompat, hbelow, hfills⟩ := ih hht hq
        (fun y hy hyq => hset y hy (isDescendant_of_isDescendant_of_isWithin hyq hqp)) h₁
      have hgoal : ∀ x, c.StandsFor h t x ↔ c.StandsFor h s x := by
        intro x
        rw [standsFor_history_iff hn hkh, hl]
        simp
      have hup : ∀ a, c.isDescendant t a → ∃ g, c.StandsFor h t g ∧ c.isDescendant g a := by
        intro a hta
        obtain ⟨g, hg⟩ := hcompat.nonempty
        exact ⟨g, hg, isDescendant_of_isDescendant_of_isWithin (hbelow g hg)
          (isWithin_parent hq hta)⟩
      have hfills' := fills_addAncestors (addsDefaults_addDescendants fuel) hcompat
        (fun a ha => ha.2) hfills hset htp hup h₂
      refine ⟨compatible_congr hgoal hcompat, fun g hg =>
        isDescendant_of_isDescendant_of_isWithin (hbelow g ((hgoal g).mpr hg)) hqp, ?_⟩
      refine fills_congr hgoal (fun a => ?_) hfills'
      constructor
      · intro hor
        rcases hor with ⟨haq, g, hg, hga⟩ | ⟨hta, hap⟩
        · exact ⟨isDescendant_of_isDescendant_of_isWithin haq hqp, g, (hgoal g).mp hg, hga⟩
        · obtain ⟨g, hg, hga⟩ := hup a hta
          exact ⟨hap, g, (hgoal g).mp hg, hga⟩
      · intro hex
        obtain ⟨hap, g, hg, hga⟩ := hex
        have hg := (hgoal g).mpr hg
        rcases isWithin_or_of_common (isWithin_of_isDescendant (hbelow g hg))
          (isWithin_of_isDescendant hga) with hqa | haq
        · exact Or.inr ⟨isDescendant_of_isDescendant_of_isWithin (isDescendant_parent hq) hqa, hap⟩
        · exact Or.inl ⟨haq, g, hg, hga⟩

end Statechart.Chart
