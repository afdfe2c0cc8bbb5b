import Statechart.Proofs.Entry.Goals

/-!
# What an entry contains at least and at most

`Fills` says exactly what is entered, but only into a set that is clear where the entry
goes. The statements here hold of any set. Entering a state never takes anything out,
puts in at least the goals and the states around them, and at most states below the
scope of the entry: within the state itself, or below the parent of a history state
(`addDescendants_bounds`). Climbing puts in the states on the way, and nothing outside
of them (`addAncestors_bounds`).

Of the history all that is used is that records lie below the parent of their history
state (`BoundedHistory`).
-/

namespace Statechart

namespace Outline

variable {D : Domain} (c : Outline D)

/-- Every record is of states below the parent of the history state. -/
def BoundedHistory (h : History D.State) : Prop :=
  ∀ s l p, h.get? s = some l → c.parent? s = some p → ∀ g ∈ l, c.isDescendant g p ∧ ¬ c.isHistory g

/-- `set'` is `set` with states added that can be active and lie in `scope`. -/
structure Extends (scope : D.State → Prop) (set set' : StateSet D.State) : Prop where
  mono : ∀ x ∈ set, x ∈ set'
  new : ∀ x ∈ set', x ∈ set ∨ (scope x ∧ ¬ c.isHistory x)

end Outline

namespace Chart

variable {D : Domain} {c : Chart D} {h : History D.State} {s t x p q a b g r : D.State}
  {scope scope' : D.State → Prop} {set set₁ set' : StateSet D.State}

theorem boundedHistory_of_sound (hsound : c.SoundHistory h) : c.BoundedHistory h :=
  fun s l p hl hp g hg => ⟨(hsound s l p hl hp).2.2 g hg, (hsound s l p hl hp).1.plain g hg⟩

/-! ## Extending a set -/

theorem extends_refl : c.Extends scope set set := ⟨fun _ hx => hx, fun _ hx => Or.inl hx⟩

theorem extends_trans (h₁ : c.Extends scope set set₁) (h₂ : c.Extends scope set₁ set') :
    c.Extends scope set set' where
  mono := fun x hx => h₂.mono x (h₁.mono x hx)
  new := by
    intro x hx
    rcases h₂.new x hx with hx | hx
    · exact h₁.new x hx
    · exact Or.inr hx

theorem extends_mono (hscope : ∀ x, scope x → scope' x) (he : c.Extends scope set set') :
    c.Extends scope' set set' :=
  ⟨he.mono, fun x hx => (he.new x hx).imp_right fun hs => ⟨hscope x hs.1, hs.2⟩⟩

theorem extends_insert (hs : scope s) (hh : ¬ c.isHistory s) : c.Extends scope set (set.insert s) where
  mono := fun _ hx => StateSet.mem_insert.mpr (Or.inl hx)
  new := by
    intro x hx
    rcases StateSet.mem_insert.mp hx with hx | rfl
    · exact Or.inl hx
    · exact Or.inr ⟨hs, hh⟩

/-- A loop each turn of which extends the set. -/
theorem extends_foldlM {α : Type} {f : StateSet D.State → α → Option (StateSet D.State)} :
    ∀ {l : List α} {set set' : StateSet D.State},
      (∀ a ∈ l, ∀ S S', f S a = some S' → c.Extends scope S S') →
      l.foldlM f set = some set' → c.Extends scope set set'
  | [], set, set', _, h' => by
    rw [List.foldlM_nil, Option.pure_def, Option.some.injEq] at h'
    exact h' ▸ extends_refl
  | a :: l, set, set', hf, h' => by
    rw [List.foldlM_cons, Option.bind_eq_bind, Option.bind_eq_some_iff] at h'
    obtain ⟨set₁, h₁, h₂⟩ := h'
    exact extends_trans (hf a (List.mem_cons_self ..) _ _ h₁)
      (extends_foldlM (fun b hb => hf b (List.mem_cons_of_mem _ hb)) h₂)

/-- What one turn of such a loop puts in is there in the end. -/
theorem mem_foldlM_of_mem {α : Type} {f : StateSet D.State → α → Option (StateSet D.State)} :
    ∀ {l : List α} {set set' : StateSet D.State} {a : α},
      (∀ a ∈ l, ∀ S S', f S a = some S' → c.Extends scope S S') →
      l.foldlM f set = some set' → a ∈ l → (∀ S S', f S a = some S' → x ∈ S') → x ∈ set'
  | [], _, _, _, _, _, ha, _ => absurd ha List.not_mem_nil
  | b :: l, set, set', a, hf, h', ha, hx => by
    rw [List.foldlM_cons, Option.bind_eq_bind, Option.bind_eq_some_iff] at h'
    obtain ⟨set₁, h₁, h₂⟩ := h'
    have htail : ∀ a ∈ l, ∀ S S', f S a = some S' → c.Extends scope S S' :=
      fun b hb => hf b (List.mem_cons_of_mem _ hb)
    rcases List.mem_cons.mp ha with rfl | ha
    · exact (extends_foldlM htail h₂).mono x (hx _ _ h₁)
    · exact mem_foldlM_of_mem htail h₂ ha hx

/-- What such a loop does to one state if each turn puts the state in or leaves it alone. -/
theorem mem_foldlM_iff {α : Type} {f : StateSet D.State → α → Option (StateSet D.State)}
    {puts : α → Prop} :
    ∀ {l : List α} {set set' : StateSet D.State},
      (∀ a ∈ l, ∀ S S', f S a = some S' → (x ∈ S' ↔ x ∈ S ∨ puts a)) →
      l.foldlM f set = some set' → (x ∈ set' ↔ x ∈ set ∨ ∃ a ∈ l, puts a)
  | [], set, set', _, h' => by
    rw [List.foldlM_nil, Option.pure_def, Option.some.injEq] at h'
    simp [h']
  | a :: l, set, set', hf, h' => by
    rw [List.foldlM_cons, Option.bind_eq_bind, Option.bind_eq_some_iff] at h'
    obtain ⟨set₁, h₁, h₂⟩ := h'
    rw [mem_foldlM_iff (fun b hb => hf b (List.mem_cons_of_mem _ hb)) h₂,
      hf a (List.mem_cons_self ..) _ _ h₁, List.exists_mem_cons_iff, or_assoc]

/-- A loop that comes to an end takes every turn. -/
theorem exists_of_foldlM_eq_some {α β : Type} {f : β → α → Option β} :
    ∀ {l : List α} {b b' : β} {a : α}, l.foldlM f b = some b' → a ∈ l → ∃ b₁ b₂, f b₁ a = some b₂
  | [], _, _, _, _, ha => absurd ha List.not_mem_nil
  | x :: l, b, b', a, h', ha => by
    rw [List.foldlM_cons, Option.bind_eq_bind, Option.bind_eq_some_iff] at h'
    obtain ⟨b₁, h₁, h₂⟩ := h'
    rcases List.mem_cons.mp ha with rfl | ha
    · exact ⟨b, b₁, h₁⟩
    · exact exists_of_foldlM_eq_some h₂ ha

/-! ## Completing and climbing -/

/-- What `add` does with any region: it extends the set within the region. -/
def AddsWithin (c : Chart D)
    (add : D.State → StateSet D.State → Option (StateSet D.State)) : Prop :=
  ∀ r set set', c.contains r → ¬ c.isHistory r → add r set = some set' →
    c.Extends (c.isWithin · r) set set'

/-- Completing a parallel state leaves a region alone or fills it. -/
theorem extends_addRegions {add : D.State → StateSet D.State → Option (StateSet D.State)}
    (hadd : ∀ r ∈ c.substates p, ∀ S S', add r S = some S' → c.Extends scope S S')
    (h' : c.addRegions add p set = some set') : c.Extends scope set set' := by
  refine extends_foldlM (fun r hr S S' hS => ?_) h'
  split at hS
  · rw [Option.some.injEq] at hS
    exact hS ▸ extends_refl
  · exact hadd r hr S S' hS

theorem addRegions_bounds {add : D.State → StateSet D.State → Option (StateSet D.State)}
    (hadd : c.AddsWithin add) (h' : c.addRegions add p set = some set') :
    c.Extends (c.isWithin · p) set set' := by
  refine extends_addRegions (fun r hr S S' hS => ?_) h'
  have hrp := mem_substates.mp hr
  exact extends_mono (fun x hx => isWithin_trans hx
    (isWithin_of_isDescendant (isDescendant_parent hrp.1)))
    (hadd r S S' (contains_of_parent hrp.1) hrp.2 hS)

/-- Climbing puts in the states on the way, and nothing that is not within one of them. -/
theorem addAncestors_bounds {add : D.State → StateSet D.State → Option (StateSet D.State)}
    (hadd : c.AddsWithin add) (hxb : c.isDescendant x b)
    (h' : c.addAncestors add x b set = some set') :
    c.Extends (fun y => ∃ a, c.isDescendant x a ∧ c.isDescendant a b ∧ c.isWithin y a) set set' ∧
      ∀ a, c.isDescendant x a → c.isDescendant a b → a ∈ set' := by
  -- each ancestor on the way is put in, with its regions if it is parallel
  have hstep : ∀ a ∈ c.ancestorsBelow x (some b), ∀ S S',
      (if c.isParallel a then c.addRegions add a (S.insert a) else some (S.insert a)) = some S' →
        c.Extends (fun y => ∃ a, c.isDescendant x a ∧ c.isDescendant a b ∧ c.isWithin y a) S S' ∧
          a ∈ S' := by
    intro a ha S S' hS
    obtain ⟨hxa, hab⟩ := (mem_ancestorsBelow hxb).mp ha
    have hins : c.Extends (fun y => ∃ a, c.isDescendant x a ∧ c.isDescendant a b ∧ c.isWithin y a) S
        (S.insert a) :=
      extends_insert ⟨a, hxa, hab, isWithin_refl a⟩ (not_isHistory_of_isDescendant hxa)
    have hself : a ∈ S.insert a := StateSet.mem_insert.mpr (Or.inr rfl)
    split at hS
    · have hreg := addRegions_bounds hadd hS
      exact ⟨extends_trans hins (extends_mono (fun y hy => ⟨a, hxa, hab, hy⟩) hreg),
        hreg.mono a hself⟩
    · rw [Option.some.injEq] at hS
      subst hS
      exact ⟨hins, hself⟩
  refine ⟨extends_foldlM (fun a ha S S' hS => (hstep a ha S S' hS).1) h', ?_⟩
  intro a hxa hab
  have ha := (mem_ancestorsBelow hxb).mpr ⟨hxa, hab⟩
  exact mem_foldlM_of_mem (fun a ha S S' hS => (hstep a ha S S' hS).1) h' ha
    fun S S' hS => (hstep a ha S S' hS).2

theorem addAncestors_below {add : D.State → StateSet D.State → Option (StateSet D.State)}
    (hadd : c.AddsWithin add) (hxb : c.isDescendant x b)
    (h' : c.addAncestors add x b set = some set') : c.Extends (c.isDescendant · b) set set' :=
  extends_mono (fun _ ⟨_, _, hab, hy⟩ => isDescendant_of_isWithin hy hab)
    (addAncestors_bounds hadd hxb h').1

/-! ## Entering -/

/-- Where entering a state may put states in: within it, or, for a history state, below its
parent. -/
def Scope (c : Chart D) (s x : D.State) : Prop :=
  (¬ c.isHistory s ∧ c.isWithin x s) ∨ (c.isHistory s ∧ ∃ p, c.parent? s = some p ∧ c.isDescendant x p)

theorem restored_below {n : Node D} (hb : c.BoundedHistory h) (hn : c.node? s = some n)
    (hk : n.kind.isHistory) (hp : c.parent? s = some p) (ht : t ∈ c.restored h n) :
    c.isDescendant t p := by
  cases hrec : h.get? s with
  | some l =>
    rw [restored_of_record hn hrec] at ht
    exact (hb s l p hrec hp t ht).1
  | none =>
    rw [restored_of_none hn hrec] at ht
    rcases fallbacks_cases hn hk hp with ⟨u, -, hl, hu⟩ | ⟨i, -, -, hl, hi⟩ | ⟨-, -, hl⟩
    · rw [hl, List.mem_singleton] at ht
      exact ht ▸ hu
    · rw [hl, List.mem_singleton] at ht
      exact ht ▸ isDescendant_parent (mem_substates.mp hi).1
    · rw [hl] at ht
      exact isDescendant_parent (mem_substates.mp ht).1

/-- What a state stands for lies in its scope. -/
theorem scope_of_standsFor (hb : c.BoundedHistory h) (hg : c.StandsFor h s g) : c.Scope s g := by
  induction hg with
  | plain _ hh => exact Or.inl ⟨hh, isWithin_refl _⟩
  | @restored s t x n hn hk ht _ ih =>
    have hh : c.isHistory s := (isHistory_of_node hn).mpr hk
    obtain ⟨p, hp⟩ := parent_of_isHistory hh
    have htp := restored_below hb hn hk hp ht
    refine Or.inr ⟨hh, p, hp, ?_⟩
    rcases ih with ⟨-, hx⟩ | ⟨-, q, hq, hx⟩
    · exact isDescendant_of_isWithin hx htp
    · exact isDescendant_of_isDescendant_of_isWithin hx (isWithin_parent hq htp)

/-- What entering a state may put in lies below whatever the state lies below. -/
theorem below_of_scope (htp : c.isDescendant t p) (hx : c.Scope t x) : c.isDescendant x p := by
  rcases hx with ⟨-, hx⟩ | ⟨-, q, hq, hx⟩
  · exact isDescendant_of_isWithin hx htp
  · exact isDescendant_of_isDescendant_of_isWithin hx (isWithin_parent hq htp)

theorem contains_of_scope (hs : c.contains s) (hx : c.Scope s x) : c.contains x := by
  rcases hx with ⟨-, hx⟩ | ⟨-, p, -, hx⟩
  · rcases isWithin_iff.mp hx with rfl | hx
    · exact hs
    · exact contains_of_isDescendant hx
  · exact contains_of_isDescendant hx

/-- A state around what `t` stands for is on the way up from `t`, or lies in the scope of `t`. -/
private theorem around_cases (hb : c.BoundedHistory h) (hg : c.StandsFor h t g)
    (hga : c.isDescendant g a) :
    c.isDescendant t a ∨ ∃ q, c.isHistory t ∧ c.parent? t = some q ∧ c.isDescendant a q := by
  rcases scope_of_standsFor hb hg with ⟨hh, -⟩ | ⟨hh, q, hq, hgq⟩
  · cases hg with
    | plain => exact Or.inl hga
    | restored hn hk _ _ => exact absurd ((isHistory_of_node hn).mpr hk) hh
  · rcases isWithin_or_of_common (isWithin_of_isDescendant hgq) (isWithin_of_isDescendant hga)
      with h' | h'
    · exact Or.inl (isDescendant_of_isDescendant_of_isWithin (isDescendant_parent hq) h')
    · exact Or.inr ⟨q, hh, hq, h'⟩

/-- What entering a state does to a set at most and at least: it extends the set within the scope of
the state, and puts in what the state stands for and, for a history state, all that is around it
below the parent. -/
structure EntersWithin (c : Chart D) (h : History D.State) (s : D.State)
    (set set' : StateSet D.State) : Prop where
  scope : c.Extends (c.Scope s) set set'
  goals : ∀ g, c.StandsFor h s g → g ∈ set'
  around : ∀ p, c.isHistory s → c.parent? s = some p →
    ∀ a, c.Around (c.StandsFor h s) p a → a ∈ set'

private theorem addsWithin_of_entersWithin
    {add : D.State → StateSet D.State → Option (StateSet D.State)}
    (hadd : ∀ s set set', c.contains s → add s set = some set' → c.EntersWithin h s set set') :
    c.AddsWithin add := by
  intro r set set' hr hh h'
  refine extends_mono (fun x hx => ?_) (hadd r set set' hr h').scope
  rcases hx with ⟨-, hx⟩ | ⟨hr', -⟩
  · exact hx
  · exact absurd hr' hh

variable {fuel : Nat} (hadd : ∀ s set set', c.contains s →
  c.addDescendants h fuel s set = some set' → c.EntersWithin h s set set')

include hadd in
private theorem entersWithin_plain (hs : c.contains s) (hh : ¬ c.isHistory s)
    (h' : c.addDescendants h (fuel + 1) s set = some set') : c.EntersWithin h s set set' := by
  have hwithin := addsWithin_of_entersWithin hadd
  have hext : c.Extends (c.isWithin · s) (set.insert s) set' := by
    rcases addDescendants_plain hs hh h' with ⟨i, hkind, h₁⟩ | ⟨-, h₁⟩ | ⟨-, -, rfl⟩
    · have hi := mem_substates.mp (initial_mem_substates hkind)
      exact extends_mono (fun x hx => isWithin_trans hx
        (isWithin_of_isDescendant (isDescendant_parent hi.1)))
        (hwithin i _ _ (contains_of_parent hi.1) hi.2 h₁)
    · exact addRegions_bounds hwithin h₁
    · exact extends_refl
  refine ⟨?_, fun g hg => ?_, fun _ hh' => absurd hh' hh⟩
  · exact extends_mono (fun x hx => Or.inl ⟨hh, hx⟩)
      (extends_trans (extends_insert (isWithin_refl s) hh) hext)
  · rw [(standsFor_plain_iff hs hh).mp hg]
    exact hext.mono s (StateSet.mem_insert.mpr (Or.inr rfl))

include hadd in
private theorem entersWithin_history (hb : c.BoundedHistory h) (hh : c.isHistory s)
    (h' : c.addDescendants h (fuel + 1) s set = some set') : c.EntersWithin h s set set' := by
  obtain ⟨n, p, hn, hkh, hp⟩ := node_of_isHistory hh
  obtain ⟨set₁, h₁, h₂⟩ := addDescendants_history hn hkh hp h'
  have hbelow : ∀ t ∈ c.restored h n, c.isDescendant t p :=
    fun t ht => restored_below hb hn hkh hp ht
  have hent : ∀ t ∈ c.restored h n, ∀ S S', c.addDescendants h fuel t S = some S' →
      c.Extends (c.isDescendant · p) S S' := fun t ht S S' hS =>
    extends_mono (fun x hx => below_of_scope (hbelow t ht) hx)
      (hadd t S S' (contains_of_isDescendant (hbelow t ht)) hS).scope
  have hcl : ∀ t ∈ c.restored h n, ∀ S S',
      c.addAncestors (c.addDescendants h fuel) t p S = some S' →
      c.Extends (c.isDescendant · p) S S' := fun t ht S S' hS =>
    addAncestors_below (addsWithin_of_entersWithin hadd) (hbelow t ht) hS
  have hext₂ := extends_foldlM hcl h₂
  refine ⟨extends_mono (fun x hx => Or.inr ⟨hh, p, hp, hx⟩)
    (extends_trans (extends_foldlM hent h₁) hext₂), ?_, ?_⟩
  · intro g hg
    obtain ⟨t, ht, htg⟩ := (standsFor_history_iff hn hkh).mp hg
    refine hext₂.mono g (mem_foldlM_of_mem hent h₁ ht fun S S' hS => ?_)
    exact (hadd t S S' (contains_of_isDescendant (hbelow t ht)) hS).goals g htg
  · intro p' _ hp' a hex
    obtain ⟨hap, g, hg, hga⟩ := hex
    rw [hp, Option.some.injEq] at hp'
    subst hp'
    obtain ⟨t, ht, htg⟩ := (standsFor_history_iff hn hkh).mp hg
    -- below the parent of `t` the state came in as `t` was entered, above it by climbing from `t`
    rcases around_cases hb htg hga with hta | ⟨q, hht, hq, haq⟩
    · exact mem_foldlM_of_mem hcl h₂ ht fun S S' hS =>
        (addAncestors_bounds (addsWithin_of_entersWithin hadd) (hbelow t ht) hS).2 a hta hap
    · refine hext₂.mono a (mem_foldlM_of_mem hent h₁ ht fun S S' hS => ?_)
      exact (hadd t S S' (contains_of_isDescendant (hbelow t ht)) hS).around q hht hq a
        ⟨haq, g, htg, hga⟩

theorem addDescendants_bounds (hb : c.BoundedHistory h) (fuel : Nat) :
    ∀ s set set', c.contains s → c.addDescendants h fuel s set = some set' →
      c.EntersWithin h s set set' := by
  induction fuel with
  | zero => intro s set set' _ h'; exact absurd h' (by simp [Outline.addDescendants])
  | succ fuel ih =>
    intro s set set' hs h'
    by_cases hh : c.isHistory s
    · exact entersWithin_history ih hb hh h'
    · exact entersWithin_plain ih hs hh h'

theorem addsWithin_addDescendants (hb : c.BoundedHistory h) (fuel : Nat) :
    c.AddsWithin (c.addDescendants h fuel) :=
  addsWithin_of_entersWithin (addDescendants_bounds hb fuel)

end Chart

end Statechart
