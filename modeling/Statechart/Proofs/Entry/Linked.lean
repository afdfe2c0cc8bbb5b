import Statechart.Proofs.Entry.Bounds

/-!
# How what is entered hangs together

Whatever the set that an entry fills, the states it puts in hang together (`Links`): the
parent of each is in the set in the end, unless it is the one the entry starts from, and below
each state that has children there is another. Entering a state starts from its parent,
climbing from the bound (`addDescendants_links`, `addAncestors_links`).

All that is needed of the history is that records lie where they belong and are not
empty.
-/

namespace Statechart

/-- Every record is of one state at least. -/
def History.Full {S : Type} [DecidableEq S] (h : History S) : Prop :=
  ∀ s l, h.get? s = some l → l ≠ []

namespace Outline

variable {D : Domain} (c : Outline D)

/-- `set'` is `set` with states added of which each has its parent in the set or at the bound, and
something below it if it has children. -/
structure Links (bound : D.State → Prop) (set set' : StateSet D.State) : Prop where
  mono : ∀ x ∈ set, x ∈ set'
  up : ∀ x ∈ set', x ∈ set ∨ ∀ q, c.parent? x = some q → q ∈ set' ∨ bound q
  down : ∀ x ∈ set', x ∈ set ∨ ∀ v, c.parent? v = some x → ∃ y ∈ set', c.isDescendant y x

end Outline

namespace Chart

variable {D : Domain} {c : Chart D} {h : History D.State} {s t x y p q a b r : D.State}
  {bound bound' : D.State → Prop} {set set₁ set' : StateSet D.State}

theorem links_refl : c.Links bound set set :=
  ⟨fun _ hx => hx, fun _ hx => Or.inl hx, fun _ hx => Or.inl hx⟩

theorem links_trans (h₁ : c.Links bound set set₁) (h₂ : c.Links bound set₁ set') :
    c.Links bound set set' where
  mono := fun x hx => h₂.mono x (h₁.mono x hx)
  up := by
    intro x hx
    rcases h₂.up x hx with hx | hx
    · exact (h₁.up x hx).imp_right fun hup q hq => (hup q hq).imp_left (h₂.mono q)
    · exact Or.inr hx
  down := by
    intro x hx
    rcases h₂.down x hx with hx | hx
    · refine (h₁.down x hx).imp_right fun hdown v hv => ?_
      obtain ⟨y, hy, hyx⟩ := hdown v hv
      exact ⟨y, h₂.mono y hy, hyx⟩
    · exact Or.inr hx

/-- A bound that is in the set in the end does not count. -/
theorem links_bound (hbound : ∀ q, bound q → q ∈ set' ∨ bound' q) (hl : c.Links bound set set') :
    c.Links bound' set set' where
  mono := hl.mono
  up := fun x hx => (hl.up x hx).imp_right fun hup q hq => (hup q hq).elim Or.inl (hbound q)
  down := hl.down

theorem links_foldlM {α : Type} {f : StateSet D.State → α → Option (StateSet D.State)} :
    ∀ {l : List α} {set set' : StateSet D.State},
      (∀ a ∈ l, ∀ S S', (∀ x ∈ set, x ∈ S) → f S a = some S' → c.Links bound S S') →
      l.foldlM f set = some set' → c.Links bound set set'
  | [], set, set', _, h' => by
    rw [List.foldlM_nil, Option.pure_def, Option.some.injEq] at h'
    exact h' ▸ links_refl
  | a :: l, set, set', hf, h' => by
    rw [List.foldlM_cons, Option.bind_eq_bind, Option.bind_eq_some_iff] at h'
    obtain ⟨set₁, h₁, h₂⟩ := h'
    have hfirst := hf a (List.mem_cons_self ..) _ _ (fun _ hx => hx) h₁
    refine links_trans hfirst (links_foldlM (fun b hb S S' hS => ?_) h₂)
    exact hf b (List.mem_cons_of_mem _ hb) S S' fun x hx => hS x (hfirst.mono x hx)

/-- If one turn of such a loop puts in some state of a kind, there is one in the end. -/
theorem exists_foldlM_of_mem {α : Type} {f : StateSet D.State → α → Option (StateSet D.State)}
    {P : D.State → Prop} :
    ∀ {l : List α} {set set' : StateSet D.State} {a : α},
      (∀ a ∈ l, ∀ S S', f S a = some S' → c.Links bound S S') →
      l.foldlM f set = some set' → a ∈ l → (∀ S S', f S a = some S' → ∃ x ∈ S', P x) →
      ∃ x ∈ set', P x
  | [], _, _, _, _, _, ha, _ => absurd ha List.not_mem_nil
  | b :: l, set, set', a, hf, h', ha, hx => by
    rw [List.foldlM_cons, Option.bind_eq_bind, Option.bind_eq_some_iff] at h'
    obtain ⟨set₁, h₁, h₂⟩ := h'
    have htail : ∀ a ∈ l, ∀ S S', f S a = some S' → c.Links bound S S' :=
      fun b hb => hf b (List.mem_cons_of_mem _ hb)
    rcases List.mem_cons.mp ha with rfl | ha
    · obtain ⟨x, hx, hP⟩ := hx _ _ h₁
      exact ⟨x, (links_foldlM (fun b hb S S' _ => htail b hb S S') h₂).mono x hx, hP⟩
    · exact exists_foldlM_of_mem htail h₂ ha hx

/-! ## Regions and the way up -/

/-- What `add` does with any state that can be active: what it puts in hangs on the parent of that
state. -/
def AddsLinked (c : Chart D)
    (add : D.State → StateSet D.State → Option (StateSet D.State)) : Prop :=
  ∀ r set set', c.contains r → ¬ c.isHistory r → add r set = some set' →
    c.Links (c.parent? r = some ·) set set'

/-- What completing the regions of a state puts in hangs on that state, and there is something in
some region in the end. -/
theorem addRegions_links {add : D.State → StateSet D.State → Option (StateSet D.State)}
    (hadd : c.AddsLinked add) (hself : ∀ r S S', c.parent? r = some p → ¬ c.isHistory r →
      add r S = some S' → r ∈ S')
    (hpar : c.isParallel p) (hp : p ∈ set) (h' : c.addRegions add p set = some set') :
    c.Links (fun _ => False) set set' ∧ ∃ y ∈ set', c.isDescendant y p := by
  have hturn : ∀ r ∈ c.substates p, ∀ S S',
      (if S.elems.any (c.isWithin · r) then some S else add r S) = some S' →
        c.Links (· = p) S S' ∧ ∃ y ∈ S', c.isDescendant y p := by
    intro r hr S S' hS
    obtain ⟨hrp, hh⟩ := mem_substates.mp hr
    split at hS
    · next hany =>
      obtain ⟨y, hy, hyr⟩ := List.any_eq_true.mp hany
      rw [Option.some.injEq] at hS
      subst hS
      exact ⟨links_refl, y, hy, isDescendant_of_isWithin hyr (isDescendant_parent hrp)⟩
    · refine ⟨links_bound (fun q hq => Or.inr ?_) (hadd r S S' (contains_of_parent hrp) hh hS),
        r, hself r S S' hrp hh hS, isDescendant_parent hrp⟩
      rw [hrp, Option.some.injEq] at hq
      exact hq.symm
  have hlinks := links_foldlM (fun r hr S S' _ hS => (hturn r hr S S' hS).1) h'
  refine ⟨links_bound (fun q (hq : q = p) => Or.inl (hq ▸ hlinks.mono p hp)) hlinks, ?_⟩
  obtain ⟨r, hr⟩ := exists_region hpar
  exact exists_foldlM_of_mem (fun r hr S S' hS => (hturn r hr S S' hS).1) h' hr
    fun S S' hS => (hturn r hr S S' hS).2

/-- What climbing puts in hangs on the bound, if there is something below each state on the way to
begin with. -/
theorem addAncestors_links {add : D.State → StateSet D.State → Option (StateSet D.State)}
    (hwithin : c.AddsWithin add) (hadd : c.AddsLinked add)
    (hself : ∀ r S S', c.contains r → ¬ c.isHistory r → add r S = some S' → r ∈ S')
    (hxb : c.isDescendant x b) (hbelow : ∀ a, c.isDescendant x a → ∃ y ∈ set, c.isDescendant y a)
    (h' : c.addAncestors add x b set = some set') : c.Links (· = b) set set' := by
  have hway := (addAncestors_bounds hwithin hxb h').2
  have hlinks : c.Links (fun q => c.isDescendant x q ∧ c.isWithin q b) set set' := by
    refine links_foldlM (fun a ha S S' hsub hS => ?_) h'
    obtain ⟨hxa, hab⟩ := (mem_ancestorsBelow hxb).mp ha
    obtain ⟨y, hy, hya⟩ := hbelow a hxa
    -- the state on the way itself: its parent is the next on the way
    have hins : c.Links (fun q => c.isDescendant x q ∧ c.isWithin q b) S (S.insert a) := by
      refine ⟨fun z hz => StateSet.mem_insert.mpr (Or.inl hz), fun z hz => ?_, fun z hz => ?_⟩ <;>
        rcases StateSet.mem_insert.mp hz with hz | rfl
      · exact Or.inl hz
      · refine Or.inr fun q hq => Or.inr ⟨?_, isWithin_parent hq hab⟩
        exact isDescendant_trans hxa (isDescendant_parent hq)
      · exact Or.inl hz
      · exact Or.inr fun v _ => ⟨y, StateSet.mem_insert.mpr (Or.inl (hsub y hy)), hya⟩
    split at hS
    · next hpar =>
      refine links_trans hins (links_bound (fun _ => False.elim) (addRegions_links hadd
        (fun r S S' hr => hself r S S' (contains_of_parent hr)) hpar ?_ hS).1)
      exact StateSet.mem_insert.mpr (Or.inr rfl)
    · rw [Option.some.injEq] at hS
      exact hS ▸ hins
  refine links_bound (fun q hq => ?_) hlinks
  rcases isWithin_iff.mp hq.2 with rfl | hqb
  · exact Or.inr rfl
  · exact Or.inl (hway q hq.1 hqb)

/-! ## Entering -/

/-- A history state stands for something. -/
theorem restored_ne_nil {n : Node D} (hfull : h.Full) (hn : c.node? s = some n)
    (hk : n.kind.isHistory) (hp : c.parent? s = some p) : c.restored h n ≠ [] := by
  cases hrec : h.get? s with
  | some l => exact restored_of_record hn hrec ▸ hfull s l hrec
  | none =>
    rw [restored_of_none hn hrec]
    rcases fallbacks_cases hn hk hp with ⟨u, -, hl, -⟩ | ⟨i, -, -, hl, -⟩ | ⟨-, hpar, hl⟩
    · simp [hl]
    · simp [hl]
    · obtain ⟨r, hr⟩ := exists_region hpar
      rw [hl]
      exact List.ne_nil_of_mem hr

/-- What entering a state puts in hangs on the parent of the state, and is something; a history state
puts in something for each state it is restored to, and the states around that below its parent. -/
structure EntersLinked (c : Chart D) (h : History D.State) (s : D.State)
    (set set' : StateSet D.State) : Prop where
  links : c.Links (c.parent? s = some ·) set set'
  nonempty : ∃ y ∈ set', c.Scope s y
  restored : ∀ n p, c.node? s = some n → n.kind.isHistory → c.parent? s = some p →
    ∀ t ∈ c.restored h n, (∃ y ∈ set', c.Scope t y) ∧
      ∀ a, c.isDescendant t a → c.isDescendant a p → a ∈ set'

section

variable {fuel : Nat} (hb : c.BoundedHistory h) (hfull : h.Full)
  (hadd : ∀ s set set', c.contains s → c.addDescendants h fuel s set = some set' →
    c.EntersLinked h s set set')

include hb in
private theorem self_of_addDescendants (hs : c.contains s) (hh : ¬ c.isHistory s)
    (h' : c.addDescendants h fuel s set = some set') : s ∈ set' :=
  (addDescendants_bounds hb fuel s set set' hs h').goals s (.plain hs hh)

include hb hadd in
private theorem entersLinked_plain (hs : c.contains s) (hh : ¬ c.isHistory s)
    (h' : c.addDescendants h (fuel + 1) s set = some set') : c.EntersLinked h s set set' := by
  have hself : s ∈ set' := self_of_addDescendants hb hs hh h'
  -- what comes with the state hangs on the state
  have hrest : c.Links (· = s) (set.insert s) set' ∧
      ∀ v, c.parent? v = some s → ∃ y ∈ set', c.isDescendant y s := by
    rcases addDescendants_plain hs hh h' with ⟨i, hkind, h₁⟩ | ⟨hpar, h₁⟩ | ⟨hnc, hnp, rfl⟩
    · obtain ⟨hi, hih⟩ := mem_substates.mp (initial_mem_substates hkind)
      have hic := contains_of_parent hi
      refine ⟨links_bound (fun q hq => Or.inr ?_) (hadd i _ _ hic h₁).links,
        fun _ _ => ⟨i, self_of_addDescendants hb hic hih h₁, isDescendant_parent hi⟩⟩
      rw [hi, Option.some.injEq] at hq
      exact hq.symm
    · obtain ⟨hlinks, hsome⟩ := addRegions_links
        (fun r S S' hr _ hS => (hadd r S S' hr hS).links)
        (fun r S S' hr hrh hS => self_of_addDescendants hb (contains_of_parent hr) hrh hS) hpar
        (StateSet.mem_insert.mpr (Or.inr rfl)) h₁
      exact ⟨links_bound (fun _ => False.elim) hlinks, fun _ _ => hsome⟩
    · exact ⟨links_refl, fun v hv => absurd (isCompound_or_isParallel_of_parent hv) (by simp_all)⟩
  obtain ⟨hlinks, hdown⟩ := hrest
  refine ⟨⟨fun x hx => hlinks.mono x (StateSet.mem_insert.mpr (Or.inl hx)), fun x hx => ?_,
    fun x hx => ?_⟩, ⟨s, hself, Or.inl ⟨hh, isWithin_refl s⟩⟩,
    fun n _ hn hk => absurd ((isHistory_of_node hn).mpr hk) hh⟩
  · rcases hlinks.up x hx with hx | hup
    · rcases StateSet.mem_insert.mp hx with hx | rfl
      · exact Or.inl hx
      · exact Or.inr fun q hq => Or.inr hq
    · exact Or.inr fun q hq => (hup q hq).elim Or.inl fun he => Or.inl (he ▸ hself)
  · rcases hlinks.down x hx with hx | hd
    · rcases StateSet.mem_insert.mp hx with hx | rfl
      · exact Or.inl hx
      · exact Or.inr hdown
    · exact Or.inr hd

include hb hfull hadd in
private theorem entersLinked_history (hh : c.isHistory s)
    (h' : c.addDescendants h (fuel + 1) s set = some set') : c.EntersLinked h s set set' := by
  obtain ⟨n, p, hn, hk, hp⟩ := node_of_isHistory hh
  obtain ⟨set₁, h₁, h₂⟩ := addDescendants_history hn hk hp h'
  have hwithin := addsWithin_addDescendants hb fuel
  have hbelow : ∀ t ∈ c.restored h n, c.isDescendant t p :=
    fun t ht => restored_below hb hn hk hp ht
  have henter : ∀ t ∈ c.restored h n, ∀ S S', c.addDescendants h fuel t S = some S' →
      c.Links (fun q => ∃ t ∈ c.restored h n, c.parent? t = some q) S S' :=
    fun t ht S S' hS => links_bound (fun q hq => Or.inr ⟨t, ht, hq⟩)
      (hadd t S S' (contains_of_isDescendant (hbelow t ht)) hS).links
  have hsome : ∀ t ∈ c.restored h n, ∃ y ∈ set₁, c.Scope t y := fun t ht =>
    exists_foldlM_of_mem henter h₁ ht fun S S' hS =>
      (hadd t S S' (contains_of_isDescendant (hbelow t ht)) hS).nonempty
  -- what was entered is linked up to its parents, and the climb links these to `p`
  have hclimb : c.Links (· = p) set₁ set' := by
    refine links_foldlM (fun t ht S S' hsub hS => ?_) h₂
    obtain ⟨y, hy, hty⟩ := hsome t ht
    exact addAncestors_links hwithin (fun r S S' hr _ hS => (hadd r S S' hr hS).links)
      (fun r S S' hr hrh hS => self_of_addDescendants hb hr hrh hS) (hbelow t ht)
      (fun a ha => ⟨y, hsub y hy, below_of_scope ha hty⟩) hS
  have hway : ∀ t ∈ c.restored h n, ∀ a, c.isDescendant t a → c.isDescendant a p → a ∈ set' :=
    fun t ht a hta hap => mem_foldlM_of_mem
      (fun u hu S S' hS => addAncestors_below hwithin (hbelow u hu) hS) h₂ ht
      fun S S' hS => (addAncestors_bounds hwithin (hbelow t ht) hS).2 a hta hap
  refine ⟨?_, ?_, fun n' p' hn' _ hp' t ht => ?_⟩
  · have hall : c.Links (fun q => (∃ t ∈ c.restored h n, c.parent? t = some q) ∨ q = p) set set' :=
      links_trans
        (links_bound (fun q hq => Or.inr (Or.inl hq))
          (links_foldlM (fun t ht S S' _ => henter t ht S S') h₁))
        (links_bound (fun q hq => Or.inr (Or.inr hq)) hclimb)
    refine links_bound (fun q hq => ?_) hall
    rcases hq with ⟨t, ht, htq⟩ | rfl
    · rcases isWithin_iff.mp (isWithin_parent htq (hbelow t ht)) with rfl | hqp
      · exact Or.inr hp
      · exact Or.inl (hway t ht q (isDescendant_parent htq) hqp)
    · exact Or.inr hp
  · obtain ⟨t, ht⟩ := List.exists_mem_of_ne_nil _ (restored_ne_nil hfull hn hk hp)
    obtain ⟨y, hy, hty⟩ := hsome t ht
    exact ⟨y, hclimb.mono y hy, Or.inr ⟨hh, p, hp, below_of_scope (hbelow t ht) hty⟩⟩
  · rw [hn, Option.some.injEq] at hn'
    rw [hp, Option.some.injEq] at hp'
    subst hn' hp'
    obtain ⟨y, hy, hty⟩ := hsome t ht
    exact ⟨⟨y, hclimb.mono y hy, hty⟩, hway t ht⟩

end

theorem addDescendants_links (hb : c.BoundedHistory h) (hfull : h.Full) (fuel : Nat) :
    ∀ s set set', c.contains s → c.addDescendants h fuel s set = some set' →
      c.EntersLinked h s set set' := by
  induction fuel with
  | zero => intro s set set' _ h'; exact absurd h' (by simp [Outline.addDescendants])
  | succ fuel ih =>
    intro s set set' hs h'
    by_cases hh : c.isHistory s
    · exact entersLinked_history hb hfull ih hh h'
    · exact entersLinked_plain hb ih hs hh h'

end Chart

end Statechart
