import Statechart.Proofs.Entry.Linked
import Statechart.Proofs.ParallelRoot

/-!
# Configurations that hang together

Less than well-formedness holds of every configuration that steps lead to, whatever the root: an
active state has its parent active and, if it has children, something active below it
(`Rooted`). One thing gets in the way. The domain of a transition to a history state is chosen
before anything is left, and again, after the history was recorded, when it is known what is
entered. If it is another one then, it lies below the parent of the history state, and the parent,
which is parallel, was left and is not entered again (`Shifts`, `same_or_shifts`).

So after a step from a configuration that hangs together, whatever is active has its parent
active, unless a transition taken has shifted its domain into the parent (`parent_after`); and if
no transition shifts its domain, the configuration hangs together again (`rooted_step`).
-/

namespace Statechart

variable {D : Domain}

/-- What is active has its parent active and, if it has children, something active below it. -/
structure Outline.Rooted (c : Outline D) (active : StateSet D.State) : Prop where
  parent : ∀ s ∈ active, ∀ p, c.parent? s = some p → p ∈ active
  below : ∀ s ∈ active, ∀ v, c.parent? v = some s → ∃ x ∈ active, c.isDescendant x s

namespace Chart

variable {c : Chart D} {active : StateSet D.State} {s v x a p : D.State}

theorem mem_of_rooted (h : c.Rooted active) (hx : x ∈ active) (ha : c.isWithin x a) :
    a ∈ active := by
  induction a using c.induction_from_children with
  | step a ih =>
    rcases isWithin_iff.mp ha with rfl | ha
    · exact hx
    · obtain ⟨t, ht, hxt⟩ := exists_child_towards ha
      exact h.parent t (ih t ht hxt) a ht

theorem exists_child_of_rooted (h : c.Rooted active) (hs : s ∈ active) (hv : c.parent? v = some s) :
    ∃ u ∈ active, c.parent? u = some s := by
  obtain ⟨x, hx, hxs⟩ := h.below s hs v hv
  obtain ⟨u, hu, hxu⟩ := exists_child_towards hxs
  exact ⟨u, mem_of_rooted h hx hxu, hu⟩

theorem exists_leaf_of_rooted (h : c.Rooted active) (hplain : ∀ x ∈ active, ¬ c.isHistory x)
    (hs : s ∈ active) (hc : c.contains s) : ∃ x ∈ active, c.isLeaf x ∧ c.isWithin x s := by
  induction s using c.induction_from_children with
  | step s ih =>
    have hdown : ∀ v, c.parent? v = some s → ∃ x ∈ active, c.isLeaf x ∧ c.isWithin x s := by
      intro v hv
      obtain ⟨u, hua, hu⟩ := exists_child_of_rooted h hs hv
      obtain ⟨x, hx, hleaf, hxu⟩ := ih u hu hua (contains_of_parent hu)
      exact ⟨x, hx, hleaf, isWithin_trans hxu (isWithin_of_isDescendant (isDescendant_parent hu))⟩
    rcases kind_cases hc with hk | hk | hk | hk
    · obtain ⟨i, hi⟩ := isCompound_iff.mp hk
      exact hdown i (mem_substates.mp (initial_mem_substates hi)).1
    · obtain ⟨r, hr⟩ := exists_region hk
      exact hdown r (mem_substates.mp hr).1
    · exact absurd hk (hplain s hs)
    · exact ⟨s, hs, hk, isWithin_refl s⟩

end Chart

namespace Machine

open Chart

variable {m : Machine D} {t : Selected D} {taken : List (Selected D)} {l : List D.State}
  {set set' : StateSet D.State} {p q d g x a v : D.State} {mode : HistoryMode}

/-- Of an active state with children there is something to remember. -/
theorem remember_ne_nil (h : m.chart.Rooted m.configuration)
    (hplain : ∀ x ∈ m.configuration, ¬ m.chart.isHistory x) (hp : p ∈ m.configuration)
    (hv : m.chart.parent? v = some p) : m.remember mode p ≠ [] := by
  obtain ⟨u, hua, hu⟩ := exists_child_of_rooted h hp hv
  cases mode with
  | shallow => exact List.ne_nil_of_mem (mem_remember.mpr ⟨hua, hu⟩)
  | deep =>
    obtain ⟨x, hx, hleaf, hxu⟩ := exists_leaf_of_rooted h hplain hua (contains_of_parent hu)
    exact List.ne_nil_of_mem
      (mem_remember.mpr ⟨hx, hleaf, isDescendant_of_isWithin hxu (isDescendant_parent hu)⟩)

/-! ## What transitions enter -/

/-- Where what a transition enters ends: at its domain, or at the parent of the history state it
targets, if that lies around the domain. -/
def EndsAt (m : Machine D) (t : Selected D) (d q : D.State) : Prop :=
  q = d ∨ ∃ g, t.transition.target = some g ∧ m.chart.isHistory g ∧ m.chart.parent? g = some q ∧
    m.chart.isDescendant d q

/-- What entering the target of a transition puts in hangs on the parent of the target, and reaches
whatever the transition leads to. -/
private theorem enterInto_target (hb : m.chart.BoundedHistory m.history) (hfull : m.history.Full)
    (hdecl : Declared m.chart t) (hg : t.transition.target = some g)
    (h : m.chart.enterInto m.history g set = some set') :
    m.chart.Links (m.chart.parent? g = some ·) set set' ∧
      (∀ x ∈ m.targets t, ∃ y ∈ set', m.chart.Scope x y) ∧
      ∀ p, m.chart.isHistory g → m.chart.parent? g = some p → ∀ x ∈ m.targets t,
        ∀ a, m.chart.isDescendant x a → m.chart.isDescendant a p → a ∈ set' := by
  obtain ⟨hc, -⟩ := target_of_declared hdecl hg
  obtain ⟨hlinks, hsome, hrestored⟩ := addDescendants_links hb hfull _ g set set' hc h
  obtain ⟨n, hn⟩ := contains_iff.mp hc
  refine ⟨hlinks, fun x hx => ?_, fun p hh hp x hx => ?_⟩
  · by_cases hh : m.chart.isHistory g
    · obtain ⟨p, hp⟩ := parent_of_isHistory hh
      have hk := (isHistory_of_node hn).mp hh
      exact (hrestored n p hn hk hp x (targets_of_isHistory hg hn hk ▸ hx)).1
    · rw [targets_of_not_isHistory hg hc hh, List.mem_singleton] at hx
      exact hx ▸ hsome
  · have hk := (isHistory_of_node hn).mp hh
    exact (hrestored n p hn hk hp x (targets_of_isHistory hg hn hk ▸ hx)).2

/-- What a transition enters hangs together. -/
theorem addEntries_links (hb : m.chart.BoundedHistory m.history) (hfull : m.history.Full)
    (hdecl : Declared m.chart t) (hd : m.domain? t = some d) (hg : t.transition.target = some g)
    (h : m.addEntries set t = some set') :
    m.chart.Links (m.EndsAt t d) set set' ∧ (∃ y ∈ set', m.chart.isDescendant y d) ∧
      ∀ p, m.chart.isHistory g → m.chart.parent? g = some p → ∀ x ∈ m.targets t,
        ∀ a, m.chart.isDescendant x a → m.chart.isDescendant a p → a ∈ set' := by
  obtain ⟨-, ⟨u, hu⟩, hbelow⟩ := domain_spec hb hdecl hd
  obtain ⟨-, -, -, hway⟩ := addEntries_bounds hb hdecl hd hg h
  unfold addEntries at h
  simp only [hd, hg, Option.bind_eq_bind, Option.bind_eq_some_iff] at h
  obtain ⟨set₁, h₁, h₂⟩ := h
  obtain ⟨henter, hreach, haround⟩ := enterInto_target hb hfull hdecl hg h₁
  have hclimb : m.chart.Links (· = d) set₁ set' := by
    refine links_foldlM (fun x hx S S' hsub hS => ?_) h₂
    obtain ⟨y, hy, hxy⟩ := hreach x hx
    exact addAncestors_links (addsWithin_addDescendants hb _)
      (fun r S S' hr _ hS => (addDescendants_links hb hfull _ r S S' hr hS).links)
      (fun r S S' hr hh hS => (addDescendants_bounds hb _ r S S' hr hS).goals r (.plain hr hh))
      (hbelow x hx) (fun a ha => ⟨y, hsub y hy, below_of_scope ha hxy⟩) hS
  have hall : m.chart.Links (fun q => m.chart.parent? g = some q ∨ q = d) set set' :=
    links_trans (links_bound (fun q hq => Or.inr (Or.inl hq)) henter)
      (links_bound (fun q hq => Or.inr (Or.inr hq)) hclimb)
  refine ⟨links_bound (fun q hq => ?_) hall, ?_,
    fun p hh hp x hx a hxa hap => hclimb.mono a (haround p hh hp x hx a hxa hap)⟩
  · rcases hq with hq | rfl
    · by_cases hh : m.chart.isHistory g
      · -- the domain and the parent of the history state lie around the same states
        have huq := targets_below hb hg hh hq hu
        rcases isWithin_or_of_common (isWithin_of_isDescendant huq)
          (isWithin_of_isDescendant (hbelow u hu)) with hqd | hdq
        · rcases isWithin_iff.mp hqd with rfl | hqd
          · exact Or.inr (Or.inl rfl)
          · exact Or.inl (hway u hu q huq hqd)
        · exact Or.inr (Or.inr ⟨g, hg, hh, hq, hdq⟩)
      · have htarget := targets_of_not_isHistory hg (target_of_declared hdecl hg).1 hh
        have hgt : g ∈ m.targets t := htarget ▸ List.mem_singleton.mpr rfl
        rcases isWithin_iff.mp (isWithin_parent hq (hbelow g hgt)) with rfl | hqd
        · exact Or.inr (Or.inl rfl)
        · exact Or.inl (hway g hgt q (isDescendant_parent hq) hqd)
    · exact Or.inr (Or.inl rfl)
  · obtain ⟨y, hy, huy⟩ := hreach u hu
    exact ⟨y, hclimb.mono y hy, below_of_scope (hbelow u hu) huy⟩

/-- What the transitions of a step enter hangs together: the parent of each state is entered as well,
unless a transition ends there, and something below each state that has children. -/
structure EntersTogether (m : Machine D) (taken : List (Selected D)) (l : List D.State) : Prop where
  up : ∀ x ∈ l, ∀ q, m.chart.parent? x = some q →
    q ∈ l ∨ ∃ t ∈ taken, ∃ d, m.domain? t = some d ∧ m.EndsAt t d q
  down : ∀ x ∈ l, ∀ v, m.chart.parent? v = some x → ∃ y ∈ l, m.chart.isDescendant y x
  reached : ∀ t ∈ taken, ∀ d, m.domain? t = some d → ∃ y ∈ l, m.chart.isDescendant y d
  around : ∀ t ∈ taken, ∀ d g p, m.domain? t = some d → t.transition.target = some g →
    m.chart.isHistory g → m.chart.parent? g = some p → ∀ x ∈ m.targets t,
      ∀ a, m.chart.isDescendant x a → m.chart.isDescendant a p → a ∈ l

theorem entersTogether (hb : m.chart.BoundedHistory m.history) (hfull : m.history.Full)
    (htaken : ∀ t ∈ taken, Declared m.chart t) (h : m.entering taken = some l) :
    m.EntersTogether taken l := by
  unfold entering at h
  obtain ⟨set, hset, rfl⟩ := Option.map_eq_some_iff.mp h
  have hmem : ∀ x, x ∈ m.chart.inEntryOrder set.elems ↔ x ∈ set :=
    fun x => Outline.mem_inEntryOrder ..
  -- every turn links what it brings up to where its transition ends
  have hlinks : ∀ t ∈ taken, ∀ S S', m.addEntries S t = some S' →
      m.chart.Links (fun q => ∃ t ∈ taken, ∃ d, m.domain? t = some d ∧ m.EndsAt t d q) S S' := by
    intro t ht S S' hS
    cases hd : m.domain? t with
    | none =>
      rw [addEntries_of_none hd, Option.some.injEq] at hS
      exact hS ▸ links_refl
    | some d =>
      obtain ⟨g, hg⟩ := exists_target hd
      exact links_bound (fun q hq => Or.inr ⟨t, ht, d, hd, hq⟩)
        (addEntries_links hb hfull (htaken t ht) hd hg hS).1
  have hall := links_foldlM (fun t ht S S' _ => hlinks t ht S S') hset
  constructor
  · intro x hx q hq
    simp only [hmem] at hx ⊢
    exact (hall.up x hx).resolve_left (StateSet.not_mem_empty x) q hq
  · intro x hx v hv
    simp only [hmem] at hx ⊢
    exact (hall.down x hx).resolve_left (StateSet.not_mem_empty x) v hv
  · intro t ht d hd
    obtain ⟨g, hg⟩ := exists_target hd
    simp only [hmem]
    exact exists_foldlM_of_mem hlinks hset ht
      fun S S' hS => (addEntries_links hb hfull (htaken t ht) hd hg hS).2.1
  · intro t ht d g p hd hg hh hp x hx a hxa hap
    obtain ⟨y, hy, rfl⟩ := exists_foldlM_of_mem (P := (· = a)) hlinks hset ht fun S S' hS =>
      ⟨a, (addEntries_links hb hfull (htaken t ht) hd hg hS).2.2 p hh hp x hx a hxa hap, rfl⟩
    exact (hmem y).mpr hy

end Machine

namespace Settled

open Chart

variable {c : Chart D} {steps : List (Settled D)} {step : Settled D} {t u : Selected D}
  {d d' e p q x a : D.State}

/-- Whether a transition to a history state of `p` has another domain when what is entered is
determined than when what is left was. -/
def Shifts (c : Chart D) (step : Settled D) (t : Selected D) (p : D.State) : Prop :=
  (∃ g, t.transition.target = some g ∧ c.isHistory g ∧ c.parent? g = some p) ∧
    ∃ d, step.between.domain? t = some d ∧ step.before.domain? t ≠ some d

/-- Whether the transitions of a step have the same domains before anything is left and when it is
determined what is entered. -/
def Steady (step : Settled D) : Prop :=
  ∀ t ∈ step.taken, step.between.domain? t = step.before.domain? t

section

variable (hon : step.On c)
  (hplain : Plain c steps step.before.configuration step.before.history)
  (hrooted : c.Rooted step.before.configuration)

section

variable (hr : step.Reaction)

include hon hplain hr in
theorem source_within_before (ht : t ∈ step.taken) (hd : step.before.domain? t = some d) :
    c.isWithin t.source d := by
  have hb := boundedHistory_of_recorded hplain.recorded hplain.past
  obtain rfl := hon.chart
  exact (Machine.domain_spec hb (declared_of_taken hr ht).1 hd).1

include hon hplain hrooted hr

/-- The domain of a transition taken, and whatever lies around it, is active. -/
theorem active_around (ht : t ∈ step.taken) (hd : step.before.domain? t = some d)
    (ha : c.isWithin d a) : a ∈ step.before.configuration := by
  obtain ⟨-, y, hy, hys⟩ := declared_of_taken hr ht
  rw [hon.chart] at hys
  exact mem_of_rooted hrooted hy
    (isWithin_trans hys (isWithin_trans (source_within_before hon hplain hr ht hd) ha))

/-- Of two transitions taken, either they are one or neither domain lies within the other: there is
something active below each domain, and no two transitions leave the same. -/
theorem eq_of_domain_isWithin (ht : t ∈ step.taken) (hu : u ∈ step.taken)
    (hd : step.before.domain? t = some d) (he : step.before.domain? u = some e)
    (hde : c.isWithin d e) : t = u := by
  obtain ⟨l, -, -, htaken⟩ := hr.selected
  have hactive := active_around hon hplain hrooted hr ht hd (isWithin_refl d)
  have hb := boundedHistory_of_recorded hplain.recorded hplain.past
  obtain rfl := hon.chart
  obtain ⟨-, ⟨y, hy⟩, hbelow⟩ := Machine.domain_spec hb (declared_of_taken hr ht).1 hd
  obtain ⟨v, hv, -⟩ := exists_child_towards (hbelow y hy)
  obtain ⟨w, hwa, hwd⟩ := hrooted.below d hactive v hv
  have hconflict : step.before.conflicts t u := Machine.conflicts_iff.mpr
    ⟨w, Machine.mem_exitSet.mpr ⟨d, hd, hwa, hwd⟩, Machine.mem_exitSet.mpr
      ⟨e, he, hwa, isDescendant_of_isDescendant_of_isWithin hwd hde⟩⟩
  have hpairs := Machine.pairwise_withoutConflicts (m := step.before) l
  rw [htaken] at hpairs
  have : Std.Symm fun t u => ¬ step.before.conflicts t u :=
    ⟨fun a b hab => fun h => hab (Machine.conflicts_comm.mp h)⟩
  by_contra hne
  exact hpairs.forall ht hu hne hconflict

/-- Nothing around the domain of a transition taken is left. -/
theorem not_exited_around (ht : t ∈ step.taken) (hd : step.before.domain? t = some d)
    (ha : c.isWithin d a) : a ∉ step.exited := by
  intro hexit
  obtain ⟨-, u, hu, e, he, hae⟩ := (mem_exited hon hr).mp hexit
  have hde := isDescendant_of_isWithin ha hae
  obtain rfl :=
    eq_of_domain_isWithin hon hplain hrooted hr ht hu hd he (isWithin_of_isDescendant hde)
  exact isDescendant_irrefl (Option.some.inj (hd.symm.trans he) ▸ hde)

theorem mem_after_around (ht : t ∈ step.taken) (hd : step.before.domain? t = some d)
    (ha : c.isWithin d a) : a ∈ step.after.configuration :=
  (mem_after hon.enters hon.cases a).mpr (Or.inl
    ⟨active_around hon hplain hrooted hr ht hd ha, not_exited_around hon hplain hrooted hr ht hd ha⟩)

variable (hfull : step.before.history.Full)

include hfull

theorem full_between : step.between.history.Full := by
  intro s l hl
  rw [hr.history] at hl
  by_cases hh : step.before.chart.isHistory s
  · obtain ⟨p, hp⟩ := parent_of_isHistory hh
    obtain ⟨mode, hk⟩ := isHistory_iff.mp hh
    rw [Machine.get?_recordHistories hk hp] at hl
    split at hl
    · next hexit =>
      rw [Option.some.injEq] at hl
      have hactive := ((mem_exited hon hr).mp hexit).1
      have hconf := hplain.configuration
      obtain rfl := hon.chart
      exact hl ▸ Machine.remember_ne_nil hrooted hconf hactive hp
    · exact hfull s l hl
  · rw [Machine.get?_recordHistories_of_not_isHistory hh] at hl
    exact hfull s l hl

theorem entersTogether_of_reaction : step.between.EntersTogether step.taken step.entered := by
  have hchart : step.between.chart = c := hr.chart.trans hon.chart
  refine Machine.entersTogether (hchart ▸ boundedHistory_between hon hplain)
    (full_between hon hplain hrooted hr hfull) (fun t ht => ?_) hr.entered
  exact hr.chart ▸ (declared_of_taken hr ht).1

/-- A transition keeps its domain, or shifts it into a parallel state that is left by the
transition itself. -/
theorem same_or_shifts (ht : t ∈ step.taken) (hd' : step.between.domain? t = some d') :
    step.before.domain? t = some d' ∨
      ∃ p, step.Shifts c t p ∧ p ∈ step.exited ∧ c.isParallel p ∧ c.isDescendant d' p := by
  refine or_iff_not_imp_left.mpr fun hne => ?_
  have hsame : ¬ step.between.domain? t = step.before.domain? t := fun h => hne (h ▸ hd')
  obtain ⟨g, hg⟩ := Machine.exists_target hd'
  have hb := boundedHistory_of_recorded hplain.recorded hplain.past
  have hb' := boundedHistory_between hon hplain
  have hchart := hr.chart
  have hdecl := (declared_of_taken hr ht).1
  -- the targets have changed, so the state that the history state belongs to is left
  obtain ⟨hh, p, hp, hexit⟩ : c.isHistory g ∧ ∃ p, c.parent? g = some p ∧ p ∈ step.exited := by
    by_contra hnot
    refine hsame (Machine.domain?_congr hchart (targets_between hon hr hg fun hh p hp hexit => ?_))
    exact hnot ⟨hh, p, hp, hexit⟩
  obtain ⟨d, hd⟩ : ∃ d, step.before.domain? t = some d := by
    obtain rfl := hon.chart
    obtain ⟨n, hn⟩ := contains_iff.mp (contains_of_parent hp)
    have hk := (isHistory_of_node hn).mp hh
    have hne := restored_ne_nil hfull hn hk hp
    rw [← Machine.targets_of_isHistory hg hn hk] at hne
    rw [Machine.domain?_eq] at hd' ⊢
    split at hd'
    · exact absurd hd' (by simp)
    · next hcond =>
      rw [Bool.or_eq_true, not_or] at hcond
      exact ⟨_, if_neg (by simp [hcond.1, hne])⟩
  have houtside : ¬ c.isWithin d p := fun hdp =>
    not_exited_around hon hplain hrooted hr ht hd hdp hexit
  have hbelow : c.isDescendant d' p := by
    by_contra hnot
    refine hsame (hd'.trans (hd.trans ?_).symm)
    obtain rfl := hon.chart
    have h := Machine.domain_eq_of_not_below hb hg hh hp hd fun h =>
      houtside (isWithin_of_isDescendant h)
    rw [← hchart] at hb' hh hp hnot h
    exact congrArg some (h.trans (Machine.domain_eq_of_not_below hb' hg hh hp hd' hnot).symm)
  refine ⟨p, ⟨⟨g, hg, hh, hp⟩, d', hd', hne⟩, hexit, ?_, hbelow⟩
  refine (isCompound_or_isParallel_of_parent hp).resolve_left fun hcompound => houtside ?_
  -- a compound state that has all the targets below it would have been the domain, or be around it
  obtain rfl := hon.chart
  have hsource : step.before.chart.isWithin t.source d' := by
    rw [← hchart] at hb' hdecl ⊢
    exact (Machine.domain_spec hb' hdecl hd').1
  obtain ⟨-, rfl⟩ := Machine.domain_eq_nearest hd
  refine isWithin_nearest_of_mem_scopes (List.mem_append_right _ ?_) hcompound ?_
  · exact isDescendant_iff.mp (isDescendant_of_isWithin hsource hbelow)
  · exact List.all_eq_true.mpr fun y hy => Machine.targets_below hb hg hh hp hy

/-- The parent of a state that is entered is active afterwards, unless the step shifts the domain
of a transition into it. -/
theorem parent_of_entered (hx : x ∈ step.entered) (hq : c.parent? x = some q) :
    q ∈ step.after.configuration ∨
      (c.isParallel q ∧ q ∈ step.exited ∧ ∃ t ∈ step.taken, step.Shifts c t q) := by
  have hchart : step.between.chart = c := hr.chart.trans hon.chart
  have htogether := entersTogether_of_reaction hon hplain hrooted hr hfull
  have hentered : ∀ y ∈ step.entered, y ∈ step.after.configuration :=
    fun y hy => (hon.enters.configuration y).mpr (Or.inr hy)
  rcases htogether.up x hx q (hchart ▸ hq) with hq | ⟨t, ht, d', hd', hends⟩
  · exact Or.inl (hentered q hq)
  rcases same_or_shifts hon hplain hrooted hr hfull ht hd' with hd | ⟨p, hshifts, hexit, hpar, hdp⟩
  · -- the transition ends at its domain or around it, where nothing is left
    have hdq : c.isWithin d' q := by
      rcases hends with rfl | ⟨g, -, -, -, hdq⟩
      · exact isWithin_refl q
      · exact isWithin_of_isDescendant (hchart ▸ hdq)
    exact Or.inl (mem_after_around hon hplain hrooted hr ht hd hdq)
  · obtain ⟨g, hg, hh, hp⟩ := hshifts.1
    rcases hends with rfl | ⟨g', hg', -, hq', -⟩
    · -- the new domain itself lies below the parent of the history state and is entered
      refine Or.inl (hentered q ?_)
      obtain ⟨-, ⟨y, hy⟩, hbelow⟩ := Machine.domain_spec
        (hchart ▸ boundedHistory_between hon hplain)
        (hr.chart ▸ (declared_of_taken hr ht).1) hd'
      exact htogether.around t ht q g p hd' hg (hchart ▸ hh) (hchart ▸ hp) y hy q (hbelow y hy)
        (hchart ▸ hdp)
    · rw [hg, Option.some.injEq] at hg'
      subst hg'
      rw [hchart, hp, Option.some.injEq] at hq'
      subst hq'
      exact Or.inr ⟨hpar, hexit, t, ht, hshifts⟩

end

variable (hfull : step.before.history.Full)

include hon hplain hfull in
/-- What comes with the root hangs together. -/
theorem entersTogether_of_initial (hi : step.Initial) :
    (∀ x ∈ step.entered, ∀ q, c.parent? x = some q → q ∈ step.entered) ∧
      ∀ x ∈ step.entered, ∀ v, c.parent? v = some x → ∃ y ∈ step.entered, c.isDescendant y x := by
  obtain ⟨set, hset, hentered⟩ := hi.entered
  have hb := boundedHistory_between hon hplain
  rw [hi.same] at hb
  obtain rfl := hon.chart
  have hlinks := (addDescendants_links hb hfull _ _ _ _ contains_root hset).links
  simp only [hentered, Outline.mem_inEntryOrder, ← StateSet.mem_def]
  refine ⟨fun x hx q hq => ?_, fun x hx v hv => ?_⟩
  · refine ((hlinks.up x hx).resolve_left (StateSet.not_mem_empty x) q hq).resolve_right fun h => ?_
    rw [parent_root] at h
    exact absurd h (by simp)
  · exact (hlinks.down x hx).resolve_left (StateSet.not_mem_empty x) v hv

include hon hplain hrooted hfull

theorem full_after : step.after.history.Full := by
  rw [hon.enters.history]
  rcases hon.cases with hi | hr
  · exact hi.same ▸ hfull
  · exact full_between hon hplain hrooted hr hfull

/-- The parent of a state that is active after the step is active too, unless the step shifts the
domain of a transition into it. -/
theorem parent_after (hx : x ∈ step.after.configuration) (hq : c.parent? x = some q) :
    q ∈ step.after.configuration ∨
      (c.isParallel q ∧ q ∈ step.exited ∧ ∃ t ∈ step.taken, step.Shifts c t q) := by
  rcases (mem_after hon.enters hon.cases x).mp hx with ⟨hxa, hexit⟩ | hentered
  · refine Or.inl ((mem_after hon.enters hon.cases q).mpr (Or.inl ⟨hrooted.parent x hxa q hq, ?_⟩))
    -- whatever leaves the parent leaves the state
    intro hqexit
    rcases hon.cases with hi | hr
    · rw [hi.exited] at hqexit
      exact absurd hqexit List.not_mem_nil
    · obtain ⟨-, t, ht, d, hd, hqd⟩ := (mem_exited hon hr).mp hqexit
      exact hexit ((mem_exited hon hr).mpr
        ⟨hxa, t, ht, d, hd, isDescendant_trans (isDescendant_parent hq) hqd⟩)
  · rcases hon.cases with hi | hr
    · exact Or.inl ((hon.enters.configuration q).mpr
        (Or.inr ((entersTogether_of_initial hon hplain hfull hi).1 x hentered q hq)))
    · exact parent_of_entered hon hplain hrooted hr hfull hentered hq

/-- A step that shifts no domain leads to a configuration that hangs together again. -/
theorem rooted_after (hsteady : step.Steady) : c.Rooted step.after.configuration where
  parent := by
    intro x hx q hq
    refine (parent_after hon hplain hrooted hfull hx hq).resolve_right fun h => ?_
    obtain ⟨-, -, t, ht, hshifts⟩ := h
    obtain ⟨-, d, hd, hne⟩ := hshifts
    exact hne ((hsteady t ht).symm.trans hd)
  below := by
    intro x hx v hv
    have hentered : ∀ y ∈ step.entered, y ∈ step.after.configuration :=
      fun y hy => (hon.enters.configuration y).mpr (Or.inr hy)
    rcases hon.cases with hi | hr
    · have hxe := (hon.enters.configuration x).mp hx
      rw [hi.same, StateSet.mem_def, List.isEmpty_iff.mp hi.empty] at hxe
      obtain ⟨y, hy, hyx⟩ := (entersTogether_of_initial hon hplain hfull hi).2 x
        (hxe.resolve_left List.not_mem_nil) v hv
      exact ⟨y, hentered y hy, hyx⟩
    have hchart : step.between.chart = c := hr.chart.trans hon.chart
    have htogether := entersTogether_of_reaction hon hplain hrooted hr hfull
    rcases (mem_after hon.enters hon.cases x).mp hx with ⟨hxa, hexit⟩ | hxe
    · obtain ⟨y, hya, hyx⟩ := hrooted.below x hxa v hv
      by_cases hyexit : y ∈ step.exited
      · -- whatever leaves `y` has its domain within `x`, and enters something there
        obtain ⟨-, t, ht, d, hd, hyd⟩ := (mem_exited hon hr).mp hyexit
        have hdx : c.isWithin d x := by
          rcases isWithin_or_of_common (isWithin_of_isDescendant hyd)
            (isWithin_of_isDescendant hyx) with h | h
          · exact h
          · exact absurd ((mem_exited hon hr).mpr ⟨hxa, t, ht, d, hd, h⟩) hexit
        obtain ⟨z, hz, hzd⟩ := htogether.reached t ht d ((hsteady t ht).trans hd)
        rw [hchart] at hzd
        exact ⟨z, hentered z hz, isDescendant_of_isDescendant_of_isWithin hzd hdx⟩
      · exact ⟨y, (mem_after hon.enters hon.cases y).mpr (Or.inl ⟨hya, hyexit⟩), hyx⟩
    · obtain ⟨y, hy, hyx⟩ := htogether.down x hxe v (hchart ▸ hv)
      exact ⟨y, hentered y hy, hchart ▸ hyx⟩

/-- If the only transition that a step takes shifts its domain, the state it is shifted into is not
active afterwards. -/
theorem inactive_of_shifts (htaken : step.taken = [t]) (hshifts : step.Shifts c t p) :
    p ∉ step.after.configuration := by
  have ht : t ∈ step.taken := htaken ▸ List.mem_singleton.mpr rfl
  have hr : step.Reaction := by
    refine hon.cases.resolve_left fun hi => ?_
    rw [hi.taken] at ht
    exact absurd ht List.not_mem_nil
  have hchart : step.between.chart = c := hr.chart.trans hon.chart
  obtain ⟨⟨g, hg, hh, hp⟩, d', hd', hne⟩ := hshifts
  obtain ⟨q, ⟨⟨g', hg', -, hq⟩, -⟩, hexit, -, hbelow⟩ :=
    (same_or_shifts hon hplain hrooted hr hfull ht hd').resolve_left hne
  rw [hg, Option.some.injEq] at hg'
  subst hg'
  rw [hp, Option.some.injEq] at hq
  subst hq
  rw [mem_after hon.enters hon.cases]
  refine not_or.mpr ⟨fun h => h.2 hexit, fun hentered => ?_⟩
  -- the transition enters only below the parent of the history state and below its own domain
  obtain ⟨-, u, hu, e, g', he, hg', hscope⟩ := (Machine.entering_bounds
    (hchart ▸ boundedHistory_between hon hplain)
    (fun t ht => hr.chart ▸ (declared_of_taken hr ht).1) hr.entered).1 p hentered
  rw [htaken, List.mem_singleton] at hu
  subst hu
  rw [hg, Option.some.injEq] at hg'
  rw [hd', Option.some.injEq] at he
  subst hg' he
  rw [hchart] at hscope
  rcases hscope with (⟨hplain, -⟩ | ⟨-, q, hq, hpq⟩) | hpd
  · exact hplain hh
  · rw [hp, Option.some.injEq] at hq
    exact isDescendant_irrefl (hq ▸ hpq)
  · exact isDescendant_asymm hbelow hpd

end

end Settled

/-! ## Along a run -/

/-- Along a run, configurations hang together as long as no transition shifts its domain. -/
theorem rooted_of_run {c : Chart D} {steps : List (Settled D)} {m : Machine D}
    (hrun : Machine.Run c steps m) : ∀ later step earlier, steps = later ++ step :: earlier →
      step.Live → step.On c ∧ Plain c earlier step.before.configuration step.before.history ∧
        ((∀ e ∈ earlier, e.Steady) →
          c.Rooted step.before.configuration ∧ step.before.history.Full) := by
  refine Machine.run_step (P := fun steps configuration history =>
    Plain c steps configuration history ∧
      ((∀ e ∈ steps, e.Steady) → c.Rooted configuration ∧ history.Full)) ?_ ?_ hrun
  · intro configuration history hc hh
    have hnone : ∀ x, x ∉ configuration := fun x hx => by
      rw [StateSet.mem_def, hc] at hx
      exact absurd hx List.not_mem_nil
    refine ⟨⟨fun x hx => absurd hx (hnone x), recorded_nil hh, fun _ he =>
      absurd he List.not_mem_nil⟩, fun _ => ⟨⟨fun x hx => absurd hx (hnone x),
        fun x hx => absurd hx (hnone x)⟩, fun s l hl => ?_⟩⟩
    rw [History.get?, hh] at hl
    exact absurd hl (by simp)
  · intro steps step hon h
    obtain ⟨hplain, hkept⟩ := h
    refine ⟨Settled.plain_step hon hplain, fun hsteady => ?_⟩
    obtain ⟨hrooted, hfull⟩ := hkept fun e he => hsteady e (List.mem_cons_of_mem _ he)
    exact ⟨Settled.rooted_after hon hplain hrooted hfull (hsteady step (List.mem_cons_self ..)),
      Settled.full_after hon hplain hrooted hfull⟩

end Statechart
