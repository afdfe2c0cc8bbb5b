import Statechart.Proofs.Entry.Restore
import Statechart.Proofs.Machine.Domains

/-!
# What transitions enter

A transition brings along its goals, the states its target stands for, with all that
comes with them and lies around them below the domain (`Brings`). That is what entering
its target and climbing to its domain adds up to, provided that the set to fill has
nothing below the domain yet and that the domain covers the target: the parent of a
history state has to lie within it (`fills_addEntries`). Transitions whose domains lie
apart are entered one after another without getting in each other's way
(`mem_entering`).

Where the domain does not cover a history state, entering the history state goes up to
its parent and so beyond the domain. What is then entered at least and at most is said
by `addEntries_bounds`.
-/

namespace Statechart.Machine

open Chart

variable {D : Domain} {m : Machine D} {t : Selected D} {s g x p a d : D.State} {n : Node D}
  {taken : List (Selected D)} {set set' : StateSet D.State}

/-- Whether the domain of a transition has the parent of a history state it targets within it. -/
def Covers (m : Machine D) (t : Selected D) : Prop :=
  ∀ d g p, m.domain? t = some d → t.transition.target = some g → m.chart.isHistory g →
    m.chart.parent? g = some p → m.chart.isWithin p d

/-- What a transition enters, if its domain covers its target. -/
def Brings (m : Machine D) (t : Selected D) (x : D.State) : Prop :=
  ∃ d g, m.domain? t = some d ∧ t.transition.target = some g ∧
    m.chart.Brought (m.chart.StandsFor m.history g)
      (m.chart.Around (m.chart.StandsFor m.history g) d) x

/-! ## One transition -/

/-- What a state stands for lies below every state it lies below itself. -/
theorem standsFor_below (hb : m.chart.BoundedHistory m.history)
    (hsa : m.chart.isDescendant s a) (hg : m.chart.StandsFor m.history s g) :
    m.chart.isDescendant g a := by
  rcases scope_of_standsFor hb hg with ⟨-, hgs⟩ | ⟨-, q, hq, hgq⟩
  · exact isDescendant_of_isWithin hgs hsa
  · exact isDescendant_of_isDescendant_of_isWithin hgq (isWithin_parent hq hsa)

private theorem fills_plain (hc : m.chart.contains g) (hh : ¬ m.chart.isHistory g)
    (hgd : m.chart.isDescendant g d) (hset : ∀ y ∈ set, ¬ m.chart.isDescendant y d)
    {set₁ : StateSet D.State} (h₁ : m.chart.enterInto m.history g set = some set₁)
    (h₂ : [g].foldlM (fun set s => m.chart.climbInto m.history s d set) set₁ = some set') :
    m.chart.Compatible (m.chart.StandsFor m.history g) ∧
      (∀ x, m.chart.StandsFor m.history g x → m.chart.isDescendant x d) ∧
      m.chart.Fills (m.chart.StandsFor m.history g)
        (m.chart.Around (m.chart.StandsFor m.history g) d) set set' := by
  -- a plain target stands for itself
  have hgoal : ∀ x, x = g ↔ m.chart.StandsFor m.history g x :=
    fun x => (standsFor_plain_iff hc hh).symm
  have hcompat := compatible_singleton hc hh
  have hmem := mem_addDescendants _ hc hh
    (fun y hy hyg => hset y hy (isDescendant_of_isWithin hyg hgd)) h₁
  have hfills₁ : m.chart.Fills (· = g) (fun _ => False) set set₁ := by
    intro x
    rw [hmem x]
    simp [Outline.Brought]
  have hfills := fills_climbs (addsDefaults_addDescendants _) hcompat hset
    (fun _ hf => hf.elim) hfills₁
    (fun x hx => by
      rw [List.mem_singleton] at hx
      subst hx
      exact ⟨hgd, fun a ha => ⟨x, rfl, ha⟩⟩) h₂
  refine ⟨compatible_congr hgoal hcompat, fun x hx => (hgoal x).mpr hx ▸ hgd, ?_⟩
  refine fills_congr hgoal (fun a => ?_) hfills
  constructor
  · intro h
    rcases h with hf | ⟨x, hx, hxa, had⟩
    · exact hf.elim
    · exact ⟨had, x, (hgoal x).mp (List.mem_singleton.mp hx), hxa⟩
  · intro h
    obtain ⟨had, x, hx, hxa⟩ := h
    exact Or.inr ⟨x, List.mem_singleton.mpr ((hgoal x).mpr hx), hxa, had⟩

private theorem fills_restored (hsound : m.chart.SoundHistory m.history)
    (hn : m.chart.node? g = some n) (hk : n.kind.isHistory) (hp : m.chart.parent? g = some p)
    (hpd : m.chart.isWithin p d) (hset : ∀ y ∈ set, ¬ m.chart.isDescendant y d)
    {set₁ : StateSet D.State} (h₁ : m.chart.enterInto m.history g set = some set₁)
    (h₂ : (m.chart.restored m.history n).foldlM
      (fun set s => m.chart.climbInto m.history s d set) set₁ = some set') :
    m.chart.Compatible (m.chart.StandsFor m.history g) ∧
      (∀ x, m.chart.StandsFor m.history g x → m.chart.isDescendant x d) ∧
      m.chart.Fills (m.chart.StandsFor m.history g)
        (m.chart.Around (m.chart.StandsFor m.history g) d) set set' := by
  have hb := boundedHistory_of_sound hsound
  have hh := (isHistory_of_node hn).mpr hk
  obtain ⟨hcompat, hbelow, hfills₁⟩ := fills_history hsound _ hh hp
    (fun y hy hyp => hset y hy (isDescendant_of_isDescendant_of_isWithin hyp hpd)) h₁
  -- each of the states restored stands for some goal
  have hup : ∀ s ∈ m.chart.restored m.history n, ∀ a, m.chart.isDescendant s a →
      ∃ x, m.chart.StandsFor m.history g x ∧ m.chart.isDescendant x a := by
    intro s hs a hsa
    have hgoal : ∃ x, m.chart.StandsFor m.history s x := by
      rcases restored_cases hsound hn hk hp with ⟨hlist, -, -⟩ | ⟨u, hl, -, -⟩
      · exact ⟨s, .plain (hlist.contains s hs) (hlist.plain s hs)⟩
      · obtain ⟨x, hx⟩ := hcompat.nonempty
        obtain ⟨v, hv, hvx⟩ := (standsFor_history_iff hn hk).mp hx
        rw [hl, List.mem_singleton] at hs hv
        exact ⟨x, by rwa [hs, ← hv]⟩
    obtain ⟨x, hx⟩ := hgoal
    exact ⟨x, .restored hn hk hs hx, standsFor_below hb hsa hx⟩
  have hfills := fills_climbs (addsDefaults_addDescendants _) hcompat hset
    (fun a ha => ha.2) hfills₁
    (fun s hs => ⟨isDescendant_of_isDescendant_of_isWithin (restored_below hb hn hk hp hs) hpd,
      hup s hs⟩) h₂
  refine ⟨hcompat, fun x hx => isDescendant_of_isDescendant_of_isWithin (hbelow x hx) hpd, ?_⟩
  refine fills_congr (fun _ => Iff.rfl) (fun a => ?_) hfills
  constructor
  · intro h
    rcases h with ⟨hap, hgoal⟩ | ⟨s, hs, hsa, had⟩
    · exact ⟨isDescendant_of_isDescendant_of_isWithin hap hpd, hgoal⟩
    · exact ⟨had, hup s hs a hsa⟩
  · intro h
    obtain ⟨had, x, hx, hxa⟩ := h
    -- up to the parent the history state itself has entered everything, from there it is climbed
    rcases isWithin_or_of_common (isWithin_of_isDescendant (hbelow x hx))
      (isWithin_of_isDescendant hxa) with hpa | hap
    · obtain ⟨s, hs, -⟩ := (standsFor_history_iff hn hk).mp hx
      exact Or.inr ⟨s, hs, isDescendant_of_isDescendant_of_isWithin
        (restored_below hb hn hk hp hs) hpa, had⟩
    · exact Or.inl ⟨hap, x, hx, hxa⟩

/-- Whether the history is sound, if a transition has to do with it. -/
def Reliable (m : Machine D) (t : Selected D) : Prop :=
  ∀ g, t.transition.target = some g → m.chart.isHistory g → m.chart.SoundHistory m.history

/-- A transition fills a set that has nothing below its domain with what it brings. -/
theorem fills_addEntries (hb : m.chart.BoundedHistory m.history) (hsound : m.Reliable t)
    (hdecl : Declared m.chart t) (hcovers : m.Covers t) (hd : m.domain? t = some d)
    (ht : t.transition.target = some g)
    (hset : ∀ y ∈ set, ¬ m.chart.isDescendant y d) (h : m.addEntries set t = some set') :
    m.chart.Compatible (m.chart.StandsFor m.history g) ∧
      (∀ x, m.chart.StandsFor m.history g x → m.chart.isDescendant x d) ∧
      m.chart.Fills (m.chart.StandsFor m.history g)
        (m.chart.Around (m.chart.StandsFor m.history g) d) set set' := by
  obtain ⟨hc, -⟩ := target_of_declared hdecl ht
  obtain ⟨-, -, hbelow⟩ := domain_spec hb hdecl hd
  unfold addEntries at h
  simp only [hd, ht, Option.bind_eq_bind, Option.bind_eq_some_iff] at h
  obtain ⟨set₁, h₁, h₂⟩ := h
  by_cases hh : m.chart.isHistory g
  · obtain ⟨p, hp⟩ := parent_of_isHistory hh
    obtain ⟨n, hn⟩ := contains_iff.mp hc
    have hk := (isHistory_of_node hn).mp hh
    rw [targets_of_isHistory ht hn hk] at h₂
    exact fills_restored (hsound g ht hh) hn hk hp (hcovers d g p hd ht hh hp) hset h₁ h₂
  · rw [targets_of_not_isHistory ht hc hh] at h₂ hbelow
    exact fills_plain hc hh (hbelow g (List.mem_singleton.mpr rfl)) hset h₁ h₂

theorem addEntries_of_none (hd : m.domain? t = none) : m.addEntries set t = some set := by
  unfold addEntries
  rw [hd]

/-! ## All transitions of a step -/

theorem goals_below (hb : m.chart.BoundedHistory m.history) (hdecl : Declared m.chart t)
    (hcovers : m.Covers t) (hd : m.domain? t = some d) (ht : t.transition.target = some g)
    (hx : m.chart.StandsFor m.history g x) : m.chart.isDescendant x d := by
  obtain ⟨-, -, hbelow⟩ := domain_spec hb hdecl hd
  rcases scope_of_standsFor hb hx with ⟨hh, hxg⟩ | ⟨hh, p, hp, hxp⟩
  · rw [targets_of_not_isHistory ht (target_of_declared hdecl ht).1 hh] at hbelow
    exact isDescendant_of_isWithin hxg (hbelow g (List.mem_singleton.mpr rfl))
  · exact isDescendant_of_isDescendant_of_isWithin hxp (hcovers d g p hd ht hh hp)

theorem brings_below (hb : m.chart.BoundedHistory m.history) (hdecl : Declared m.chart t)
    (hcovers : m.Covers t) (hd : m.domain? t = some d) (hx : m.Brings t x) :
    m.chart.isDescendant x d := by
  obtain ⟨d', g, hd', ht, hx⟩ := hx
  obtain rfl := Option.some.inj (hd'.symm.trans hd)
  exact brought_below (fun y hy => goals_below hb hdecl hcovers hd ht hy) hx

/-- Two transitions with domains lie apart if neither domain lies within the other. -/
def Apart (m : Machine D) (t u : Selected D) : Prop :=
  ∀ d e, m.domain? t = some d → m.domain? u = some e →
    ¬ m.chart.isWithin d e ∧ ¬ m.chart.isWithin e d

/-- A transition adds what it brings, if nothing below its domain has been entered before. -/
theorem mem_addEntries (hb : m.chart.BoundedHistory m.history) (hdecl : Declared m.chart t)
    (hcovers : m.Covers t) (hsound : m.Reliable t)
    (hset : ∀ d, m.domain? t = some d → ∀ y ∈ set, ¬ m.chart.isDescendant y d)
    (h : m.addEntries set t = some set') :
    (∀ d g, m.domain? t = some d → t.transition.target = some g →
      m.chart.Compatible (m.chart.StandsFor m.history g)) ∧
    ∀ x, x ∈ set' ↔ x ∈ set ∨ m.Brings t x := by
  cases hd : m.domain? t with
  | none =>
    rw [addEntries_of_none hd, Option.some.injEq] at h
    refine ⟨fun d g hd' => absurd hd' (by simp), fun x => ?_⟩
    rw [h]
    refine (or_iff_left ?_).symm
    intro hex
    obtain ⟨d, g, hd', -⟩ := hex
    rw [hd] at hd'
    exact absurd hd' (by simp)
  | some d =>
    obtain ⟨g, ht⟩ := exists_target hd
    obtain ⟨hcompat, -, hfills⟩ := fills_addEntries hb hsound hdecl hcovers hd ht (hset d hd) h
    refine ⟨fun d' g' _ ht' => ?_, fun x => (hfills x).trans (or_congr_right ?_)⟩
    · rw [ht, Option.some.injEq] at ht'
      exact ht' ▸ hcompat
    · constructor
      · exact fun hx => ⟨d, g, hd, ht, hx⟩
      · intro hex
        obtain ⟨d', g', hd', ht', hx⟩ := hex
        rw [hd, Option.some.injEq] at hd'
        rw [ht, Option.some.injEq] at ht'
        exact hd' ▸ ht' ▸ hx

/-- What a transition brings is not below the domain of one that it lies apart from. -/
theorem not_below_of_apart (hb : m.chart.BoundedHistory m.history) (hdecl : Declared m.chart t)
    (hcovers : m.Covers t) (hapart : m.Apart t u) {e : D.State} (he : m.domain? u = some e)
    (hx : m.Brings t x) : ¬ m.chart.isDescendant x e := by
  intro hxe
  obtain ⟨d, hd⟩ : ∃ d, m.domain? t = some d := ⟨hx.choose, hx.choose_spec.choose_spec.1⟩
  obtain ⟨hde, hed⟩ := hapart d e hd he
  rcases isWithin_or_of_common (isWithin_of_isDescendant (brings_below hb hdecl hcovers hd hx))
    (isWithin_of_isDescendant hxe) with h | h
  · exact hde h
  · exact hed (isWithin_of_isDescendant h)

private theorem mem_foldlM_addEntries (hb : m.chart.BoundedHistory m.history) :
    ∀ {taken : List (Selected D)} {set : StateSet D.State}, taken.Pairwise m.Apart →
      (∀ t ∈ taken, Declared m.chart t ∧ m.Covers t ∧ m.Reliable t) →
      (∀ t ∈ taken, ∀ d, m.domain? t = some d → ∀ y ∈ set, ¬ m.chart.isDescendant y d) →
      taken.foldlM m.addEntries set = some set' →
      (∀ t ∈ taken, ∀ d g, m.domain? t = some d → t.transition.target = some g →
        m.chart.Compatible (m.chart.StandsFor m.history g)) ∧
      ∀ x, x ∈ set' ↔ x ∈ set ∨ ∃ t ∈ taken, m.Brings t x
  | [], set, _, _, _, h => by
    rw [List.foldlM_nil, Option.pure_def, Option.some.injEq] at h
    subst h
    exact ⟨fun t ht => absurd ht List.not_mem_nil, fun x => by simp⟩
  | t :: taken, set, hapart, htaken, hset, h => by
    rw [List.foldlM_cons, Option.bind_eq_bind, Option.bind_eq_some_iff] at h
    obtain ⟨set₁, h₁, h₂⟩ := h
    rw [List.pairwise_cons] at hapart
    obtain ⟨hdecl, hcovers, hsound⟩ := htaken t (List.mem_cons_self ..)
    obtain ⟨hfirst, hmem₁⟩ :=
      mem_addEntries hb hdecl hcovers hsound (hset t (List.mem_cons_self ..)) h₁
    -- what `t` brings does not lie below the domains of the others
    have hset₁ : ∀ u ∈ taken, ∀ e, m.domain? u = some e →
        ∀ y ∈ set₁, ¬ m.chart.isDescendant y e := by
      intro u hu e he y hy
      rcases (hmem₁ y).mp hy with hy | hy
      · exact hset u (List.mem_cons_of_mem _ hu) e he y hy
      · exact not_below_of_apart hb hdecl hcovers (hapart.1 u hu) he hy
    obtain ⟨hcompat, hmem⟩ := mem_foldlM_addEntries hb hapart.2
      (fun u hu => htaken u (List.mem_cons_of_mem _ hu)) hset₁ h₂
    refine ⟨fun u hu => ?_, fun x => ?_⟩
    · rcases List.mem_cons.mp hu with rfl | hu
      · exact hfirst
      · exact hcompat u hu
    · rw [hmem x, hmem₁ x, List.exists_mem_cons_iff, or_assoc]

/-- The states entered are those the transitions bring, for transitions that lie apart and whose
domains cover their targets. -/
theorem mem_entering (hb : m.chart.BoundedHistory m.history) (hapart : taken.Pairwise m.Apart)
    (htaken : ∀ t ∈ taken, Declared m.chart t ∧ m.Covers t ∧ m.Reliable t) {l : List D.State}
    (h : m.entering taken = some l) :
    (∀ t ∈ taken, ∀ d g, m.domain? t = some d → t.transition.target = some g →
        m.chart.Compatible (m.chart.StandsFor m.history g)) ∧
      ∀ x, x ∈ l ↔ ∃ t ∈ taken, m.Brings t x := by
  unfold entering at h
  obtain ⟨set, hset, rfl⟩ := Option.map_eq_some_iff.mp h
  obtain ⟨hcompat, hmem⟩ := mem_foldlM_addEntries hb hapart htaken
    (fun t _ d _ y hy => absurd hy (StateSet.not_mem_empty y)) hset
  refine ⟨hcompat, fun x => ?_⟩
  rw [Outline.mem_inEntryOrder, ← StateSet.mem_def, hmem x]
  exact or_iff_right (StateSet.not_mem_empty x)

theorem nodup_entering {l : List D.State} (h : m.entering taken = some l) : l.Nodup := by
  unfold entering at h
  obtain ⟨set, -, rfl⟩ := Option.map_eq_some_iff.mp h
  exact (List.mergeSort_perm set.elems m.chart.entryLe).nodup_iff.mpr set.nodup

/-! ## What is entered at least and at most -/

/-- Whatever the set and wherever the domain, a transition extends the set within the scope of its
target and below its domain, by its goals, the states around them below the parent of a history
state, and the states on the way from its targets to the domain. -/
theorem addEntries_bounds (hb : m.chart.BoundedHistory m.history) (hdecl : Declared m.chart t)
    (hd : m.domain? t = some d) (ht : t.transition.target = some g)
    (h : m.addEntries set t = some set') :
    m.chart.Extends (fun x => m.chart.Scope g x ∨ m.chart.isDescendant x d) set set' ∧
      (∀ x, m.chart.StandsFor m.history g x → x ∈ set') ∧
      (∀ p, m.chart.isHistory g → m.chart.parent? g = some p →
        ∀ a, m.chart.Around (m.chart.StandsFor m.history g) p a → a ∈ set') ∧
      ∀ x ∈ m.targets t, ∀ a, m.chart.isDescendant x a → m.chart.isDescendant a d → a ∈ set' := by
  obtain ⟨hc, -⟩ := target_of_declared hdecl ht
  obtain ⟨-, -, hbelow⟩ := domain_spec hb hdecl hd
  have hadd := addsWithin_addDescendants hb m.chart.entryFuel
  unfold addEntries at h
  simp only [hd, ht, Option.bind_eq_bind, Option.bind_eq_some_iff] at h
  obtain ⟨set₁, h₁, h₂⟩ := h
  obtain ⟨hext, hgoals, haround⟩ := addDescendants_bounds hb _ g set set₁ hc h₁
  have hclimb : ∀ x ∈ m.targets t, ∀ S S', m.chart.climbInto m.history x d S = some S' →
      m.chart.Extends (m.chart.isDescendant · d) S S' := fun x hx S S' hS =>
    addAncestors_below hadd (hbelow x hx) hS
  have hext₂ := extends_foldlM hclimb h₂
  refine ⟨extends_trans (extends_mono (fun x hx => Or.inl hx) hext)
    (extends_mono (fun x hx => Or.inr hx) hext₂), fun x hx => hext₂.mono x (hgoals x hx),
    fun p hh hp a ha => hext₂.mono a (haround p hh hp a ha), fun x hx a hxa had => ?_⟩
  exact mem_foldlM_of_mem hclimb h₂ hx fun S S' hS =>
    (addAncestors_bounds hadd (hbelow x hx) hS).2 a hxa had

/-- What the transitions of a step enter at most and at least. -/
theorem entering_bounds (hb : m.chart.BoundedHistory m.history)
    (htaken : ∀ t ∈ taken, Declared m.chart t) {l : List D.State}
    (h : m.entering taken = some l) :
    (∀ x ∈ l, ¬ m.chart.isHistory x ∧ ∃ t ∈ taken, ∃ d g, m.domain? t = some d ∧
        t.transition.target = some g ∧ (m.chart.Scope g x ∨ m.chart.isDescendant x d)) ∧
      ∀ t ∈ taken, ∀ d g, m.domain? t = some d → t.transition.target = some g →
        (∀ x, m.chart.StandsFor m.history g x → x ∈ l) ∧
        (∀ p, m.chart.isHistory g → m.chart.parent? g = some p →
          ∀ a, m.chart.Around (m.chart.StandsFor m.history g) p a → a ∈ l) ∧
        ∀ x ∈ m.targets t, ∀ a, m.chart.isDescendant x a → m.chart.isDescendant a d → a ∈ l := by
  unfold entering at h
  obtain ⟨set, hset, rfl⟩ := Option.map_eq_some_iff.mp h
  have hmem : ∀ x, x ∈ m.chart.inEntryOrder set.elems ↔ x ∈ set :=
    fun x => Outline.mem_inEntryOrder ..
  have hext : ∀ t ∈ taken, ∀ S S', m.addEntries S t = some S' →
      m.chart.Extends (fun x => ∃ t ∈ taken, ∃ d g, m.domain? t = some d ∧
        t.transition.target = some g ∧ (m.chart.Scope g x ∨ m.chart.isDescendant x d)) S S' := by
    intro t ht S S' hS
    cases hd : m.domain? t with
    | none =>
      rw [addEntries_of_none hd, Option.some.injEq] at hS
      exact hS ▸ extends_refl
    | some d =>
      obtain ⟨g, hg⟩ := exists_target hd
      exact extends_mono (fun x hx => ⟨t, ht, d, g, hd, hg, hx⟩)
        (addEntries_bounds hb (htaken t ht) hd hg hS).1
  -- the set only grows, so what the turn of `t` puts in stays
  have hput : ∀ t ∈ taken, ∀ x, (∀ S S', m.addEntries S t = some S' → x ∈ S') →
      x ∈ m.chart.inEntryOrder set.elems := fun t ht x hx =>
    (hmem x).mpr (mem_foldlM_of_mem hext hset ht hx)
  constructor
  · intro x hx
    rcases (extends_foldlM hext hset).new x ((hmem x).mp hx) with hx | ⟨hscope, hh⟩
    · exact absurd hx (StateSet.not_mem_empty x)
    · exact ⟨hh, hscope⟩
  · intro t ht d g hd hg
    have hbounds := fun {S S'} (hS : m.addEntries S t = some S') =>
      addEntries_bounds hb (htaken t ht) hd hg hS
    exact ⟨fun x hx => hput t ht x fun S S' hS => (hbounds hS).2.1 x hx,
      fun p hh hp a ha => hput t ht a fun S S' hS => (hbounds hS).2.2.1 p hh hp a ha,
      fun x hx a hxa had => hput t ht a fun S S' hS => (hbounds hS).2.2.2 x hx a hxa had⟩

/-- The target of a transition that is entered stands for something. -/
theorem exists_goal (hsound : m.chart.SoundHistory m.history)
    (htaken : ∀ t ∈ taken, Declared m.chart t) {l : List D.State} (h : m.entering taken = some l)
    (ht : t ∈ taken) (hd : m.domain? t = some d) (hg : t.transition.target = some g) :
    ∃ x, m.chart.StandsFor m.history g x := by
  unfold entering at h
  obtain ⟨set', hset', -⟩ := Option.map_eq_some_iff.mp h
  obtain ⟨S, S', hS⟩ : ∃ S S', m.addEntries S t = some S' := exists_of_foldlM_eq_some hset' ht
  unfold addEntries at hS
  simp only [hd, hg, Option.bind_eq_bind, Option.bind_eq_some_iff] at hS
  obtain ⟨set₁, h₁, -⟩ := hS
  exact exists_standsFor hsound _ (target_of_declared (htaken t ht) hg).1 h₁

end Statechart.Machine
