import Statechart.Proofs.Machine.Entering
import Statechart.Proofs.Records

/-!
# Steps from well-formed configurations

A machine is in order (`Orderly`) if its configuration is well formed, or empty before
the start, and if the states left in the past were left in well-formed configurations,
so that the history is sound.

A step keeps a machine in order if it is straight: no transition to a history state
stays below the parent of the history state (`Straight`). Then recording the history
does not change where the transitions stay, although it may change their targets
(`domain_between`), and what is left below each domain is exchanged for what the
transition brings (`exchange_reaction`), so that the configuration stays well formed
(`wellFormed_after`). Nothing is entered that was not left (`inactive_of_entered`).
-/

namespace Statechart

open Chart

variable {D : Domain} {c : Chart D} {steps : List (Settled D)} {step : Settled D}
  {t u : Selected D} {x d e g p : D.State}

/-- A machine whose configurations were well formed whenever a state was left. -/
structure Orderly (c : Chart D) (steps : List (Settled D)) (configuration : StateSet D.State)
    (history : History D.State) : Prop where
  configuration : configuration.elems = [] ∨ c.WellFormed configuration
  recorded : Recorded c steps history
  past : ∀ e ∈ steps, e.before.chart = c ∧
    ∀ x ∈ e.exited, x ∈ e.before.configuration ∧ c.WellFormed e.before.configuration

theorem orderly_nil {configuration : StateSet D.State} {history : History D.State}
    (hc : configuration.elems = []) (hh : history.records = []) :
    Orderly c [] configuration history :=
  ⟨Or.inl hc, recorded_nil hh, fun _ he => absurd he List.not_mem_nil⟩

theorem soundHistory_of_orderly {configuration : StateSet D.State} {history : History D.State}
    (hord : Orderly c steps configuration history) : c.SoundHistory history :=
  soundHistory_of_recorded hord.recorded hord.past

namespace Settled

/-- Whether a transition does not stay below the parent of a history state it targets. -/
def StraightAt (step : Settled D) (t : Selected D) : Prop :=
  ∀ d g p, step.between.domain? t = some d → t.transition.target = some g →
    step.before.chart.isHistory g → step.before.chart.parent? g = some p →
      ¬ step.before.chart.isDescendant d p

/-- Whether no transition taken stays below the parent of a history state it targets. -/
def Straight (step : Settled D) : Prop := ∀ t ∈ step.taken, step.StraightAt t

/-! ## Before anything is left -/

variable (hon : step.On c) (hord : Orderly c steps step.before.configuration step.before.history)
  (hr : step.Reaction)

include hr in
theorem declared_of_taken (ht : t ∈ step.taken) : Machine.Declared step.before.chart t ∧
    ∃ x ∈ step.before.configuration, step.before.chart.isWithin x t.source := by
  obtain ⟨l, hsel, -, htaken⟩ := hr.selected
  rw [← htaken] at ht
  exact Machine.mem_select hsel (Machine.mem_withoutConflicts ht)

include hr in
/-- Transitions are only taken where something is active. -/
theorem nonempty_before : step.before.configuration.elems ≠ [] := by
  obtain ⟨l, hsel, hne, -⟩ := hr.selected
  obtain ⟨t, ht⟩ := List.exists_mem_of_ne_nil l hne
  obtain ⟨-, x, hx, -⟩ := Machine.mem_select hsel ht
  exact List.ne_nil_of_mem hx

include hord hr in
theorem wellFormed_before : c.WellFormed step.before.configuration :=
  hord.configuration.resolve_left (nonempty_before hr)

include hon hord in
/-- What the step leaves, it leaves in a well-formed configuration. -/
theorem past_of_orderly : ∀ e ∈ step :: steps, e.before.chart = c ∧
    ∀ x ∈ e.exited, x ∈ e.before.configuration ∧ c.WellFormed e.before.configuration := by
  intro e he
  rcases List.mem_cons.mp he with rfl | he
  · refine ⟨hon.chart, fun x hx => ⟨active_of_exited hon hx, ?_⟩⟩
    rcases hon.cases with hi | hr
    · rw [hi.exited] at hx
      exact absurd hx List.not_mem_nil
    · exact wellFormed_before hord hr
  · exact hord.past e he

include hon hord in
theorem soundHistory_between : c.SoundHistory step.between.history := by
  rw [← hon.enters.history]
  exact soundHistory_of_recorded (recorded_step hon hord.recorded) (past_of_orderly hon hord)

include hon hord hr in
theorem apart_before : step.taken.Pairwise step.before.Apart := by
  obtain ⟨l, -, -, htaken⟩ := hr.selected
  have hwf := wellFormed_before hord hr
  have hb := boundedHistory_of_sound (soundHistory_of_orderly hord)
  obtain rfl := hon.chart
  refine Machine.domains_apart hwf hb ?_ fun t ht => declared_of_taken hr ht
  rw [← htaken]
  exact Machine.pairwise_withoutConflicts l

include hon hord hr in
/-- Of two transitions taken, either they are one or their domains lie apart. -/
theorem eq_of_isWithin (ht : t ∈ step.taken) (hu : u ∈ step.taken)
    (hd : step.before.domain? t = some d) (he : step.before.domain? u = some e)
    (hde : c.isWithin d e) : t = u := by
  obtain rfl := hon.chart
  by_contra hne
  have : Std.Symm step.before.Apart := ⟨fun a b hab d e hd he => (hab e d he hd).symm⟩
  exact ((apart_before hon hord hr).forall ht hu hne d e hd he).1 hde

/-! ## Recording -/

theorem targets_ne_nil {m : Machine D} (hsound : m.chart.SoundHistory m.history)
    (ht : t.transition.target = some g) (hh : m.chart.isHistory g) : m.targets t ≠ [] := by
  obtain ⟨n, p, hn, hk, hp⟩ := node_of_isHistory hh
  rw [Machine.targets_of_isHistory ht hn hk]
  rcases restored_cases hsound hn hk hp with ⟨hcompat, -, -⟩ | ⟨u, hl, -, -⟩
  · obtain ⟨x, hx⟩ := hcompat.nonempty
    exact List.ne_nil_of_mem hx
  · rw [hl]
    exact List.cons_ne_nil u []

include hon hord hr in
/-- A transition to a history state leads somewhere. -/
theorem exists_domain (ht : t ∈ step.taken) (hg : t.transition.target = some g)
    (hh : c.isHistory g) : ∃ d, step.before.domain? t = some d := by
  obtain ⟨⟨n, hn, htr⟩, -⟩ := declared_of_taken hr ht
  have hsound := soundHistory_of_orderly hord
  obtain rfl := hon.chart
  have hne := targets_ne_nil hsound hg hh
  have hact : t.transition.isActionOnly t.source = false := by
    unfold Transition.isActionOnly
    rw [hg]
    have hsource : g ≠ t.source := by
      intro h
      obtain rfl := h
      rw [transitions_of_isHistory hn hh] at htr
      exact absurd htr List.not_mem_nil
    simp [hsource]
  rw [Machine.domain?_eq, if_neg (by simp [hact, hne])]
  exact ⟨_, rfl⟩

include hon hr in
/-- A history state stands for the same targets unless its parent is left. -/
theorem targets_between (hg : t.transition.target = some g)
    (hp : c.isHistory g → ∀ p, c.parent? g = some p → p ∉ step.exited) :
    step.between.targets t = step.before.targets t := by
  obtain rfl := hon.chart
  cases hn : step.before.chart.node? g with
  | none => simp only [Machine.targets, hg, hr.chart, hn]
  | some n =>
    simp only [Machine.targets, hg, hr.chart, hn]
    split
    · next hk =>
      have hh : step.before.chart.isHistory g := (isHistory_of_node hn).mpr hk
      obtain ⟨p, hpar⟩ := parent_of_isHistory hh
      obtain ⟨mode, hmode⟩ := isHistory_iff.mp hh
      obtain ⟨-, rfl⟩ := step.before.chart.node?_eq_some.mp hn
      rw [Outline.restored, Outline.restored, hr.history,
        Machine.get?_recordHistories hmode hpar, if_neg (hp hh p hpar)]
    · rfl

include hon hord hr in
/-- A transition to a history state whose domain lies below the parent of the history state before
the history is recorded keeps its domain: the parent is not left. -/
theorem domain_of_below (ht : t ∈ step.taken) (hd : step.before.domain? t = some d)
    (hg : t.transition.target = some g) (hp : c.parent? g = some p) (hdp : c.isDescendant d p) :
    p ∉ step.exited ∧ step.between.domain? t = some d := by
  have hexit : p ∉ step.exited := by
    rw [← hr.exited, Machine.mem_leaving]
    intro h
    obtain ⟨-, u, hu, e, he, hpe⟩ := h
    rw [hon.chart] at hpe
    -- what leaves the parent has its domain around that of `t`, so it is `t` itself
    have hde := isDescendant_trans hdp hpe
    obtain rfl := eq_of_isWithin hon hord hr ht hu hd he (isWithin_of_isDescendant hde)
    obtain rfl := Option.some.inj (hd.symm.trans he)
    exact isDescendant_irrefl hde
  refine ⟨hexit, ?_⟩
  rw [Machine.domain?_congr hr.chart, hd]
  refine targets_between hon hr hg fun _ q hq => ?_
  rw [hp, Option.some.injEq] at hq
  exact hq ▸ hexit

include hon hord hr in
/-- Before and after the history is recorded, the domain of a straight transition to a history state
is the nearest state that the parent of the history state lies within. -/
private theorem domain_between_history (ht : t ∈ step.taken) (hstraight : step.StraightAt t)
    (hg : t.transition.target = some g) (hh : c.isHistory g) (hp : c.parent? g = some p) :
    step.between.domain? t = step.before.domain? t ∧
      ∀ d, step.between.domain? t = some d → c.isWithin p d := by
  have hsound := soundHistory_of_orderly hord
  have hsound' := soundHistory_between hon hord
  have hchart := hr.chart
  obtain rfl := hon.chart
  have hne := targets_ne_nil hsound hg hh
  have hne' : step.between.targets t ≠ [] := by
    refine targets_ne_nil ?_ hg ?_
    · rw [hchart]; exact hsound'
    · rw [hchart]; exact hh
  have hover : ∀ d, step.between.domain? t = some d →
      d = step.before.chart.nearest t (step.before.chart.isWithin p ·) := by
    intro d hd
    rw [← hchart] at hsound' hh hp ⊢
    refine Machine.domain_eq_of_not_below (boundedHistory_of_sound hsound') hg hh hp hd ?_
    rw [hchart] at hh hp ⊢
    exact hstraight d g p hd hg hh hp
  -- a domain that lay below the parent before recording would be kept by it
  have hover' : ∀ d, step.before.domain? t = some d →
      d = step.before.chart.nearest t (step.before.chart.isWithin p ·) := by
    intro d hd
    refine Machine.domain_eq_of_not_below (boundedHistory_of_sound hsound) hg hh hp hd ?_
    intro hdp
    obtain ⟨-, hd'⟩ := domain_of_below hon hord hr ht hd hg hp hdp
    exact hstraight d g p hd' hg hh hp hdp
  refine ⟨?_, fun d hd => hover d hd ▸ isWithin_nearest_isWithin (contains_parent hp)⟩
  by_cases hact : t.transition.isActionOnly t.source
  · -- such a transition has no domain at all
    rw [Machine.domain?_eq, Machine.domain?_eq, if_pos (by simp [hact]), if_pos (by simp [hact])]
  · have hd := Machine.domain?_eq step.before t
    have hd' := Machine.domain?_eq step.between t
    rw [if_neg (by simp [hact, hne])] at hd
    rw [if_neg (by simp [hact, hne'])] at hd'
    rw [hd, hd', hover _ hd', hover' _ hd]

include hon hord hr in
/-- Recording does not change the domain of a straight transition, and the domain covers the
target. -/
theorem domain_between (ht : t ∈ step.taken) (hstraight : step.StraightAt t) :
    step.between.domain? t = step.before.domain? t ∧ step.between.Covers t := by
  have hchart : step.between.chart = c := hr.chart.trans hon.chart
  cases hg : t.transition.target with
  | none =>
    refine ⟨Machine.domain?_congr hr.chart (by simp only [Machine.targets, hg]), ?_⟩
    intro d g p _ hg'
    rw [hg] at hg'
    exact absurd hg' (by simp)
  | some g =>
    by_cases hh : c.isHistory g
    · obtain ⟨p, hp⟩ := parent_of_isHistory hh
      obtain ⟨hdom, hover⟩ := domain_between_history hon hord hr ht hstraight hg hh hp
      refine ⟨hdom, ?_⟩
      intro d g' q hd hg' _ hq
      rw [hg, Option.some.injEq] at hg'
      rw [hchart, ← hg', hp, Option.some.injEq] at hq
      rw [hchart, ← hq]
      exact hover d hd
    · refine ⟨Machine.domain?_congr hr.chart
        (targets_between hon hr hg fun h => absurd h hh), ?_⟩
      intro d g' p _ hg' hh'
      rw [hg, Option.some.injEq] at hg'
      rw [hchart, ← hg'] at hh'
      exact absurd hh' hh

/-! ## What a straight step exchanges -/

variable (hstraight : step.Straight)

include hon hord hr hstraight in
private theorem entered_spec :
    (∀ t ∈ step.taken, ∀ d g, step.before.domain? t = some d → t.transition.target = some g →
        c.Compatible (c.StandsFor step.between.history g)) ∧
      ∀ x, x ∈ step.entered ↔ ∃ t ∈ step.taken, step.between.Brings t x := by
  have hdom := fun t (ht : t ∈ step.taken) => domain_between hon hord hr ht (hstraight t ht)
  have hsound := soundHistory_between hon hord
  have hapart : step.taken.Pairwise step.between.Apart := by
    refine (apart_before hon hord hr).imp_of_mem ?_
    intro t u ht hu htu d e hd he
    rw [(hdom t ht).1] at hd
    rw [(hdom u hu).1] at he
    rw [hr.chart]
    exact htu d e hd he
  have hchart : step.between.chart = c := hr.chart.trans hon.chart
  obtain ⟨hcompat, hmem⟩ := Machine.mem_entering
    (by rw [hchart]; exact boundedHistory_of_sound hsound) hapart
    (fun t ht => ⟨by rw [hr.chart]; exact (declared_of_taken hr ht).1, (hdom t ht).2,
      fun _ _ _ => by rw [hchart]; exact hsound⟩) hr.entered
  refine ⟨fun t ht d g hd hg => ?_, hmem⟩
  rw [← hchart]
  exact hcompat t ht d g (by rw [(hdom t ht).1]; exact hd) hg

include hon hord hr hstraight in
/-- The goals of a transition taken can be entered together. -/
theorem compatible_of_taken (ht : t ∈ step.taken) (hd : step.before.domain? t = some d)
    (hg : t.transition.target = some g) : c.Compatible (c.StandsFor step.between.history g) :=
  (entered_spec hon hord hr hstraight).1 t ht d g hd hg

include hon hord hr hstraight in
/-- The states entered are those that the transitions taken bring along. -/
theorem mem_entered : x ∈ step.entered ↔ ∃ t ∈ step.taken, step.between.Brings t x :=
  (entered_spec hon hord hr hstraight).2 x

include hon hord hr hstraight in
theorem brings_iff (ht : t ∈ step.taken) (hd : step.before.domain? t = some d)
    (hg : t.transition.target = some g) : step.between.Brings t x ↔
      c.Brought (c.StandsFor step.between.history g)
        (c.Around (c.StandsFor step.between.history g) d) x := by
  have hchart : step.between.chart = c := hr.chart.trans hon.chart
  have hd' := (domain_between hon hord hr ht (hstraight t ht)).1.trans hd
  rw [Machine.Brings, hchart]
  constructor
  · intro h
    obtain ⟨d', g', h₁, h₂, hx⟩ := h
    rw [hd', Option.some.injEq] at h₁
    rw [hg, Option.some.injEq] at h₂
    exact h₁ ▸ h₂ ▸ hx
  · exact fun hx => ⟨d, g, hd', hg, hx⟩

include hon hord hr hstraight in
/-- What a transition brings along lies below its domain. -/
theorem domain_of_brings (ht : t ∈ step.taken) (hx : step.between.Brings t x) :
    ∃ d, step.before.domain? t = some d ∧ c.isDescendant x d := by
  have hchart : step.between.chart = c := hr.chart.trans hon.chart
  obtain ⟨hdom, hcovers⟩ := domain_between hon hord hr ht (hstraight t ht)
  obtain ⟨d, g, hd, hrest⟩ := hx
  refine ⟨d, hdom ▸ hd, ?_⟩
  have hsound := soundHistory_between hon hord
  rw [← hchart]
  exact Machine.brings_below (by rw [hchart]; exact boundedHistory_of_sound hsound)
    (by rw [hr.chart]; exact (declared_of_taken hr ht).1) hcovers hd ⟨d, g, hd, hrest⟩

include hon hr in
theorem mem_exited : x ∈ step.exited ↔ x ∈ step.before.configuration ∧
    ∃ t ∈ step.taken, ∃ d, step.before.domain? t = some d ∧ c.isDescendant x d := by
  rw [← hr.exited, Machine.mem_leaving, hon.chart]

include hon hord hr hstraight in
/-- Nothing is entered that is still active. -/
theorem inactive_of_entered (hx : x ∈ step.entered) : x ∉ step.between.configuration := by
  rw [hr.left]
  intro h
  obtain ⟨hxa, hexit⟩ := h
  obtain ⟨t, ht, hbrings⟩ := (mem_entered hon hord hr hstraight).mp hx
  obtain ⟨d, hd, hxd⟩ := domain_of_brings hon hord hr hstraight ht hbrings
  exact hexit ((mem_exited hon hr).mpr ⟨hxa, t, ht, d, hd, hxd⟩)

include hon hord hr hstraight in
/-- Below the domain of a transition taken, what is active after the step is what the transition
brings along. -/
theorem mem_after_below (ht : t ∈ step.taken) (hd : step.before.domain? t = some d)
    (hxd : c.isDescendant x d) : x ∈ step.after.configuration ↔ step.between.Brings t x := by
  rw [hon.enters.configuration, hr.left, mem_entered hon hord hr hstraight]
  constructor
  · intro h
    rcases h with ⟨hxa, hexit⟩ | ⟨u, hu, hx⟩
    · exact absurd ((mem_exited hon hr).mpr ⟨hxa, t, ht, d, hd, hxd⟩) hexit
    · -- the domain of whatever brings it along lies around it too
      obtain ⟨e, he, hxe⟩ := domain_of_brings hon hord hr hstraight hu hx
      rcases isWithin_or_of_common (isWithin_of_isDescendant hxd) (isWithin_of_isDescendant hxe)
        with hde | hed
      · exact eq_of_isWithin hon hord hr ht hu hd he hde ▸ hx
      · exact eq_of_isWithin hon hord hr hu ht he hd (isWithin_of_isDescendant hed) ▸ hx
  · exact fun hx => Or.inr ⟨t, ht, hx⟩

include hon hord hr hstraight in
theorem completes_brings (hroot : ¬ c.isParallel c.root) (ht : t ∈ step.taken)
    (hd : step.before.domain? t = some d) : c.Completes d (step.between.Brings t) := by
  obtain ⟨g, hg⟩ := Machine.exists_target hd
  have hcompat := compatible_of_taken hon hord hr hstraight ht hd hg
  have he : step.between.Brings t = c.Brought (c.StandsFor step.between.history g)
      (c.Around (c.StandsFor step.between.history g) d) :=
    funext fun x => propext (brings_iff hon hord hr hstraight ht hd hg)
  have hgoal : ∀ x, c.StandsFor step.between.history g x → c.isDescendant x d := by
    intro x hx
    obtain ⟨d', hd', hxd⟩ := domain_of_brings hon hord hr hstraight ht
      ((brings_iff hon hord hr hstraight ht hd hg).mpr (Or.inl ⟨x, hx, .self x⟩))
    rw [hd, Option.some.injEq] at hd'
    exact hd' ▸ hxd
  have hb := boundedHistory_of_sound (soundHistory_of_orderly hord)
  obtain rfl := hon.chart
  have hcomp := Machine.isCompound_domain hroot hb (declared_of_taken hr ht).1 hd
  rw [he]
  exact completes_brought hcompat hgoal fun hpar => absurd hpar (not_isParallel_of_isCompound hcomp)

include hon hord hr hstraight in
/-- A straight step exchanges what is active below the domains for what the transitions bring
along. -/
theorem exchange_reaction (hroot : ¬ c.isParallel c.root) :
    c.Exchange step.before.configuration step.after.configuration
      (fun d => ∃ t ∈ step.taken, step.before.domain? t = some d)
      (fun d x => ∃ t ∈ step.taken, step.before.domain? t = some d ∧ step.between.Brings t x) where
  bounds := by
    intro d h
    obtain ⟨t, ht, hd⟩ := h
    have hwf := wellFormed_before hord hr
    have hb := boundedHistory_of_sound (soundHistory_of_orderly hord)
    obtain ⟨hdecl, x, hx, hxs⟩ := declared_of_taken hr ht
    obtain rfl := hon.chart
    exact active_of_isWithin hwf hx (isWithin_trans hxs (Machine.domain_spec hb hdecl hd).1)
  apart := by
    intro d e h hy hde
    obtain ⟨t, ht, hd⟩ := h
    obtain ⟨u, hu, he⟩ := hy
    obtain rfl := eq_of_isWithin hon hord hr ht hu hd he hde
    exact Option.some.inj (hd.symm.trans he)
  completes := by
    intro d h
    obtain ⟨t, ht, hd⟩ := h
    -- no other transition has this domain, so what is new below it is what this one brings along
    have he : (fun x => ∃ t ∈ step.taken, step.before.domain? t = some d ∧
        step.between.Brings t x) = step.between.Brings t := by
      refine funext fun x => propext ⟨?_, fun hx => ⟨t, ht, hd, hx⟩⟩
      intro h
      obtain ⟨u, hu, he, hx⟩ := h
      exact eq_of_isWithin hon hord hr ht hu hd he (isWithin_refl d) ▸ hx
    exact he.symm ▸ completes_brings hon hord hr hstraight hroot ht hd
  after := by
    intro x
    rw [hon.enters.configuration, hr.left, mem_entered hon hord hr hstraight]
    constructor
    · intro h
      rcases h with ⟨hxa, hexit⟩ | ⟨t, ht, hbrings⟩
      · refine Or.inl ⟨hxa, ?_⟩
        intro d h hxd
        obtain ⟨t, ht, hd⟩ := h
        exact hexit ((mem_exited hon hr).mpr ⟨hxa, t, ht, d, hd, hxd⟩)
      · obtain ⟨d, hd, -⟩ := domain_of_brings hon hord hr hstraight ht hbrings
        exact Or.inr ⟨d, ⟨t, ht, hd⟩, t, ht, hd, hbrings⟩
    · intro h
      rcases h with ⟨hxa, hout⟩ | ⟨d, -, t, ht, -, hbrings⟩
      · refine Or.inl ⟨hxa, fun hexit => ?_⟩
        obtain ⟨-, t, ht, d, hd, hxd⟩ := (mem_exited hon hr).mp hexit
        exact hout d ⟨t, ht, hd⟩ hxd
      · exact Or.inr ⟨t, ht, hbrings⟩

include hon hord hr hstraight in
/-- After a straight step the configuration is well formed again. -/
theorem wellFormed_reaction (hroot : ¬ c.isParallel c.root) :
    c.WellFormed step.after.configuration :=
  wellFormed_exchange (exchange_reaction hon hord hr hstraight hroot) (wellFormed_before hord hr)

/-- The step that starts the machine enters the default completion of the root. -/
theorem mem_entered_of_initial (hon : step.On c) (hi : step.Initial) :
    x ∈ step.entered ↔ c.ComesWith c.root x := by
  obtain ⟨set, hset, hentered⟩ := hi.entered
  have hplain : ¬ c.isHistory c.root := by
    intro hh
    obtain ⟨p, hp⟩ := parent_of_isHistory hh
    rw [parent_root] at hp
    exact absurd hp (by simp)
  rw [hon.chart] at hset
  rw [hentered, Outline.mem_inEntryOrder, ← StateSet.mem_def, mem_addDescendants _ contains_root
    hplain (fun y hy => absurd hy (StateSet.not_mem_empty y)) hset]
  exact or_iff_right (StateSet.not_mem_empty x)

theorem wellFormed_initial (hon : step.On c) (hi : step.Initial) :
    c.WellFormed step.after.configuration := by
  refine wellFormed_default fun x => ?_
  have hempty : x ∉ step.before.configuration := by
    rw [StateSet.mem_def, List.isEmpty_iff.mp hi.empty]
    exact List.not_mem_nil
  rw [hon.enters.configuration, hi.same, mem_entered_of_initial hon hi]
  exact or_iff_right hempty

/-- After a straight step the configuration is well formed. -/
theorem wellFormed_after (hroot : ¬ c.isParallel c.root) (hon : step.On c)
    (hord : Orderly c steps step.before.configuration step.before.history)
    (hstraight : step.Straight) : c.WellFormed step.after.configuration := by
  rcases hon.cases with hi | hr
  · exact wellFormed_initial hon hi
  · exact wellFormed_reaction hon hord hr hstraight hroot

/-- A straight step keeps a machine in order. -/
theorem orderly_step (hroot : ¬ c.isParallel c.root) (hon : step.On c)
    (hord : Orderly c steps step.before.configuration step.before.history)
    (hstraight : step.Straight) :
    Orderly c (step :: steps) step.after.configuration step.after.history :=
  ⟨Or.inr (wellFormed_after hroot hon hord hstraight), recorded_step hon hord.recorded,
    past_of_orderly hon hord⟩

/-! ## Entering one state after another -/

/-- Every state is inactive when its turn to be entered comes. -/
def EntersInactive (step : Settled D) : Prop :=
  ∀ earlier s later, step.entered = earlier ++ s :: later →
    ∃ p, step.between.enterAll step.signal earlier = .ok p ∧ s ∉ p.machine.configuration

theorem nodup_entered (hon : step.On c) : step.entered.Nodup := by
  rcases hon.cases with hi | hr
  · obtain ⟨set, -, he⟩ := hi.entered
    rw [he]
    exact (List.mergeSort_perm set.elems _).nodup_iff.mpr set.nodup
  · exact Machine.nodup_entering hr.entered

/-- No state is entered twice, so its turn finds it as it was before anything was entered. -/
theorem entersInactive_iff (hon : step.On c) :
    step.EntersInactive ↔ ∀ x ∈ step.entered, x ∉ step.between.configuration := by
  constructor
  · intro h x hx
    obtain ⟨earlier, later, he⟩ := List.append_of_mem hx
    obtain ⟨p, hp, hnot⟩ := h earlier x later he
    exact fun hxb => hnot (((Machine.enterAll_keeps hp).2 x).mpr (Or.inl hxb))
  · intro hbetween earlier s later he
    obtain ⟨p, hp⟩ := hon.enters.entering
    obtain ⟨p', hp'⟩ := Machine.exists_of_enterAll_append (he ▸ hp)
    refine ⟨p', hp', fun hs => ?_⟩
    -- what is active when its turn comes was so before, or has had its turn already
    rcases ((Machine.enterAll_keeps hp').2 s).mp hs with hs | hs
    · exact hbetween s (he ▸ List.mem_append_right _ (List.mem_cons_self ..)) hs
    · have hnodup := nodup_entered hon
      rw [he, List.nodup_append] at hnodup
      exact hnodup.2.2 s hs s (List.mem_cons_self ..) rfl

theorem entersInactive_of_straight (hon : step.On c)
    (hord : Orderly c steps step.before.configuration step.before.history)
    (hstraight : step.Straight) : step.EntersInactive := by
  refine (entersInactive_iff hon).mpr fun x hx => ?_
  rcases hon.cases with hi | hr
  · rw [hi.same, StateSet.mem_def, List.isEmpty_iff.mp hi.empty]
    exact List.not_mem_nil
  · exact inactive_of_entered hon hord hr hstraight hx

/-- A step without transitions is straight. -/
theorem straight_of_initial (hi : step.Initial) : step.Straight := by
  intro t ht
  rw [hi.taken] at ht
  exact absurd ht List.not_mem_nil

end Settled

/-! ## Along a run -/

/-- A machine is in order as long as its steps have a property that makes them straight. -/
theorem orderly_of_run {m : Machine D} {Q : Settled D → Prop} (hroot : ¬ c.isParallel c.root)
    (hQ : ∀ steps step, step.On c →
      Orderly c steps step.before.configuration step.before.history → Q step → step.Straight)
    (hrun : Machine.Run c steps m) : ∀ later step earlier, steps = later ++ step :: earlier →
      step.Live → (∀ s ∈ earlier, Q s) →
        step.On c ∧ Orderly c earlier step.before.configuration step.before.history := by
  intro later step earlier he hlive hall
  obtain ⟨hon, hord⟩ := Machine.run_step
    (P := fun steps configuration history =>
      (∀ s ∈ steps, Q s) → Orderly c steps configuration history)
    (fun _ _ hc hh _ => orderly_nil hc hh)
    (fun steps step hon hord hall =>
      have hord := hord fun s hs => hall s (List.mem_cons_of_mem _ hs)
      Settled.orderly_step hroot hon hord
        (hQ steps step hon hord (hall step (List.mem_cons_self ..))))
    hrun later step earlier he hlive
  exact ⟨hon, hord hall⟩

end Statechart
