import Statechart.Proofs.Step
import Statechart.Proofs.Trace

/-!
# History targeted from inside

A transition from below a state to a history state of that state may stay below the
state: its domain is chosen by what the history state stands for at that moment. Entering
the history state, however, goes up to its parent. So leaving and entering do not agree
unless the domain lies elsewhere, and that is the exact condition:
`agrees_iff_straight` says of every run on a chart with a compound root that leaving and
entering agree in all its steps if and only if all its steps are straight.

There are two ways in which a step that is not straight goes wrong. If the parent of the
history state is not left, the domain is entered although it is still active
(`exited_of_inactive`). If the parent is left, then by the transition itself, whose domain
was higher up before the history was recorded; it is not entered again, and what is
entered below it lacks a parent (`straight_of_agrees`).
-/

namespace Statechart

open Chart Machine

variable {D : Domain} {c : Chart D} {steps : List (Settled D)} {step : Settled D} {m : Machine D}
  {t u : Selected D} {x d e g p : D.State}

namespace Settled

/-- Whether leaving and entering agree: nothing is entered that is still active, and the
configuration is well formed in the end. -/
def Agrees (c : Chart D) (step : Settled D) : Prop :=
  (∀ x ∈ step.entered, x ∉ step.between.configuration) ∧ c.WellFormed step.after.configuration

theorem agrees_of_straight (hroot : ¬ c.isParallel c.root) (hon : step.On c)
    (hord : Orderly c steps step.before.configuration step.before.history)
    (hstraight : step.Straight) : step.Agrees c :=
  ⟨(entersInactive_iff hon).mp (entersInactive_of_straight hon hord hstraight),
    wellFormed_after hroot hon hord hstraight⟩

variable (hon : step.On c) (hord : Orderly c steps step.before.configuration step.before.history)
  (hr : step.Reaction)

include hon hord hr

/-! ## Around a domain that lies too low -/

/-- The source of a transition taken, and every state it lies within, is active. -/
theorem active_of_source (ht : t ∈ step.taken) (hs : c.isWithin t.source x) :
    x ∈ step.before.configuration := by
  obtain ⟨-, y, hy, hys⟩ := declared_of_taken hr ht
  rw [hon.chart] at hys
  exact active_of_isWithin (wellFormed_before hord hr) hy (isWithin_trans hys hs)

theorem source_within_between (ht : t ∈ step.taken) (hd : step.between.domain? t = some d) :
    c.isWithin t.source d ∧ ∀ x ∈ step.between.targets t, c.isDescendant x d := by
  have hchart : step.between.chart = c := hr.chart.trans hon.chart
  have hb := boundedHistory_of_sound (soundHistory_between hon hord)
  obtain ⟨hdecl, -⟩ := declared_of_taken hr ht
  obtain ⟨hsource, -, hbelow⟩ := domain_spec (by rw [hchart]; exact hb)
    (by rw [hr.chart]; exact hdecl) hd
  rw [hchart] at hsource hbelow
  exact ⟨hsource, hbelow⟩

/-- What the step enters at most and at least, straight or not. -/
theorem bounds_of_taken :
    (∀ x ∈ step.entered, ∃ t ∈ step.taken, ∃ d g, step.between.domain? t = some d ∧
        t.transition.target = some g ∧ (c.Scope g x ∨ c.isDescendant x d)) ∧
      ∀ t ∈ step.taken, ∀ d g, step.between.domain? t = some d → t.transition.target = some g →
        ∀ p, c.isHistory g → c.parent? g = some p → c.isDescendant d p → d ∈ step.entered := by
  have hchart : step.between.chart = c := hr.chart.trans hon.chart
  have hsound := soundHistory_between hon hord
  have hdecl : ∀ t ∈ step.taken, Declared step.between.chart t := fun t ht => by
    rw [hr.chart]
    exact (declared_of_taken hr ht).1
  obtain ⟨hmost, hleast⟩ := entering_bounds
    (by rw [hchart]; exact boundedHistory_of_sound hsound) hdecl hr.entered
  rw [hchart] at hmost hleast
  refine ⟨fun x hx => (hmost x hx).2, ?_⟩
  intro t ht d g hd hg p hh hp hdp
  obtain ⟨-, hbelow⟩ := source_within_between hon hord hr ht hd
  obtain ⟨x, hx⟩ := exists_goal (by rw [hchart]; exact hsound) hdecl hr.entered ht hd hg
  rw [hchart] at hx
  obtain ⟨n, hn⟩ := contains_iff.mp (contains_of_parent hp)
  have hkh := (isHistory_of_node hn).mp hh
  obtain ⟨s, hs, hsx⟩ := (standsFor_history_iff hn hkh).mp hx
  have hs' : s ∈ step.between.targets t := by
    rw [targets_of_isHistory hg (by rw [hchart]; exact hn) hkh, hchart]
    exact hs
  -- `d` lies between the parent of the history state and a state that this stands for
  have hxd : c.isDescendant x d := by
    have := standsFor_below (m := step.between) (a := d) (by rw [hchart]; exact boundedHistory_of_sound hsound)
      (by rw [hchart]; exact hbelow s hs') (by rw [hchart]; exact hsx)
    rwa [hchart] at this
  exact (hleast t ht d g hd hg).2.1 p hh hp d ⟨hdp, x, hx, hxd⟩

/-- If nothing is entered that is still active, then a state whose history state is targeted from a
domain below it is left. -/
theorem exited_of_inactive (hinactive : ∀ x ∈ step.entered, x ∉ step.between.configuration)
    (ht : t ∈ step.taken) (hd : step.between.domain? t = some d)
    (hg : t.transition.target = some g) (hh : c.isHistory g) (hp : c.parent? g = some p)
    (hdp : c.isDescendant d p) : p ∈ step.exited := by
  by_contra hexit
  -- nothing is recorded for the history state, so the domain is what it was before
  have hd₀ : step.before.domain? t = some d := by
    rw [← hd]
    refine (domain?_congr hr.chart (targets_between hon hr hg fun _ q hq => ?_)).symm
    rw [hp, Option.some.injEq] at hq
    exact hq ▸ hexit
  have hentered := (bounds_of_taken hon hord hr).2 t ht d g hd hg p hh hp hdp
  obtain ⟨hsource, -⟩ := source_within_between hon hord hr ht hd
  -- the domain is active around the source, and nobody leaves it
  refine hinactive d hentered ((hr.left d).mpr ⟨active_of_source hon hord hr ht hsource, ?_⟩)
  intro hdexit
  obtain ⟨-, u, hu, e, he, hde⟩ := (mem_exited hon hr).mp hdexit
  obtain rfl := eq_of_isWithin hon hord hr ht hu hd₀ he (isWithin_of_isDescendant hde)
  obtain rfl := Option.some.inj (hd₀.symm.trans he)
  exact isDescendant_irrefl hde

/-- If such a state is left, it is left by the transition itself. -/
theorem below_domain_of_exited (ht : t ∈ step.taken) (hd : step.between.domain? t = some d)
    (hg : t.transition.target = some g) (hh : c.isHistory g) (hdp : c.isDescendant d p)
    (hexit : p ∈ step.exited) : ∃ e, step.before.domain? t = some e ∧ c.isDescendant p e := by
  obtain ⟨-, u, hu, e, he, hpe⟩ := (mem_exited hon hr).mp hexit
  obtain ⟨d₀, hd₀⟩ := exists_domain hon hord hr ht hg hh
  obtain ⟨hdecl, -⟩ := declared_of_taken hr ht
  have hb := boundedHistory_of_sound (soundHistory_of_orderly hord)
  have hsource₀ : c.isWithin t.source d₀ := by
    obtain rfl := hon.chart
    exact (domain_spec hb hdecl hd₀).1
  have hsource : c.isWithin t.source e :=
    isWithin_trans (source_within_between hon hord hr ht hd).1
      (isWithin_of_isDescendant (isDescendant_trans hdp hpe))
  rcases isWithin_or_of_common hsource₀ hsource with h | h
  · exact ⟨e, eq_of_isWithin hon hord hr ht hu hd₀ he h ▸ he, hpe⟩
  · exact ⟨e, eq_of_isWithin hon hord hr hu ht he hd₀ (isWithin_of_isDescendant h) ▸ he, hpe⟩

/-- If nothing is entered that is still active, every transition enters states below the domain it
had before the history was recorded. -/
theorem entered_below (hinactive : ∀ x ∈ step.entered, x ∉ step.between.configuration)
    (ht : t ∈ step.taken) (hd : step.between.domain? t = some d)
    (hg : t.transition.target = some g) (hx : c.Scope g x ∨ c.isDescendant x d) :
    ∃ e, step.before.domain? t = some e ∧ c.isDescendant x e := by
  have hchart : step.between.chart = c := hr.chart.trans hon.chart
  by_cases hstraight : step.StraightAt t
  · obtain ⟨hdom, hcovers⟩ := domain_between hon hord hr ht hstraight
    refine ⟨d, hdom ▸ hd, ?_⟩
    rcases hx with (⟨hh, hxg⟩ | ⟨hh, p, hp, hxp⟩) | hx
    · have hgd : c.isDescendant g d := by
        refine (source_within_between hon hord hr ht hd).2 g ?_
        have hc := (target_of_declared (declared_of_taken hr ht).1 hg).1
        rw [targets_of_not_isHistory hg (by rw [hr.chart]; exact hc) (by rw [hchart]; exact hh)]
        exact List.mem_singleton.mpr rfl
      exact isDescendant_of_isWithin hxg hgd
    · have hpd := hcovers d g p hd hg (by rw [hchart]; exact hh) (by rw [hchart]; exact hp)
      rw [hchart] at hpd
      exact isDescendant_of_isDescendant_of_isWithin hxp hpd
    · exact hx
  · unfold StraightAt at hstraight
    rw [hon.chart] at hstraight
    push Not at hstraight
    obtain ⟨d', g', p, hd', hg', hh, hp, hdp⟩ := hstraight
    rw [hd, Option.some.injEq] at hd'
    rw [hg, Option.some.injEq] at hg'
    subst hd' hg'
    -- the parent was left, so the domain was around it before
    have hexit := exited_of_inactive hon hord hr hinactive ht hd hg hh hp hdp
    obtain ⟨e, he, hpe⟩ := below_domain_of_exited hon hord hr ht hd hg hh hdp hexit
    refine ⟨e, he, ?_⟩
    rcases hx with (⟨hh', -⟩ | ⟨-, q, hq, hxq⟩) | hx
    · exact absurd hh hh'
    · rw [hp, Option.some.injEq] at hq
      exact isDescendant_trans (hq ▸ hxq) hpe
    · exact isDescendant_trans (isDescendant_trans hx hdp) hpe

/-- Steps in which leaving and entering agree are straight. -/
theorem straight_of_agrees (hagrees : step.Agrees c) : step.Straight := by
  obtain ⟨hinactive, hwf⟩ := hagrees
  intro t ht d g p hd hg hh hp hdp
  rw [hon.chart] at hh hp hdp
  have hexit := exited_of_inactive hon hord hr hinactive ht hd hg hh hp hdp
  obtain ⟨e, he, hpe⟩ := below_domain_of_exited hon hord hr ht hd hg hh hdp hexit
  have hentered := (bounds_of_taken hon hord hr).2 t ht d g hd hg p hh hp hdp
  -- the domain is entered, so its parent state must be active, and can only be so by being entered
  have hpa : p ∈ step.after.configuration := active_of_isWithin hwf
    ((hon.enters.configuration d).mpr (Or.inr hentered)) (isWithin_of_isDescendant hdp)
  have hpentered : p ∈ step.entered := by
    refine ((hon.enters.configuration p).mp hpa).resolve_left fun hp => ?_
    exact ((hr.left p).mp hp).2 hexit
  obtain ⟨u, hu, d', g', hd', hg', hscope⟩ := (bounds_of_taken hon hord hr).1 p hpentered
  obtain ⟨e', he', hpe'⟩ := entered_below hon hord hr hinactive hu hd' hg' hscope
  -- the domains of the transition that left the parent and of the one that entered it meet
  have htu : t = u := by
    rcases isWithin_or_of_common (isWithin_of_isDescendant hpe) (isWithin_of_isDescendant hpe')
      with h | h
    · exact eq_of_isWithin hon hord hr ht hu he he' h
    · exact (eq_of_isWithin hon hord hr hu ht he' he (isWithin_of_isDescendant h)).symm
  subst htu
  rw [hd, Option.some.injEq] at hd'
  rw [hg, Option.some.injEq] at hg'
  subst hd' hg'
  -- it is the same transition, but that one enters only below the parent and below the domain
  rcases hscope with (⟨hh', -⟩ | ⟨-, q, hq, hpq⟩) | hpd
  · exact hh' hh
  · rw [hp, Option.some.injEq] at hq
    exact isDescendant_irrefl (hq ▸ hpq)
  · exact isDescendant_asymm hdp hpd

end Settled

/-! ## Along a run -/

/-- On a chart with a compound root, leaving and entering agree in all steps of a run if and only if
all its steps are straight. -/
theorem agrees_iff_straight (hroot : c.isCompound c.root) (hrun : Run c steps m) :
    (∀ step ∈ steps, step.Live → step.Agrees c) ↔ ∀ step ∈ steps, step.Live → step.Straight := by
  have hroot := not_isParallel_of_isCompound hroot
  have hstraight : ∀ (steps : List (Settled D)) (step : Settled D), step.On c →
      Orderly c steps step.before.configuration step.before.history →
      (step.Live → step.Agrees c) → step.Straight := by
    intro steps step hon hord hagrees
    rcases hon.cases with hi | hr
    · exact Settled.straight_of_initial hi
    · exact Settled.straight_of_agrees hon hord hr (hagrees hon.live)
  constructor
  · intro hall step hstep hlive
    obtain ⟨later, earlier, he⟩ := List.append_of_mem hstep
    obtain ⟨hon, hord⟩ := orderly_of_run (Q := fun s => s.Live → s.Agrees c) hroot hstraight hrun
      later step earlier he hlive fun s hs => hall s
        (he ▸ List.mem_append_right _ (List.mem_cons_of_mem _ hs))
    exact hstraight earlier step hon hord (hall step hstep)
  · intro hall step hstep hlive
    obtain ⟨later, earlier, he⟩ := List.append_of_mem hstep
    obtain ⟨hon, hord⟩ := orderly_of_run (Q := fun s => s.Live → s.Straight) hroot
      (fun _ _ hon _ hs => hs hon.live) hrun later step earlier he hlive fun s hs => hall s
        (he ▸ List.mem_append_right _ (List.mem_cons_of_mem _ hs))
    exact Settled.agrees_of_straight hroot hon hord (hall step hstep hlive)

/-! ## A desk -/

inductive DeskState | desk | work | views | editor | draft | edited | preview | stale | fresh | last
deriving DecidableEq

/-- A desk with an editor and a preview side by side. What was edited can be undone, and both views
can be reset, by way of a history state of the work that falls back to the draft. -/
def deskTree : StateTree (.bare DeskState) :=
  .bare .desk (.compound .work) []
    [.bare .work (.compound .views) []
      [.bare .views .parallel [.bare "reset" .last]
        [.bare .editor (.compound .draft) [.bare "change" .edited]
          [.bare .draft .atomic, .bare .edited .atomic [.bare "undo" .last]],
        .bare .preview (.compound .stale) []
          [.bare .stale .atomic [.bare "change" .fresh], .bare .fresh .atomic]],
      .node { id := .last, kind := .history .deep, fallback := some .draft } []]]

def desk : Chart (.bare DeskState) :=
  { deskTree.outline with tree := deskTree, outline_eq := rfl, flawless := by cbv }

/-- Resetting from the views has the work for its domain: it leaves both views and enters both. -/
theorem desk_resets : ∃ steps m, Run desk steps m ∧
    (∃ step ∈ steps, ∃ t ∈ step.taken, desk.isDescendant t.source .work ∧
      t.transition.target = some .last) ∧ ∀ step ∈ steps, step.Live → step.Agrees desk := by
  have hrun := desk.run_trace [.start, .send "reset"]
  have htrace : (desk.machine.trace [.start, .send "reset"]).1.map (fun step =>
      step.taken.map fun t => (t.source, t.transition.target, step.between.domain? t)) =
        [[(.views, some .last, some .work)], []] := by cbv
  refine ⟨_, _, hrun, ?_, (agrees_iff_straight (by decide) hrun).mpr ?_⟩
  · obtain ⟨step, hstep, he⟩ := List.mem_map.mp (htrace ▸ List.mem_cons_self ..)
    obtain ⟨t, ht, he⟩ := List.mem_map.mp (he ▸ List.mem_cons_self ..)
    rw [Prod.mk.injEq, Prod.mk.injEq] at he
    exact ⟨step, hstep, t, ht, he.1 ▸ by decide, he.2.1⟩
  · intro step hstep hlive t ht d g p hd hg _ hp hdp
    obtain ⟨later, earlier, he⟩ := List.append_of_mem hstep
    have hchart := (run_step (P := fun _ _ _ => True) (fun _ _ _ _ => trivial)
      (fun _ _ _ _ => trivial) hrun later step earlier he hlive).1.chart
    have hmem := List.mem_map_of_mem (f := fun t => (t.source, t.transition.target,
      step.between.domain? t)) ht
    rcases List.mem_cons.mp (htrace ▸ List.mem_map_of_mem hstep) with he | he
    · rw [he, List.mem_singleton, hd, hg] at hmem
      simp only [Prod.mk.injEq, Option.some.injEq] at hmem
      obtain ⟨-, rfl, rfl⟩ := hmem
      rw [hchart] at hp hdp
      have hparent : desk.parent? .last = some .work := by decide
      rw [hparent, Option.some.injEq] at hp
      exact isDescendant_irrefl (hp ▸ hdp)
    · rw [List.mem_singleton.mp he] at hmem
      exact absurd hmem List.not_mem_nil

/-- Undoing the edit has the editor for its domain and leaves nothing else, but enters the history
state up to the work: both views are entered while they are active, and the preview shows two
things at once. -/
theorem desk_undoes : desk.isCompound desk.root ∧ ∃ steps m, Run desk steps m ∧
    ∃ step ∈ steps, step.Live ∧ desk.WellFormed step.before.configuration ∧
      (∃ t ∈ step.taken, desk.isDescendant t.source .work ∧ t.transition.target = some .last) ∧
        ¬ step.Agrees desk := by
  have htrace : (desk.machine.trace [.start, .send "change", .send "undo"]).1.head?.map (fun step =>
      (step.after.status, step.before.configuration.elems,
        step.taken.map fun t => (t.source, t.transition.target), step.after.configuration.elems)) =
      some (.running, [.desk, .work, .views, .editor, .preview, .edited, .fresh],
        [(.edited, some .last)],
        [.desk, .work, .views, .editor, .preview, .fresh, .draft, .stale]) := by cbv
  refine ⟨by decide, _, _, desk.run_trace [.start, .send "change", .send "undo"], ?_⟩
  obtain ⟨step, hstep, he⟩ := Option.map_eq_some_iff.mp htrace
  rw [Prod.mk.injEq, Prod.mk.injEq, Prod.mk.injEq] at he
  obtain ⟨hstatus, hbefore, htaken, hafter⟩ := he
  obtain ⟨t, ht, he⟩ := List.mem_map.mp (htaken ▸ List.mem_cons_self ..)
  rw [Prod.mk.injEq] at he
  refine ⟨step, List.mem_of_head? hstep, Or.inl hstatus, ?_,
    ⟨t, ht, he.1 ▸ by decide, he.2⟩, fun hagrees => ?_⟩
  · rw [wellFormed_iff, hbefore]
    decide
  · have hwf := hagrees.2
    rw [wellFormed_iff, hafter] at hwf
    exact absurd hwf (by decide)

end Statechart
