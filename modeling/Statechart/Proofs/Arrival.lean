import Statechart.Proofs.Clean
import Statechart.Proofs.Isolation
import Statechart.Proofs.Step
import Statechart.Proofs.Trace

/-!
# Where a step arrives

What is entered is computed by three functions that call each other and share one set, and what a
region comes to depends on what was put into the set before. For transitions that do not target
history states this adds up to something that can be read off the tree (`Outline.Arrives`): the way
from the domain down to the target, the target with what comes with it, and the regions beside the
way with what comes with them. Below the domain of a transition nothing else is active after the
step, and outside of all the domains nothing has changed (`arrival_of_run`).

Nothing is asked of the history, nor of transitions that were not taken: a chart may have history
states that other transitions target from anywhere, and its root may be parallel.
-/

namespace Statechart

open Chart

variable {D : Domain}

/-- The states that a transition from the domain `d` to the target `g` arrives in: those on the way
down to the target, those that come with the target, and those that come with the regions beside the
way, of parallel states between the two. -/
def Outline.Arrives (c : Outline D) (d g x : D.State) : Prop :=
  (c.isDescendant x d ∧ c.isWithin g x) ∨ c.ComesWith g x ∨
    ∃ p r, c.isParallel p ∧ c.isDescendant p d ∧ c.isDescendant g p ∧ r ∈ c.substates p ∧
      ¬ c.isWithin g r ∧ c.ComesWith r x

variable {c : Chart D} {steps : List (Settled D)} {step : Settled D} {m m' : Machine D}
  {t u : Selected D} {x d g : D.State}

/-- A state that is not a history state brings along what a transition to it arrives in. -/
theorem Chart.brought_plain_iff {h : History D.State} (hc : c.contains g)
    (hh : ¬ c.isHistory g) :
    c.Brought (c.StandsFor h g) (c.Around (c.StandsFor h g) d) x ↔ c.Arrives d g x := by
  have hgoal : ∀ y, c.StandsFor h g y ↔ y = g := fun y => standsFor_plain_iff hc hh
  simp only [Outline.Brought, Outline.Around, Outline.Arrives, hgoal, exists_eq_left, forall_eq]
  constructor
  · rintro (hx | ⟨hxd, hgx⟩ | ⟨p, r, ⟨hpd, hgp⟩, hp, hr, hgr, hx⟩)
    · exact Or.inr (Or.inl hx)
    · exact Or.inl ⟨hxd, isWithin_of_isDescendant hgx⟩
    · exact Or.inr (Or.inr ⟨p, r, hp, hpd, hgp, hr, hgr, hx⟩)
  · rintro (⟨hxd, hgx⟩ | hx | ⟨p, r, hp, hpd, hgp, hr, hgr, hx⟩)
    · rcases isWithin_iff.mp hgx with rfl | hgx
      · exact Or.inl (.self g)
      · exact Or.inr (Or.inl ⟨hxd, hgx⟩)
    · exact Or.inl hx
    · exact Or.inr (Or.inr ⟨p, r, ⟨hpd, hgp⟩, hp, hr, hgr, hx⟩)

/-- What a transition arrives in lies below its domain. -/
theorem Chart.below_of_arrives (hgd : c.isDescendant g d) (h : c.Arrives d g x) :
    c.isDescendant x d := by
  rcases h with ⟨hxd, -⟩ | hx | ⟨p, r, -, hpd, -, hr, -, hx⟩
  · exact hxd
  · exact isDescendant_of_isWithin (isWithin_of_comesWith hx) hgd
  · have hrp := isDescendant_parent (mem_substates.mp hr).1
    exact isDescendant_of_isWithin (isWithin_of_comesWith hx) (isDescendant_trans hrp hpd)

namespace Settled

section

variable (hon : step.On c) (hr : step.Reaction)
  (hplain : ∀ t ∈ step.taken, ∀ g, t.transition.target = some g → ¬ c.isHistory g)

include hon hr hplain

/-- Recording does not change where transitions to other than history states stay. -/
theorem domain_between_plain (ht : t ∈ step.taken) :
    step.between.domain? t = step.before.domain? t := by
  refine Machine.domain?_congr hr.chart ?_
  cases hg : t.transition.target with
  | none => simp only [Machine.targets, hg]
  | some g => exact targets_between hon hr hg fun hh => absurd hh (hplain t ht g hg)

theorem targets_plain (ht : t ∈ step.taken) (hg : t.transition.target = some g) :
    c.contains g ∧ step.before.targets t = [g] := by
  have hh := hplain t ht g hg
  obtain rfl := hon.chart
  have hc := (Machine.target_of_declared (declared_of_taken hr ht).1 hg).1
  exact ⟨hc, Machine.targets_of_not_isHistory hg hc hh⟩

/-- A transition that has more to it than its actions stays within some domain. -/
theorem exists_domain_plain (ht : t ∈ step.taken)
    (hact : ¬ t.transition.isActionOnly t.source) : ∃ d, step.before.domain? t = some d := by
  obtain ⟨g, hg⟩ : ∃ g, t.transition.target = some g := by
    cases hg : t.transition.target with
    | none => exact absurd (by rw [Transition.isActionOnly, hg]) hact
    | some g => exact ⟨g, rfl⟩
  rw [Machine.domain?_eq, (targets_plain hon hr hplain ht hg).2, if_neg (by simp [hact])]
  exact ⟨_, rfl⟩

variable (hclean : Machine.Clean c step.before)

include hclean

/-- The target of a transition lies below its domain. -/
theorem target_below (ht : t ∈ step.taken) (hd : step.before.domain? t = some d)
    (hg : t.transition.target = some g) : c.isDescendant g d := by
  have hb := hclean.history
  obtain ⟨-, htargets⟩ := targets_plain hon hr hplain ht hg
  obtain rfl := hon.chart
  obtain ⟨-, -, hbelow⟩ := Machine.domain_spec hb (declared_of_taken hr ht).1 hd
  exact hbelow g (htargets ▸ List.mem_singleton_self g)

variable (hwf : c.WellFormed step.before.configuration)

include hwf

omit hplain in
theorem apart_of_wellFormed : step.taken.Pairwise step.before.Apart := by
  obtain ⟨l, -, -, htaken⟩ := hr.selected
  have hb := hclean.history
  obtain rfl := hon.chart
  refine Machine.domains_apart hwf hb ?_ fun t ht => declared_of_taken hr ht
  rw [← htaken]
  exact Machine.pairwise_withoutConflicts l

/-- A step enters what its transitions arrive in. -/
theorem mem_entered_iff_arrives : x ∈ step.entered ↔ ∃ t ∈ step.taken, ∃ d g,
    step.before.domain? t = some d ∧ t.transition.target = some g ∧ c.Arrives d g x := by
  have hchart : step.between.chart = c := hr.chart.trans hon.chart
  have hdom := fun t (ht : t ∈ step.taken) => domain_between_plain hon hr hplain ht
  have hb : step.between.chart.BoundedHistory step.between.history := by
    rw [hchart, hr.history]
    exact Machine.boundedHistory_recordHistories hclean step.exited
  have hapart : step.taken.Pairwise step.between.Apart := by
    refine (apart_of_wellFormed hon hr hclean hwf).imp_of_mem fun ht hu htu d e hd he => ?_
    rw [hr.chart]
    exact htu d e (hdom _ ht ▸ hd) (hdom _ hu ▸ he)
  -- no transition has to do with history
  have htaken : ∀ t ∈ step.taken, Machine.Declared step.between.chart t ∧ step.between.Covers t ∧
      step.between.Reliable t := by
    refine fun t ht => ⟨by rw [hr.chart]; exact (declared_of_taken hr ht).1,
      fun d g p _ hg hh => ?_, fun g hg hh => ?_⟩ <;>
    · rw [hchart] at hh
      exact absurd hh (hplain t ht g hg)
  rw [(Machine.mem_entering hb hapart htaken hr.entered).2 x]
  refine exists_congr fun t => and_congr_right fun ht => exists_congr fun d =>
    exists_congr fun g => ?_
  rw [hdom t ht, hchart]
  refine and_congr_right fun _ => and_congr_right fun hg => ?_
  exact brought_plain_iff (targets_plain hon hr hplain ht hg).1 (hplain t ht g hg)

/-- Of the states below the domain of a transition taken, those are active after the step that the
transition arrives in. -/
theorem mem_after_iff_arrives (ht : t ∈ step.taken) (hd : step.before.domain? t = some d)
    (hg : t.transition.target = some g) :
    (x ∈ step.after.configuration ∧ c.isDescendant x d) ↔ c.Arrives d g x := by
  have hmem := mem_entered_iff_arrives hon hr hplain hclean hwf (x := x)
  rw [hon.enters.configuration, hr.left]
  constructor
  · rintro ⟨⟨hactive, hexit⟩ | hentered, hxd⟩
    · exact absurd ((mem_exited hon hr).mpr ⟨hactive, t, ht, d, hd, hxd⟩) hexit
    · -- the domain of whatever arrives in it lies around it too
      obtain ⟨u, hu, e, g', he, hg', hx⟩ := hmem.mp hentered
      have hxe := below_of_arrives (target_below hon hr hplain hclean hu he hg') hx
      by_cases htu : t = u
      · subst htu
        obtain rfl := Option.some.inj (hd.symm.trans he)
        obtain rfl := Option.some.inj (hg.symm.trans hg')
        exact hx
      · -- two domains around one state are nested, and those of different transitions lie apart
        have : Std.Symm step.before.Apart := ⟨fun a b hab d e hd he => (hab e d he hd).symm⟩
        have hapart := (apart_of_wellFormed hon hr hclean hwf).forall ht hu htu d e hd he
        rw [hon.chart] at hapart
        rcases isWithin_or_of_common (isWithin_of_isDescendant hxd)
          (isWithin_of_isDescendant hxe) with hde | hed
        · exact absurd hde hapart.1
        · exact absurd (isWithin_of_isDescendant hed) hapart.2
  · intro hx
    exact ⟨Or.inr (hmem.mpr ⟨t, ht, d, g, hd, hg, hx⟩),
      below_of_arrives (target_below hon hr hplain hclean ht hd hg) hx⟩

/-- Outside of the domains the same states are active as before. -/
theorem mem_after_of_outside (hx : ∀ t ∈ step.taken, ∀ d, step.before.domain? t = some d →
    ¬ c.isDescendant x d) : x ∈ step.after.configuration ↔ x ∈ step.before.configuration := by
  rw [hon.enters.configuration, hr.left]
  have hentered : x ∉ step.entered := by
    intro h
    obtain ⟨t, ht, d, g, hd, hg, harrives⟩ :=
      (mem_entered_iff_arrives hon hr hplain hclean hwf).mp h
    exact hx t ht d hd (below_of_arrives (target_below hon hr hplain hclean ht hd hg) harrives)
  have hexited : x ∉ step.exited := by
    intro h
    obtain ⟨-, t, ht, d, hd, hxd⟩ := (mem_exited hon hr).mp h
    exact hx t ht d hd hxd
  simp [hentered, hexited]

end

/-- What a step does to the configuration if no transition in it targets a history state. -/
structure Arrived (c : Chart D) (step : Settled D) : Prop where
  /-- Each transition that has more to it than its actions exchanges what is below its domain. -/
  inside : ∀ t ∈ step.taken, ¬ t.transition.isActionOnly t.source →
    ∃ d g, step.before.domain? t = some d ∧ t.transition.target = some g ∧
      ∀ x, (x ∈ step.after.configuration ∧ c.isDescendant x d) ↔ c.Arrives d g x
  outside : ∀ x, (∀ t ∈ step.taken, ∀ d, step.before.domain? t = some d → ¬ c.isDescendant x d) →
    (x ∈ step.after.configuration ↔ x ∈ step.before.configuration)

end Settled

namespace Machine

theorem reaction_of_settles {p : Progress D} (h : m.Settles step p) (htaken : step.taken ≠ []) :
    step.Reaction :=
  (settles_cases h).2.2.resolve_left fun hi => htaken hi.taken

/-- In a run, transitions are taken in states of the chart. -/
theorem clean_of_taken (hrun : Run c steps m) : ∀ step ∈ steps, step.taken ≠ [] →
    step.On c ∧ step.Reaction ∧ Clean c step.before := by
  induction hrun with
  | fresh => exact fun step hstep => absurd hstep List.not_mem_nil
  | move _ _ ih => exact ih
  | @settle steps m m' step hrun hsettling ih =>
    intro e he htaken
    rcases List.mem_cons.mp he with rfl | he
    · have hclean := clean_of_run hrun
      have hturn : ∀ {m₀ : Machine D} {later p}, m.nextTurn = .process m₀ e.signal later →
          m₀.Settles e p → e.On c ∧ e.Reaction ∧ Clean c e.before := by
        intro m₀ later p hturn hsettles
        have hclean₀ := clean_of_turn hclean hturn
        obtain ⟨-, ⟨hchart, hhistory, hconf⟩, -⟩ := settles_cases hsettles
        exact ⟨on_of_settles hclean₀.chart (turn_passes hturn).2.1 hsettles,
          reaction_of_settles hsettles htaken, clean_of_sameStates hclean₀ ⟨hchart, hconf, hhistory⟩⟩
      cases hsettling with
      | turn _ hnext hsettles _ | turnPanicked _ hnext hsettles _ => exact hturn hnext hsettles
      | stop => exact absurd rfl htaken
    · exact ih e he htaken

/-- When transitions are taken in a well-formed configuration and none of them targets a history
state, what is active after the step can be read off the tree. -/
theorem arrived_of_run (hrun : Run c steps m) (hstep : step ∈ steps) (htaken : step.taken ≠ [])
    (hwf : c.WellFormed step.before.configuration)
    (hplain : ∀ t ∈ step.taken, ∀ g, t.transition.target = some g → ¬ c.isHistory g) :
    step.Arrived c := by
  obtain ⟨hon, hr, hclean⟩ := clean_of_taken hrun step hstep htaken
  refine ⟨fun t ht hact => ?_, fun x hx => Settled.mem_after_of_outside hon hr hplain hclean hwf hx⟩
  obtain ⟨d, hd⟩ := Settled.exists_domain_plain hon hr hplain ht hact
  obtain ⟨g, hg⟩ := exists_target hd
  exact ⟨d, g, hd, hg, fun x => Settled.mem_after_iff_arrives hon hr hplain hclean hwf ht hd hg⟩

end Machine

/-! ## A plane -/

inductive PlaneState | plane | parked | cabin | seats | aisle | window | lights | dim | bright | last
deriving DecidableEq

/-- A plane that is boarded at the window, or as it was left. -/
def planeTree : StateTree (.bare PlaneState) :=
  .bare .plane (.compound .parked) []
    [.bare .parked .atomic [.bare "board" .window, .bare "return" .last],
    .bare .cabin .parallel [.bare "leave" .parked]
      [.bare .seats (.compound .aisle) [] [.bare .aisle .atomic, .bare .window .atomic],
      .bare .lights (.compound .dim) [] [.bare .dim .atomic, .bare .bright .atomic],
      .bare .last (.history .deep)]]

def plane : Chart (.bare PlaneState) :=
  { planeTree.outline with tree := planeTree, outline_eq := rfl, flawless := by cbv }

open Machine in
/-- Boarding the plane at the window enters the seats on the way, and the lights with what comes with
them. -/
theorem plane_arrived : ∃ steps m, Run plane steps m ∧ ∃ step ∈ steps, step.taken ≠ [] ∧
    plane.WellFormed step.before.configuration ∧
    (∀ t ∈ step.taken, ∀ g, t.transition.target = some g → ¬ plane.isHistory g) ∧
    step.after.configuration.elems = [.plane, .cabin, .seats, .lights, .window, .dim] ∧
    step.Arrived plane := by
  have hrun := plane.run_trace [.start, .send "board"]
  have htrace : (plane.machine.trace [.start, .send "board"]).1.head?.map (fun step =>
      (step.before.configuration.elems, step.taken.map (·.transition.target),
        step.after.configuration.elems)) =
      some ([.plane, .parked], [some .window],
        [.plane, .cabin, .seats, .lights, .window, .dim]) := by cbv
  obtain ⟨step, hhead, he⟩ := Option.map_eq_some_iff.mp htrace
  rw [Prod.mk.injEq, Prod.mk.injEq] at he
  obtain ⟨hbefore, htargets, hafter⟩ := he
  have hstep := List.mem_of_head? hhead
  have htaken : step.taken ≠ [] := fun h => by simp [h] at htargets
  have hwf : plane.WellFormed step.before.configuration := by
    rw [wellFormed_iff, hbefore]
    decide
  have hplain : ∀ t ∈ step.taken, ∀ g, t.transition.target = some g → ¬ plane.isHistory g := by
    intro t ht g hg
    have hmem := htargets ▸ List.mem_map_of_mem (f := fun t : Selected (.bare PlaneState) =>
      t.transition.target) ht
    rw [List.mem_singleton, hg, Option.some.injEq] at hmem
    exact hmem ▸ by decide
  exact ⟨_, _, hrun, step, hstep, htaken, hwf, hplain, hafter,
    arrived_of_run hrun hstep htaken hwf hplain⟩

end Statechart
