import Statechart.Proofs.Step
import Statechart.Proofs.Trace

/-!
# Regions of a parallel root

If the root is parallel, a transition without a compound state around both its source and
its targets has the root for its domain. Then all the regions are left, while entering only
goes up as far as the root and never completes it: a region comes back only if a
transition leads into it (`LeadsInto`). That is the exact condition: `regions_active_iff`
says of every run on a chart with a parallel root that all regions stay active in all its
steps if and only if every step that leaves the regions leads back into each of them.

Below the regions nothing is known of such a run, configurations may be ill formed and
records may be empty. All that is used of the past is that no history state was ever
active (`Plain`), so that records lie where they belong.
-/

namespace Statechart

open Chart

variable {D : Domain}

namespace Outline

variable (c : Outline D)

/-- Whether a state is a history state that belongs to the root. -/
def IsRootHistory (s : D.State) : Prop := c.isHistory s ∧ c.parent? s = some c.root

/-- `y` is where a state leads when history states of the root are followed, and no others. -/
inductive Follows (h : History D.State) : D.State → D.State → Prop
  | here {s : D.State} : ¬ c.IsRootHistory s → Follows h s s
  | on {s t y : D.State} {n : Node D} :
      c.node? s = some n → c.IsRootHistory s → t ∈ c.restored h n → Follows h t y → Follows h s y

end Outline

/-- Whether a transition leads into a region of the root: its target, or where a history state of
the root sends it, lies in the region, and it enters from the root. -/
def Machine.LeadsInto (m : Machine D) (t : Selected D) (r : D.State) : Prop :=
  ∃ d g y, m.domain? t = some d ∧ t.transition.target = some g ∧
    m.chart.Follows m.history g y ∧ m.chart.isWithin y r ∧
      (d = m.chart.root ∨ m.chart.IsRootHistory g)

namespace Chart

variable {c : Chart D} {h : History D.State} {s x y a b g r : D.State}
  {set set' : StateSet D.State}

/-! ## Entering a region -/

theorem follows_iff (hs : ¬ c.IsRootHistory s) : c.Follows h s y ↔ y = s := by
  constructor
  · intro hy
    cases hy with
    | here => rfl
    | on _ hroot _ _ => exact absurd hroot hs
  · intro he
    obtain rfl := he
    exact .here hs

theorem follows_history_iff {n : Node D} (hn : c.node? s = some n) (hs : c.IsRootHistory s) :
    c.Follows h s y ↔ ∃ t ∈ c.restored h n, c.Follows h t y := by
  constructor
  · intro hy
    cases hy with
    | here hnot => exact absurd hs hnot
    | on hn' _ ht hy =>
      rw [hn, Option.some.injEq] at hn'
      exact ⟨_, hn' ▸ ht, hy⟩
  · intro hex
    obtain ⟨t, ht, hy⟩ := hex
    exact .on hn hs ht hy

/-- Around a region there is only the root. -/
theorem eq_root_of_region (hr : r ∈ c.substates c.root) (ha : c.isDescendant r a) : a = c.root := by
  have hwithin := isWithin_parent (mem_substates.mp hr).1 ha
  exact (isWithin_iff.mp hwithin).elim Eq.symm fun h => absurd h not_isDescendant_root

theorem isDescendant_region (hr : r ∈ c.substates c.root) : c.isDescendant r c.root :=
  isDescendant_parent (mem_substates.mp hr).1

/-- A history state of the root lies in no region, and neither does the root. -/
theorem not_isWithin_region (hr : r ∈ c.substates c.root) (hs : c.IsRootHistory s) :
    ¬ c.isWithin s r := by
  intro hsr
  rcases isWithin_iff.mp hsr with rfl | hsr
  · exact (mem_substates.mp hr).2 hs.1
  · exact not_isDescendant_of_isWithin (isWithin_parent hs.2 hsr) (isDescendant_region hr)

/-- Climbing puts a region in if it starts below the region and goes up to the root. -/
theorem region_mem_addAncestors {add : D.State → StateSet D.State → Option (StateSet D.State)}
    (hadd : c.AddsWithin add) (hr : r ∈ c.substates c.root) (hxb : c.isDescendant x b)
    (h' : c.addAncestors add x b set = some set') :
    r ∈ set' ↔ r ∈ set ∨ (c.isDescendant x r ∧ b = c.root) := by
  obtain ⟨hext, hway⟩ := addAncestors_bounds hadd hxb h'
  constructor
  · intro hrs
    refine (hext.new r hrs).imp_right ?_
    intro h
    obtain ⟨⟨a, hxa, hab, hra⟩, -⟩ := h
    rcases isWithin_iff.mp hra with rfl | hra
    · exact ⟨hxa, eq_root_of_region hr hab⟩
    · rw [eq_root_of_region hr hra] at hab
      exact absurd hab not_isDescendant_root
  · intro h
    rcases h with hrs | ⟨hxr, rfl⟩
    · exact hext.mono r hrs
    · exact hway r hxr (isDescendant_region hr)

/-- Entering a state puts a region in if it is that state, or if the state is a history state of the
root that leads there. The induction is on the fuel, which bounds the chain of history states. -/
theorem region_mem_addDescendants (hb : c.BoundedHistory h) (hr : r ∈ c.substates c.root) :
    ∀ (fuel : Nat) {s : D.State} {set set' : StateSet D.State}, c.contains s → s ≠ c.root →
      c.addDescendants h fuel s set = some set' →
      (r ∈ set' ↔ r ∈ set ∨ s = r ∨
        (c.IsRootHistory s ∧ ∃ y, c.Follows h s y ∧ c.isWithin y r)) := by
  intro fuel
  induction fuel with
  | zero => intro s set set' _ _ h'; exact absurd h' (by simp [Outline.addDescendants])
  | succ fuel ih =>
    intro s set set' hs hne h'
    by_cases hroot : c.IsRootHistory s
    · obtain ⟨n, hn⟩ := contains_iff.mp hs
      have hk := (isHistory_of_node hn).mp hroot.1
      obtain ⟨set₁, h₁, h₂⟩ := addDescendants_history hn hk hroot.2 h'
      have hbelow : ∀ t ∈ c.restored h n, c.isDescendant t c.root :=
        fun t ht => restored_below hb hn hk hroot.2 ht
      have henter := mem_foldlM_iff (x := r) (fun t ht S S' hS =>
        ih (contains_of_isDescendant (hbelow t ht)) (ne_of_isDescendant (hbelow t ht)) hS) h₁
      have hclimb := mem_foldlM_iff (x := r) (fun t ht S S' hS =>
        region_mem_addAncestors (addsWithin_addDescendants hb fuel) hr (hbelow t ht) hS) h₂
      rw [hclimb, henter, or_assoc]
      refine or_congr_right ?_
      -- a region restored is entered, one in which something is restored is climbed through
      constructor
      · intro hor
        rcases hor with ⟨t, ht, rfl | ⟨-, y, hy, hyr⟩⟩ | ⟨t, ht, htr, -⟩
        · exact Or.inr ⟨hroot, t, .on hn hroot ht (.here fun hh => (mem_substates.mp hr).2 hh.1),
            isWithin_refl t⟩
        · exact Or.inr ⟨hroot, y, .on hn hroot ht hy, hyr⟩
        · refine Or.inr ⟨hroot, t, .on hn hroot ht (.here fun hh => ?_),
            isWithin_of_isDescendant htr⟩
          exact not_isWithin_region hr hh (isWithin_of_isDescendant htr)
      · intro hor
        rcases hor with rfl | ⟨-, y, hy, hyr⟩
        · exact absurd hroot.1 (mem_substates.mp hr).2
        · obtain ⟨t, ht, hy⟩ := (follows_history_iff hn hroot).mp hy
          by_cases hroot' : c.IsRootHistory t
          · exact Or.inl ⟨t, ht, Or.inr ⟨hroot', y, hy, hyr⟩⟩
          · rw [(follows_iff hroot').mp hy] at hyr
            rcases isWithin_iff.mp hyr with rfl | htr
            · exact Or.inl ⟨t, ht, Or.inl rfl⟩
            · exact Or.inr ⟨t, ht, htr, rfl⟩
    · obtain ⟨hext, hgoals, -⟩ := addDescendants_bounds hb _ s set set' hs h'
      constructor
      · intro hrs
        refine (hext.new r hrs).imp_right ?_
        intro hex
        obtain ⟨⟨-, hrs⟩ | ⟨hh, p, hp, hrp⟩, -⟩ := hex
        · exact (isWithin_iff.mp hrs).imp Eq.symm fun h => absurd (eq_root_of_region hr h) hne
        · exact absurd ⟨hh, eq_root_of_region hr hrp ▸ hp⟩ hroot
      · intro hor
        rcases hor with hrs | rfl | ⟨hroot', -⟩
        · exact hext.mono r hrs
        · exact hgoals s (.plain hs (mem_substates.mp hr).2)
        · exact absurd hroot' hroot

end Chart

namespace Machine

variable {m : Machine D} {t : Selected D} {d g r x : D.State} {taken : List (Selected D)}
  {set set' : StateSet D.State}

/-- Unless its target is a history state of the root, a transition reaches a region by its target or
by climbing from the states it leads to if the target lies in the region and the domain is the
root. -/
private theorem reaches_region_iff (hb : m.chart.BoundedHistory m.history)
    (hr : r ∈ m.chart.substates m.chart.root) (hdecl : Declared m.chart t)
    (hd : m.domain? t = some d) (ht : t.transition.target = some g)
    (hroot : ¬ m.chart.IsRootHistory g) :
    (g = r ∨ ∃ x ∈ m.targets t, m.chart.isDescendant x r ∧ d = m.chart.root) ↔
      m.chart.isWithin g r ∧ d = m.chart.root := by
  obtain ⟨hc, -⟩ := target_of_declared hdecl ht
  obtain ⟨-, ⟨x₀, hx₀⟩, hbelow⟩ := domain_spec hb hdecl hd
  by_cases hh : m.chart.isHistory g
  · obtain ⟨p, hp⟩ := parent_of_isHistory hh
    have hbelow' : ∀ x ∈ m.targets t, m.chart.isDescendant x p :=
      fun x hx => targets_below hb ht hh hp hx
    constructor
    · intro h
      rcases h with rfl | ⟨x, hx, hxr, hdr⟩
      · exact absurd hh (mem_substates.mp hr).2
      · -- the target is no history state of the root, so what it restores is in its own region
        refine ⟨?_, hdr⟩
        rcases isWithin_or_of_common (isWithin_of_isDescendant (hbelow' x hx))
          (isWithin_of_isDescendant hxr) with hpr | hrp
        · exact isWithin_of_isDescendant
            (isDescendant_of_isDescendant_of_isWithin (isDescendant_parent hp) hpr)
        · exact absurd ⟨hh, eq_root_of_region hr hrp ▸ hp⟩ hroot
    · intro h
      obtain ⟨hgr, hdr⟩ := h
      rcases isWithin_iff.mp hgr with rfl | hgr
      · exact Or.inl rfl
      · exact Or.inr ⟨x₀, hx₀, isDescendant_of_isDescendant_of_isWithin (hbelow' x₀ hx₀)
          (isWithin_parent hp hgr), hdr⟩
  · have htargets := targets_of_not_isHistory ht hc hh
    rw [htargets] at hbelow ⊢
    have hgd := hbelow g (List.mem_singleton.mpr rfl)
    constructor
    · intro h
      rcases h with rfl | ⟨x, hx, hxr, hdr⟩
      · exact ⟨isWithin_refl g, eq_root_of_region hr hgd⟩
      · rw [List.mem_singleton] at hx
        exact ⟨isWithin_of_isDescendant (hx ▸ hxr), hdr⟩
    · intro h
      obtain ⟨hgr, hdr⟩ := h
      exact (isWithin_iff.mp hgr).imp_right fun hgr => ⟨g, List.mem_singleton.mpr rfl, hgr, hdr⟩

theorem leadsInto_iff (hd : m.domain? t = some d) (ht : t.transition.target = some g) :
    m.LeadsInto t r ↔ ∃ y, m.chart.Follows m.history g y ∧ m.chart.isWithin y r ∧
      (d = m.chart.root ∨ m.chart.IsRootHistory g) := by
  constructor
  · intro h
    obtain ⟨d', g', y, hd', ht', hy⟩ := h
    rw [hd, Option.some.injEq] at hd'
    rw [ht, Option.some.injEq] at ht'
    exact ⟨y, hd' ▸ ht' ▸ hy⟩
  · exact fun ⟨y, hy⟩ => ⟨d, g, y, hd, ht, hy⟩

/-- A transition enters a region if it leads into it. -/
theorem region_mem_addEntries (hb : m.chart.BoundedHistory m.history)
    (hr : r ∈ m.chart.substates m.chart.root) (hdecl : Declared m.chart t)
    (h : m.addEntries set t = some set') : r ∈ set' ↔ r ∈ set ∨ m.LeadsInto t r := by
  cases hd : m.domain? t with
  | none =>
    rw [addEntries_of_none hd, Option.some.injEq] at h
    subst h
    refine (or_iff_left ?_).symm
    intro hex
    obtain ⟨d, g, y, hd', -⟩ := hex
    rw [hd] at hd'
    exact absurd hd' (by simp)
  | some d =>
    obtain ⟨g, ht⟩ := exists_target hd
    obtain ⟨hc, hne⟩ := target_of_declared hdecl ht
    obtain ⟨-, -, hbelow⟩ := domain_spec hb hdecl hd
    unfold addEntries at h
    simp only [hd, ht, Option.bind_eq_bind, Option.bind_eq_some_iff] at h
    obtain ⟨set₁, h₁, h₂⟩ := h
    have hclimb := mem_foldlM_iff (x := r) (fun x hx S S' hS =>
      region_mem_addAncestors (addsWithin_addDescendants hb m.chart.entryFuel) hr (hbelow x hx) hS) h₂
    rw [hclimb, region_mem_addDescendants hb hr _ hc hne h₁, leadsInto_iff hd ht, or_assoc]
    refine or_congr_right ?_
    by_cases hroot : m.chart.IsRootHistory g
    · -- what climbing from the targets adds is among what following the history states leads to
      obtain ⟨n, hn⟩ := contains_iff.mp hc
      have htargets := targets_of_isHistory ht hn ((isHistory_of_node hn).mp hroot.1)
      constructor
      · intro hor
        rcases hor with (rfl | ⟨-, y, hy, hyr⟩) | ⟨x, hx, hxr, -⟩
        · exact absurd hroot.1 (mem_substates.mp hr).2
        · exact ⟨y, hy, hyr, Or.inr hroot⟩
        · refine ⟨x, .on hn hroot (htargets ▸ hx) (.here fun hh => ?_),
            isWithin_of_isDescendant hxr, Or.inr hroot⟩
          exact not_isWithin_region hr hh (isWithin_of_isDescendant hxr)
      · intro hex
        obtain ⟨y, hy, hyr, -⟩ := hex
        exact Or.inl (Or.inr ⟨hroot, y, hy, hyr⟩)
    · have hreach := reaches_region_iff hb hr hdecl hd ht hroot
      constructor
      · intro hor
        rcases hor with (rfl | ⟨hroot', -⟩) | hx
        · obtain ⟨hgr, hdr⟩ := hreach.mp (Or.inl rfl)
          exact ⟨g, .here hroot, hgr, Or.inl hdr⟩
        · exact absurd hroot' hroot
        · obtain ⟨hgr, hdr⟩ := hreach.mp (Or.inr hx)
          exact ⟨g, .here hroot, hgr, Or.inl hdr⟩
      · intro hex
        obtain ⟨y, hy, hyr, hdr⟩ := hex
        rw [(follows_iff hroot).mp hy] at hyr
        rcases hreach.mpr ⟨hyr, hdr.resolve_right hroot⟩ with hgr | hx
        · exact Or.inl (Or.inl hgr)
        · exact Or.inr hx

/-- The regions entered are those that the transitions lead into. -/
theorem region_mem_entering (hb : m.chart.BoundedHistory m.history)
    (hr : r ∈ m.chart.substates m.chart.root) (htaken : ∀ t ∈ taken, Declared m.chart t)
    {l : List D.State} (h : m.entering taken = some l) :
    r ∈ l ↔ ∃ t ∈ taken, m.LeadsInto t r := by
  unfold entering at h
  obtain ⟨set, hset, rfl⟩ := Option.map_eq_some_iff.mp h
  rw [Outline.mem_inEntryOrder, ← StateSet.mem_def, mem_foldlM_iff (x := r)
    (fun t ht S S' hS => region_mem_addEntries hb hr (htaken t ht) hS) hset]
  exact or_iff_right (StateSet.not_mem_empty r)

end Machine

/-! ## Plain configurations -/

/-- A machine in which no history state is active or ever was. -/
structure Plain (c : Chart D) (steps : List (Settled D)) (configuration : StateSet D.State)
    (history : History D.State) : Prop where
  configuration : ∀ x ∈ configuration, ¬ c.isHistory x
  recorded : Recorded c steps history
  past : ∀ e ∈ steps, e.before.chart = c ∧ ∀ x ∈ e.before.configuration, ¬ c.isHistory x

namespace Settled

variable {c : Chart D} {steps : List (Settled D)} {step : Settled D} {r : D.State}

section

variable (hon : step.On c)
  (hplain : Plain c steps step.before.configuration step.before.history)

include hon hplain in
theorem boundedHistory_between : c.BoundedHistory step.between.history := by
  rw [← hon.enters.history]
  refine boundedHistory_of_recorded (recorded_step hon hplain.recorded) fun e he => ?_
  rcases List.mem_cons.mp he with rfl | he
  · exact ⟨hon.chart, hplain.configuration⟩
  · exact hplain.past e he

include hon hplain in
/-- Every step keeps configurations plain. -/
theorem plain_step : Plain c (step :: steps) step.after.configuration step.after.history := by
  refine ⟨fun x hx => ?_, recorded_step hon hplain.recorded, fun e he => ?_⟩
  · have hb := boundedHistory_between hon hplain
    rcases (hon.enters.configuration x).mp hx with hx | hx
    · rcases hon.cases with hi | hr
      · exact hplain.configuration x (hi.same ▸ hx)
      · exact hplain.configuration x ((hr.left x).mp hx).1
    · rcases hon.cases with hi | hr
      · obtain ⟨set, hset, hentered⟩ := hi.entered
        rw [hi.same] at hb
        rw [hon.chart] at hset
        rw [hentered, Outline.mem_inEntryOrder, ← StateSet.mem_def] at hx
        rcases (addDescendants_bounds hb _ _ _ _ contains_root hset).scope.new x hx with hx | hx
        · exact absurd hx (StateSet.not_mem_empty x)
        · exact hx.2
      · have hchart : step.between.chart = c := hr.chart.trans hon.chart
        rw [← hchart] at hb ⊢
        exact ((Machine.entering_bounds hb
          (fun t ht => hr.chart ▸ (declared_of_taken hr ht).1) hr.entered).1 x hx).1
  · rcases List.mem_cons.mp he with rfl | he
    · exact ⟨hon.chart, hplain.configuration⟩
    · exact hplain.past e he

/-! ## Leaving and returning to the regions -/

variable (hr : step.Reaction) (hregion : r ∈ c.substates c.root)

include hon hr hregion in
/-- A region is left if the domain of some transition is the root. -/
theorem region_mem_exited : r ∈ step.exited ↔
    r ∈ step.before.configuration ∧ ∃ t ∈ step.taken, step.before.domain? t = some c.root := by
  rw [mem_exited hon hr]
  refine and_congr_right fun _ => ⟨?_, ?_⟩
  · intro h
    obtain ⟨t, ht, d, hd, hrd⟩ := h
    exact ⟨t, ht, eq_root_of_region hregion hrd ▸ hd⟩
  · intro h
    obtain ⟨t, ht, hd⟩ := h
    exact ⟨t, ht, c.root, hd, isDescendant_region hregion⟩

include hon hplain hr hregion in
/-- A region is active after a step if it was and no transition left it, or if some transition
leads into it. -/
theorem region_mem_after : r ∈ step.after.configuration ↔
    (r ∈ step.before.configuration ∧ ¬ ∃ t ∈ step.taken, step.before.domain? t = some c.root) ∨
      ∃ t ∈ step.taken, step.between.LeadsInto t r := by
  have hchart : step.between.chart = c := hr.chart.trans hon.chart
  have hentered := Machine.region_mem_entering (m := step.between)
    (by rw [hchart]; exact boundedHistory_between hon hplain) (by rw [hchart]; exact hregion)
    (fun t ht => hr.chart ▸ (declared_of_taken hr ht).1) hr.entered
  rw [hon.enters.configuration, hr.left, hentered, region_mem_exited hon hr hregion]
  refine or_congr_left (and_congr_right fun hrb => not_congr ?_)
  exact and_iff_right hrb

end

/-- Whether all regions of the root are active after the step. -/
def KeepsRegions (c : Chart D) (step : Settled D) : Prop :=
  ∀ r ∈ c.substates c.root, r ∈ step.after.configuration

/-- Whether a step that leaves the regions of the root leads back into each of them. -/
def ReturnsToRegions (c : Chart D) (step : Settled D) : Prop :=
  (∃ t ∈ step.taken, step.before.domain? t = some c.root) →
    ∀ r ∈ c.substates c.root, ∃ t ∈ step.taken, step.between.LeadsInto t r

/-- From a configuration with all regions, a step keeps them if and only if it returns to what it
leaves; the step that starts the machine enters them all. -/
theorem keepsRegions_iff (hroot : c.isParallel c.root) (hon : step.On c)
    (hplain : Plain c steps step.before.configuration step.before.history)
    (hbefore : step.before.configuration.elems = [] ∨
      ∀ r ∈ c.substates c.root, r ∈ step.before.configuration) :
    step.KeepsRegions c ↔ step.ReturnsToRegions c := by
  rcases hon.cases with hi | hr
  · have hwf := wellFormed_initial hon hi
    refine iff_of_true (fun r hregion => hwf.parallel c.root hwf.root hroot r hregion) ?_
    intro hex
    obtain ⟨t, ht, -⟩ := hex
    rw [hi.taken] at ht
    exact absurd ht List.not_mem_nil
  · -- regions that are left come back by being entered and in no other way
    have hactive := hbefore.resolve_left (nonempty_before hr)
    constructor
    · intro hkeeps hleft r hregion
      exact ((region_mem_after hon hplain hr hregion).mp (hkeeps r hregion)).resolve_left
        fun h => h.2 hleft
    · intro hreturns r hregion
      refine (region_mem_after hon hplain hr hregion).mpr ?_
      by_cases hleft : ∃ t ∈ step.taken, step.before.domain? t = some c.root
      · exact Or.inr (hreturns hleft r hregion)
      · exact Or.inl ⟨hactive r hregion, hleft⟩

end Settled

/-! ## Along a run -/

variable {c : Chart D} {steps : List (Settled D)} {m : Machine D}

/-- As long as all regions are kept, every step starts from all of them. -/
private theorem regions_of_run (hrun : Machine.Run c steps m) : ∀ later step earlier,
    steps = later ++ step :: earlier → step.Live → step.On c ∧
      Plain c earlier step.before.configuration step.before.history ∧
      ((∀ s ∈ earlier, s.Live → s.KeepsRegions c) → step.before.configuration.elems = [] ∨
        ∀ r ∈ c.substates c.root, r ∈ step.before.configuration) :=
  Machine.run_step
    (P := fun steps configuration history => Plain c steps configuration history ∧
      ((∀ s ∈ steps, s.Live → s.KeepsRegions c) → configuration.elems = [] ∨
        ∀ r ∈ c.substates c.root, r ∈ configuration))
    (fun configuration _ hc hh => ⟨⟨fun x hx => by rw [StateSet.mem_def, hc] at hx; simp at hx,
      recorded_nil hh, fun _ he => absurd he List.not_mem_nil⟩, fun _ => Or.inl hc⟩)
    (fun _ step hon hP => ⟨Settled.plain_step hon hP.1,
      fun hkeeps => Or.inr (hkeeps step (List.mem_cons_self ..) hon.live)⟩)
    hrun

/-- On a chart with a parallel root, all regions are active after all steps of a run if and only if
every step that leaves the regions leads back into each of them. -/
theorem regions_active_iff (hroot : c.isParallel c.root) (hrun : Machine.Run c steps m) :
    (∀ step ∈ steps, step.Live → step.KeepsRegions c) ↔
      ∀ step ∈ steps, step.Live → step.ReturnsToRegions c := by
  constructor
  · intro hkeeps step hstep hlive
    obtain ⟨later, earlier, he⟩ := List.append_of_mem hstep
    obtain ⟨hon, hplain, hbefore⟩ := regions_of_run hrun later step earlier he hlive
    refine (Settled.keepsRegions_iff hroot hon hplain (hbefore fun s hs => ?_)).mp
      (hkeeps step hstep hlive)
    exact hkeeps s (he ▸ List.mem_append_right _ (List.mem_cons_of_mem _ hs))
  · intro hreturns
    -- the latest step first: the steps before it keep the regions by induction
    have hall : ∀ earlier later, steps = later ++ earlier →
        ∀ s ∈ earlier, s.Live → s.KeepsRegions c := by
      intro earlier
      induction earlier with
      | nil => intro _ _ s hs; exact absurd hs List.not_mem_nil
      | cons step earlier ih =>
        intro later he s hs hlive
        have hearlier := ih (later ++ [step]) (by rw [he, List.append_assoc]; rfl)
        rcases List.mem_cons.mp hs with rfl | hs
        · obtain ⟨hon, hplain, hbefore⟩ := regions_of_run hrun later s earlier he hlive
          exact (Settled.keepsRegions_iff hroot hon hplain (hbefore hearlier)).mpr
            (hreturns s (he ▸ List.mem_append_right _ (List.mem_cons_self ..)) hlive)
        · exact hearlier s hs hlive
    exact fun step hstep hlive => hall steps [] rfl step hstep hlive

/-! ## A light -/

inductive LightState | light | lamp | timer | memory
deriving DecidableEq

/-- A light whose lamp can be reset, which leaves it and enters it again. The lamp and the timer can
be resumed together, by way of a history state of the light. -/
def lightTree : StateTree (.bare LightState) :=
  .bare .light .parallel []
    [.bare .lamp .atomic [.bare "reset" .lamp true, .bare "resume" .memory],
      .bare .timer .atomic, .bare .memory (.history .shallow)]

def light : Chart (.bare LightState) :=
  { lightTree.outline with tree := lightTree, outline_eq := rfl, flawless := by cbv }

private theorem light_keepsRegions_iff {step : Settled (.bare LightState)} :
    step.KeepsRegions light ↔ .lamp ∈ step.after.configuration.elems ∧
      .timer ∈ step.after.configuration.elems := by
  have hregions : light.substates light.root = [.lamp, .timer] := by decide
  simp [Settled.KeepsRegions, hregions, StateSet.mem_def]

/-- Resuming leaves the regions and leads back into both. -/
theorem light_resumes : ∃ steps m, Machine.Run light steps m ∧
    (∃ step ∈ steps, step.Live ∧ ∃ t ∈ step.taken, step.before.domain? t = some light.root) ∧
      ∀ step ∈ steps, step.Live → step.ReturnsToRegions light := by
  have hrun := light.run_trace [.start, .send "resume"]
  have htrace : (light.machine.trace [.start, .send "resume"]).1.map (fun step =>
      (step.after.status, step.taken.map step.before.domain?, step.after.configuration.elems)) =
        [(.running, [some light.root], [.light, .lamp, .timer]),
          (.running, [], [.light, .lamp, .timer])] := by cbv
  refine ⟨_, _, hrun, ?_, (regions_active_iff (by decide) hrun).mp fun step hstep _ => ?_⟩
  · obtain ⟨step, hstep, he⟩ := List.mem_map.mp (htrace ▸ List.mem_cons_self ..)
    rw [Prod.mk.injEq, Prod.mk.injEq] at he
    obtain ⟨t, ht, hd⟩ := List.mem_map.mp (he.2.1 ▸ List.mem_cons_self ..)
    exact ⟨step, hstep, Or.inl he.1, t, ht, hd⟩
  · have hmem := htrace ▸ List.mem_map_of_mem hstep
    rw [light_keepsRegions_iff]
    simp only [List.mem_cons, Prod.mk.injEq, List.not_mem_nil, or_false] at hmem
    rcases hmem with ⟨-, -, he⟩ | ⟨-, -, he⟩ <;> simp [he]

/-- Resetting the lamp leaves the timer too, and does not lead back into it. -/
theorem light_resets : light.isParallel light.root ∧ ∃ steps m, Machine.Run light steps m ∧
    ∃ step ∈ steps, step.Live ∧ ¬ step.KeepsRegions light := by
  have htrace : (light.machine.trace [.start, .send "reset"]).1.map (fun step =>
      (step.after.status, step.after.configuration.elems)) =
        [(.running, [.light, .lamp]), (.running, [.light, .lamp, .timer])] := by cbv
  refine ⟨by decide, _, _, light.run_trace [.start, .send "reset"], ?_⟩
  obtain ⟨step, hstep, he⟩ := List.mem_map.mp (htrace ▸ List.mem_cons_self ..)
  rw [Prod.mk.injEq] at he
  refine ⟨step, hstep, Or.inl he.1, ?_⟩
  rw [light_keepsRegions_iff, he.2]
  simp

end Statechart
