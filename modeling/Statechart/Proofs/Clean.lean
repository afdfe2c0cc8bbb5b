import Statechart.Proofs.Machine.Defects
import Statechart.Proofs.Machine.Entering
import Statechart.Proofs.AtRest

/-!
# Clean machines

Whatever a machine goes through, its active states are on the chart and none of them is a history
state, and what its history states remember are such states too, below their parents (`Clean`).
This is kept by each bit of a step (`clean_of_alter`), and so it does not matter whether a step
was settled or a defect got in its way: a machine that is stopped or faulted is as clean as one
that is running (`clean_of_run`).

There is nothing special about being clean in this. Whatever is said of the chart, the active
states and the history alone, and is kept by each bit of a step, holds at every moment of a run
(`Lasting`, `lasting_run`).
-/

namespace Statechart.Machine

open Chart

variable {D : Domain} {c : Chart D} {m m' m₀ : Machine D} {signal : Signal D} {o : Outcome D}
  {p : Progress D} {d : Defect D.State} {steps : List (Settled D)} {later : List (Work D)}

/-- A machine on a chart that is in states of the chart other than history states, and remembers
nothing else. -/
structure Clean (c : Chart D) (m : Machine D) : Prop where
  chart : m.chart = c
  contains : ∀ s ∈ m.configuration, c.contains s
  plain : ∀ s ∈ m.configuration, ¬ c.isHistory s
  history : c.BoundedHistory m.history

/-- The states from an active one up to the root are on the chart. -/
theorem contains_of_path {x s : D.State} (hm : Clean c m) (hx : x ∈ m.configuration)
    (hs : s ∈ x :: m.chart.ancestors x) : m.chart.contains s :=
  contains_of_mem_path (hm.chart ▸ hm.contains x hx) hs

theorem clean_of_sameStates (hm : Clean c m) (h : m.SameStates m') : Clean c m' where
  chart := h.chart.trans hm.chart
  contains := h.configuration ▸ hm.contains
  plain := h.configuration ▸ hm.plain
  history := h.history ▸ hm.history

/-- What is recorded is active, and lies below the parent of the history state. -/
theorem boundedHistory_recordHistories (hm : Clean c m) (leaving : List D.State) :
    c.BoundedHistory (m.recordHistories leaving).history := by
  intro s l p hl hp g hg
  by_cases hs : m.chart.isHistory s
  · obtain ⟨mode, hk⟩ := isHistory_iff.mp hs
    rw [get?_recordHistories hk (hm.chart ▸ hp)] at hl
    split at hl
    · obtain rfl := Option.some.inj hl
      obtain ⟨hactive, hrecalls⟩ := mem_remember.mp hg
      exact ⟨hm.chart ▸ isDescendant_of_recalls hrecalls, hm.plain g hactive⟩
    · exact hm.history s l p hl hp g hg
  · rw [get?_recordHistories_of_not_isHistory hs] at hl
    exact hm.history s l p hl hp g hg

theorem clean_of_alter (hm : Clean c m) (h : m.Alter (fun s => ¬ c.isHistory s) m') :
    Clean c m' := by
  cases h with
  | context | command | work => exact ⟨hm.chart, hm.contains, hm.plain, hm.history⟩
  | remember =>
    exact ⟨hm.chart, hm.contains, hm.plain, boundedHistory_recordHistories hm _⟩
  | leave =>
    exact ⟨hm.chart, fun x hx => hm.contains x (StateSet.mem_erase.mp hx).1,
      fun x hx => hm.plain x (StateSet.mem_erase.mp hx).1, hm.history⟩
  | @enter s n hs hn =>
    refine ⟨hm.chart, fun x hx => ?_, fun x hx => ?_, hm.history⟩
    · rcases StateSet.mem_insert.mp hx with hx | rfl
      · exact hm.contains x hx
      · exact contains_iff.mpr ⟨n, hm.chart ▸ hn⟩
    · rcases StateSet.mem_insert.mp hx with hx | rfl
      · exact hm.plain x hx
      · exact hs

theorem clean_of_alters (hm : Clean c m) (h : m.Alters (fun s => ¬ c.isHistory s) m') :
    Clean c m' := by
  induction h with
  | refl => exact hm
  | tail _ h ih => exact clean_of_alter ih h

/-- A clean machine enters states of the chart, and no history state. -/
theorem enterable_of_clean (hm : Clean c m) :
    m.Admits fun s => c.contains s ∧ ¬ c.isHistory s := by
  refine ⟨fun set hset s hs => ?_, fun m' taken entered halters hdecl hentered s hs => ?_⟩
  · rw [hm.chart, Outline.mem_inEntryOrder, ← StateSet.mem_def] at hs
    rw [hm.chart] at hset
    rcases (addDescendants_bounds hm.history _ _ _ _ contains_root hset).scope.new s hs with
      hs | ⟨hscope, hplain⟩
    · exact absurd hs (StateSet.not_mem_empty s)
    · exact ⟨contains_of_scope contains_root hscope, hplain⟩
  · -- by the time states are entered, some have been left, but the machine is as clean as before
    have hm' := clean_of_alters hm (alters_mono (fun _ => False.elim) halters)
    rw [← hm'.chart]
    obtain ⟨hplain, t, ht, d, g, -, htarget, hscope | hbelow⟩ :=
      (entering_bounds (hm'.chart.symm ▸ hm'.history) hdecl hentered).1 s hs
    · exact ⟨contains_of_scope (target_of_declared (hdecl t ht) htarget).1 hscope, hplain⟩
    · exact ⟨contains_of_isDescendant hbelow, hplain⟩

theorem admits_of_clean (hm : Clean c m) : m.Admits fun s => ¬ c.isHistory s := by
  obtain ⟨hinitial, hentering⟩ := enterable_of_clean hm
  exact ⟨fun set hset s hs => (hinitial set hset s hs).2,
    fun m' taken entered halters hdecl hentered s hs =>
      (hentering m' taken entered halters hdecl hentered s hs).2⟩

/-! ## Signals -/

theorem react_eq_ok {before left between : Machine D} {selected taken : List (Selected D)}
    {exited entered : List D.State} (hsel : before.select signal = .ok selected)
    (hne : selected ≠ []) (htaken : before.withoutConflicts selected = taken)
    (hexited : before.leaving taken = exited)
    (hleft : (before.recordHistories exited).exitStates signal exited = .ok left)
    (hbetween : left.runTransitions signal taken = .ok between)
    (hentered : between.entering taken = some entered)
    (hsettle : between.settleEntry signal exited entered = .ok p) :
    before.react signal = .ok p := by
  unfold react
  refine bind_eq_ok.mpr ⟨selected, hsel, ?_⟩
  cases selected with
  | nil => exact absurd rfl hne
  | cons t l =>
    subst htaken hexited
    refine bind_eq_ok.mpr ⟨left, hleft, bind_eq_ok.mpr ⟨between, hbetween, ?_⟩⟩
    exact bind_eq_ok.mpr ⟨entered, by rw [hentered]; rfl, hsettle⟩

/-- A step is settled by processing its signal. -/
theorem process_of_settles {step : Settled D} (h : m.Settles step p) :
    m.process step.signal = .ok p := by
  cases h with
  | initial hempty hset hsettle =>
    unfold process
    dsimp only
    rw [if_pos hempty]
    exact bind_eq_ok.mpr ⟨_, by rw [hset]; rfl, hsettle⟩
  | @reaction before _ _ signal _ _ _ _ _ hm hsel hne htaken hexited hleft hbetween hentered
      hsettle =>
    have hne_start : signal ≠ .start := by
      rintro rfl
      exact absurd hm (by simp [reacting?])
    change m.process signal = _
    rw [process_eq hne_start, hm]
    exact react_eq_ok hsel hne htaken hexited hleft hbetween hentered hsettle

theorem sameStates_absorb (p : Progress D) : p.machine.SameStates (absorb p) := by
  obtain ⟨hchart, hhistory, hconf, -⟩ := absorb_spec p
  exact ⟨hchart, hconf, hhistory⟩

theorem sameStates_of_turn (h : m.nextTurn = .process m₀ signal later) : m.SameStates m₀ := by
  rw [(nextTurn_process h).2]
  exact ⟨rfl, rfl, rfl⟩

/-! ## What lasts -/

/-- What a fresh machine on a chart starts with and no bit of a step takes away, as long as only
states of which `P` holds are entered. -/
structure Lasting (c : Chart D) (P : D.State → Prop) (I : Machine D → Prop) : Prop where
  fresh : ∀ m, m.chart = c → m.Fresh → I m
  admits : ∀ m, I m → m.Admits P
  alter : ∀ m m', I m → m.Alter P m' → I m'
  same : ∀ m m', I m → m.SameStates m' → I m'

section

variable {P : D.State → Prop} {I : Machine D → Prop} (hI : Lasting c P I)

include hI

theorem lasting_alters (hm : I m) (h : m.Alters P m') : I m' := by
  induction h with
  | refl => exact hm
  | tail _ h ih => exact hI.alter _ _ ih h

theorem lasting_altered (hm : I m) (h : m.Altered P m') : I m' := by
  obtain ⟨m₁, halters, hsame⟩ := h
  exact hI.same _ _ (lasting_alters hI hm halters) hsame

theorem lasting_process (hm : I m) (h : m.process signal = .ok p) : I p.machine :=
  lasting_altered hI hm ((process_ends (hI.admits _ hm)).ok h)

theorem lasting_halt (hm : I m) (h : m.process signal = .error (.defect m' d)) : I m' :=
  lasting_alters hI hm ((process_ends (hI.admits _ hm)).defect h).1

theorem lasting_absorb (hm : I p.machine) : I (absorb p) := hI.same _ _ hm (sameStates_absorb p)

theorem lasting_turn (hm : I m) (h : m.nextTurn = .process m₀ signal later) : I m₀ :=
  hI.same _ _ hm (sameStates_of_turn h)

/-- Stopping takes nothing away, even if a defect gets in its way. -/
theorem lasting_finish (hm : I m) (h : m.finish = some o) : I o.machine := by
  have hempty : I { m with shell := { m.shell with queue := [] } } := hI.same _ _ hm ⟨rfl, rfl, rfl⟩
  have hany : ∀ s : D.State, False → P s := fun _ => False.elim
  rcases finish_cases h with ⟨m₁, d, hdown, rfl⟩ | ⟨m₁, _, _, hdown, rfl, rfl⟩
  · have hm₁ := lasting_alters hI hempty (alters_mono hany (teardown_ends.defect hdown).1)
    exact hI.same _ _ hm₁ ⟨rfl, rfl, rfl⟩
  · obtain ⟨m₂, halters, hsame⟩ := teardown_ends.ok hdown
    have hm₁ := hI.same _ _ (lasting_alters hI hempty (alters_mono hany halters)) hsame
    exact hI.same _ _ hm₁ ⟨rfl, rfl, rfl⟩

theorem lasting_move (hm : I m) (h : m.Move m') : I m' := by
  cases h with
  | call | result | outside => exact hI.same _ _ hm ⟨rfl, rfl, rfl⟩
  | skip _ hturn =>
    rw [nextTurn_skip hturn]
    exact hI.same _ _ hm ⟨rfl, rfl, rfl⟩
  | pass _ hturn hproc _ =>
    have hp := lasting_absorb hI (lasting_process hI (lasting_turn hI hm hturn) hproc)
    exact hI.same _ _ hp ⟨rfl, rfl, rfl⟩
  | fault _ hturn hproc =>
    have hm₁ := lasting_halt hI (lasting_turn hI hm hturn) hproc
    exact hI.same _ _ hm₁ ⟨rfl, rfl, rfl⟩
  | faultStopping _ _ hdown =>
    exact lasting_finish hI (o := fault _ _) hm (by rw [finish, hdown])

theorem lasting_settling {step : Settled D} (hm : I m) (h : m.Settling step m') : I m' := by
  -- a step settles because its signal was processed, and listeners do not touch the states
  have hturns : ∀ {m₀ later p}, m.nextTurn = .process m₀ step.signal later →
      m₀.Settles step p → I (absorb p) := by
    intro m₀ later p hturn hstep
    exact lasting_absorb hI (lasting_process hI (lasting_turn hI hm hturn) (process_of_settles hstep))
  cases h with
  | turn _ hturn hstep _ => exact hI.same _ _ (hturns hturn hstep) ⟨rfl, rfl, rfl⟩
  | turnPanicked _ hturn hstep _ => exact hI.same _ _ (hturns hturn hstep) ⟨rfl, rfl, rfl⟩
  | stop _ _ _ hfin => exact lasting_finish hI hm hfin

/-- What lasts holds at every moment of a run, whatever the machine has come to. -/
theorem lasting_run (hrun : Run c steps m) : I m := by
  induction hrun with
  | fresh hc hm => exact hI.fresh _ hc hm
  | move _ hmove ih => exact lasting_move hI ih hmove
  | settle _ hsettling ih => exact lasting_settling hI ih hsettling

end

/-! ## Staying clean -/

theorem clean_of_fresh (hc : m.chart = c) (hm : m.Fresh) : Clean c m := by
  have hnone : ∀ s, s ∉ m.configuration := by
    intro s hs
    rw [StateSet.mem_def, hm.configuration] at hs
    exact absurd hs List.not_mem_nil
  refine ⟨hc, fun s hs => absurd hs (hnone s), fun s hs => absurd hs (hnone s),
    fun s l p hl => ?_⟩
  rw [History.get?, hm.history] at hl
  exact absurd hl (by simp)

theorem lasting_clean (c : Chart D) : Lasting c (fun s => ¬ c.isHistory s) (Clean c) where
  fresh := fun _ => clean_of_fresh
  admits := fun _ => admits_of_clean
  alter := fun _ _ => clean_of_alter
  same := fun _ _ => clean_of_sameStates

theorem clean_of_altered (hm : Clean c m) (h : m.Altered (fun s => ¬ c.isHistory s) m') :
    Clean c m' :=
  lasting_altered (lasting_clean c) hm h

theorem clean_of_process (hm : Clean c m) (h : m.process signal = .ok p) : Clean c p.machine :=
  lasting_process (lasting_clean c) hm h

theorem clean_absorb (h : Clean c p.machine) : Clean c (absorb p) :=
  lasting_absorb (lasting_clean c) h

theorem clean_of_turn (hm : Clean c m) (h : m.nextTurn = .process m₀ signal later) : Clean c m₀ :=
  lasting_turn (lasting_clean c) hm h

/-- A machine is clean at every moment of a run, whatever it has come to. -/
theorem clean_of_run (hrun : Run c steps m) : Clean c m := lasting_run (lasting_clean c) hrun

end Statechart.Machine
