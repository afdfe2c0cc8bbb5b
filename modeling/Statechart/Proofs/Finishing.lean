import Statechart.Proofs.CompletionSignal
import Statechart.Proofs.Launches
import Statechart.Proofs.Rooted

/-!
# Which states are signalled

Whether a state has come to its final state is looked at in the middle of entering, when only
part of the states to be active are so. What is found then is still so when everything is
entered, for entering makes no state inactive; and the states that are looked at, the parent of
the final state entered and the one around it, are active in the end, because configurations
hang together. So a step signals nothing but active states in their final states, and completes
the machine only if the root is in its final state; then nothing is left of what the step sent,
signalled and launched (`finishing_of_run`).

There is one exception. A transition to a history state that shifts its domain into a parallel
state leaves this state for good, and if it enters final states in its regions it signals it all
the same (`studio_signals_left`).
-/

namespace Statechart

open Chart Machine

variable {D : Domain} {c : Chart D} {steps later earlier : List (Settled D)} {step : Settled D}
  {m m₀ : Machine D} {p : Progress D} {s : D.State}

namespace Settled

/-- A state that is signalled is the parent of a state that is active after the step, or the parent
of that parent, which is then not parallel. -/
theorem raised_cases (hon : step.On c) (hs : s ∈ step.raised) :
    ∃ f ∈ step.after.configuration, ∃ q, c.parent? f = some q ∧
      (s = q ∨ (¬ c.isParallel q ∧ c.parent? q = some s)) := by
  obtain ⟨p, hp⟩ := hon.enters.entering
  have hmem : s ∈ p.raised := by
    rw [raised_eq hp] at hs
    split at hs
    · exact absurd hs List.not_mem_nil
    · exact hs
  obtain ⟨f, hf, active, hactive, -, hcompleted⟩ := ((Progress.noted_of_foldlM
    (p := { machine := step.between }) ((chart_between hon.cases).trans hon.chart) hp).1 s
      hmem).resolve_left List.not_mem_nil
  exact ⟨f, (hon.enters.configuration f).mpr (Or.inr hf), (completed_cases hactive hcompleted).2⟩

/-- A state that is signalled is active after the step, unless the step shifts the domain of a
transition into it. -/
theorem active_of_raised (hon : step.On c)
    (hplain : Plain c steps step.before.configuration step.before.history)
    (hrooted : c.Rooted step.before.configuration) (hfull : step.before.history.Full)
    (hs : s ∈ step.raised) :
    s ∈ step.after.configuration ∨ ∃ t ∈ step.taken, step.Shifts c t s := by
  obtain ⟨f, hf, q, hq, hor⟩ := raised_cases hon hs
  have hparent := parent_after hon hplain hrooted hfull hf hq
  rcases hor with rfl | ⟨hnot, hqs⟩
  · exact hparent.imp_right fun h => h.2.2
  · have hqa := hparent.resolve_right fun h => hnot h.1
    exact (parent_after hon hplain hrooted hfull hqa hqs).imp_right fun h => h.2.2

/-- What a step on a chart signals, and what it leaves when it completes the machine. -/
structure Finishing (c : Chart D) (earlier : List (Settled D)) (step : Settled D) : Prop where
  /-- Every state signalled is in its final state. -/
  final : ∀ s ∈ step.raised, c.inFinalState step.after.isActive s
  /-- As long as no domain was shifted, it is active as well, unless one is shifted into it now. -/
  active : (∀ e ∈ earlier, e.Steady) → ∀ s ∈ step.raised,
    s ∈ step.after.configuration ∨ ∃ t ∈ step.taken, step.Shifts c t s
  /-- If that is the domain of the only transition taken, the state is left for good. -/
  inactive : (∀ e ∈ earlier, e.Steady) → ∀ t s, step.taken = [t] → step.Shifts c t s →
    s ∉ step.after.configuration
  /-- What is signalled comes last in the queue, and nothing else in it is new but what was sent. -/
  queue : step.after.status = .running → ∃ sent,
    step.after.shell.queue = sent ++ step.raised.map (fun s => .signal (.done s)) ∧
      ∀ w ∈ sent, w ∈ step.before.shell.queue ∨ w.External
  /-- The machine is completed only by its root. -/
  root : step.after.status = .done → (c.isFinal c.root ∧ c.root ∈ step.after.configuration) ∨
    (c.isCompound c.root ∧ ∃ f ∈ step.after.configuration,
      c.parent? f = some c.root ∧ c.isFinal f) ∨
    (c.isParallel c.root ∧ ∀ r ∈ c.substates c.root, c.inFinalState step.after.isActive r)
  /-- Then nothing is left to be done. -/
  nothing : step.after.status = .done → step.raised = [] ∧ step.after.shell.queue = [] ∧
    step.after.timers.pending = [] ∧ step.after.invocations.running = [] ∧
      step.after.launched = step.before.launched

end Settled

/-- A step that completes the machine gets the root into its final state. -/
theorem root_of_done (hon : step.On c) (hm : m₀.status = .running) (h : m₀.Settles step p)
    (hdone : step.after.status = .done) : c.inFinalState step.after.isActive c.root := by
  obtain ⟨q, hq, hiff, -⟩ := raised_of_settles hm h
  obtain ⟨f, -, active, hactive, hmono, hmachine⟩ := ((Progress.noted_of_foldlM
    (p := { machine := step.between }) ((Settled.chart_between hon.cases).trans hon.chart) hq).2
      (hiff.mp hdone)).resolve_left (by simp)
  refine inFinalState_mono c.root (fun x _ _ hx => ?_) (root_of_machine hactive hmachine)
  have hx := hmono x hx
  simp only [Machine.isActive, decide_eq_true_eq] at hx ⊢
  exact (hon.enters.configuration x).mpr ((enterAll_keeps hq).2 x |>.mp hx)

/-- A step that stops the machine signals nothing and leaves nothing in the queue. -/
theorem nothing_of_stop {m' : Machine D} (h : m.Settling step m') (hlive : ¬ step.Live) :
    step.raised = [] ∧ step.after.shell.queue = [] := by
  cases h with
  | turn _ hturn hstep | turnPanicked _ hturn hstep =>
    exact absurd (effects_of_settles (turn_passes hturn).2.1 hstep).status hlive
  | @stop m₁ o hup hstop hdown =>
    constructor
    · exact Settled.raised_eq (p := { machine := m₁ }) rfl
    · have hstarted : m.status ≠ .notStarted := by rcases hup with h | h <;> simp [h]
      exact List.subset_nil.mp ((teardown_leads hdown).quiet hstarted hstop.stopRequested)

/-- A step of a run signals states in their final states, which are active unless a domain is or was
shifted; it completes the machine only if the root is in its final state, and leaves nothing to
be done then. A step that stops the machine signals nothing. -/
theorem finishing_of_run (hrun : Run c steps m) (he : steps = later ++ step :: earlier) :
    (step.Live → step.Finishing c earlier) ∧
      (¬ step.Live → step.raised = [] ∧ step.after.shell.queue = []) := by
  refine ⟨fun hlive => ?_, fun hlive => ?_⟩
  · obtain ⟨hon, hplain, hkept⟩ := rooted_of_run hrun later step earlier he hlive
    have hmem : step ∈ steps := he ▸ List.mem_append_right _ (List.mem_cons_self ..)
    obtain ⟨m₀, p, hm₀, hsettles⟩ := settles_of_run hrun step hmem hlive
    have heffects := effects_of_settles hm₀ hsettles
    refine ⟨fun s hs => Settled.final_of_raised hon hs, fun hsteady s hs => ?_,
      fun hsteady t s htaken hshifts => ?_, fun hstatus => ?_, fun hdone => ?_, fun hdone => ?_⟩
    · obtain ⟨hrooted, hfull⟩ := hkept hsteady
      exact Settled.active_of_raised hon hplain hrooted hfull hs
    · obtain ⟨hrooted, hfull⟩ := hkept hsteady
      exact Settled.inactive_of_shifts hon hplain hrooted hfull htaken hshifts
    · obtain ⟨sent, hqueue, hsent, -⟩ := heffects.queue hstatus
      rw [(before_of_settles hsettles).1]
      exact ⟨sent, hqueue, hsent⟩
    · have hroot := root_of_done hon hm₀ hsettles hdone
      rcases inFinalState_cases hroot with hk | hk | hk
      · obtain ⟨f, hf, hfinal, hactive⟩ := (inFinalState_compound hk).mp hroot
        exact Or.inr (Or.inl ⟨hk, f, of_decide_eq_true hactive, hf, hfinal⟩)
      · exact Or.inr (Or.inr ⟨hk, (inFinalState_parallel hk).mp hroot⟩)
      · rw [inFinalState_final hk] at hroot
        exact Or.inl ⟨hk, of_decide_eq_true hroot⟩
    · obtain ⟨htimers, hrunning, hqueue, hraised⟩ := heffects.done hdone
      obtain ⟨q, hq, hiff, -⟩ := raised_of_settles hm₀ hsettles
      refine ⟨hraised, hqueue, htimers, hrunning, ?_⟩
      rw [(table_of_settles hm₀ hsettles).launched, Settled.launches_eq hq, if_pos (hiff.mp hdone),
        List.append_nil]
  · obtain ⟨m₁, m₂, -, hsettling⟩ := run_split hrun later step earlier he
    exact nothing_of_stop hsettling hlive

/-! ## A studio -/

inductive StudioState | studio | session | take | recording | wrapped | memory
deriving DecidableEq

/-- A studio in which one take is recorded in a session. A second after the take is begun, the
session goes on where it was. -/
def studioTree : StateTree (.bare StudioState) :=
  .bare .studio (.compound .session) []
    [.bare .session .parallel []
      [.bare .take (.compound .recording) [.bareOn (.after (.ofMillis 1000)) .memory]
        [.bare .recording .atomic [.bare "cut" .wrapped], .bare .wrapped .final],
      .node { id := .memory, kind := .history .deep, fallback := some .take } []]]

def studio : Chart (.bare StudioState) :=
  { studioTree.outline with tree := studioTree, outline_eq := rfl, flawless := by cbv }

/-- A take that is wrapped up completes the session. -/
theorem studio_finishes : ∃ m step earlier, Run studio (step :: earlier) m ∧ step.Live ∧
    step.raised = [.take, .session] ∧ step.Finishing studio earlier ∧
      ∀ s ∈ step.raised, s ∈ step.after.configuration := by
  have hrun := studio.run_trace [.start]
  have hcalled : ((studio.machine.trace [.start]).2.called? (.send "cut")).map (fun (step, _) =>
      (step.after.status, step.raised,
        step.taken.map fun t => (step.before.domain? t, step.between.domain? t))) =
      some (.running, [.take, .session], [(some .take, some .take)]) := by cbv
  have htaken : (studio.machine.trace [.start]).1.map Settled.taken = [[]] := by cbv
  obtain ⟨⟨step, m⟩, hstep, he⟩ := Option.map_eq_some_iff.mp hcalled
  simp only [Prod.mk.injEq] at he
  obtain ⟨hstatus, hraised, hdomains⟩ := he
  have hrun := run_called? hrun hstep
  have hfinishing := (finishing_of_run hrun (List.nil_append _).symm).1 (Or.inl hstatus)
  refine ⟨m, step, _, hrun, Or.inl hstatus, hraised, hfinishing, fun s hs => ?_⟩
  refine (hfinishing.active (fun e he t ht => ?_) s hs).resolve_right fun h => ?_
  · have hnone := htaken ▸ List.mem_map_of_mem (f := Settled.taken) he
    rw [List.mem_singleton.mp hnone] at ht
    exact absurd ht List.not_mem_nil
  · -- the transition that wraps the take up stays within the take
    obtain ⟨t, ht, -, d, hd, hne⟩ := h
    have hmem := hdomains ▸ List.mem_map_of_mem
      (f := fun t => (step.before.domain? t, step.between.domain? t)) ht
    rw [List.mem_singleton, Prod.mk.injEq] at hmem
    exact hne (hmem.1.trans (hmem.2.symm.trans hd))

/-- The studio a second after it was opened, with the take wrapped up. -/
def waitedStudio : Machine (.bare StudioState) :=
  (studio.machine.after 9 [.start, .send "cut"]).setClock (.ofMillis 1000)

/-- A session that goes on where it was is left and not entered again, and it is signalled since its
take is wrapped. -/
theorem studio_signals_left : ∃ steps m, Run studio steps m ∧ ∃ step ∈ steps, step.Live ∧
    ∃ s ∈ step.raised, s ∉ step.after.configuration := by
  obtain ⟨steps, hrun⟩ := studio.run_after 9 [.start, .send "cut"]
  have hwaited : Move _ waitedStudio := .outside
  have hcalled : (waitedStudio.called? .tick).map
      (fun (step, _) => (step.after.status, step.raised, step.after.configuration.elems)) =
      some (.running, [.take, .session], [.studio, .take, .wrapped]) := by cbv
  obtain ⟨⟨step, m⟩, hstep, he⟩ := Option.map_eq_some_iff.mp hcalled
  simp only [Prod.mk.injEq] at he
  obtain ⟨hstatus, hraised, hconf⟩ := he
  refine ⟨_, m, run_called? (hrun.move hwaited) hstep, step, List.mem_cons_self .., Or.inl hstatus, .session, ?_, ?_⟩
  · simp [hraised]
  · simp [StateSet.mem_def, hconf]

end Statechart
