import Statechart.Proofs.RunInvariant
import Statechart.Proofs.Turn

/-!
# Pending work and the queue along a run

What `Effects` says of a settled step is carried over to what a run is made of. A move puts
no timer and no invocation on the tables, and to the queue it only adds what comes from
outside (`move_work`). A machine that settles a step goes on with what the step left, the
listeners told, or is stopped with nothing left at all (`settling_work`).

So the signals in the queue have a source: a timer's signal never waits there, and the
signal of a completion was raised by an earlier step (`sourced_of_run`).
-/

namespace Statechart

variable {D : Domain}

namespace Machine

variable {m m' m₀ : Machine D} {step : Settled D}

/-! ## Stopping -/

/-- A machine with no timer pending and no invocation running. -/
def Idle (m : Machine D) : Prop := m.timers.pending = [] ∧ m.invocations.running = []

theorem fault_work (m : Machine D) (d : Defect D.State) : (m.fault d).machine.status = .faulted ∧
    (m.fault d).machine.Idle ∧ (m.fault d).machine.shell.queue = [] :=
  ⟨rfl, ⟨Timers.pending_clear _, rfl⟩, rfl⟩

/-- Nothing is left to do for a machine that was stopped. -/
theorem finish_work {o : Outcome D} (hm : m.status ≠ .notStarted)
    (hstop : m.shell.stopRequested = true) (h : m.finish = some o) :
    o.machine.Ended ∧ o.machine.Idle ∧ o.machine.shell.queue = [] := by
  rcases finish_cases h with ⟨m₁, d, -, rfl⟩ | ⟨m₁, told, _, hdown, rfl, rfl⟩
  · obtain ⟨hstatus, hidle, hqueue⟩ := fault_work m₁ d
    exact ⟨Or.inr hstatus, hidle, hqueue⟩
  · -- nobody is admitted any more, so the queue stays empty to the end
    have hleads := teardown_leads hdown
    have hempty : m₁.shell.queue = [] := List.subset_nil.mp (hleads.quiet hm hstop)
    have hidle := teardown_work hdown
    have htold := notify_leads (m := { m₁ with shell := { m₁.shell with status := .stopped } })
    have hqueue := List.subset_nil.mp (hempty ▸ htold.quiet (by simp) (hleads.stop hstop))
    exact ⟨Or.inl (htold.status (by simp)), hidle, hqueue⟩

/-! ## Moves -/

/-- What a move makes of the pending work and the queue. -/
structure Passes (m m' : Machine D) : Prop where
  configuration : m'.configuration = m.configuration
  status : m'.status = m.status ∨ (m.status = .notStarted ∧ m'.status = .running)
  timers : m'.timers.pending ⊆ m.timers.pending
  epoch : m'.timers.nextEpoch = m.timers.nextEpoch
  invocations : m'.invocations.states ⊆ m.invocations.states
  queue : ∀ w ∈ m'.shell.queue, w ∈ m.shell.queue ∨ w.External

/-- A turn takes work out of the queue and, with work that fires timers, the first timer due. -/
theorem turn_passes {signal : Signal D} {later : List (Work D)}
    (h : m.nextTurn = .process m₀ signal later) :
    m.Passes m₀ ∧ m₀.status = .running ∧ ∀ w ∈ later, w.External := by
  obtain ⟨rest, hstatus, ⟨hqueue, rfl, rfl⟩ | ⟨now, horizon, t, timers, hqueue, rfl, hpop, -, rfl⟩⟩ :=
    nextTurn_cases h
  · refine ⟨⟨rfl, Or.inl rfl, List.Subset.refl _, rfl, List.Subset.refl _, fun w hw => ?_⟩, hstatus,
      fun w hw => absurd hw List.not_mem_nil⟩
    exact Or.inl (hqueue ▸ List.mem_cons_of_mem _ hw)
  · obtain ⟨-, hepoch, hpending⟩ := Timers.popDue_spec hpop
    refine ⟨⟨rfl, Or.inl rfl, fun x hx => ((hpending x).mp hx).1, hepoch, List.Subset.refl _,
      fun w hw => ?_⟩, hstatus, fun w hw => ?_⟩
    · exact Or.inl (hqueue ▸ List.mem_cons_of_mem _ hw)
    · rw [List.mem_singleton.mp hw]
      trivial

/-- A move faults the machine, or puts no timer and no invocation on the tables. -/
theorem move_work (h : m.Move m') :
    (m'.status = .faulted ∧ m'.Idle ∧ m'.shell.queue = []) ∨ m.Passes m' := by
  cases h with
  | call hr =>
    have hleads := Shell.receive_leads hr
    refine Or.inr ⟨rfl, ?_, List.Subset.refl _, rfl, List.Subset.refl _, hleads.joined⟩
    by_cases hs : m.shell.status = .notStarted
    · exact Or.inr ⟨hs, Shell.running_of_receive hs hr⟩
    · exact Or.inl (hleads.status hs)
  | @result s id invocations result _ hsettle =>
    refine Or.inr ⟨rfl, Or.inl rfl, List.Subset.refl _, rfl, ?_, fun w hw => ?_⟩
    · have hstates := Invocations.states_settle hsettle
      exact hstates ▸ List.Subset.refl _
    · rcases List.mem_append.mp hw with hw | hw
      · exact Or.inl hw
      · rw [List.mem_singleton.mp hw]
        cases result <;> exact Or.inr trivial
  | skip _ hturn =>
    obtain ⟨work, hqueue, -⟩ := nextTurn_skip_cases hturn
    have he := nextTurn_skip hturn
    refine Or.inr ?_
    rw [he]
    refine ⟨rfl, Or.inl rfl, List.Subset.refl _, rfl, List.Subset.refl _, fun w hw => Or.inl ?_⟩
    exact hqueue ▸ List.mem_cons_of_mem _ hw
  | @pass m₀ signal later p _ hturn hproc hp =>
    obtain ⟨hpasses, hstatus, hlater⟩ := turn_passes hturn
    rcases process_cases hproc with ⟨invocations, hrunning, rfl⟩ | ⟨step, hstep, -⟩
    · rw [absorb_same]
      refine Or.inr ⟨hpasses.configuration, hpasses.status, hpasses.timers, hpasses.epoch,
        List.Subset.trans (List.map_subset _ hrunning) hpasses.invocations, fun w hw => ?_⟩
      rcases List.mem_append.mp hw with hw | hw
      · exact hpasses.queue w hw
      · exact Or.inr (hlater w hw)
    · rw [(settled_of_settles hstep).1] at hp
      exact absurd hp (by simp)
  | fault _ _ _ => exact Or.inl (fault_work _ _)
  | faultStopping _ _ _ => exact Or.inl (fault_work _ _)
  | outside =>
    exact Or.inr ⟨rfl, Or.inl rfl, List.Subset.refl _, rfl, List.Subset.refl _, fun w hw => Or.inl hw⟩

end Machine

/-! ## Steps -/

/-- How a machine goes on from a step that it has settled. -/
structure Settled.Continues (step : Settled D) (m' : Machine D) : Prop where
  configuration : m'.configuration = step.after.configuration
  status : m'.status = step.after.status
  timers : m'.timers = step.after.timers
  invocations : m'.invocations = step.after.invocations
  queue : ∀ w ∈ m'.shell.queue, w ∈ step.after.shell.queue ∨ w.External

/-! ## Where the signals in the queue come from -/

/-- Work that can wait in the queue after some steps. -/
def Work.Sourced (steps : List (Settled D)) : Work D → Prop
  | .signal (.timer ..) => False
  | .signal (.done s) => ∃ step ∈ steps, s ∈ step.raised
  | _ => True

namespace Machine

variable {c : Chart D} {m m' m₀ : Machine D} {steps : List (Settled D)} {step : Settled D}
  {p : Progress D}

theorem continues_notify (hafter : step.after = absorb p) (hup : step.after.Up)
    {later : List (Work D)} (hlater : ∀ w ∈ later, w.External) :
    step.Continues ((absorb p).notify.machine.enqueueAll later) := by
  rw [← hafter]
  have hstarted : step.after.status ≠ .notStarted := by
    rcases hup with h | h <;> simp [h]
  refine ⟨rfl, notify_status hstarted, rfl, rfl, fun w hw => ?_⟩
  rcases List.mem_append.mp hw with hw | hw
  · exact notify_leads.joined w hw
  · exact Or.inr (hlater w hw)

/-- A machine that settles a step is stopped with nothing left to do, or took the signal out of
its queue and goes on from what the step left. -/
theorem settling_work (h : m.Settling step m') :
    (¬ step.Live ∧ m'.Ended ∧ m'.Idle ∧ m'.shell.queue = []) ∨
      ∃ m₀ later p, m.nextTurn = .process m₀ step.signal later ∧ m₀.Settles step p ∧
        step.Effects m₀ ∧ step.Continues m' := by
  have hturns : ∀ {m₀ later p later'}, m.nextTurn = .process m₀ step.signal later →
      m₀.Settles step p → later' ⊆ later →
      m' = (absorb p).notify.machine.enqueueAll later' →
      ∃ m₀ later p, m.nextTurn = .process m₀ step.signal later ∧ m₀.Settles step p ∧
        step.Effects m₀ ∧ step.Continues m' := by
    intro m₀ later p later' hturn hstep hsub he
    obtain ⟨-, hstatus, hlater⟩ := turn_passes hturn
    have heffects := effects_of_settles hstatus hstep
    refine ⟨m₀, later, p, hturn, hstep, heffects, ?_⟩
    rw [he]
    exact continues_notify (settled_of_settles hstep).2 heffects.status
      fun w hw => hlater w (hsub hw)
  cases h with
  | turn _ hturn hstep _ => exact Or.inr (hturns hturn hstep (List.Subset.refl _) rfl)
  | turnPanicked _ hturn hstep _ =>
    refine Or.inr (hturns hturn hstep (List.nil_subset _) ?_)
    simp [enqueueAll]
  | stop hup hstop hdown hfin =>
    refine Or.inl ⟨fun hlive => not_ended_of_up hlive (Or.inl rfl), finish_work ?_ hstop.stopRequested hfin⟩
    rcases hup with h | h <;> simp [h]

/-! ## Along a run -/

/-- Every step of a run was settled by a machine at a moment of the run. -/
theorem run_split (hrun : Run c steps m) : ∀ later step earlier, steps = later ++ step :: earlier →
    ∃ m₁ m₂, Run c earlier m₁ ∧ m₁.Settling step m₂ := by
  induction hrun with
  | fresh => intro later step earlier he; simp at he
  | move _ _ ih => exact ih
  | settle hrun hsettling ih =>
    intro later step earlier he
    cases later with
    | nil =>
      rw [List.nil_append, List.cons.injEq] at he
      obtain ⟨rfl, rfl⟩ := he
      exact ⟨_, _, hrun, hsettling⟩
    | cons _ later =>
      rw [List.cons_append, List.cons.injEq] at he
      exact ih later step earlier he.2

/-- A machine that is running has been running after all its steps. -/
theorem running_of_run (hrun : Run c steps m) : (m.status = .notStarted → steps = []) ∧
    (m.status = .running → ∀ e ∈ steps, e.after.status = .running) := by
  induction hrun with
  | fresh => exact ⟨fun _ => rfl, fun _ e he => absurd he List.not_mem_nil⟩
  | move _ hmove ih =>
    rcases move_work hmove with ⟨hstatus, -⟩ | hpasses
    · exact ⟨fun h => by simp [hstatus] at h, fun h => by simp [hstatus] at h⟩
    · rcases hpasses.status with hs | ⟨hs, hs'⟩
      · rw [hs]
        exact ih
      · refine ⟨fun h => by simp [hs'] at h, fun _ e he => ?_⟩
        rw [ih.1 hs] at he
        exact absurd he List.not_mem_nil
  | settle _ hsettling ih =>
    rcases settling_work hsettling with ⟨-, hend, -⟩ |
      ⟨m₀, later, p, hturn, -, heffects, hgoes⟩
    · refine ⟨fun h => ?_, fun h => ?_⟩ <;> rcases hend with hend | hend <;> simp [hend] at h
    · rw [hgoes.status]
      refine ⟨fun h => ?_, fun h e he => ?_⟩
      · rcases heffects.status with hs | hs <;> simp [hs] at h
      · rcases List.mem_cons.mp he with rfl | he
        · exact h
        · exact ih.2 (nextTurn_process hturn).1 e he

/-- Every live step of a run was settled by a running machine. -/
theorem settles_of_run (hrun : Run c steps m) : ∀ step ∈ steps, step.Live →
    ∃ (m₀ : Machine D) (p : Progress D), m₀.status = .running ∧ m₀.Settles step p := by
  induction hrun with
  | fresh => exact fun step h => absurd h List.not_mem_nil
  | move _ _ ih => exact ih
  | settle _ hsettling ih =>
    intro step h hlive
    rcases List.mem_cons.mp h with rfl | h
    · rcases settling_work hsettling with ⟨hend, -⟩ | ⟨m₀, later, p, hturn, hstep, -⟩
      · exact absurd hlive hend
      · exact ⟨m₀, p, (turn_passes hturn).2.1, hstep⟩
    · exact ih step h hlive

theorem sourced_of_external {w : Work D} (h : w.External) : w.Sourced steps := by
  cases w with
  | timers now horizon => trivial
  | signal signal =>
    cases signal with
    | timer | done => exact h.elim
    | _ => trivial

theorem sourced_cons {w : Work D} (h : w.Sourced steps) : w.Sourced (step :: steps) := by
  unfold Work.Sourced at h ⊢
  split at h
  · exact h
  · obtain ⟨origin, ho, hs⟩ := h
    exact ⟨origin, List.mem_cons_of_mem _ ho, hs⟩
  · trivial

/-- A completion in the queue was raised by a step of the run, and no timer waits there. -/
theorem sourced_of_run (hrun : Run c steps m) : ∀ w ∈ m.shell.queue, w.Sourced steps := by
  induction hrun with
  | fresh _ hm =>
    rw [hm.queue]
    exact fun w hw => absurd hw List.not_mem_nil
  | move _ hmove ih =>
    intro w hw
    rcases move_work hmove with ⟨-, -, hqueue⟩ | hpasses
    · rw [hqueue] at hw
      exact absurd hw List.not_mem_nil
    · exact (hpasses.queue w hw).elim (ih w) sourced_of_external
  | @settle steps m m' step _ hsettling ih =>
    intro w hw
    rcases settling_work hsettling with ⟨-, -, -, hqueue⟩ | ⟨m₀, later, p, hturn, -, heffects, hgoes⟩
    · rw [hqueue] at hw
      exact absurd hw List.not_mem_nil
    · -- it has waited, was sent by an action, or was raised by the step
      rcases hgoes.queue w hw with hw | hw
      · rcases heffects.status with hs | hs
        · obtain ⟨sent, hqueue, hsent, -⟩ := heffects.queue hs
          rw [hqueue] at hw
          rcases List.mem_append.mp hw with hw | hw
          · refine (hsent w hw).elim (fun hw => ?_) sourced_of_external
            exact ((turn_passes hturn).1.queue w hw).elim (fun hw => sourced_cons (ih w hw))
              sourced_of_external
          · obtain ⟨s, hs, rfl⟩ := List.mem_map.mp hw
            exact ⟨step, List.mem_cons_self .., hs⟩
        · rw [(heffects.done hs).2.2.1] at hw
          exact absurd hw List.not_mem_nil
      · exact sourced_of_external hw

end Machine

end Statechart
