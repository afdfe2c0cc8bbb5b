import Statechart.Proofs.Run

/-!
# What holds along a run

Moves leave the states and their history alone as long as the machine lives (`move_cases`),
and steps go from what one step left to what the next one leaves (`settling_cases`). So what
holds of a fresh machine and is kept by every step holds at every moment of a run
(`run_invariant`), and before each of its steps (`run_step`). What is kept may speak of the
steps so far, the configuration and the history.
-/

namespace Statechart.Machine

variable {D : Domain} {c : Chart D} {m m' : Machine D} {steps : List (Settled D)}
  {step : Settled D}

/-- Whether the machine's life is over. -/
def Ended (m : Machine D) : Prop := m.status = .stopped ∨ m.status = .faulted

theorem not_ended_of_up (h : m.Up) : ¬ m.Ended := by
  intro he
  rcases h with h | h <;> rcases he with he | he <;> simp [h] at he

theorem settling_status (h : m.Settling step m') : m.Up := by
  cases h with
  | turn _ hturn _ _ => exact Or.inl (nextTurn_process hturn).1
  | turnPanicked _ hturn _ _ => exact Or.inl (nextTurn_process hturn).1
  | stop hup _ _ _ => exact hup

/-- A move ends the machine's life, or leaves its states and their history alone. -/
theorem move_cases (h : m.Move m') :
    m'.Ended ∨ (¬ m.Ended ∧ m'.chart = m.chart ∧ m'.history = m.history ∧
      m'.configuration = m.configuration) := by
  cases h with
  | call hr =>
    refine Or.inr ⟨fun hend => ?_, rfl, rfl, rfl⟩
    have hne : m.shell.status ≠ .notStarted := by
      rcases hend with hend | hend <;> exact fun h => by simp [status, h] at hend
    have hs := Shell.up_of_receive hr
    rw [Shell.receive_status hne hr] at hs
    exact not_ended_of_up hs hend
  | result hlive _ =>
    exact Or.inr ⟨not_ended_of_up (up_of_isLive hlive), rfl, rfl, rfl⟩
  | skip _ hturn =>
    have he := nextTurn_skip hturn
    by_cases hend : m.Ended
    · refine Or.inl ?_
      rw [he]
      exact hend
    · refine Or.inr ⟨hend, ?_⟩
      rw [he]
      exact ⟨rfl, rfl, rfl⟩
  | @pass m₀ signal later p _ hturn hproc hp =>
    obtain ⟨hstatus, he⟩ := nextTurn_process hturn
    refine Or.inr ⟨not_ended_of_up (Or.inl hstatus), ?_⟩
    rcases process_cases hproc with ⟨inv, -, rfl⟩ | ⟨step, hstep, -⟩
    · have hm : m₀.chart = m.chart ∧ m₀.history = m.history ∧
          m₀.configuration = m.configuration := by
        rw [he]
        exact ⟨rfl, rfl, rfl⟩
      exact hm
    · rw [(settled_of_settles hstep).1] at hp
      exact absurd hp (by simp)
  | fault _ _ _ => exact Or.inl (Or.inr rfl)
  | faultStopping _ _ _ => exact Or.inl (Or.inr rfl)
  | outside =>
    by_cases hend : m.Ended
    · exact Or.inl hend
    · exact Or.inr ⟨hend, rfl, rfl, rfl⟩

/-- A machine that settles a step is stopped by it, or goes on from what the step left. -/
theorem settling_cases (h : m.Settling step m') :
    (m'.Ended ∧ ¬ step.Live) ∨ ((m.chart = c → step.On c) ∧
      step.before.history = m.history ∧ step.before.configuration = m.configuration ∧
      m'.chart = step.after.chart ∧ m'.history = step.after.history ∧
      m'.configuration = step.after.configuration) := by
  have hturns : ∀ {m₀ later p}, m.nextTurn = .process m₀ step.signal later → m₀.Settles step p →
      ((m.chart = c → step.On c) ∧ step.before.history = m.history ∧
        step.before.configuration = m.configuration) ∧ step.after = absorb p := by
    intro m₀ later p hturn hstep
    obtain ⟨hstatus, he⟩ := nextTurn_process hturn
    have hm : m₀.chart = m.chart ∧ m₀.history = m.history ∧ m₀.configuration = m.configuration ∧
        m₀.status = .running := by
      rw [he]
      exact ⟨rfl, rfl, rfl, hstatus⟩
    obtain ⟨hchart, hhistory, hconf, hrunning⟩ := hm
    obtain ⟨henters, ⟨hchart', hhistory', hconf'⟩, hcases⟩ := settles_cases hstep
    obtain ⟨-, hafter⟩ := settled_of_settles hstep
    have hlive : step.Live := by
      have hs := settles_status hstep (by rw [hrunning]; simp)
      rw [hrunning] at hs
      rw [Settled.Live, hafter]
      exact hs
    exact ⟨⟨fun hc => ⟨hchart'.trans (hchart.trans hc), hlive, henters, hcases⟩,
      hhistory'.trans hhistory, hconf'.trans hconf⟩, hafter⟩
  cases h with
  | turn _ hturn hstep _ | turnPanicked _ hturn hstep _ =>
    obtain ⟨⟨hon, hhistory, hconf⟩, hafter⟩ := hturns hturn hstep
    exact Or.inr ⟨hon, hhistory, hconf, by rw [hafter]; rfl, by rw [hafter]; rfl, by rw [hafter]; rfl⟩
  | @stop m₁ o hup hstop hdown hfin =>
    refine Or.inl ⟨Or.inl ?_, fun hlive => not_ended_of_up hlive (Or.inl rfl)⟩
    rcases finish_cases hfin with ⟨_, _, hbad, -⟩ | ⟨m₂, _, _, -, rfl, rfl⟩
    · exact absurd (hdown.symm.trans hbad) (by simp)
    · exact notify_status (m := { m₂ with shell := { m₂.shell with status := .stopped } })
        (by simp [status])

variable {P : List (Settled D) → StateSet D.State → History D.State → Prop}

/-- What holds of a fresh machine and is kept by every step holds as long as the machine lives. -/
theorem run_invariant
    (hfresh : ∀ configuration history, configuration.elems = [] → history.records = [] →
      P [] configuration history)
    (hstep : ∀ steps step, step.On c → P steps step.before.configuration step.before.history →
      P (step :: steps) step.after.configuration step.after.history)
    (hrun : Run c steps m) : m.Ended ∨ (m.chart = c ∧ P steps m.configuration m.history) := by
  induction hrun with
  | fresh hc hf => exact Or.inr ⟨hc, hfresh _ _ hf.configuration hf.history⟩
  | move _ hmove ih =>
    rcases move_cases hmove with hend | ⟨hend, hchart, hhistory, hconf⟩
    · exact Or.inl hend
    · rw [hchart, hhistory, hconf]
      exact Or.inr (ih.resolve_left hend)
  | settle _ hsettling ih =>
    obtain ⟨hc, hP⟩ := ih.resolve_left (not_ended_of_up (settling_status hsettling))
    rcases settling_cases hsettling with ⟨hend, -⟩ | ⟨hon, hhistory, hconf, hchart', hhistory', hconf'⟩
    · exact Or.inl hend
    · have hon := hon hc
      rw [hchart', hhistory', hconf', hon.enters.chart]
      refine Or.inr ⟨?_, hstep _ _ hon (by rwa [hconf, hhistory])⟩
      rcases hon.cases with hi | hr
      · rw [hi.same]
        exact hon.chart
      · rw [hr.chart]
        exact hon.chart

/-- Every live step of a run started the machine or took transitions, in a machine of which all
that is kept along the run holds. -/
theorem run_step
    (hfresh : ∀ configuration history, configuration.elems = [] → history.records = [] →
      P [] configuration history)
    (hstep : ∀ steps step, step.On c → P steps step.before.configuration step.before.history →
      P (step :: steps) step.after.configuration step.after.history)
    (hrun : Run c steps m) :
    ∀ later step earlier, steps = later ++ step :: earlier → step.Live →
      step.On c ∧ P earlier step.before.configuration step.before.history := by
  induction hrun with
  | fresh => intro later step earlier he; simp at he
  | move _ _ ih => exact ih
  | settle hrun hsettling ih =>
    intro later step earlier he hlive
    cases later with
    | nil =>
      rw [List.nil_append, List.cons.injEq] at he
      obtain ⟨rfl, rfl⟩ := he
      obtain ⟨hc, hP⟩ := (run_invariant hfresh hstep hrun).resolve_left
        (not_ended_of_up (settling_status hsettling))
      rcases settling_cases hsettling with ⟨-, hend⟩ | ⟨hon, hhistory, hconf, -⟩
      · exact absurd hlive hend
      · exact ⟨hon hc, by rwa [hconf, hhistory]⟩
    | cons _ later =>
      rw [List.cons_append, List.cons.injEq] at he
      exact ih later step earlier he.2 hlive

theorem on_of_run (hrun : Run c steps m) (hstep : step ∈ steps) (hlive : step.Live) :
    step.On c := by
  obtain ⟨later, earlier, he⟩ := List.append_of_mem hstep
  exact (run_step (P := fun _ _ _ => True) (fun _ _ _ _ => trivial)
    (fun _ _ _ _ => trivial) hrun later step earlier he hlive).1

end Statechart.Machine
