import Statechart.Proofs.Records
import Statechart.Proofs.Stopping

/-!
# Replaying the journal

A journal is written as steps are settled, from lists that are made apart from what becomes of the
configuration: of the states to be left, and of those to be entered. Whoever reads it later takes
it for the truth. Its records are those of the latest steps, as many as it has room for, numbered
without a gap up to the number of steps settled (`journal_of_goes`). And the configuration follows
from them: replayed one after another from nothing they lead to what is active now
(`configuration_of_goes`), whether a step started the machine, took transitions, completed it or
tore it down.

The exception is a machine that was faulted. It may have been on its way between two configurations,
and of that way there is no record.
-/

namespace Statechart

variable {D : Domain}

/-! ## Records -/

namespace StepRecord

variable {S T : Type} [DecidableEq S]

/-- What is active after a step, by its record. -/
def replay (r : StepRecord S T) (set : StateSet S) : StateSet S :=
  .ofList (set.elems.filter (· ∉ r.exited) ++ r.entered)

/-- What is active in the end, by the records of all steps. -/
def replayAll (records : List (StepRecord S T)) : StateSet S :=
  records.foldl (fun set r => r.replay set) .empty

@[simp] theorem mem_replay {r : StepRecord S T} {set : StateSet S} {s : S} :
    s ∈ r.replay set ↔ (s ∈ set ∧ s ∉ r.exited) ∨ s ∈ r.entered := by
  rw [replay, StateSet.mem_ofList, List.mem_append, List.mem_filter, StateSet.mem_def,
    decide_eq_true_eq]

theorem replayAll_concat (records : List (StepRecord S T)) (r : StepRecord S T) :
    replayAll (records ++ [r]) = r.replay (replayAll records) := by
  simp [replayAll]

end StepRecord

namespace Settled

/-- The record of a step. -/
def record (step : Settled D) : StepRecord D.State Timestamp :=
  { step := step.after.step
    trigger := step.signal.describe
    exited := step.exited
    entered := step.entered
    stamp := step.after.settledAt step.after.step }

/-- The records of steps that are listed the latest first, oldest first. -/
def records (steps : List (Settled D)) : List (StepRecord D.State Timestamp) :=
  (steps.map record).reverse

variable {step : Settled D} {steps : List (Settled D)}

theorem records_cons : records (step :: steps) = records steps ++ [step.record] := by
  simp [records]

@[simp] theorem length_records : (records steps).length = steps.length := by simp [records]

/-- The lists of a step are the truth: what it exits was active, and the configuration after it is
the one before it without what is exited and with what is entered. -/
structure Truthful (step : Settled D) : Prop where
  exited : ∀ s ∈ step.exited, s ∈ step.before.configuration
  after : ∀ s, s ∈ step.after.configuration ↔
    (s ∈ step.before.configuration ∧ s ∉ step.exited) ∨ s ∈ step.entered

end Settled

/-- A journal with room for one more record, or one that gives up its oldest. -/
theorem Journal.drop_record {S T : Type} {j : Journal S T} {all : List (StepRecord S T)}
    {r : StepRecord S T} (h : j.records = all.drop (all.length - j.capacity)) :
    (j.record r).records = (all ++ [r]).drop ((all ++ [r]).length - j.capacity) := by
  have hroom : all.length - j.capacity ≤ all.length := Nat.sub_le ..
  have hfirst : j.records ++ [r] = (all ++ [r]).drop (all.length - j.capacity) := by
    rw [h, List.drop_append_of_le_length hroom]
  unfold record
  dsimp only
  rw [hfirst, List.drop_drop, List.length_drop]
  congr 1
  rw [List.length_append, List.length_singleton]
  omega

namespace Machine

variable {c : Chart D} {m m' m₀ m₁ : Machine D} {signal : Signal D} {step : Settled D}
  {p : Progress D} {e : Event D} {log : List (Event D)} {steps : List (Settled D)}

/-- What the journal of a machine tells that has settled some steps since `m₀`. -/
structure Journaled (m₀ : Machine D) (steps : List (Settled D)) (m : Machine D) : Prop where
  capacity : m.journal.capacity = m₀.journal.capacity
  /-- The latest steps are recorded, as many as there is room for. -/
  latest : m.journal.records <:+ Settled.records steps
  size : m.journal.size = min m₀.journal.capacity steps.length
  /-- They are numbered without a gap, up to the number of the snapshot. -/
  numbers : m.journal.records.map (·.step) =
    List.range' (m.snapshot.step + 1 - m.journal.size) m.journal.size
  counted : m.snapshot.step = steps.length
  /-- Every step starts where the records of those before it lead to. -/
  before : ∀ later step earlier, steps = later ++ step :: earlier →
    ∀ s, s ∈ step.before.configuration ↔ s ∈ StepRecord.replayAll (Settled.records earlier)
  truthful : ∀ step ∈ steps, step.Truthful
  now : m.status ≠ .faulted →
    ∀ s, s ∈ m.configuration ↔ s ∈ StepRecord.replayAll (Settled.records steps)
  /-- If the journal had room for all records, it is enough to read the journal. -/
  whole : m.status ≠ .faulted → steps.length ≤ m₀.journal.capacity →
    ∀ s, s ∈ m.configuration ↔ s ∈ StepRecord.replayAll m.journal.records

/-! ## Moves and steps -/

theorem move_of_does (h : m.Does e m') (he : e.step = none) : m.Move m' := by
  cases h with
  | call hr => exact .call hr
  | result hlive hsettle => exact .result hlive hsettle
  | discard hstop _ hturn | idle hstop _ hturn => exact .skip hstop hturn
  | pass hstop hturn hproc hp => exact .pass hstop hturn hproc hp
  | fault hstop hturn hproc => exact .fault hstop hturn hproc
  | turn | turnPanicked | stop => exact absurd he (by simp)
  | faultStopping hup hstop hdown => exact .faultStopping hup hstop hdown
  | outside => exact .outside

theorem settling_of_does (h : m.Does e m') (he : e.step = some step) : m.Settling step m' := by
  cases h with
  | call | result | discard | idle | pass | fault | faultStopping | outside =>
    exact absurd he (by simp)
  | turn hstop hturn hstep _ _ hgood =>
    exact Option.some.inj he ▸ .turn hstop hturn hstep hgood
  | turnPanicked hstop hturn hstep _ _ hbad =>
    exact Option.some.inj he ▸ .turnPanicked hstop hturn hstep hbad
  | stop hup hstop hdown hfin => exact Option.some.inj he ▸ .stop hup hstop hdown hfin

theorem faulted_of_does (h : m.Does e m') (hm : m.status = .faulted) : m'.status = .faulted :=
  (unmoved_of_does (Or.inr hm) h).1.status.trans hm

/-- A move records nothing, and unless it faults the machine it leaves the states alone. -/
theorem journal_of_move (h : m.Move m') :
    m'.journal = m.journal ∧ m'.step = m.step ∧
      (m'.status ≠ .faulted → m'.configuration = m.configuration) := by
  have hfault : ∀ {m₁ d}, m.Hits m₁ d →
      (m₁.fault d).machine.journal = m.journal ∧ (m₁.fault d).machine.step = m.step ∧
        ((m₁.fault d).machine.status ≠ .faulted →
          (m₁.fault d).machine.configuration = m.configuration) := by
    intro m₁ d hhits
    obtain ⟨m₀, hm₀, halters, -⟩ := hits_cases hhits
    have hleft := unsettled_of_alters halters
    exact ⟨hleft.journal.trans (by rw [hm₀]), hleft.step.trans (by rw [hm₀]),
      fun hs => absurd rfl hs⟩
  cases h with
  | call | result | outside => exact ⟨rfl, rfl, fun _ => rfl⟩
  | skip _ hturn =>
    rw [nextTurn_skip hturn]
    exact ⟨rfl, rfl, fun _ => rfl⟩
  | pass _ hturn hproc hp =>
    rcases process_cases hproc with ⟨invocations, -, rfl⟩ | ⟨step, hstep, -⟩
    · rw [absorb_same, (nextTurn_process hturn).2]
      exact ⟨rfl, rfl, fun _ => rfl⟩
    · rw [(settled_of_settles hstep).1] at hp
      exact absurd hp (by simp)
  | fault hstop hturn hproc => exact hfault (.processing hstop hturn hproc)
  | faultStopping hup hstop hdown => exact hfault (.stopping hup hstop hdown)

/-- Handing over what a step launched neither counts nor records anything. -/
theorem absorb_journal (p : Progress D) :
    (absorb p).journal = p.machine.journal ∧ (absorb p).step = p.machine.step ∧
      (absorb p).settledAt = p.machine.settledAt := by
  have hfold : ∀ (l : List (Launch D)) (m : Machine D),
      (l.foldl handOver m).journal = m.journal ∧ (l.foldl handOver m).step = m.step ∧
        (l.foldl handOver m).settledAt = m.settledAt := by
    intro l
    induction l with
    | nil => exact fun m => ⟨rfl, rfl, rfl⟩
    | cons a l ih => exact fun m => ih (m.handOver a)
  unfold absorb
  dsimp only
  split
  · exact ⟨rfl, rfl, rfl⟩
  · obtain ⟨hjournal, hstep, hstamps⟩ := hfold p.launches
      (p.machine.enqueueAll (p.raised.map fun s => .signal (.done s)))
    exact ⟨hjournal, hstep, hstamps⟩

/-- Until a step is settled nothing is counted or recorded. -/
theorem between_of_settles (h : m.Settles step p) :
    step.between.journal = m.journal ∧ step.between.step = m.step := by
  have hstage := sameStage_of_settles h
  cases h with
  | initial => exact ⟨rfl, rfl⟩
  | reaction _ _ _ _ _ hleft hbetween _ _ =>
    have hkeeps := keeps_trans (exitStates_keeps hleft).1 (runTransitions_keeps hbetween).1
    exact ⟨hkeeps.journal.trans hstage.journal, hkeeps.step.trans hstage.step⟩

theorem journal_of_settles (h : m.Settles step p) :
    step.after.journal = m.journal.record step.record ∧ step.after.step = m.step + 1 := by
  obtain ⟨p', henter, hp⟩ := entering_of_settles h
  obtain ⟨hjournal, hstep⟩ := between_of_settles h
  have hkeeps := keeps_trans (enterAll_keeps henter).1 (Progress.close_keeps (p := p')).1
  have hnumber : p.machine.step = m.step + 1 := by
    rw [hp]
    exact congrArg (· + 1) (hkeeps.step.trans hstep)
  obtain ⟨hj, hs, hstamps⟩ := absorb_journal p
  rw [← (settled_of_settles h).2] at hj hs hstamps
  refine ⟨?_, hs.trans hnumber⟩
  rw [hj, Settled.record, hs, hstamps, hnumber, hp]
  change p'.close.machine.journal.record _ = _
  rw [hkeeps.journal, hjournal, hkeeps.step, hstep]
  rfl

/-- A machine that has left its states on the way to its end has left them one after another. -/
theorem abandons_of_foldlM : ∀ {l : List D.State} {m : Machine D},
    l.foldlM (fun m s => m.abandonState s) m = .ok m' → m.Abandons l m'
  | [], m, h => by
    rw [List.foldlM_nil, pure_eq_ok] at h
    exact h ▸ .rest
  | s :: l, m, h => by
    rw [List.foldlM_cons, bind_eq_ok] at h
    obtain ⟨m₁, h₁, h⟩ := h
    obtain ⟨n, m₂, hn, hrun, rfl⟩ := exists_of_abandonState h₁
    exact .next hn hrun (abandons_of_foldlM h)

/-- The step in which a machine is torn down. -/
theorem settled_of_teardown
    (h : { m with shell := { m.shell with queue := [] } }.teardown = .ok m₁) :
    ∃ left, m.cleared.Abandons (m.chart.inExitOrder m.configuration.elems) left ∧
      m₁ = left.settle .stop (m.chart.inExitOrder m.configuration.elems) [] := by
  unfold teardown at h
  obtain ⟨left, hleft, h⟩ := bind_eq_ok.mp h
  rw [pure_eq_ok] at h
  exact ⟨left, abandons_of_foldlM hleft, h.symm⟩

/-- A step is counted and recorded, and listeners cannot change that. -/
theorem journal_of_settling (h : m.Settling step m') :
    m'.journal = m.journal.record step.record ∧ m'.step = m.step + 1 ∧
      step.after.step = m.step + 1 := by
  have hturns : ∀ {m₀ later p}, m.nextTurn = .process m₀ step.signal later → m₀.Settles step p →
      (absorb p).journal = m.journal.record step.record ∧ (absorb p).step = m.step + 1 ∧
        step.after.step = m.step + 1 := by
    intro m₀ later p hturn hstep
    obtain ⟨hjournal, hnumber⟩ := journal_of_settles hstep
    rw [(nextTurn_process hturn).2] at hjournal hnumber
    rw [← (settled_of_settles hstep).2]
    exact ⟨hjournal, hnumber, hnumber⟩
  cases h with
  | turn _ hturn hstep _ | turnPanicked _ hturn hstep _ => exact hturns hturn hstep
  | stop _ _ hdown hfin =>
    obtain ⟨left, habandons, rfl⟩ := settled_of_teardown hdown
    obtain ⟨hkeeps, -, -, -⟩ := abandons_frame habandons
    rw [finish_eq hdown, Option.some.injEq] at hfin
    subst hfin
    obtain ⟨-, -, hstep, hjournal, -⟩ := farewell_frame
      (m := { left.settle .stop (m.chart.inExitOrder m.configuration.elems) [] with
              shell := { left.shell with status := .stopped } }) (by simp [status])
    have hnumber : left.step + 1 = m.step + 1 := congrArg (· + 1) hkeeps.step
    refine ⟨hjournal.trans ?_, hstep.trans hnumber, hnumber⟩
    rw [settle, hkeeps.journal]
    rfl

/-- The lists of a step are the truth, and the machine goes on from where the step has led. -/
theorem truthful_of_settling (hrun : Run c steps m) (h : m.Settling step m') :
    step.Truthful ∧ step.before.configuration = m.configuration ∧
      m'.configuration = step.after.configuration := by
  cases hsettling : h with
  | turn _ hturn hstep _ | turnPanicked _ hturn hstep _ =>
    have hchart := (clean_of_run hrun).chart
    rcases settling_cases (c := c) h with ⟨-, hlive⟩ | ⟨hon, -, hbefore, -, -, hafter⟩
    · refine absurd ?_ hlive
      exact (effects_of_settles (turn_passes hturn).2.1 hstep).status
    · have hon := hon hchart
      exact ⟨⟨fun s => active_of_exited hon, Settled.mem_after hon.enters hon.cases⟩, hbefore, hafter⟩
  | stop _ _ hdown hfin =>
    obtain ⟨left, habandons, rfl⟩ := settled_of_teardown hdown
    obtain ⟨-, -, -, hconf⟩ := abandons_frame habandons
    rw [finish_eq hdown, Option.some.injEq] at hfin
    subst hfin
    refine ⟨⟨fun s => (Outline.mem_inExitOrder ..).mp, fun s => ?_⟩, rfl, ?_⟩
    · simp only [List.not_mem_nil, or_false]
      exact hconf s
    · exact (farewell_frame (by simp [status])).2.1

/-- A step that ends the machine's life leaves nothing active. -/
theorem inactive_of_settling {s : D.State} (hrun : Run c steps m) (h : m.Settling step m')
    (hend : m'.Ended) : s ∉ m'.configuration := by
  rcases settling_work h with ⟨hdead, -⟩ | ⟨_, _, _, -, -, heffects, hgoes⟩
  · cases hsettling : h with
    | turn _ hturn hstep _ | turnPanicked _ hturn hstep _ =>
      exact absurd (effects_of_settles (turn_passes hturn).2.1 hstep).status hdead
    | stop =>
      obtain ⟨htruthful, -, hafter⟩ := truthful_of_settling hrun h
      rw [hafter, htruthful.after]
      rintro (⟨hs, hleft⟩ | hs)
      · exact hleft ((Outline.mem_inExitOrder ..).mpr hs)
      · exact absurd hs List.not_mem_nil
  · exact absurd hend (not_ended_of_up (by rw [Up, hgoes.status]; exact heffects.status))

/-! ## Along a run -/

/-- Every step counts, and nothing else does. -/
theorem step_of_goes (_ : Run c steps m) (h : m.Goes log m') :
    m'.step = m.step + (Event.steps log).length := by
  induction h with
  | rest => rfl
  | @next log e m₁ m₂ hgoes hdoes ih =>
    rw [Event.steps_cons]
    cases he : e.step with
    | none => exact (journal_of_move (move_of_does hdoes he)).2.1.trans ih
    | some step =>
      rw [(journal_of_settling (settling_of_does hdoes he)).2.1, ih, Option.toList_some,
        List.singleton_append, List.length_cons, Nat.add_assoc]

/-- The journal has the records of the latest steps, which are numbered from 1 on. -/
theorem journal_of_goes (hm : m₀.Fresh) (h : m₀.Goes log m) :
    m.journal.capacity = m₀.journal.capacity ∧
      m.journal.records = (Settled.records (Event.steps log)).drop
        ((Settled.records (Event.steps log)).length - m.journal.capacity) ∧
      (Settled.records (Event.steps log)).map (·.step) =
        List.range' 1 (Event.steps log).length := by
  induction h with
  | rest => exact ⟨rfl, hm.journal.trans List.drop_nil.symm, rfl⟩
  | @next log e m m' hgoes hdoes ih =>
    obtain ⟨hcapacity, hrecords, hnumbers⟩ := ih
    rw [Event.steps_cons]
    cases he : e.step with
    | none =>
      obtain ⟨hjournal, -, -⟩ := journal_of_move (move_of_does hdoes he)
      rw [hjournal]
      exact ⟨hcapacity, hrecords, hnumbers⟩
    | some step =>
      have hstep : m.step = (Event.steps log).length := by
        rw [step_of_goes (.fresh rfl hm) hgoes, hm.step, Nat.zero_add]
      obtain ⟨hjournal, -, hnumber⟩ := journal_of_settling (settling_of_does hdoes he)
      rw [Option.toList_some, List.singleton_append, List.length_cons, Settled.records_cons,
        List.map_append, hnumbers, List.range'_concat, hjournal]
      refine ⟨hcapacity, Journal.drop_record hrecords, ?_⟩
      rw [List.map_singleton, Settled.record, hnumber, hstep, Nat.one_mul, Nat.add_comm]

/-- Unless the machine was faulted on the way, its configuration follows from the records of its
steps, and so did that before each of them. -/
theorem configuration_of_goes (hm : m₀.Fresh) (h : m₀.Goes log m) :
    (m.status ≠ .faulted → ∀ s, s ∈ m.configuration ↔
        s ∈ StepRecord.replayAll (Settled.records (Event.steps log))) ∧
      (∀ later step earlier, Event.steps log = later ++ step :: earlier → ∀ s,
        s ∈ step.before.configuration ↔ s ∈ StepRecord.replayAll (Settled.records earlier)) ∧
      ∀ step ∈ Event.steps log, step.Truthful := by
  induction h with
  | rest =>
    refine ⟨fun _ s => ?_, fun later step earlier he => absurd he (by simp [Event.steps]),
      fun step hs => absurd hs List.not_mem_nil⟩
    rw [StateSet.mem_def, hm.configuration]
    exact iff_of_false List.not_mem_nil (StateSet.not_mem_empty s)
  | @next log e m m' hgoes hdoes ih =>
    obtain ⟨hnow, hchain, htruthful⟩ := ih
    have hrun := run_goes (.fresh rfl hm) hgoes
    rw [Event.steps_cons]
    cases he : e.step with
    | none =>
      refine ⟨fun hs => ?_, hchain, htruthful⟩
      obtain ⟨-, -, hconf⟩ := journal_of_move (move_of_does hdoes he)
      rw [hconf hs]
      exact hnow fun hfaulted => hs (faulted_of_does hdoes hfaulted)
    | some step =>
      have hsettling := settling_of_does hdoes he
      obtain ⟨htrue, hbefore, hafter⟩ := truthful_of_settling hrun hsettling
      have hstart := hnow fun hs => not_ended_of_up (settling_status hsettling) (Or.inr hs)
      rw [Option.toList_some, List.singleton_append]
      refine ⟨fun _ s => ?_, fun later step' earlier hsplit => ?_, fun step' hs => ?_⟩
      · rw [Settled.records_cons, StepRecord.replayAll_concat, StepRecord.mem_replay, ← hstart,
          ← hbefore, hafter]
        exact htrue.after s
      · cases later with
        | nil =>
          rw [List.nil_append, List.cons.injEq] at hsplit
          obtain ⟨rfl, rfl⟩ := hsplit
          exact hbefore ▸ hstart
        | cons _ later =>
          rw [List.cons_append, List.cons.injEq] at hsplit
          exact hchain later step' earlier hsplit.2
      · rcases List.mem_cons.mp hs with rfl | hs
        · exact htrue
        · exact htruthful step' hs

/-- The journal of a machine tells what has happened to its configuration: the latest steps without
a gap, each as it was, and from the first record on all there is to know. -/
theorem journaled_of_goes (hm : m₀.Fresh) (h : m₀.Goes log m) :
    m₀.Journaled (Event.steps log) m := by
  have hstep : m.step = (Event.steps log).length := by
    rw [step_of_goes (.fresh rfl hm) h, hm.step, Nat.zero_add]
  obtain ⟨hcapacity, hrecords, hnumbers⟩ := journal_of_goes hm h
  obtain ⟨hnow, hchain, htruthful⟩ := configuration_of_goes hm h
  have hsize : m.journal.size = min m₀.journal.capacity (Event.steps log).length := by
    rw [Journal.size, hrecords, List.length_drop, Settled.length_records, hcapacity]
    omega
  refine ⟨hcapacity, hrecords ▸ List.drop_suffix .., hsize, ?_, hstep, hchain, htruthful, hnow,
    fun hs hroom => ?_⟩
  · change _ = List.range' (m.step + 1 - _) _
    rw [hsize, hrecords, List.map_drop, hnumbers, List.drop_range', Settled.length_records, hstep,
      hcapacity]
    congr 1 <;> omega
  · rw [hrecords, Settled.length_records, hcapacity, Nat.sub_eq_zero_of_le hroom, List.drop_zero]
    exact hnow hs

end Machine

/-! ## A lift -/

inductive LiftState | lift | waiting | moving | arrived
deriving DecidableEq

/-- A lift that goes up once. -/
def liftTree : StateTree (.bare LiftState) :=
  .bare .lift (.compound .waiting) []
    [.bare .waiting .atomic [.bare "go" .moving],
      .bare .moving .atomic [.bare "knock" .moving true, .bare "arrive" .arrived],
      .bare .arrived .final]

def lift : Chart (.bare LiftState) :=
  { liftTree.outline with tree := liftTree, outline_eq := rfl, flawless := by cbv }

/-- A lift that keeps the latest three records. -/
def newLift : Machine (.bare LiftState) := { lift.machine with journal := { capacity := 3 } }

def usedLift : Machine (.bare LiftState) :=
  newLift.after 9 [.start, .send "go", .send "knock", .send "arrive", .stop]

open Machine in
/-- A lift goes up and is then switched off. Of its five steps the last three are recorded. -/
theorem lift_journaled : ∃ log, newLift.Goes log usedLift ∧
    newLift.Journaled (Event.steps log) usedLift ∧ usedLift.status = .stopped ∧
    usedLift.journal.records.map (fun r => (r.step, r.exited, r.entered)) =
      [(3, [.moving], [.moving]), (4, [.moving], [.arrived]), (5, [.arrived, .lift], [])] := by
  have hfresh : newLift.Fresh := ⟨rfl, rfl, rfl, rfl, rfl, rfl, rfl, rfl, rfl, rfl, rfl⟩
  obtain ⟨log, hgoes⟩ := goes_after newLift 9 [.start, .send "go", .send "knock", .send "arrive", .stop]
  exact ⟨log, hgoes, journaled_of_goes hfresh hgoes, by cbv, by cbv⟩

end Statechart
