import Statechart.Proofs.Course
import Statechart.Proofs.Launches
import Statechart.Proofs.Tick

/-!
# First come, first served

However calls are nested, signals are processed in the order in which they were put into the
queue, each once (`served_of_course`). The account of a course is kept in work (`queue_of_course`),
which is signals and work that fires timers. The signal of a timer never waits in the queue, it is
made as its turn comes; so all other signals that are processed are the signals among the work
that was taken out (`signals_of_course`).

A step is settled, and the listeners told of it, within one turn (`Turning`). The next signal
and the next step find the machine as that step has left it (`sameStage_of_run`), whatever the
listeners have done meanwhile.
-/

namespace Statechart

variable {D : Domain}

/-- The signal that waits in the queue, if the work is one. -/
def Work.signal? : Work D → Option (Signal D)
  | .signal s => some s
  | .timers .. => none

namespace Event

/-- The signals that were processed, in order. -/
def signals (log : List (Event D)) : List (Signal D) :=
  (log.reverse.filterMap (·.processed)).map (·.2)

theorem signals_cons {e : Event D} {log : List (Event D)} :
    signals (e :: log) = signals log ++ (e.processed.map (·.2)).toList := by
  rw [signals, List.reverse_cons, List.filterMap_append, List.map_append]
  cases he : e.processed <;> simp [signals, he]

end Event

namespace Machine

/-- Whether two machines are at the same stage: neither has settled a step that the other has not,
nor begun one. -/
structure SameStage (m m' : Machine D) : Prop where
  configuration : m.configuration = m'.configuration
  history : m.history = m'.history
  context : m.context = m'.context
  journal : m.journal = m'.journal
  step : m.step = m'.step

/-- The turn in which a machine settles a step. What it puts into the queue is what the actions ask
for, then the completions raised, then what the listeners ask for, and then the work, if any,
that goes to the end of the queue again. The turn ends when the listeners were told. -/
inductive Turning (m : Machine D) (e : Event D) (step : Settled D) : Machine D → Prop
  | mk {m₀ : Machine D} {p : Progress D} {sent told later back : List (Work D)} :
      m.Open → m.nextTurn = .process m₀ step.signal later → e.processed = some (m₀, step.signal) →
      m₀.Settles step p → m₀.shell.Asks sent p.machine.shell →
      step.after.shell.Asks told step.after.notify.machine.shell → back <+: later →
      e.put = sent ++ step.signals ++ told ++ back →
        Turning m e step (step.after.notify.machine.enqueueAll back)

/-- How the queue of a machine is served. -/
structure Served (c : Chart D) (log : List (Event D)) (m : Machine D) : Prop where
  /-- Signals are processed in the order in which they were put into the queue. -/
  order : (Event.signals log).filter (!·.isTimer) <+: (Event.puts log).filterMap Work.signal?
  /-- None is lost before the machine comes to an end or is asked to stop. -/
  kept : m.status ≠ .done → m.status ≠ .stopped → m.status ≠ .faulted →
    m.shell.stopRequested = false → (Event.puts log).filterMap Work.signal? =
      (Event.signals log).filter (!·.isTimer) ++ m.shell.queue.filterMap Work.signal?
  turn : ∀ newer e older step, log = newer ++ e :: older → e.step = some step → step.Live →
    ∃ m₁ m₂, Course c older m₁ ∧ m₁.Turning e step m₂ ∧ Course c (e :: older) m₂
  /-- A signal is processed when the step before it is settled. -/
  next : ∀ newer e older m₀ signal, log = newer ++ e :: older → e.processed = some (m₀, signal) →
    ∀ prev ∈ (Event.steps older).head?, m₀.SameStage prev.after
  /-- So is every step begun, the one that stops the machine included. -/
  begins : ∀ newer e older step, log = newer ++ e :: older → e.step = some step →
    ∀ prev ∈ (Event.steps older).head?, step.before.SameStage prev.after
  /-- Calls from outside and results that come in go on with the course. -/
  call : ∀ fuel call o, m.call fuel call = some o → ∃ new, Course c (new ++ log) o.machine
  result : ∀ fuel s id result m', m.deliver fuel s id result = some m' →
    ∃ new, Course c (new ++ log) m'
  /-- When calls from outside have been answered, nothing is left in the queue. -/
  rest : AtRest c m → m.shell.queue = []

variable {c : Chart D} {m m' m₀ : Machine D} {signal : Signal D} {step : Settled D} {e : Event D}
  {log : List (Event D)} {steps : List (Settled D)} {later : List (Work D)}

/-! ## Signals -/

/-- The signal that is taken out of the queue is the one that is processed; the signal of a timer
comes from elsewhere. -/
theorem signal_of_does (hsourced : ∀ w ∈ m.shell.queue, w.Sourced steps) (h : m.Does e m') :
    e.took.bind Work.signal? = (e.processed.map (·.2)).filter (!·.isTimer) := by
  rcases processed_cases h with ⟨hp, htook | ⟨now, horizon, htook⟩⟩ |
    ⟨m₀, signal, later, hp, -, htook | ⟨now, horizon, s, i, delay, htook, rfl⟩⟩
  · rw [hp, htook]
    rfl
  · rw [hp, htook]
    rfl
  · have hsource := hsourced _ (List.mem_of_mem_head? (took_of_does h htook).2)
    rw [hp, htook]
    cases signal with
    | timer => exact absurd hsource id
    | _ => rfl
  · rw [hp, htook]
    rfl

/-- The signals taken out of the queue are those that were processed, but for the signals of
timers. -/
theorem signals_of_course (h : Course c log m) :
    (Event.takes log).filterMap Work.signal? = (Event.signals log).filter (!·.isTimer) := by
  induction h with
  | fresh => rfl
  | @next log e _ _ hcourse hdoes ih =>
    have hsignal := signal_of_does (sourced_of_run (run_of_course hcourse)) hdoes
    have htook : e.took.toList.filterMap Work.signal? = (e.took.bind Work.signal?).toList := by
      cases e.took with
      | none => rfl
      | some w => cases w <;> rfl
    have hprocessed : (e.processed.map (·.2)).toList.filter (!·.isTimer) =
        ((e.processed.map (·.2)).filter (!·.isTimer)).toList := by
      cases e.processed with
      | none => rfl
      | some r => cases hr : r.2.isTimer <;> simp [hr, Option.filter]
    rw [Event.takes_cons, Event.signals_cons, List.filterMap_append, List.filter_append, ih, htook,
      hprocessed, hsignal]

/-! ## One step at a time -/

theorem sameStage_of_process (h : m.nextTurn = .process m₀ signal later) : m₀.SameStage m := by
  rw [(nextTurn_process h).2]
  exact ⟨rfl, rfl, rfl, rfl, rfl⟩

theorem sameStage_trans {m₁ m₂ m₃ : Machine D} (h : m₁.SameStage m₂) (h' : m₂.SameStage m₃) :
    m₁.SameStage m₃ :=
  ⟨h.configuration.trans h'.configuration, h.history.trans h'.history, h.context.trans h'.context,
    h.journal.trans h'.journal, h.step.trans h'.step⟩

theorem sameStage_of_settles {p : Progress D} (h : m.Settles step p) : step.before.SameStage m := by
  cases h with
  | initial => exact ⟨rfl, rfl, rfl, rfl, rfl⟩
  | @reaction before _ _ signal _ _ _ _ _ hreact _ _ _ _ _ _ _ _ =>
    cases hresult : signal.result? with
    | none => exact reacting?_of_no_result hresult hreact ▸ ⟨rfl, rfl, rfl, rfl, rfl⟩
    | some x =>
      rw [reacting?_of_result hresult] at hreact
      split at hreact
      · exact Option.some.inj hreact ▸ ⟨rfl, rfl, rfl, rfl, rfl⟩
      · exact absurd hreact (by simp)

/-- A machine that is running or completed after a move is at the same stage as before. -/
theorem sameStage_of_move (h : m.Move m') (hup : m'.Up) :
    m'.SameStage m ∧ (m.Up ∨ m.status = .notStarted) := by
  refine ⟨?_, ?_⟩
  · cases h with
    | call | result | outside => exact ⟨rfl, rfl, rfl, rfl, rfl⟩
    | skip _ hturn =>
      rw [nextTurn_skip hturn]
      exact ⟨rfl, rfl, rfl, rfl, rfl⟩
    | pass _ hturn hproc hp =>
      rcases process_cases hproc with ⟨invocations, -, rfl⟩ | ⟨step, hstep, -⟩
      · rw [absorb_same]
        have hsame := sameStage_of_process hturn
        exact ⟨hsame.configuration, hsame.history, hsame.context, hsame.journal, hsame.step⟩
      · rw [(settled_of_settles hstep).1] at hp
        exact absurd hp (by simp)
    | fault | faultStopping => exact absurd (Or.inr (fault_work _ _).1) (not_ended_of_up hup)
  · rcases move_work h with ⟨hfaulted, -⟩ | hpasses
    · exact absurd (Or.inr hfaulted) (not_ended_of_up hup)
    · exact hpasses.status.imp (fun h => hup.imp h.symm.trans h.symm.trans) And.left

/-- As long as a machine is running or completed, it is at the stage at which its last step has left
it. -/
theorem sameStage_of_run (hrun : Run c steps m) :
    m.Up → ∀ prev ∈ steps.head?, m.SameStage prev.after := by
  induction hrun with
  | fresh => intro _ prev hprev; simp at hprev
  | move hrun hmove ih =>
    intro hup prev hprev
    obtain ⟨hsame, hbefore⟩ := sameStage_of_move hmove hup
    rcases hbefore with hbefore | hbefore
    · exact sameStage_trans hsame (ih hbefore prev hprev)
    · rw [(running_of_run hrun).1 hbefore] at hprev
      exact absurd hprev (by simp)
  | @settle _ m m' step _ hsettling _ =>
    intro hup prev hprev
    obtain rfl : step = prev := by simpa using hprev
    cases hsettling with
    | turn _ _ hstep _ =>
      rw [(settled_of_settles hstep).2]
      exact ⟨rfl, rfl, rfl, rfl, rfl⟩
    | turnPanicked _ _ hstep _ =>
      rw [(settled_of_settles hstep).2]
      exact ⟨rfl, rfl, rfl, rfl, rfl⟩
    | stop hbefore hstop _ hfin =>
      have hend := (finish_work (by rcases hbefore with h | h <;> simp [h]) hstop.stopRequested hfin).1
      exact absurd hend (not_ended_of_up hup)

/-- A step begins with the machine as the step before has left it. -/
theorem sameStage_of_does (hrun : Run c steps m) (h : m.Does e m') (he : e.step = some step) :
    ∀ prev ∈ steps.head?, step.before.SameStage prev.after := by
  intro prev hprev
  have hturns : ∀ {m₀ later p}, m.nextTurn = .process m₀ step.signal later →
      m₀.Settles step p → step.before.SameStage prev.after := by
    intro m₀ later p hturn hstep
    have hup : m.Up := Or.inl (nextTurn_process hturn).1
    exact sameStage_trans (sameStage_of_settles hstep)
      (sameStage_trans (sameStage_of_process hturn) (sameStage_of_run hrun hup prev hprev))
  cases h with
  | call | result | discard | idle | pass | fault | faultStopping | outside =>
    exact absurd he (by simp)
  | turn _ hturn hstep _ _ _ =>
    obtain rfl := Option.some.inj he
    exact hturns hturn hstep
  | turnPanicked _ hturn hstep _ _ _ =>
    obtain rfl := Option.some.inj he
    exact hturns hturn hstep
  | stop hup =>
    obtain rfl := Option.some.inj he
    exact sameStage_of_run hrun hup prev hprev

/-- A live step is settled in one turn. -/
theorem turning_of_does (h : m.Does e m') (he : e.step = some step) (hlive : step.Live) :
    m.Turning e step m' := by
  cases h with
  | call | result | discard | idle | pass | fault | faultStopping | outside =>
    exact absurd he (by simp)
  | turn hstop hturn hstep hsent htold _ =>
    obtain rfl := Option.some.inj he
    have hafter := (settled_of_settles hstep).2
    rw [← hafter] at htold ⊢
    exact .mk ⟨(nextTurn_process hturn).1, hstop.stopRequested⟩ hturn rfl hstep hsent htold
      (List.prefix_refl _) rfl
  | @turnPanicked _ _ _ _ settled _ _ hstop hturn hstep hsent htold _ =>
    obtain rfl := Option.some.inj he
    have hafter := (settled_of_settles hstep).2
    rw [← hafter] at htold ⊢
    have hnothing : settled.after.notify.machine = settled.after.notify.machine.enqueueAll [] := by
      simp [enqueueAll]
    rw [hnothing]
    exact .mk ⟨(nextTurn_process hturn).1, hstop.stopRequested⟩ hturn rfl hstep hsent htold List.nil_prefix
      (List.append_nil _).symm
  | stop =>
    obtain rfl := Option.some.inj he
    exact absurd (Or.inl rfl) (not_ended_of_up hlive)

end Machine

open Machine in
/-- Signals are processed in the order in which they were put into the queue, each once, one step
after the other; none is lost as long as the machine is neither at its end nor asked to stop, and
between two calls from outside none is left. -/
theorem served_of_course {c : Chart D} {log : List (Event D)} {m : Machine D} (h : Course c log m) :
    m.Served c log where
  order := by
    rw [← signals_of_course h]
    exact (queue_of_course h).1.filterMap _
  kept := by
    intro hdone hstopped hfaulted hstop
    obtain ⟨hfront, hall, hnone⟩ := queue_of_course h
    rw [← signals_of_course h, ← List.filterMap_append]
    cases hs : m.status with
    | notStarted =>
      obtain ⟨hputs, hempty⟩ := hnone hs
      rw [hputs] at hfront
      rw [hputs, hempty, List.prefix_nil.mp hfront]
      rfl
    | running => rw [hall ⟨hs, hstop⟩]
    | done => exact absurd hs hdone
    | stopped => exact absurd hs hstopped
    | faulted => exact absurd hs hfaulted
  turn := by
    intro newer e older step he hstep hlive
    obtain ⟨m₁, m₂, hbefore, hdoes, hafter⟩ := course_split h newer e older he
    exact ⟨m₁, m₂, hbefore, turning_of_does hdoes hstep hlive, hafter⟩
  next := by
    intro newer e older m₀ signal he hprocessed prev hprev
    obtain ⟨m₁, m₂, hbefore, hdoes, -⟩ := course_split h newer e older he
    obtain ⟨later, hturn⟩ := process_of_does hdoes hprocessed
    exact sameStage_trans (sameStage_of_process hturn)
      (sameStage_of_run (run_of_course hbefore) (Or.inl (nextTurn_process hturn).1) prev hprev)
  begins := by
    intro newer e older step he hstep
    obtain ⟨m₁, m₂, hbefore, hdoes, -⟩ := course_split h newer e older he
    exact sameStage_of_does (run_of_course hbefore) hdoes hstep
  call := fun _ _ _ hcall => course_call h hcall
  result := fun _ _ _ _ _ hdeliver => course_deliver h hdeliver
  rest := fun hrest => (run_of_atRest hrest).2

/-! ## A relay -/

inductive RelayState | relay | track | resting | leg | over | crowd
deriving DecidableEq

/-- A relay in which the baton is passed on as a leg is run, and a leg is over at once, before a crowd
that follows everything. -/
def relayTree : StateTree (.bare RelayState) :=
  .bare .relay .parallel []
    [.bare .track (.compound .resting) []
      [.bare .resting .atomic
        [{ trigger := .event "go"
           target := some .leg
           actions := [{ name := "pass"
                         deed := .effect fun _ _ _ => [.send "baton" fun _ host => host] }] }],
      .bare .leg (.compound .over) [.bareOn .done .resting] [.bare .over .final]],
    .bare .crowd .atomic [{ trigger := .event "baton" }, { trigger := .event "cheer" }]]

def relay : Chart (.bare RelayState) :=
  { relayTree.outline with tree := relayTree, outline_eq := rfl, flawless := by cbv }

/-- A relay with somebody who cheers when told of the second step. -/
def cheeredRelay : Machine (.bare RelayState) :=
  (relay.machine.subscribe fun n _ => if n = 1 then [.send "cheer" fun _ host => host] else []).1

/-- The relay when one leg was run. -/
def ranRelay : Machine (.bare RelayState) := cheeredRelay.after 9 [.start, .send "go"]

open Machine in
/-- The baton that was passed comes before the end of the leg, and the cheer comes last. -/
theorem relay_served : ∃ log, Course relay log ranRelay ∧ Served relay log ranRelay ∧
    ranRelay.shell.queue = [] ∧
    (Event.puts log).filterMap Work.signal? = (Event.signals log).filter (!·.isTimer) ∧
    ranRelay.journal.records.map (·.trigger) =
      ["start", "go", "baton", "done.state#", "cheer"] := by
  have hfresh : cheeredRelay.Fresh := ⟨rfl, rfl, rfl, rfl, rfl, rfl, rfl, rfl, rfl, rfl, rfl⟩
  have hrest : AtRest relay ranRelay := atRest_after (.fresh rfl hfresh) 9 _
  obtain ⟨⟨steps, hrun⟩, -⟩ := run_of_atRest hrest
  obtain ⟨log, hcourse, -⟩ := course_of_run hrun
  have hserved := served_of_course hcourse
  have hstatus : ranRelay.status = .running := by cbv
  have hstop : ranRelay.shell.stopRequested = false := by cbv
  have hqueue := hserved.rest hrest
  have hkept := hserved.kept (by simp [hstatus]) (by simp [hstatus]) (by simp [hstatus]) hstop
  rw [hqueue, List.filterMap_nil, List.append_nil] at hkept
  exact ⟨log, hcourse, hserved, hqueue, hkept, by cbv⟩

end Statechart
