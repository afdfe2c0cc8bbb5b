import Statechart.Proofs.AtRest

/-!
# The course of a run

A run keeps the steps that were settled. Its course (`Course`) keeps all that happened, one
`Event` for each move and each turn: the work taken out of the queue and the signal processed,
the result accepted, the step settled, and the work put into the queue. Of what an event puts
into the queue, each part is accounted for: what the actions of a step ask for and what
listeners ask for is what their commands ask for (`Shell.Asks`).

Every run has a course (`course_of_run`), and a call from outside goes on with it
(`course_call`, `course_deliver`).

The machine is `Open` as long as it takes work in. Then what was put into the queue is what was
taken out of it, and behind that what is still waiting (`queue_of_course`): nothing is lost,
nothing is done twice, and nothing is overtaken.
-/

namespace Statechart

variable {D : Domain}

/-- What happens at one moment of a run. -/
structure Event (D : Domain) where
  /-- The work that is taken out of the queue to be done. -/
  took : Option (Work D) := none
  /-- The signal that is processed, and the machine that processes it. -/
  processed : Option (Machine D × Signal D) := none
  /-- The state and the number of the invocation whose result is accepted. -/
  accepted : Option (D.State × InvocationId) := none
  /-- The work that is put at the end of the queue, in order. -/
  put : List (Work D) := []
  /-- The step that is settled. -/
  step : Option (Settled D) := none

namespace Event

/-- The steps that were settled, the latest first. -/
def steps (log : List (Event D)) : List (Settled D) := log.filterMap (·.step)

/-- All work that was put into the queue, in order. -/
def puts (log : List (Event D)) : List (Work D) := log.reverse.flatMap (·.put)

/-- All work that was taken out of the queue to be done, in order. -/
def takes (log : List (Event D)) : List (Work D) := log.reverse.filterMap (·.took)

variable {e : Event D} {log : List (Event D)}

theorem steps_cons : steps (e :: log) = e.step.toList ++ steps log := by
  rw [steps, List.filterMap_cons]
  cases e.step <;> rfl

theorem puts_cons : puts (e :: log) = puts log ++ e.put := by simp [puts]

theorem takes_cons : takes (e :: log) = takes log ++ e.took.toList := by
  rw [takes, List.reverse_cons, List.filterMap_append]
  cases he : e.took <;> simp [takes, he]

end Event

/-- The work that signals the completions raised by a step. -/
def Settled.signals (step : Settled D) : List (Work D) := step.raised.map fun s => .signal (.done s)

namespace Machine

/-- What a machine does at one moment of a run, and what it goes on from. What the actions had
asked for when a defect came up is not noted: the queue is empty afterwards. -/
inductive Does (m : Machine D) : Event D → Machine D → Prop
  | call {c : Call D} {shell : Shell D} :
      m.shell.receive m.timers.nextEpoch c = .admitted shell →
        Does m { put := c.work m.shell.clock.now m.timers.nextEpoch } { m with shell }
  | result {s : D.State} {id : InvocationId} {invocations : Invocations D.State}
      {result : Except InvokeError D.Output} :
      m.isLive → m.invocations.settle? s id = some invocations →
        Does m { accepted := some (s, id), put := [.signal (resultSignal s id result)] }
          ({ m with invocations }.enqueueAll [.signal (resultSignal s id result)])
  | discard {m' : Machine D} :
      m.Serves false → m.status ≠ .running → m.nextTurn = .skip m' → Does m {} m'
  | idle {m' : Machine D} :
      m.Serves false → m.status = .running → m.nextTurn = .skip m' →
        Does m { took := m.shell.queue.head? } m'
  | pass {m₀ : Machine D} {signal : Signal D} {later : List (Work D)} {p : Progress D} :
      m.Serves false → m.nextTurn = .process m₀ signal later →
      m₀.process signal = .ok p → p.settled = false →
        Does m { took := m.shell.queue.head?, processed := some (m₀, signal), put := later }
          ((absorb p).enqueueAll later)
  | fault {m₀ m₁ : Machine D} {signal : Signal D} {later : List (Work D)} {d : Defect D.State} :
      m.Serves false → m.nextTurn = .process m₀ signal later →
      m₀.process signal = .error (.defect m₁ d) →
        Does m { took := m.shell.queue.head?, processed := some (m₀, signal) } (m₁.fault d).machine
  | turn {m₀ : Machine D} {later sent told : List (Work D)} {step : Settled D} {p : Progress D} :
      m.Serves false → m.nextTurn = .process m₀ step.signal later →
      m₀.Settles step p → m₀.shell.Asks sent p.machine.shell →
      (absorb p).shell.Asks told (absorb p).notify.machine.shell →
      (absorb p).notify.error = none →
        Does m
          { took := m.shell.queue.head?
            processed := some (m₀, step.signal)
            put := sent ++ step.signals ++ told ++ later
            step := some step } ((absorb p).notify.machine.enqueueAll later)
  | turnPanicked {m₀ : Machine D} {later sent told : List (Work D)} {step : Settled D}
      {p : Progress D} {e : CallError D.State} :
      m.Serves false → m.nextTurn = .process m₀ step.signal later →
      m₀.Settles step p → m₀.shell.Asks sent p.machine.shell →
      (absorb p).shell.Asks told (absorb p).notify.machine.shell →
      (absorb p).notify.error = some e →
        Does m
          { took := m.shell.queue.head?
            processed := some (m₀, step.signal)
            put := sent ++ step.signals ++ told
            step := some step } (absorb p).notify.machine
  | stop {m₁ : Machine D} {o : Outcome D} :
      m.Up → m.Serves true →
      { m with shell := { m.shell with queue := [] } }.teardown = .ok m₁ → m.finish = some o →
        Does m
          { step := some
              { before := m
                signal := .stop
                taken := []
                exited := m.chart.inExitOrder m.configuration.elems
                between := m₁
                entered := []
                after := { m₁ with shell := { m₁.shell with status := .stopped } } } } o.machine
  | faultStopping {m₁ : Machine D} {d : Defect D.State} :
      m.Up → m.Serves true →
      { m with shell := { m.shell with queue := [] } }.teardown = .error (.defect m₁ d) →
        Does m {} (m₁.fault d).machine
  /-- The clock, the host, the listeners, what is to be carried out and whether it can be belong to
  the outside. -/
  | outside {host : D.Host} {clock : Clock} {listeners : List (Listener D)} {nextListener : Nat}
      {launched : List (Launch D)} {awaiting : List (String × InvocationId)}
      {canInvoke worked : Bool} :
      Does m {}
        { m with
          shell := { m.shell with host, clock, listeners, nextListener }
          launched, awaiting, canInvoke, worked }

/-- The course of a run of a machine on a chart: what happened so far, the latest first. -/
inductive Course (c : Chart D) : List (Event D) → Machine D → Prop
  | fresh {m : Machine D} : m.chart = c → m.Fresh → Course c [] m
  | next {log : List (Event D)} {e : Event D} {m m' : Machine D} :
      Course c log m → m.Does e m' → Course c (e :: log) m'

variable {c : Chart D} {m m' m₀ : Machine D} {signal : Signal D} {step : Settled D} {p : Progress D}
  {e : Event D} {log : List (Event D)} {steps : List (Settled D)} {later : List (Work D)}
  {sent told : List (Work D)}

/-! ## Runs and their courses -/

/-- The shell of a machine that has settled a step is the one that entering has left. -/
private theorem shell_of_close {p' : Progress D} {exited entered : List D.State} :
    (p'.close.machine.settle signal exited entered).shell = p'.machine.shell := by
  unfold Progress.close
  split <;> rfl

/-- What happens to the shell in a step is that the commands of its actions are carried out. -/
theorem asks_of_settles (h : m.Settles step p) : ∃ sent, m.shell.Asks sent p.machine.shell := by
  obtain ⟨p', henter, hp⟩ := entering_of_settles h
  obtain ⟨left, hleft⟩ := (leaves_of_settles h).leads.asks
  have hleads : step.between.shell.Leads p'.machine.shell :=
    Progress.foldlM_enterState_leads henter
  obtain ⟨entered, hentered⟩ := hleads.asks
  refine ⟨left ++ entered, hleft.trans ?_⟩
  rw [hp, shell_of_close]
  exact hentered

theorem does_of_move (h : m.Move m') : ∃ e, m.Does e m' ∧ e.step = none := by
  cases h with
  | call hr => exact ⟨_, .call hr, rfl⟩
  | result hlive hsettle => exact ⟨_, .result hlive hsettle, rfl⟩
  | skip hstop hturn =>
    by_cases hs : m.status = .running
    · exact ⟨_, .idle hstop hs hturn, rfl⟩
    · exact ⟨_, .discard hstop hs hturn, rfl⟩
  | pass hstop hturn hproc hp => exact ⟨_, .pass hstop hturn hproc hp, rfl⟩
  | fault hstop hturn hproc => exact ⟨_, .fault hstop hturn hproc, rfl⟩
  | faultStopping hup hstop hdown => exact ⟨_, .faultStopping hup hstop hdown, rfl⟩
  | outside => exact ⟨_, .outside, rfl⟩

theorem does_of_settling (h : m.Settling step m') : ∃ e, m.Does e m' ∧ e.step = some step := by
  cases h with
  | turn hstop hturn hstep he =>
    obtain ⟨sent, hsent⟩ := asks_of_settles hstep
    obtain ⟨told, htold⟩ := notify_leads.asks
    exact ⟨_, .turn hstop hturn hstep hsent htold he, rfl⟩
  | turnPanicked hstop hturn hstep he =>
    obtain ⟨sent, hsent⟩ := asks_of_settles hstep
    obtain ⟨told, htold⟩ := notify_leads.asks
    exact ⟨_, .turnPanicked hstop hturn hstep hsent htold he, rfl⟩
  | stop hup hstop hdown hfin => exact ⟨_, .stop hup hstop hdown hfin, rfl⟩

theorem run_does (hrun : Run c steps m) (h : m.Does e m') : Run c (e.step.toList ++ steps) m' := by
  cases h with
  | call hr => exact hrun.move (.call hr)
  | result hlive hsettle => exact hrun.move (.result hlive hsettle)
  | discard hstop _ hturn => exact hrun.move (.skip hstop hturn)
  | idle hstop _ hturn => exact hrun.move (.skip hstop hturn)
  | pass hstop hturn hproc hp => exact hrun.move (.pass hstop hturn hproc hp)
  | fault hstop hturn hproc => exact hrun.move (.fault hstop hturn hproc)
  | turn hstop hturn hstep _ _ he => exact hrun.settle (.turn hstop hturn hstep he)
  | turnPanicked hstop hturn hstep _ _ he => exact hrun.settle (.turnPanicked hstop hturn hstep he)
  | stop hup hstop hdown hfin => exact hrun.settle (.stop hup hstop hdown hfin)
  | faultStopping hup hstop hdown => exact hrun.move (.faultStopping hup hstop hdown)
  | outside => exact hrun.move .outside

theorem run_of_course (h : Course c log m) : Run c (Event.steps log) m := by
  induction h with
  | fresh hc hm => exact .fresh hc hm
  | next _ hdoes ih =>
    rw [Event.steps_cons]
    exact run_does ih hdoes

/-- Moves and settled steps go on with a course. -/
theorem closed_course (log : List (Event D)) : Closed fun steps m =>
    ∃ new, Course c (new ++ log) m ∧ Event.steps new = steps where
  move := by
    intro steps m m' h hmove
    obtain ⟨new, hcourse, rfl⟩ := h
    obtain ⟨e, hdoes, he⟩ := does_of_move hmove
    exact ⟨e :: new, hcourse.next hdoes, by rw [Event.steps_cons, he]; rfl⟩
  settle := by
    intro steps m m' step h hsettling
    obtain ⟨new, hcourse, rfl⟩ := h
    obtain ⟨e, hdoes, he⟩ := does_of_settling hsettling
    exact ⟨e :: new, hcourse.next hdoes, by rw [Event.steps_cons, he]; rfl⟩

/-- Every run has a course. -/
theorem course_of_run (h : Run c steps m) : ∃ log, Course c log m ∧ Event.steps log = steps := by
  suffices ∃ new, Course c (new ++ []) m ∧ Event.steps new = steps by simpa using this
  induction h with
  | fresh hc hm => exact ⟨[], .fresh hc hm, rfl⟩
  | move _ hmove ih => exact (closed_course []).move ih hmove
  | settle _ hsettling ih => exact (closed_course []).settle ih hsettling

/-- A call from outside goes on with the course of the run. -/
theorem course_call {o : Outcome D} {fuel : Nat} {call : Call D} (h : Course c log m)
    (hcall : m.call fuel call = some o) : ∃ new, Course c (new ++ log) o.machine := by
  obtain ⟨-, new, hnew, -⟩ := closed_call (closed_course log) ⟨[], h, rfl⟩ hcall
  exact ⟨new, hnew⟩

/-- So does the result of an invocation that comes in. -/
theorem course_deliver {fuel : Nat} {s : D.State} {id : InvocationId}
    {result : Except InvokeError D.Output} (h : Course c log m)
    (hdeliver : m.deliver fuel s id result = some m') : ∃ new, Course c (new ++ log) m' := by
  obtain ⟨-, new, hnew, -⟩ := closed_deliver (closed_course log) ⟨[], h, rfl⟩ hdeliver
  exact ⟨new, hnew⟩

/-- Every event of a course happened at a moment of the run. -/
theorem course_split (h : Course c log m) : ∀ later e earlier, log = later ++ e :: earlier →
    ∃ m₁ m₂, Course c earlier m₁ ∧ m₁.Does e m₂ ∧ Course c (e :: earlier) m₂ := by
  induction h with
  | fresh => intro later e earlier he; simp at he
  | next hcourse hdoes ih =>
    intro later e earlier he
    cases later with
    | nil =>
      rw [List.nil_append, List.cons.injEq] at he
      obtain ⟨rfl, rfl⟩ := he
      exact ⟨_, _, hcourse, hdoes, hcourse.next hdoes⟩
    | cons _ later =>
      rw [List.cons_append, List.cons.injEq] at he
      exact ih later e earlier he.2

/-- An event processes the signal that it takes out of the queue, or the signal of a timer for work
that fires timers. Otherwise it takes nothing but such work, with no timer due. -/
theorem processed_cases (h : m.Does e m') :
    (e.processed = none ∧ (e.took = none ∨ ∃ now horizon, e.took = some (.timers now horizon))) ∨
      ∃ m₀ signal later, e.processed = some (m₀, signal) ∧ m.nextTurn = .process m₀ signal later ∧
        (e.took = some (.signal signal) ∨ ∃ now horizon s i delay,
          e.took = some (.timers now horizon) ∧ signal = .timer s i delay) := by
  have hhead : ∀ {m₀ signal later}, m.nextTurn = .process m₀ signal later →
      m.shell.queue.head? = some (.signal signal) ∨ ∃ now horizon s i delay,
        m.shell.queue.head? = some (.timers now horizon) ∧ signal = .timer s i delay := by
    intro m₀ signal later hturn
    obtain ⟨rest, -, ⟨hqueue, -⟩ | ⟨now, horizon, t, timers, hqueue, -, -, hsignal, -⟩⟩ :=
      nextTurn_cases hturn
    · exact Or.inl (by rw [hqueue]; rfl)
    · exact Or.inr ⟨now, horizon, _, _, _, by rw [hqueue]; rfl, hsignal⟩
  cases h with
  | call | result | discard | stop | faultStopping | outside => exact Or.inl ⟨rfl, Or.inl rfl⟩
  | idle _ hs hturn =>
    obtain ⟨work, hqueue, hor⟩ := nextTurn_skip_cases hturn
    obtain ⟨now, horizon, rfl, -⟩ := hor.resolve_left (not_not_intro hs)
    exact Or.inl ⟨rfl, Or.inr ⟨now, horizon, by rw [hqueue]; rfl⟩⟩
  | pass _ hturn _ _ => exact Or.inr ⟨_, _, _, rfl, hturn, hhead hturn⟩
  | fault _ hturn _ => exact Or.inr ⟨_, _, _, rfl, hturn, hhead hturn⟩
  | turn _ hturn _ _ _ _ => exact Or.inr ⟨_, _, _, rfl, hturn, hhead hturn⟩
  | turnPanicked _ hturn _ _ _ _ => exact Or.inr ⟨_, _, _, rfl, hturn, hhead hturn⟩

theorem process_of_does (h : m.Does e m') (he : e.processed = some (m₀, signal)) :
    ∃ later, m.nextTurn = .process m₀ signal later := by
  rcases processed_cases h with ⟨hnone, -⟩ | ⟨m₁, signal', later, hp, hturn, -⟩
  · exact absurd (hnone.symm.trans he) (by simp)
  · rw [hp, Option.some.injEq, Prod.mk.injEq] at he
    exact ⟨later, he.1 ▸ he.2 ▸ hturn⟩

/-! ## First come, first served -/

/-- Whether a machine takes work in: it is running and nobody asked it to stop. -/
def Open (m : Machine D) : Prop := m.status = .running ∧ m.shell.stopRequested = false

/-- A turn that processes a signal takes the first work out of the queue. -/
theorem head_of_process (h : m.nextTurn = .process m₀ signal later) :
    ∃ w, m.shell.queue = w :: m₀.shell.queue ∧
      m₀.shell.stopRequested = m.shell.stopRequested := by
  obtain ⟨rest, -, ⟨hqueue, -, rfl⟩ | ⟨now, horizon, t, timers, hqueue, -, -, -, rfl⟩⟩ :=
    nextTurn_cases h
  · exact ⟨_, hqueue, rfl⟩
  · exact ⟨_, hqueue, rfl⟩

theorem raised_of_progress (h : m.Settles step p) : p.raised = step.raised := by
  obtain ⟨p', henter, rfl⟩ := entering_of_settles h
  rw [Settled.raised, henter]

/-- What a step and the listeners told of it put into the queue of a machine that goes on: what the
actions of the step ask for, then the completions raised, then what the listeners ask for. -/
theorem queue_of_settles (hm : m.status = .running) (hstep : m.Settles step p)
    (hsent : m.shell.Asks sent p.machine.shell)
    (htold : (absorb p).shell.Asks told (absorb p).notify.machine.shell)
    (hopen : (absorb p).notify.machine.Open) :
    (absorb p).notify.machine.shell.queue = m.shell.queue ++ (sent ++ step.signals ++ told) ∧
      m.shell.stopRequested = false := by
  have hafter := (settled_of_settles hstep).2
  have heffects := effects_of_settles hm hstep
  have hstatus := status_of_settles hm hstep
  have hnotified : (absorb p).notify.machine.status = step.after.status := by
    rw [hafter]
    refine notify_status fun he => ?_
    rw [← hafter] at he
    rcases heffects.status with hs | hs <;> simp [hs] at he
  have hcompleted : p.completed = false := by
    rw [← hnotified, hopen.1] at hstatus
    by_contra hc
    simp [hc] at hstatus
  have hshell := (absorb_work p).2.2.2 hcompleted
  obtain ⟨hqueue, hstop⟩ := Shell.queue_of_asks htold hopen.2
  rw [hshell] at hqueue hstop
  obtain ⟨hqueue', hstop'⟩ := Shell.queue_of_asks hsent hstop
  -- actions send first, then the step raises its signals, and the listeners come last
  refine ⟨?_, hstop'⟩
  rw [hqueue]
  change p.machine.shell.queue ++ p.raised.map _ ++ told = _
  rw [hqueue', raised_of_progress hstep, Settled.signals]
  simp only [List.append_assoc]

/-- Work is taken out of the queue by a machine that is open, from the front. -/
theorem took_of_does (h : m.Does e m') {w : Work D} (hw : e.took = some w) :
    m.Open ∧ m.shell.queue.head? = some w := by
  cases h with
  | call | result | discard | stop | faultStopping | outside => exact absurd hw (by simp)
  | idle hstop hs _ => exact ⟨⟨hs, hstop.stopRequested⟩, hw⟩
  | pass hstop hturn _ _ => exact ⟨⟨(nextTurn_process hturn).1, hstop.stopRequested⟩, hw⟩
  | fault hstop hturn _ => exact ⟨⟨(nextTurn_process hturn).1, hstop.stopRequested⟩, hw⟩
  | turn hstop hturn => exact ⟨⟨(nextTurn_process hturn).1, hstop.stopRequested⟩, hw⟩
  | turnPanicked hstop hturn => exact ⟨⟨(nextTurn_process hturn).1, hstop.stopRequested⟩, hw⟩

/-- A machine that is open afterwards has taken from the front of its queue and put at the end, and
was open before or not started. -/
theorem queue_of_does (h : m.Does e m') (hopen : m'.Open) :
    (m.Open ∨ m.status = .notStarted) ∧
      e.took.toList ++ m'.shell.queue = m.shell.queue ++ e.put := by
  -- a turn that settles a step, whatever of the work is put back
  have hturns : ∀ {m₀ later sent told step p} back, m.Serves false →
      m.nextTurn = .process m₀ step.signal later → m₀.Settles step p →
      m₀.shell.Asks sent p.machine.shell →
      (absorb p).shell.Asks told (absorb p).notify.machine.shell →
      m' = (absorb p).notify.machine.enqueueAll back →
      (m.Open ∨ m.status = .notStarted) ∧ m.shell.queue.head?.toList ++ m'.shell.queue =
        m.shell.queue ++ (sent ++ step.signals ++ told ++ back) := by
    intro m₀ later sent told step p back hstop hturn hstep hsent htold he
    subst he
    obtain ⟨w, hw, -⟩ := head_of_process hturn
    obtain ⟨hqueue, -⟩ := queue_of_settles (turn_passes hturn).2.1 hstep hsent htold hopen
    refine ⟨Or.inl ⟨(nextTurn_process hturn).1, hstop.stopRequested⟩, ?_⟩
    change _ ++ ((absorb p).notify.machine.shell.queue ++ back) = _
    rw [hqueue, hw]
    simp
  cases h with
  | call hr =>
    rcases Shell.receive_cases hr with ⟨hqueue, hstop, hor⟩ | ⟨-, hstop, -⟩
    · exact ⟨hor.imp (fun h => ⟨h.1, h.2.1⟩) And.left, hqueue⟩
    · exact absurd (hstop.symm.trans hopen.2) (by simp)
  | result => exact ⟨Or.inl hopen, rfl⟩
  | discard _ hs hturn =>
    rw [nextTurn_skip hturn] at hopen
    exact absurd hopen.1 hs
  | idle hstop hs hturn =>
    obtain ⟨w, hw, -⟩ := nextTurn_skip_cases hturn
    exact ⟨Or.inl ⟨hs, hstop.stopRequested⟩, by rw [hw]; simp⟩
  | pass hstop hturn hproc hp =>
    obtain ⟨w, hw, -⟩ := head_of_process hturn
    rcases process_cases hproc with ⟨invocations, -, rfl⟩ | ⟨step, hstep, -⟩
    · refine ⟨Or.inl ⟨(nextTurn_process hturn).1, hstop.stopRequested⟩, ?_⟩
      rw [absorb_same, hw]
      rfl
    · rw [(settled_of_settles hstep).1] at hp
      exact absurd hp (by simp)
  | fault => exact absurd hopen.1 (by simp [(fault_work _ _).1])
  | turn hstop hturn hstep hsent htold _ => exact hturns _ hstop hturn hstep hsent htold rfl
  | @turnPanicked _ _ sent told step _ _ hstop hturn hstep hsent htold _ =>
    have hnothing := hturns [] hstop hturn hstep hsent htold (by simp [enqueueAll])
    rwa [List.append_nil (sent ++ step.signals ++ told)] at hnothing
  | stop hup hstop _ hfin =>
    have hend := (finish_work (by rcases hup with h | h <;> simp [h]) hstop.stopRequested hfin).1
    exact absurd hend (not_ended_of_up (Or.inl hopen.1))
  | faultStopping => exact absurd hopen.1 (by simp [(fault_work _ _).1])
  | outside => exact ⟨Or.inl hopen, (List.append_nil _).symm⟩

/-- A machine that is not started has not done anything. -/
theorem notStarted_of_does (h : m.Does e m') (hs : m'.status = .notStarted) :
    m.status = .notStarted ∧ e.took = none ∧ e.put = [] ∧ m'.shell.queue ⊆ m.shell.queue := by
  -- steps only settle on machines that were started
  have hsettling : ∀ {step}, ¬ m.Settling step m' := by
    intro step h
    rcases settling_work h with ⟨-, hend, -⟩ | ⟨m₀, later, p, -, -, heffects, hgoes⟩
    · rcases hend with hend | hend <;> simp [hend] at hs
    · rw [hgoes.status] at hs
      rcases heffects.status with h | h <;> simp [h] at hs
  cases h with
  | call hr =>
    have hup := Shell.up_of_receive hr
    change _ = _ at hs
    rcases hup with hup | hup <;> exact absurd (hup.symm.trans hs) (by simp)
  | result hlive _ =>
    rcases up_of_isLive hlive with hup | hup <;> exact absurd (hup.symm.trans hs) (by simp)
  | discard _ _ hturn =>
    obtain ⟨w, hw, -⟩ := nextTurn_skip_cases hturn
    rw [nextTurn_skip hturn] at hs
    exact ⟨hs, rfl, rfl, hw ▸ List.subset_cons_self ..⟩
  | idle _ hrunning hturn =>
    rw [nextTurn_skip hturn] at hs
    exact absurd (hrunning.symm.trans hs) (by simp)
  | pass _ hturn hproc hp =>
    rcases process_cases hproc with ⟨invocations, -, rfl⟩ | ⟨step, hstep, -⟩
    · rw [absorb_same] at hs
      exact absurd ((turn_passes hturn).2.1.symm.trans hs) (by simp)
    · rw [(settled_of_settles hstep).1] at hp
      exact absurd hp (by simp)
  | fault => simp [(fault_work _ _).1] at hs
  | turn hstop hturn hstep _ _ he => exact absurd (.turn hstop hturn hstep he) hsettling
  | turnPanicked hstop hturn hstep _ _ he => exact absurd (.turnPanicked hstop hturn hstep he) hsettling
  | stop hup hstop hdown hfin => exact absurd (.stop hup hstop hdown hfin) hsettling
  | faultStopping => simp [(fault_work _ _).1] at hs
  | outside => exact ⟨hs, rfl, rfl, List.Subset.refl _⟩

/-- Work is taken out of the queue in the order in which it was put in. As long as the machine is
open, all that was put in and not taken out is in the queue; before it is started, nothing is. -/
theorem queue_of_course (h : Course c log m) : Event.takes log <+: Event.puts log ∧
    (m.Open → Event.puts log = Event.takes log ++ m.shell.queue) ∧
    (m.status = .notStarted → Event.puts log = [] ∧ m.shell.queue = []) := by
  induction h with
  | fresh _ hm =>
    refine ⟨List.prefix_refl _, fun hopen => ?_, fun _ => ⟨rfl, hm.queue⟩⟩
    exact absurd (hm.status.symm.trans hopen.1) (by simp)
  | @next log e m m' _ hdoes ih =>
    obtain ⟨hfront, hall, hnone⟩ := ih
    rw [Event.puts_cons, Event.takes_cons]
    refine ⟨?_, fun hopen => ?_, fun hs => ?_⟩
    · cases htook : e.took with
      | none =>
        rw [Option.toList_none, List.append_nil]
        exact hfront.trans (List.prefix_append ..)
      | some w =>
        -- the work was at the front of what was waiting
        obtain ⟨hopen, hw⟩ := took_of_does hdoes htook
        obtain ⟨rest, hrest⟩ := List.head?_eq_some_iff.mp hw
        rw [hall hopen, hrest]
        exact ⟨rest ++ e.put, by simp⟩
    · obtain ⟨hor, hqueue⟩ := queue_of_does hdoes hopen
      have hbefore : Event.puts log = Event.takes log ++ m.shell.queue := by
        rcases hor with hopen | hs
        · exact hall hopen
        · obtain ⟨hputs, hempty⟩ := hnone hs
          rw [hputs] at hfront
          rw [hputs, hempty, List.prefix_nil.mp hfront]
          rfl
      rw [hbefore, List.append_assoc, List.append_assoc, hqueue]
    · obtain ⟨hs, -, hput, hsub⟩ := notStarted_of_does hdoes hs
      obtain ⟨hputs, hempty⟩ := hnone hs
      rw [hputs, hput]
      exact ⟨rfl, List.subset_nil.mp (hempty ▸ hsub)⟩

end Machine

end Statechart
