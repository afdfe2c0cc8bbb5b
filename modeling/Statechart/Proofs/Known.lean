import Statechart.Proofs.Faults
import Statechart.Proofs.Finishing
import Statechart.Proofs.Listeners
import Statechart.Proofs.Machine.Lookups
import Statechart.Proofs.Ownership

/-!
# No state is unknown

States are kept in five places of a machine: among the active states, in the records of history
states, with the timers and the invocations that are pending, and in the queue, in the signals
that come from a state. All of them are states of the chart at every moment of a run (`Known`), and
what is active or remembered is never a history state.

How they get there differs. Active states and records are kept by each bit of a step, so they last
(`lasting_recorded`). What is pending belongs to active states (`owned_of_run`). A signal from a
state is put into the queue by the result of a pending invocation, or by a step that raised the
completion of a state around an active one; nothing that code asks for comes from a state
(`known_of_asks`).

So the machine finds every state that it looks up (`process_finds`, `teardown_finds`): no defect
that it hits is that a state is unknown, and no call says so, for the defect that a call returns is
one that the machine has hit on the way (`hits_of_call`).
-/

namespace Statechart

open Chart

variable {D : Domain} {c : Chart D}

/-- Whether the signal, if the work is one, comes from a state of the chart or from none at all. -/
def Work.Known (c : Chart D) : Work D → Prop
  | .signal s => ∀ x, s.origin? = some x → c.contains x
  | .timers .. => True

/-- Whether records are of history states, and of what can be active. -/
def Outline.KnownHistory (c : Outline D) (h : History D.State) : Prop :=
  ∀ r ∈ h.records, (c.contains r.1 ∧ c.isHistory r.1) ∧ ∀ s ∈ r.2, c.contains s ∧ ¬ c.isHistory s

/-- A machine that keeps states of the chart only. -/
structure Machine.Known (c : Chart D) (m : Machine D) : Prop where
  configuration : ∀ s ∈ m.configuration, c.contains s ∧ ¬ c.isHistory s
  history : c.KnownHistory m.history
  timers : ∀ t ∈ m.timers.pending, c.contains t.state
  invocations : ∀ s ∈ m.invocations.states, c.contains s
  queue : ∀ w ∈ m.shell.queue, w.Known c

/-! ## Records -/

theorem Outline.knownHistory_record {c : Outline D} {h : History D.State} {s : D.State}
    {l : List D.State} (hs : c.contains s ∧ c.isHistory s)
    (hl : ∀ x ∈ l, c.contains x ∧ ¬ c.isHistory x) (h' : c.KnownHistory h) :
    c.KnownHistory (h.record s l) := by
  intro r hr
  rcases List.mem_cons.mp hr with rfl | hr
  · exact ⟨hs, hl⟩
  · exact h' r (List.mem_filter.mp hr).1

namespace Machine

variable {m m' m₀ m₁ : Machine D} {signal : Signal D} {p : Progress D} {step : Settled D}
  {steps : List (Settled D)} {o : Outcome D} {d : Defect D.State} {fuel : Nat} {call : Call D}
  {later : List (Work D)}

/-- What is recorded is active, and it is recorded for a history state. -/
theorem knownHistory_recordHistories (hm : Clean c m) (h : c.KnownHistory m.history)
    (leaving : List D.State) : c.KnownHistory (m.recordHistories leaving).history := by
  have hrecord : ∀ p h s, c.KnownHistory h → c.KnownHistory (m.recordHistory p h s) := by
    intro p h s hknown
    unfold recordHistory
    split
    · next mode hk =>
      rw [hm.chart] at hk
      refine Outline.knownHistory_record ⟨contains_of_kind? hk, isHistory_iff.mpr ⟨mode, hk⟩⟩
        (fun x hx => ?_) hknown
      obtain ⟨hactive, -⟩ := mem_remember.mp hx
      exact ⟨hm.contains x hactive, hm.plain x hactive⟩
    · exact hknown
  exact List.foldlRecOn (motive := c.KnownHistory) leaving _ h fun h hknown p _ =>
    List.foldlRecOn (motive := c.KnownHistory) _ _ hknown fun h hknown s _ => hrecord p h s hknown

/-- Being clean lasts, and with it that all records are of what can be active. -/
theorem lasting_recorded (c : Chart D) : Lasting c (fun s => ¬ c.isHistory s)
    (fun m => Clean c m ∧ c.KnownHistory m.history) where
  fresh := by
    intro m hc hm
    refine ⟨clean_of_fresh hc hm, fun r hr => ?_⟩
    rw [hm.history] at hr
    exact absurd hr List.not_mem_nil
  admits := fun m hm => admits_of_clean hm.1
  alter := by
    intro m m' hm h
    refine ⟨clean_of_alter hm.1 h, ?_⟩
    cases h with
    | context | command | work | leave | enter => exact hm.2
    | remember => exact knownHistory_recordHistories hm.1 hm.2 _
  same := fun m m' hm h => ⟨clean_of_sameStates hm.1 h, h.history ▸ hm.2⟩

end Machine

/-! ## The queue -/

namespace Shell

variable {s s' : Shell D} {horizon : Nat} {call : Call D}

/-- What a call asks for does not come from a state. -/
theorem known_of_work {now : Duration} {w : Work D} (hw : w ∈ call.work now horizon) : w.Known c := by
  cases call with
  | start | send =>
    rw [List.mem_singleton.mp hw]
    exact fun s hs => absurd hs (by simp [Signal.origin?])
  | tick =>
    rw [List.mem_singleton.mp hw]
    trivial
  | stop => exact absurd hw List.not_mem_nil

theorem known_of_receive (h : s.receive horizon call = .admitted s')
    (hs : ∀ w ∈ s.queue, w.Known c) : ∀ w ∈ s'.queue, w.Known c := by
  intro w hw
  rcases receive_cases h with ⟨hqueue, -⟩ | ⟨hqueue, -⟩
  · rw [hqueue] at hw
    exact (List.mem_append.mp hw).elim (hs w) known_of_work
  · rw [hqueue] at hw
    exact absurd hw List.not_mem_nil

theorem known_of_perform {command : Command D} (hs : ∀ w ∈ s.queue, w.Known c) :
    ∀ w ∈ (s.perform horizon command).1.queue, w.Known c := by
  have hcall : ∀ call tell, ∀ w ∈ (s.callAndTell horizon call tell).queue, w.Known c := by
    intro call tell
    unfold callAndTell callInside
    cases hr : s.receive horizon call with
    | refused | ignored => exact hs
    | admitted =>
      have hadmitted := known_of_receive hr hs
      exact hadmitted
  cases command with
  | act | status | subscribe | panic => exact hs
  | advance | unsubscribe =>
    rw [perform]
    split <;> exact hs
  | send | start | stop | tick => exact hcall _ _

/-- Whatever code and listeners ask for, no state is brought into the queue. -/
theorem known_of_asks {asked : List (Work D)} (h : s.Asks asked s') (hs : ∀ w ∈ s.queue, w.Known c) :
    ∀ w ∈ s'.queue, w.Known c := by
  induction h with
  | rest | count => exact hs
  | call hr => exact known_of_receive hr hs
  | command => exact known_of_perform hs
  | trans _ _ ih ih' => exact ih' (ih hs)

end Shell

/-- The completions that a step raises are of states of the chart. -/
theorem Settled.contains_of_raised {step : Settled D} {s : D.State} (hon : step.On c)
    (hs : s ∈ step.raised) : c.contains s := by
  obtain ⟨f, -, q, hq, rfl | ⟨-, hqs⟩⟩ := raised_cases hon hs
  · exact contains_parent hq
  · exact contains_parent hqs

namespace Machine

variable {m m' m₀ m₁ : Machine D} {signal : Signal D} {p : Progress D} {step : Settled D}
  {steps : List (Settled D)} {o : Outcome D} {d : Defect D.State} {fuel : Nat} {call : Call D}
  {later : List (Work D)}

/-- A step puts what its actions ask for into the queue, the completions that it raises, and what
the listeners ask for. -/
theorem queue_of_step (hon : step.On c) (h : m.Settles step p)
    (hq : ∀ w ∈ m.shell.queue, w.Known c) :
    ∀ w ∈ (absorb p).notify.machine.shell.queue, w.Known c := by
  obtain ⟨sent, hsent⟩ := asks_of_settles h
  obtain ⟨told, htold⟩ := (notify_leads (m := absorb p)).asks
  refine Shell.known_of_asks htold fun w hw => ?_
  -- the queue that the listeners find is empty if the step completes the machine
  obtain ⟨-, -, hdone, hgoesOn⟩ := absorb_work p
  cases hcompleted : p.completed with
  | true =>
    rw [(hdone hcompleted).2] at hw
    exact absurd hw List.not_mem_nil
  | false =>
    rw [hgoesOn hcompleted] at hw
    rcases List.mem_append.mp hw with hw | hw
    · exact Shell.known_of_asks hsent hq w hw
    · obtain ⟨s, hs, rfl⟩ := List.mem_map.mp hw
      rw [raised_of_progress h] at hs
      intro x hx
      obtain rfl : s = x := Option.some.inj hx
      exact Settled.contains_of_raised hon hs

/-- A result comes from a state whose invocation is pending. -/
theorem queue_of_move (h : m.Move m') (hinvocations : ∀ s ∈ m.invocations.states, c.contains s)
    (hq : ∀ w ∈ m.shell.queue, w.Known c) : ∀ w ∈ m'.shell.queue, w.Known c := by
  cases h with
  | call hr => exact Shell.known_of_receive hr hq
  | @result s id invocations result _ hsettle =>
    intro w hw
    rcases List.mem_append.mp hw with hw | hw
    · exact hq w hw
    · obtain ⟨r, hr, -⟩ := Option.map_eq_some_iff.mp (Invocations.pending?_settle hsettle).1
      have hs : c.contains s := hinvocations s (Invocations.mem_states.mpr ⟨r, hr⟩)
      rw [List.mem_singleton.mp hw]
      intro x hx
      cases result <;> exact Option.some.inj hx ▸ hs
  | skip _ hturn =>
    obtain ⟨work, hqueue, -⟩ := nextTurn_skip_cases hturn
    exact fun w hw => hq w (hqueue ▸ List.mem_cons_of_mem _ hw)
  | pass _ hturn hproc hp =>
    obtain ⟨hrest, hlater⟩ := queue_of_turn hturn
    rcases process_cases hproc with ⟨invocations, -, rfl⟩ | ⟨step, hstep, -⟩
    · rw [absorb_same]
      exact fun w hw => hq w ((List.mem_append.mp hw).elim (hrest ·) (hlater ·))
    · rw [(settled_of_settles hstep).1] at hp
      exact absurd hp (by simp)
  | fault | faultStopping => exact fun w hw => absurd hw List.not_mem_nil
  | outside => exact hq

theorem queue_of_settling (h : m.Settling step m') (hon : step.Live → step.On c)
    (hq : ∀ w ∈ m.shell.queue, w.Known c) : ∀ w ∈ m'.shell.queue, w.Known c := by
  have hturns : ∀ {m₀ later p}, m.nextTurn = .process m₀ step.signal later →
      m₀.Settles step p → ∀ w ∈ (absorb p).notify.machine.shell.queue, w.Known c := by
    intro m₀ later p hturn hstep
    have hlive : step.Live := (effects_of_settles (turn_passes hturn).2.1 hstep).status
    exact queue_of_step (hon hlive) hstep fun w hw => hq w ((queue_of_turn hturn).1 hw)
  cases h with
  | turn _ hturn hstep _ =>
    intro w hw
    rcases List.mem_append.mp hw with hw | hw
    · exact hturns hturn hstep w hw
    · exact hq w ((queue_of_turn hturn).2 hw)
  | turnPanicked _ hturn hstep _ => exact hturns hturn hstep
  | stop hup hstop _ hfin =>
    have hstarted : m.status ≠ .notStarted := by rcases hup with h | h <;> simp [h]
    rw [(finish_work hstarted hstop.stopRequested hfin).2.2]
    exact fun w hw => absurd hw List.not_mem_nil

/-! ## Along a run -/

/-- What is pending belongs to active states. -/
theorem pending_known (hrun : Run c steps m) :
    (∀ t ∈ m.timers.pending, c.contains t.state) ∧ ∀ s ∈ m.invocations.states, c.contains s := by
  have hm := clean_of_run hrun
  obtain ⟨howned, -⟩ := pending_of_run hrun
  exact ⟨fun t ht => hm.contains _ (howned.timers t ht).1,
    fun s hs => hm.contains s (howned.invocations s hs).1⟩

theorem queue_known (hrun : Run c steps m) : ∀ w ∈ m.shell.queue, w.Known c := by
  induction hrun with
  | fresh _ hm =>
    rw [hm.queue]
    exact fun w hw => absurd hw List.not_mem_nil
  | move hrun hmove ih => exact queue_of_move hmove (pending_known hrun).2 ih
  | settle hrun hsettling ih =>
    exact queue_of_settling hsettling
      (on_of_run (hrun.settle hsettling) (List.mem_cons_self ..)) ih

/-! ## Defects and calls -/

/-- The rounds of working the queue off are part of a run. -/
theorem run_reaches (hrun : Run c steps m) (h : m.Reaches m') : ∃ new, Run c (new ++ steps) m' := by
  obtain ⟨log, hgoes⟩ := goes_reaches .rest h
  exact ⟨Event.steps log, run_goes hrun hgoes⟩

/-- Telling the listeners is no defect. -/
theorem notify_ne_defect (m : Machine D) (d : Defect D.State) : m.notify.error ≠ some (.defect d) := by
  intro h
  obtain ⟨message, -, he⟩ := Option.map_eq_some_iff.mp h
  exact absurd he (by simp)

/-- A last round that ends in a defect is one in which the machine hits it. -/
theorem hits_of_closes (hup : m.Up) (h : m.Closes o) (he : o.error = some (.defect d)) :
    ∃ m₁, m.Hits m₁ d := by
  cases h with
  | idle => exact absurd he (by simp)
  | @turn m₀ signal later _ hstop hturn ho =>
    rcases advance_cases ho with ⟨m₁, d', hproc, rfl⟩ | ⟨invocations, -, rfl⟩ | ⟨step, p, -, -, rfl⟩
    · obtain rfl : d' = d := by simpa [fault] using he
      exact ⟨m₁, .processing hstop hturn hproc⟩
    · exact absurd he (by simp)
    · exact absurd he (notify_ne_defect _ d)
  | stop hstop hfin =>
    rcases finish_cases hfin with ⟨m₁, d', hdown, rfl⟩ | ⟨m₁, _, _, -, rfl, rfl⟩
    · obtain rfl : d' = d := by simpa [fault] using he
      exact ⟨m₁, .stopping hup hstop hdown⟩
    · exact absurd he (notify_ne_defect _ d)

/-- A call that returns a defect has come to a machine that hits it. -/
theorem hits_of_call (hrun : Run c steps m) (h : m.call fuel call = some o)
    (he : o.error = some (.defect d)) :
    ∃ new m' m₁, Run c (new ++ steps) m' ∧ m.Comes call m' ∧ m'.Hits m₁ d := by
  unfold Machine.call at h
  split at h
  · obtain rfl := Option.some.inj h
    exact absurd he (by simp)
  · obtain rfl := Option.some.inj h
    exact absurd he (by simp)
  · next shell hr =>
    rcases reaches_of_drain h with ⟨-, rfl⟩ | ⟨m', o', hreaches, hclose, rfl⟩
    · exact absurd he (by simp)
    have hup := up_of_reaches hreaches (Shell.up_of_receive hr)
    obtain ⟨worked, hnoted⟩ := noted_eq o'
    rw [hnoted] at he
    obtain ⟨m₁, hhits⟩ := hits_of_closes hup hclose he
    obtain ⟨new, hnew⟩ := run_reaches (hrun.move (.call hr)) hreaches
    exact ⟨new, m', m₁, hnew, ⟨shell, hr, hreaches⟩, hhits⟩

/-- A defect that a clean machine hits is none of looking a state up. -/
theorem found_of_hits (hm : Clean c m) (h : m.Hits m₁ d) : ∀ s, d ≠ .unknownState s := by
  cases h with
  | processing _ hturn hproc => exact (process_finds (clean_of_turn hm hturn)).defect hproc
  | stopping _ _ hdown =>
    have hempty : Clean c { m with shell := { m.shell with queue := [] } } :=
      clean_of_sameStates hm ⟨rfl, rfl, rfl⟩
    exact (teardown_finds hempty).defect hdown

/-- At every moment of a run the machine keeps states of its chart only, neither in a history state
nor remembering one; it never hits the defect that a state is unknown, and no call returns it. -/
theorem known_of_run (hrun : Run c steps m) :
    m.Known c ∧ (∀ m₁ d, m.Hits m₁ d → ∀ s, d ≠ .unknownState s) ∧
      ∀ fuel call o, m.call fuel call = some o → ∀ s, o.error ≠ some (.defect (.unknownState s)) := by
  obtain ⟨hm, hhistory⟩ := lasting_run (lasting_recorded c) hrun
  obtain ⟨htimers, hinvocations⟩ := pending_known hrun
  refine ⟨⟨fun s hs => ⟨hm.contains s hs, hm.plain s hs⟩, hhistory, htimers, hinvocations,
    queue_known hrun⟩, fun m₁ d h => found_of_hits hm h, fun fuel call o h s he => ?_⟩
  -- the defect would have been hit at a later moment of the run
  obtain ⟨new, m', m₁, hrun', -, hhits⟩ := hits_of_call hrun h he
  exact found_of_hits (clean_of_run hrun') hhits s rfl

end Machine

/-! ## A reader -/

inductive ReaderState | reader | shut | book | page | note | last | first
deriving DecidableEq

/-- A reader that opens a book where it was shut. At first that leads from one history state to
another, and on to a note, which is saved meanwhile and put away after a while. -/
def readerTree : StateTree (.bare ReaderState) :=
  .bare .reader (.compound .shut) []
    [.bare .shut .atomic [.bare "open" .last],
    .bare .book (.compound .page) [.bare "shut" .shut]
      [.bare .page .atomic,
      .node
        { id := .note
          kind := .atomic
          transitions := [.bareOn (.after (.ofMillis 1000)) .page]
          invocation := some { name := "save", start := fun _ => .ok .await } } [],
      .node { id := .last, kind := .history .shallow, fallback := some .first } [],
      .node { id := .first, kind := .history .deep, fallback := some .note } []]]

def reader : Chart (.bare ReaderState) :=
  { readerTree.outline with tree := readerTree, outline_eq := rfl, flawless := by cbv }

/-- A reader that was opened, shut and opened again. -/
def openedReader : Machine (.bare ReaderState) :=
  { reader.machine with canInvoke := true }.after 9 [.start, .send "open", .send "shut", .send "open"]

open Machine in
/-- When a note was saved that was opened again, all that the reader keeps is known: the note is
active and remembered twice, its timer is pending, and the result waits in the queue. Nor will a
call say that a state is not. -/
theorem reader_known : ∃ steps m, Run reader steps m ∧
    m.configuration.elems = [.reader, .book, .note] ∧
    m.history.records = [(.first, [.note]), (.last, [.note])] ∧
    m.timers.pending.map (·.state) = [.note] ∧ m.invocations.states = [.note] ∧
    m.shell.queue = [.signal (.invokeDone .note 1 ())] ∧ m.Known reader ∧
    ∀ fuel call o, m.call fuel call = some o → ∀ s, o.error ≠ some (.defect (.unknownState s)) := by
  have hfresh : Fresh { reader.machine with canInvoke := true } :=
    ⟨rfl, rfl, rfl, rfl, rfl, rfl, rfl, rfl, rfl, rfl, rfl⟩
  obtain ⟨⟨steps, hrun⟩, hqueue⟩ := run_of_atRest (m := openedReader)
    (atRest_after (.fresh (c := reader) rfl hfresh) 9 _)
  have hkept : (openedReader.isLive, openedReader.invocations.pending? .note,
      openedReader.configuration.elems, openedReader.history.records,
      openedReader.timers.pending.map (·.state), openedReader.invocations.states) =
      (true, some (1, false), [.reader, .book, .note], [(.first, [.note]), (.last, [.note])],
        [.note], [.note]) := by cbv
  simp only [Prod.mk.injEq] at hkept
  obtain ⟨hlive, hpending, hconfiguration, hrecords, htimers, hinvocations⟩ := hkept
  have hsettle := Invocations.settle?_eq openedReader.invocations .note 1
  rw [if_pos hpending] at hsettle
  have hresult := hrun.move (@Move.result _ openedReader .note 1 _ (.ok ()) hlive hsettle)
  obtain ⟨hknown, -, hcall⟩ := known_of_run hresult
  refine ⟨steps, _, hresult, hconfiguration, hrecords, htimers,
    (Invocations.states_settle hsettle).trans hinvocations, ?_, hknown, hcall⟩
  show openedReader.shell.queue ++ _ = _
  rw [hqueue]
  rfl

end Statechart
