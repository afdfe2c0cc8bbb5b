import Statechart.Proofs.Machine.Defects
import Statechart.Proofs.Machine.Wishes
import Statechart.Proofs.Rounds

/-!
# Faults

A machine hits a defect as it processes the signal whose turn it is, or as it is stopped
(`Hits`). It faults then, and what is left is what the defect has left (`process_ends`,
`teardown_ends`) with all pending work taken away. Nothing was counted, recorded, launched or
told; the call whose round it was returns the defect; and as a fault is the end of a machine's
life, nothing is ever done any more (`contained_of_run`).

Later calls are refused, and `start` and `stop` say why. `send` and `tick` do so unless somebody had
asked to stop before the defect came up: that wish is looked at first, and it outlives the fault
(`refusal_of_run`).
-/

namespace Statechart

variable {D : Domain}

/-- Why a faulted machine refuses a call. -/
def Call.refusalOnceFaulted (stopAsked : Bool) : Call D → Refusal
  | .start | .stop => .faulted
  | .send _ | .tick => if stopAsked then .stopped else .faulted

namespace Machine

/-- A machine hits a defect in the next round of working its queue off. By then it has become `m₁`. -/
inductive Hits (m : Machine D) : Machine D → Defect D.State → Prop
  | processing {m₀ m₁ : Machine D} {signal : Signal D} {later : List (Work D)}
      {d : Defect D.State} :
      m.Serves false → m.nextTurn = .process m₀ signal later →
      m₀.process signal = .error (.defect m₁ d) → Hits m m₁ d
  | stopping {m₁ : Machine D} {d : Defect D.State} :
      m.Up → m.Serves true →
      { m with shell := { m.shell with queue := [] } }.teardown = .error (.defect m₁ d) →
        Hits m m₁ d

/-- The damage that a defect does to a machine that has become `m₁` by the time it is hit. -/
structure Contained (m m₁ : Machine D) (d : Defect D.State) : Prop where
  /-- A call whose rounds come to this returns the defect. -/
  call : ∀ (caller : Machine D) (call : Call D), caller.Comes call m → ∃ n, ∀ fuel,
    caller.call fuel call =
      if n ≤ fuel then
        some { machine := { (m₁.fault d).machine with worked := true }, error := some (.defect d) }
      else none
  /-- The result of an invocation has nobody to return it to. -/
  result : ∀ (receiver : Machine D) s id result, receiver.ComesOfResult s id result m →
    ∃ n, ∀ fuel, receiver.deliver fuel s id result =
      if n ≤ fuel then some { (m₁.fault d).machine with worked := true } else none
  /-- The machine is faulted at once and for good, and nothing waits or is pending. -/
  faulted : ∀ log m', (m₁.fault d).machine.Goes log m' →
    m'.status = .faulted ∧ m'.shell.queue = [] ∧ m'.Idle
  counted : (m₁.fault d).machine.step = m.step ∧ (m₁.fault d).machine.journal = m.journal
  untold : m.shell.Untold (m₁.fault d).machine.shell
  launched : (m₁.fault d).machine.launched = m.launched
  /-- Guards are asked before anything is done. -/
  guarded : d.OfGuard → (m₁.fault d).machine.configuration = m.configuration ∧
    (m₁.fault d).machine.context = m.context ∧ (m₁.fault d).machine.history = m.history

/-- Whether somebody had asked to stop by the time a defect was hit: beforehand, or in the step that
hit it. -/
def AskedToStop (m m₁ : Machine D) : Prop :=
  m.shell.stopRequested = true ∨ ∃ queue, { m.shell with queue }.AsksToStop m₁.shell

variable {c : Chart D} {m m' m₁ : Machine D} {d : Defect D.State} {steps : List (Settled D)}
  {log : List (Event D)}

/-! ## What is left of the machine -/

theorem admits_any (m : Machine D) : m.Admits fun _ => True :=
  ⟨fun _ _ _ _ => trivial, fun _ _ _ _ _ _ _ _ => trivial⟩

/-- What the defect leaves is what a step may do to the machine, with some work taken out of the
queue beforehand. -/
theorem hits_cases (h : m.Hits m₁ d) : ∃ m₀ : Machine D,
    m₀ = { m with shell := { m.shell with queue := m₀.shell.queue }, timers := m₀.timers } ∧
      m₀.Halts (fun _ => True) m₁ d := by
  cases h with
  | @processing m₀ _ _ _ _ _ hturn hproc =>
    exact ⟨m₀, (nextTurn_process hturn).2, (process_ends (admits_any m₀)).defect hproc⟩
  | stopping _ _ hdown =>
    obtain ⟨halters, hguard⟩ := teardown_ends.defect hdown
    exact ⟨_, rfl, alters_mono (fun _ => False.elim) halters, fun hd => absurd hd hguard⟩

/-- Nobody blocks the queue on the way to a defect. -/
theorem free_of_hits (h : m.Hits m₁ d) : m₁.blocked = false := by
  obtain ⟨m₀, hm₀, halters, -⟩ := hits_cases h
  have hfree : m.blocked = false := by
    cases h with
    | processing hserves => exact hserves.free
    | stopping _ hserves => exact hserves.free
  rw [(unsettled_of_alters halters).blocked, hm₀]
  exact hfree

theorem noted_of_hits (h : m.Hits m₁ d) : noted (m₁.fault d) =
    { machine := { (m₁.fault d).machine with worked := true }, error := some (.defect d) } :=
  if_neg (by simp [fault, cancelAll, free_of_hits h])

/-- A defect closes the rounds. -/
theorem closes_of_hits (h : m.Hits m₁ d) : m.Closes (m₁.fault d) := by
  cases h with
  | processing hstop hturn hproc =>
    refine .turn hstop hturn (by rw [advance, hproc]) (by simp [fault])
  | stopping _ hstop hdown => exact .stop hstop (by rw [finish, hdown])

/-- A move ends the life of a machine only by a defect. -/
theorem hits_of_move (h : m.Move m') (hm : ¬ m.Ended) (hend : m'.Ended) :
    ∃ m₁ d, m.Hits m₁ d ∧ m' = (m₁.fault d).machine := by
  cases h with
  | call hr => exact absurd hend (not_ended_of_up (Shell.up_of_receive hr))
  | result | outside => exact absurd hend hm
  | skip _ hturn =>
    rw [nextTurn_skip hturn] at hend
    exact absurd hend hm
  | pass _ hturn hproc hp =>
    rcases process_cases hproc with ⟨invocations, -, rfl⟩ | ⟨step, hstep, -⟩
    · rw [absorb_same, (nextTurn_process hturn).2] at hend
      exact absurd hend hm
    · rw [(settled_of_settles hstep).1] at hp
      exact absurd hp (by simp)
  | fault hstop hturn hproc => exact ⟨_, _, .processing hstop hturn hproc, rfl⟩
  | faultStopping hup hstop hdown => exact ⟨_, _, .stopping hup hstop hdown, rfl⟩

theorem run_of_hits (hrun : Run c steps m) (h : m.Hits m₁ d) : Run c steps (m₁.fault d).machine := by
  cases h with
  | processing hstop hturn hproc => exact hrun.move (.fault hstop hturn hproc)
  | stopping hup hstop hdown => exact hrun.move (.faultStopping hup hstop hdown)

/-- After a fault nothing waits any more, and nothing is pending. -/
theorem faulted_of_goes (h : (m₁.fault d).machine.Goes log m') :
    m'.status = .faulted ∧ m'.shell.queue = [] ∧ m'.Idle := by
  obtain ⟨hstatus, ⟨htimers, hrunning⟩, hqueue⟩ := fault_work m₁ d
  obtain ⟨hmoved, -⟩ := unmoved_of_goes (Or.inr hstatus) h
  refine ⟨hmoved.status.trans hstatus, List.subset_nil.mp (hqueue ▸ hmoved.queue), ?_, ?_⟩
  · rw [hmoved.timers, htimers]
  · rw [hmoved.invocations, hrunning]

/-- The damage that a defect does is contained: the call that hit it returns it, the machine is
faulted for good with nothing left to do, and the step that was begun is neither counted nor
recorded, nor is anybody told of it or anything launched for it. A guard that panics leaves the
machine as it was. -/
theorem contained_of_run (hrun : Run c steps m) (h : m.Hits m₁ d) :
    Run c steps (m₁.fault d).machine ∧ Contained m m₁ d := by
  obtain ⟨m₀, hm₀, halters, hguard⟩ := hits_cases h
  have hleft := unsettled_of_alters halters
  refine ⟨run_of_hits hrun h, ?_, ?_, fun _ _ => faulted_of_goes, ⟨?_, ?_⟩, ?_, ?_, fun hd => ?_⟩
  · exact fun caller call hcomes => noted_of_hits h ▸ call_of_comes hcomes (closes_of_hits h)
  · intro receiver s id result hcomes
    obtain ⟨n, hn⟩ := deliver_of_comes hcomes (closes_of_hits h)
    exact ⟨n, fun fuel => by rw [hn, noted_of_hits h]⟩
  · exact hleft.step.trans (by rw [hm₀])
  · exact hleft.journal.trans (by rw [hm₀])
  · have huntold := hleft.untold
    rw [hm₀] at huntold
    exact huntold
  · exact hleft.launched.trans (by rw [hm₀])
  · obtain ⟨invocations, rfl⟩ := hguard hd
    rw [hm₀]
    exact ⟨rfl, rfl, rfl⟩

/-! ## Later calls -/

/-- What was asked for before a defect is what is asked for after it. -/
theorem askedToStop_iff (h : m.Hits m₁ d) :
    m₁.shell.stopRequested = true ↔ m.AskedToStop m₁ := by
  obtain ⟨m₀, hm₀, halters, -⟩ := hits_cases h
  obtain ⟨asked, hasks⟩ := (unsettled_of_alters halters).leads.asks
  have hshell : m₀.shell = { m.shell with queue := m₀.shell.queue } := by rw [hm₀]
  have hiff := Shell.stopRequested_iff hasks
  rw [hshell] at hiff
  constructor
  · exact fun hs => (hiff.mp hs).imp_right fun hasked => ⟨_, hasked⟩
  · intro hs
    rcases hs with hs | ⟨queue, s₁, s₂, horizon, _, _, -, hstop, hafter⟩
    · exact hiff.mpr (Or.inl hs)
    · exact Shell.stopRequested_of_asks hafter ((Shell.stop_admitted hstop).2 ▸ rfl)

/-- A faulted machine refuses every call. -/
theorem call_of_faulted (hm : m.status = .faulted) (fuel : Nat) (call : Call D) :
    m.call fuel call = some { machine := m, error := some (.refused
      (call.refusalOnceFaulted m.shell.stopRequested)) } := by
  have hs : m.shell.status = .faulted := hm
  cases hstop : m.shell.stopRequested <;>
    cases call <;>
    simp [Machine.call, Shell.receive, Shell.receiveWork, Call.refusalOnceFaulted, hs, hstop]

/-- Once a defect was hit, every later call is refused and every result turned away, and nothing
changes. That it was because of the fault is what every call says if and only if nobody had asked to
stop by then; else `send` and `tick` say that the machine was stopped. -/
theorem refusal_of_run (hrun : Run c steps m) (h : m.Hits m₁ d)
    (hgoes : (m₁.fault d).machine.Goes log m') :
    Run c (Event.steps log ++ steps) m' ∧ (m₁.fault d).machine.Unmoved m' ∧
      (∀ fuel call, m'.call fuel call = some { machine := m', error := some (.refused
        (call.refusalOnceFaulted m₁.shell.stopRequested)) }) ∧
      (∀ fuel s id result, m'.deliver fuel s id result = some m') ∧
      ((∀ fuel call, m'.call fuel call =
        some { machine := m', error := some (.refused .faulted) }) ↔ ¬ m.AskedToStop m₁) := by
  obtain ⟨hstatus, -, -⟩ := faulted_of_goes hgoes
  obtain ⟨hmoved, -⟩ := unmoved_of_goes (Or.inr rfl) hgoes
  have hcall : ∀ fuel call, m'.call fuel call = some { machine := m', error := some (.refused
      (call.refusalOnceFaulted m₁.shell.stopRequested)) } := by
    intro fuel call
    rw [call_of_faulted hstatus, hmoved.stopRequested]
    rfl
  refine ⟨run_goes (run_of_hits hrun h) hgoes, hmoved, hcall,
    fun fuel s id result => deliver_of_ended (Or.inr hstatus) fuel, ?_⟩
  · rw [← askedToStop_iff h, Bool.not_eq_true]
    constructor
    · intro hall
      have hsend := (hcall 0 .tick).symm.trans (hall 0 .tick)
      simpa [Call.refusalOnceFaulted] using hsend
    · intro hs fuel call
      rw [hcall, hs]
      cases call <;> rfl

/-- The machine and the defect that processing a signal halts with. -/
def halted? (m : Machine D) (signal : Signal D) : Option (Machine D × Defect D.State) :=
  match m.process signal with
  | .error (.defect m₁ d) => some (m₁, d)
  | .error .endless | .ok _ => none

theorem process_of_halted? {signal : Signal D} (h : m.halted? signal = some (m₁, d)) :
    m.process signal = .error (.defect m₁ d) := by
  unfold halted? at h
  split at h
  · next hproc =>
    rw [Option.some.injEq, Prod.mk.injEq] at h
    exact h.1 ▸ h.2 ▸ hproc
  all_goals exact absurd h (by simp)

/-- A running machine with nothing in its queue, which is free, that is sent an event hits whatever
defect comes up as the event is processed. -/
theorem hits_of_send {event : D.Event} (hrun : Run c steps m) (hopen : m.Open)
    (hfree : m.blocked = false) (hqueue : m.shell.queue = [])
    (h : m.halted? (.event event) = some (m₁, d)) :
    ∃ m', Run c steps m' ∧ m.Comes (.send event) m' ∧ m'.Hits m₁ d := by
  obtain ⟨hstatus, hstop⟩ := hopen
  have hr : m.shell.receive m.timers.nextEpoch (.send event) =
      .admitted (m.shell.enqueue (.signal (.event event))) := by
    have hs : m.shell.status = .running := hstatus
    simp [Shell.receive, Shell.receiveWork, hs, hstop]
  refine ⟨_, hrun.move (.call hr), ⟨_, hr, .refl⟩, ?_⟩
  have hturn : { m with shell := m.shell.enqueue (.signal (.event event)) }.nextTurn =
      .process { m with shell := { m.shell with queue := [] } } (.event event) [] := by
    have hs : m.shell.status = .running := hstatus
    simp [nextTurn, Shell.enqueue, hqueue, status, hs]
  rw [← hqueue] at hturn
  exact .processing ⟨hfree, hstop⟩ hturn (process_of_halted? h)

end Machine

/-! ## A press -/

inductive PressState | press | idle | printing
deriving DecidableEq

/-- A press that jams as it begins to print, whose ink cannot be checked, and whose brake fails when
it is to be halted. -/
def pressTree : StateTree (.bare PressState) :=
  .bare .press (.compound .idle) []
    [.bare .idle .atomic
      [.bare "print" .printing,
      { trigger := .event "check"
        guard := some { name := "ink", holds := fun _ _ => .error "no sensor" } },
      { trigger := .event "halt"
        actions := [{ name := "brake"
                      deed := .effect fun _ _ _ => [.stop fun _ host => host, .panic "too hot"] }] }],
    .node
      { id := .printing
        kind := .atomic
        entry := [{ name := "feed", deed := .assign fun _ _ => .error "paper jam" }]
        transitions := [.bareOn (.after (.ofMillis 1000)) .idle] } []]

def press : Chart (.bare PressState) :=
  { pressTree.outline with tree := pressTree, outline_eq := rfl, flawless := by cbv }

/-- A press that is switched on, and somebody watching. -/
def watchedPress : Machine (.bare PressState) :=
  (press.machine.subscribe fun _ _ => []).1.after 9 [.start]

open Machine in
theorem press_open : (∃ steps, Run press steps watchedPress) ∧ watchedPress.Open ∧
    watchedPress.blocked = false ∧ watchedPress.shell.queue = [] := by
  have hfresh : (press.machine.subscribe fun _ _ => []).1.Fresh :=
    ⟨rfl, rfl, rfl, rfl, rfl, rfl, rfl, rfl, rfl, rfl, rfl⟩
  obtain ⟨hrun, -⟩ := run_of_atRest (atRest_after (.fresh (c := press) rfl hfresh) 9 [.start])
  exact ⟨hrun, ⟨by cbv, by cbv⟩, by cbv, by cbv⟩

open Machine in
/-- The press jams half way through a step: it has begun to print, but no step is counted, no timer is
pending, and nobody is told. -/
theorem press_jams : ∃ steps m m₁, ∃ d : Defect (Domain.bare PressState).State,
    Run press steps m ∧ watchedPress.Comes (.send "print") m ∧ m.Hits m₁ d ∧
      d = .actionPanicked .printing "feed" "paper jam" ∧
      (m₁.fault d).machine.configuration.elems = [.press, .printing] ∧ Contained m m₁ d := by
  obtain ⟨⟨steps, hrun⟩, hopen, hfree, hqueue⟩ := press_open
  have hjam : (watchedPress.halted? (.event "print")).map
      (fun halt => (halt.1.configuration.elems, halt.2)) =
        some ([.press, .printing], .actionPanicked .printing "feed" "paper jam") := by cbv
  obtain ⟨⟨m₁, d⟩, hhalt, he⟩ := Option.map_eq_some_iff.mp hjam
  rw [Prod.mk.injEq] at he
  obtain ⟨m, hm, hcomes, hhits⟩ := hits_of_send hrun hopen hfree hqueue hhalt
  exact ⟨steps, m, m₁, d, hm, hcomes, hhits, he.2, he.1, (contained_of_run hm hhits).2⟩

open Machine in
/-- After a jam every call says that the press is faulted. -/
theorem press_refuses : ∃ steps m m₁, ∃ d : Defect (Domain.bare PressState).State,
    Run press steps m ∧ m.Hits m₁ d ∧ ¬ m.AskedToStop m₁ ∧ ∀ fuel call,
      (m₁.fault d).machine.call fuel call =
        some { machine := (m₁.fault d).machine, error := some (.refused .faulted) } := by
  obtain ⟨⟨steps, hrun⟩, hopen, hfree, hqueue⟩ := press_open
  have hjam : (watchedPress.halted? (.event "print")).map (·.1.shell.stopRequested) =
      some false := by cbv
  obtain ⟨⟨m₁, d⟩, hhalt, hstop⟩ := Option.map_eq_some_iff.mp hjam
  obtain ⟨m, hm, -, hhits⟩ := hits_of_send hrun hopen hfree hqueue hhalt
  have hnobody : ¬ m.AskedToStop m₁ := by
    rw [← askedToStop_iff hhits, Bool.not_eq_true]
    exact hstop
  obtain ⟨-, -, -, -, hsays⟩ := refusal_of_run hm hhits .rest
  exact ⟨steps, m, m₁, d, hm, hhits, hnobody, hsays.mpr hnobody⟩

/-- When the brake has failed, a press that was to be halted does not say so: it claims that it was
stopped. -/
theorem press_misleads :
    (watchedPress.call 9 (.send "halt")).map (fun o => (o.error, o.machine.status)) =
        some (some (.defect (.actionPanicked .idle "brake" "too hot")), .faulted) ∧
      ((watchedPress.call 9 (.send "halt")).bind fun o =>
        (o.machine.call 9 (.send "print")).map (·.error)) = some (some (.refused .stopped)) ∧
      ((watchedPress.call 9 (.send "halt")).bind fun o =>
        (o.machine.call 9 .start).map (·.error)) = some (some (.refused .faulted)) := by
  refine ⟨by cbv, by cbv, by cbv⟩

end Statechart
