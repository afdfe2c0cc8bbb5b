import Statechart.Proofs.Chart.Orders
import Statechart.Proofs.Clean
import Statechart.Proofs.Faults

/-!
# Stopping

Somebody asks to stop: by a call from outside, or while code runs in a step or in a listener
(`CallsStop`). The wish is noted (`stopRequested_of_does`), and from then on the machine accepts and
processes nothing. The round in which the wish was noted is finished, which may settle its step,
and the next thing the machine does is to tear itself down.

That takes away all pending work and leaves every active state, no state after a state around it
(`Exits`), by running its exit actions (`Abandons`). Either all of them are run, and one more step
counts, or they are run up to the first that panics, and the machine is faulted (`TornDown`). In
either case its life is over.

A listener that panics blocks the queue, and then nobody tears the machine down any more, neither
for a wish that was noted before nor for one that comes later: the machine stays as it is, and calls
that ask to stop are answered as if all were well (`held_of_goes`, `call_of_held`).
-/

namespace Statechart

variable {D : Domain}

namespace Machine

/-! ## Asking -/

/-- Somebody asks the machine to stop while it processes a signal and tells whoever listens, and is
admitted: an action of the step that is settled, a listener told of it, or an action of a step that
comes to a defect. -/
inductive AsksWithin (m : Machine D) (signal : Signal D) : Prop
  | action {p : Progress D} :
      m.process signal = .ok p → m.shell.AsksToStop p.machine.shell → AsksWithin m signal
  | listener {p : Progress D} :
      m.process signal = .ok p → p.settled = true →
      (absorb p).shell.AsksToStop (absorb p).notify.machine.shell → AsksWithin m signal
  | failing {m₁ : Machine D} {d : Defect D.State} :
      m.process signal = .error (.defect m₁ d) → m.shell.AsksToStop m₁.shell → AsksWithin m signal

/-- Somebody asks the machine to stop as it goes through an event, and is admitted: from outside, or
by code that runs as the machine processes a signal. -/
inductive CallsStop (m : Machine D) (e : Event D) (m' : Machine D) : Prop
  | outside {shell : Shell D} :
      m.shell.receive m.timers.nextEpoch .stop = .admitted shell → m' = { m with shell } →
        CallsStop m e m'
  | within {m₀ : Machine D} {signal : Signal D} :
      e.processed = some (m₀, signal) → m₀.AsksWithin signal → CallsStop m e m'

/-! ## Tearing down -/

/-- The machine with nothing in its queue and no work pending. -/
def cleared (m : Machine D) : Machine D :=
  { m.cancelAll with shell := { m.shell with queue := [] } }

/-- The machine tells everybody who listens a last time. -/
def farewell (m : Machine D) : Outcome D :=
  match m.notify.error with
  | some _ => m.notify
  | none =>
    { machine :=
        { m.notify.machine with shell := { m.notify.machine.shell with listeners := [] } } }

/-- Every active state, once, none after a state around it. -/
structure Exits (m : Machine D) (exited : List D.State) : Prop where
  nodup : exited.Nodup
  mem : ∀ s, s ∈ exited ↔ s ∈ m.configuration
  order : exited.Pairwise fun s t => ¬ m.chart.isDescendant t s

/-- States are left one after another: the exit actions of each are run, and then it is not active
any more. -/
inductive Abandons : Machine D → List D.State → Machine D → Prop
  | rest {m : Machine D} : Abandons m [] m
  | next {m m₁ m' : Machine D} {s : D.State} {n : Node D} {l : List D.State} :
      m.chart.node? s = some n → m.runActions s .stop n.exit = .ok m₁ →
      Abandons { m₁ with configuration := m₁.configuration.erase s } l m' → Abandons m (s :: l) m'

/-- What becomes of a machine whose states were all left without a defect. -/
structure Stopped (m : Machine D) (exited : List D.State) (o : Outcome D) : Prop where
  /-- The exit actions are run on a machine with no work pending, and then whoever listens is told
  once. -/
  left : ∃ left, m.cleared.Abandons exited left ∧
    o = farewell
      { left.settle .stop exited [] with shell := { left.shell with status := .stopped } }
  status : o.machine.status = .stopped
  configuration : o.machine.configuration.elems = []
  step : o.machine.step = m.step + 1
  journal : ∃ stamp, o.machine.journal = m.journal.record
    { step := m.step + 1, trigger := "stop", exited, entered := [], stamp }
  history : o.machine.history = m.history

/-- What becomes of a machine that is torn down: it is stopped, or faulted by the first exit action
that panics. -/
inductive TornDown (m : Machine D) (exited : List D.State) : Outcome D → Prop
  | stopped {o : Outcome D} : Stopped m exited o → TornDown m exited o
  | faulted {front back : List D.State} {s : D.State} {n : Node D} {left m₁ : Machine D}
      {d : Defect D.State} :
      exited = front ++ s :: back → m.cleared.Abandons front left → left.chart.node? s = some n →
      left.runActions s .stop n.exit = .error (.defect m₁ d) → TornDown m exited (m₁.fault d)

/-- What a machine that was asked to stop goes through: it waits to be torn down, and comes to its end
by that, with one more step, or none if it is faulted. -/
inductive Ending (m : Machine D) : List (Settled D) → Machine D → Prop
  | waits {m' : Machine D} : m.Unmoved m' → Ending m [] m'
  | stopped {m₁ m' : Machine D} {o : Outcome D} {step : Settled D} :
      m.Up → m.Unmoved m₁ → m₁.finish = some o → o.machine.status = .stopped →
      step.signal = .stop → step.taken = [] → step.entered = [] → o.machine.Unmoved m' →
        Ending m [step] m'
  | faulted {m₁ m' : Machine D} {o : Outcome D} :
      m.Up → m.Unmoved m₁ → m₁.finish = some o → o.machine.status = .faulted →
      o.machine.Unmoved m' → Ending m [] m'

/-- What comes of it when somebody has asked a machine to stop. -/
structure Stopping (c : Chart D) (m : Machine D) : Prop where
  /-- No work that waits or comes in is done any more, no result accepted and no transition taken. -/
  final : ∀ log m', m.Goes log m' → (∀ e ∈ log, e.Silent) ∧ m.Ending (Event.steps log) m'
  /-- Tearing the machine down always comes to an end, and leaves nothing pending. -/
  down : m.blocked = false → m.Up → ∀ m₁, m.Unmoved m₁ → ∃ exited o, m₁.Exits exited ∧
    m₁.finish = some o ∧ m₁.TornDown exited o ∧ o.machine.Idle ∧ o.machine.shell.queue = []
  /-- That is what the call or the result does next whose round it is. -/
  call : m.blocked = false → ∀ m₁ o, m.Unmoved m₁ → m₁.finish = some o →
    (∀ (caller : Machine D) (call : Call D), caller.Comes call m₁ → ∃ n, ∀ fuel,
      caller.call fuel call = if n ≤ fuel then some (noted o) else none) ∧
    ∀ (receiver : Machine D) s id result, receiver.ComesOfResult s id result m₁ → ∃ n, ∀ fuel,
      receiver.deliver fuel s id result = if n ≤ fuel then some (noted o).machine else none
  /-- Once a listener has panicked, the machine is never torn down, and nobody is told so. -/
  held : m.blocked = true → ∀ log m', m.Goes log m' → m.Unmoved m' ∧ Event.steps log = [] ∧
    (∀ fuel call, ∃ o, m'.call fuel call = some o ∧ m.Unmoved o.machine ∧
      (call = .stop → m.Up → o.error = none)) ∧
    ∀ fuel s id result, m'.deliver fuel s id result = some m'
  /-- When calls from outside have been answered, it is done. -/
  rest : ∀ log m', m.Goes log m' → AtRest c m' → m'.Ended
  /-- A machine that is stopped stays as it is. -/
  after : ∀ log m', m.Goes log m' → m'.status = .stopped → ∀ later m'', m'.Goes later m'' →
    m'.Unmoved m'' ∧ (∀ fuel call, ∃ error, m''.call fuel call = some { machine := m'', error }) ∧
      ∀ fuel s id result, m''.deliver fuel s id result = some m''

variable {c : Chart D} {m m' m₀ m₁ : Machine D} {d : Defect D.State} {e : Event D}
  {log : List (Event D)} {steps : List (Settled D)} {o : Outcome D} {l : List D.State}
  {signal : Signal D} {step : Settled D} {p : Progress D}

/-! ## The wish -/

theorem stopRequested_absorb (p : Progress D) :
    (absorb p).shell.stopRequested = p.machine.shell.stopRequested := by
  unfold absorb
  dsimp only
  split
  · rfl
  · exact List.foldlRecOn (motive := fun m : Machine D =>
      m.shell.stopRequested = p.machine.shell.stopRequested) p.launches handOver rfl
      fun _ h _ _ => h

theorem asks_of_process (h : m.process signal = .ok p) :
    ∃ asked, m.shell.Asks asked p.machine.shell := by
  rcases process_cases h with ⟨invocations, -, rfl⟩ | ⟨step, hstep, -⟩
  · exact ⟨[], .rest⟩
  · exact asks_of_settles hstep

theorem asks_of_halt (h : m.process signal = .error (.defect m₁ d)) :
    ∃ asked, m.shell.Asks asked m₁.shell :=
  (unsettled_of_alters ((process_ends (admits_any m)).defect h).1).leads.asks

/-- Whoever asks while a signal is processed without a defect is an action or a listener. -/
theorem asksWithin_of_ok (h : m.process signal = .ok p) : m.AsksWithin signal ↔
    m.shell.AsksToStop p.machine.shell ∨
      (p.settled = true ∧ (absorb p).shell.AsksToStop (absorb p).notify.machine.shell) := by
  constructor
  · intro hasks
    cases hasks with
    | action h' hasks =>
      obtain rfl := Except.ok.inj (h.symm.trans h')
      exact Or.inl hasks
    | listener h' hsettled hasks =>
      obtain rfl := Except.ok.inj (h.symm.trans h')
      exact Or.inr ⟨hsettled, hasks⟩
    | failing h' _ => exact absurd (h.symm.trans h') (by simp)
  · rintro (hasks | ⟨hsettled, hasks⟩)
    · exact .action h hasks
    · exact .listener h hsettled hasks

theorem asksWithin_of_defect (h : m.process signal = .error (.defect m₁ d)) :
    m.AsksWithin signal ↔ m.shell.AsksToStop m₁.shell := by
  refine ⟨fun hasks => ?_, .failing h⟩
  cases hasks with
  | action h' _ => exact absurd (h.symm.trans h') (by simp)
  | listener h' _ _ => exact absurd (h.symm.trans h') (by simp)
  | failing h' hasks =>
    obtain ⟨rfl, rfl⟩ : m₁ = _ ∧ d = _ := by simpa using h.symm.trans h'
    exact hasks

/-- The wish is there after a signal was processed if and only if it was there before, or somebody
asked meanwhile. -/
theorem stopRequested_of_advance (h : m.advance signal = some o) :
    o.machine.shell.stopRequested = true ↔
      m.shell.stopRequested = true ∨ m.AsksWithin signal := by
  unfold advance at h
  cases hproc : m.process signal with
  | ok p =>
    rw [hproc] at h
    obtain rfl := Option.some.inj h
    obtain ⟨asked, hasked⟩ := asks_of_process hproc
    have hsent := Shell.stopRequested_iff hasked
    rw [← stopRequested_absorb] at hsent
    obtain ⟨told, htold⟩ := notify_leads (m := absorb p).asks
    have htell := Shell.stopRequested_iff htold
    rw [asksWithin_of_ok hproc, ← or_assoc, ← hsent]
    -- listeners are only told of a step that settled
    cases hsettled : p.settled with
    | false => simp
    | true => simpa using htell
  | error halt =>
    rw [hproc] at h
    cases halt with
    | endless => exact absurd h (by simp)
    | defect m₁ d =>
      obtain rfl := Option.some.inj h
      obtain ⟨asked, hasked⟩ := asks_of_halt hproc
      rw [asksWithin_of_defect hproc]
      exact Shell.stopRequested_iff hasked

/-- An event in which a signal is processed is a turn of the queue, after which the work that is put
back waits, unless something went wrong. -/
theorem advance_of_does (h : m.Does e m') (he : e.processed = some (m₀, signal)) :
    ∃ later o, m.Serves false ∧ m.nextTurn = .process m₀ signal later ∧
      m₀.advance signal = some o ∧
      ((o.error = none ∧ m' = o.machine.enqueueAll later) ∨ (o.error ≠ none ∧ m' = o.machine)) := by
  have hnotified : ∀ {m₀ : Machine D} {step p}, m₀.Settles step p →
      m₀.advance step.signal = some (absorb p).notify := by
    intro m₀ step p hstep
    unfold advance
    rw [process_of_settles hstep]
    exact congrArg some (if_pos (settled_of_settles hstep).1)
  cases h with
  | call | result | discard | idle | stop | faultStopping | outside => exact absurd he (by simp)
  | pass hstop hturn hproc hp =>
    rw [Option.some.injEq, Prod.mk.injEq] at he
    obtain ⟨rfl, rfl⟩ := he
    refine ⟨_, { machine := absorb _ }, hstop, hturn, ?_, Or.inl ⟨rfl, rfl⟩⟩
    unfold advance
    rw [hproc]
    exact congrArg some (if_neg (by simp [hp]))
  | fault hstop hturn hproc =>
    rw [Option.some.injEq, Prod.mk.injEq] at he
    obtain ⟨rfl, rfl⟩ := he
    exact ⟨_, _, hstop, hturn, by rw [advance, hproc], Or.inr ⟨by simp [Machine.fault], rfl⟩⟩
  | turn hstop hturn hstep _ _ hgood =>
    rw [Option.some.injEq, Prod.mk.injEq] at he
    obtain ⟨rfl, rfl⟩ := he
    exact ⟨_, _, hstop, hturn, hnotified hstep, Or.inl ⟨hgood, rfl⟩⟩
  | turnPanicked hstop hturn hstep _ _ hbad =>
    rw [Option.some.injEq, Prod.mk.injEq] at he
    obtain ⟨rfl, rfl⟩ := he
    exact ⟨_, _, hstop, hturn, hnotified hstep, Or.inr ⟨by simp [hbad], rfl⟩⟩

/-- Something went wrong in a turn if a defect came up or a listener panicked. -/
theorem ended_of_advance (h : m.advance signal = some o) (hbad : o.error ≠ none) :
    o.Panicked ∨ o.machine.Ended := by
  rcases advance_cases h with ⟨m₁, d, -, rfl⟩ | ⟨invocations, -, rfl⟩ | ⟨step, p, -, -, rfl⟩
  · exact Or.inr (Or.inr rfl)
  · exact absurd rfl hbad
  · obtain ⟨error, he⟩ := Option.ne_none_iff_exists'.mp hbad
    obtain ⟨message, -, hmessage⟩ := Option.map_eq_some_iff.mp he
    exact Or.inl ⟨message, he.trans (hmessage ▸ rfl)⟩

/-- An event in which a signal is processed is a round, or the last one if something went wrong. -/
theorem round_of_does (h : m.Does e m') (he : e.processed.isSome = true) :
    m.Round m' ∨ ∃ o, m.Closes o ∧ o.machine = m' ∧ (o.Panicked ∨ m'.Ended) := by
  obtain ⟨⟨m₀, signal⟩, he⟩ := Option.isSome_iff_exists.mp he
  obtain ⟨later, o, hstop, hturn, ho, ⟨hgood, rfl⟩ | ⟨hbad, rfl⟩⟩ := advance_of_does h he
  · exact Or.inl (.turn hstop hturn ho hgood)
  · exact Or.inr ⟨o, .turn hstop hturn ho hbad, rfl, ended_of_advance ho hbad⟩

theorem stopRequested_of_finish (hstop : m.shell.stopRequested = true) (h : m.finish = some o) :
    o.machine.shell.stopRequested = true := by
  rcases finish_cases h with ⟨m₁, d, hdown, rfl⟩ | ⟨m₁, _, _, hdown, rfl, rfl⟩
  · exact (unsettled_of_alters (teardown_ends.defect hdown).1).leads.stop hstop
  · exact (notify_leads (m := { m₁ with shell := { m₁.shell with status := .stopped } })).stop
      ((teardown_leads hdown).stop hstop)

/-- An event in which a signal is processed brings the wish to stop up if somebody asks meanwhile. -/
theorem stopRequested_of_processed (h : m.Does e m') (he : e.processed = some (m₀, signal)) :
    m'.shell.stopRequested = true ↔ m.shell.stopRequested = true ∨ m₀.AsksWithin signal := by
  obtain ⟨later, o, -, hturn, ho, hor⟩ := advance_of_does h he
  have hm₀ : m₀.shell.stopRequested = m.shell.stopRequested := by rw [(nextTurn_process hturn).2]
  have hm' : m'.shell.stopRequested = o.machine.shell.stopRequested := by
    rcases hor with ⟨-, rfl⟩ | ⟨-, rfl⟩ <;> rfl
  rw [← hm₀, hm']
  exact stopRequested_of_advance ho

/-- The wish to stop is never taken back. -/
theorem stopRequested_kept (h : m.Does e m') (hs : m.shell.stopRequested = true) :
    m'.shell.stopRequested = true := by
  rcases hp : e.processed with _ | ⟨m₀, signal⟩
  · cases h with
    | call hr => exact (Shell.receive_leads hr).stop hs
    | result | outside => exact hs
    | discard _ _ hturn | idle _ _ hturn =>
      rw [nextTurn_skip hturn]
      exact hs
    | stop _ hstop _ hfin => exact stopRequested_of_finish hstop.stopRequested hfin
    | faultStopping _ hstop hdown =>
      exact stopRequested_of_finish (o := fault _ _) hstop.stopRequested (by rw [finish, hdown])
    | pass | fault | turn | turnPanicked => exact absurd hp (by simp)
  · exact (stopRequested_of_processed h hp).mpr (Or.inl hs)

/-- The wish to stop is there after an event if and only if it was there before, or somebody asked on
the way. -/
theorem stopRequested_of_does (h : m.Does e m') :
    m'.shell.stopRequested = true ↔ m.shell.stopRequested = true ∨ m.CallsStop e m' := by
  constructor
  · intro hs
    rcases hp : e.processed with _ | ⟨m₀, signal⟩
    · cases h with
      | call hr =>
        exact (Shell.stopRequested_of_receive hr hs).imp_right fun hc => .outside (hc ▸ hr) rfl
      | result | outside => exact Or.inl hs
      | discard _ _ hturn | idle _ _ hturn =>
        rw [nextTurn_skip hturn] at hs
        exact Or.inl hs
      | stop _ hstop | faultStopping _ hstop => exact Or.inl hstop.stopRequested
      | pass | fault | turn | turnPanicked => exact absurd hp (by simp)
    · exact ((stopRequested_of_processed h hp).mp hs).imp_right (.within hp)
  · rintro (hs | hcalls)
    · exact stopRequested_kept h hs
    · cases hcalls with
      | outside hr he => exact he ▸ (Shell.stop_admitted hr).2 ▸ rfl
      | within hp hasks => exact (stopRequested_of_processed h hp).mpr (Or.inr hasks)

theorem started_of_callsStop (h : m.Does e m') (hcalls : m.CallsStop e m') :
    m'.status ≠ .notStarted := by
  intro hs
  obtain ⟨hbefore, -⟩ := notStarted_of_does h hs
  cases hcalls with
  | outside hr _ =>
    rcases (Shell.stop_admitted hr).1 with hup | hup <;>
      exact absurd (hup.symm.trans hbefore) (by simp)
  | within hp _ =>
    obtain ⟨later, hturn⟩ := process_of_does h hp
    exact absurd ((nextTurn_process hturn).1.symm.trans hbefore) (by simp)

/-! ## Leaving the states -/

/-- Leaving states on the way to the end changes nothing but what their actions do, and takes them
out of the configuration. -/
theorem abandons_frame (h : m.Abandons l m') : m.Keeps m' ∧ m'.timers = m.timers ∧
    m'.invocations = m.invocations ∧ ∀ x, x ∈ m'.configuration ↔ x ∈ m.configuration ∧ x ∉ l := by
  induction h with
  | rest => exact ⟨keeps_refl, rfl, rfl, by simp⟩
  | @next m m₁ m' s n l _ hrun _ ih =>
    obtain ⟨hkeeps, htimers, hinvocations, hconf⟩ := ih
    obtain ⟨hframe, hstatus⟩ := runActions_frame hrun
    have hfirst : m.Keeps { m₁ with configuration := m₁.configuration.erase s } := by
      rw [hframe] at hstatus ⊢
      exact ⟨rfl, rfl, rfl, rfl, rfl, rfl, rfl, hstatus⟩
    refine ⟨keeps_trans hfirst hkeeps, htimers.trans (by rw [hframe]),
      hinvocations.trans (by rw [hframe]), fun x => ?_⟩
    rw [hconf, StateSet.mem_erase, hframe, List.mem_cons, not_or, and_assoc]

/-- States of the chart are all left, or up to the first of which an exit action panics. -/
theorem abandons_cases : ∀ {l : List D.State} {m : Machine D}, (∀ s ∈ l, m.chart.contains s) →
    (∃ m', l.foldlM (fun m s => m.abandonState s) m = .ok m' ∧ m.Abandons l m') ∨
      ∃ front s back n left m₁ d, l = front ++ s :: back ∧ m.Abandons front left ∧
        left.chart.node? s = some n ∧ left.runActions s .stop n.exit = .error (.defect m₁ d) ∧
        l.foldlM (fun m s => m.abandonState s) m = .error (.defect m₁ d)
  | [], m, _ => Or.inl ⟨m, rfl, .rest⟩
  | s :: l, m, hl => by
    obtain ⟨n, hn⟩ := Chart.contains_iff.mp (hl s (List.mem_cons_self ..))
    have hlookup : m.lookup s = .ok n := by rw [lookup, hn]
    have hends : (m.runActions s .stop n.exit).Alters (fun _ => False) m id := runActions_alters .refl
    -- the states are left in order until one of them fails
    cases hrun : m.runActions s .stop n.exit with
    | ok m₁ =>
      have hfirst : m.abandonState s =
          .ok { m₁ with configuration := m₁.configuration.erase s } :=
        bind_eq_ok.mpr ⟨n, hlookup, bind_eq_ok.mpr ⟨m₁, hrun, rfl⟩⟩
      have hchart : m₁.chart = m.chart := by rw [(runActions_frame hrun).1]
      rw [List.foldlM_cons, hfirst]
      rcases abandons_cases (l := l) (m := { m₁ with configuration := m₁.configuration.erase s })
          (fun t ht => hchart ▸ hl t (List.mem_cons_of_mem _ ht)) with
        ⟨m', hfold, hleft⟩ | ⟨front, t, back, k, left, m₂, d, rfl, hleft, hk, hbad, hfold⟩
      · exact Or.inl ⟨m', hfold, .next hn hrun hleft⟩
      · exact Or.inr ⟨s :: front, t, back, k, left, m₂, d, rfl, .next hn hrun hleft, hk, hbad, hfold⟩
    | error halt =>
      cases halt with
      | endless => exact (hends.endless hrun).elim
      | defect m₁ d =>
        refine Or.inr ⟨[], s, l, n, m, m₁, d, rfl, .rest, hn, hrun, ?_⟩
        have hfirst : m.abandonState s = .error (.defect m₁ d) := by
          unfold abandonState
          rw [hlookup]
          change (m.runActions s .stop n.exit >>= _) = _
          rw [hrun]
          rfl
        rw [List.foldlM_cons, hfirst]
        rfl

theorem farewell_frame (hm : m.status ≠ .notStarted) : m.farewell.machine.status = m.status ∧
    m.farewell.machine.configuration = m.configuration ∧ m.farewell.machine.step = m.step ∧
    m.farewell.machine.journal = m.journal ∧ m.farewell.machine.history = m.history := by
  unfold farewell
  split <;> exact ⟨notify_status hm, rfl, rfl, rfl, rfl⟩

/-- A machine all of whose states were left is stopped. -/
theorem stopped_of_abandons {exited : List D.State} {left : Machine D} (hexits : m.Exits exited)
    (h : m.cleared.Abandons exited left) : Stopped m exited (farewell
      { left.settle .stop exited [] with shell := { left.shell with status := .stopped } }) := by
  obtain ⟨hkeeps, -, -, hconf⟩ := abandons_frame h
  obtain ⟨hstatus, hconf', hstep, hjournal, hhistory⟩ := farewell_frame
    (m := { left.settle .stop exited [] with shell := { left.shell with status := .stopped } })
    (by simp [status])
  refine ⟨⟨left, h, rfl⟩, hstatus, ?_, ?_, ⟨left.settledAt (m.step + 1), ?_⟩, hhistory.trans hkeeps.history⟩
  · rw [hconf']
    refine List.eq_nil_iff_forall_not_mem.mpr fun x hx => ?_
    obtain ⟨hactive, hleft⟩ := (hconf x).mp hx
    exact hleft ((hexits.mem x).mpr hactive)
  · rw [hstep]
    exact congrArg (· + 1) hkeeps.step
  · rw [hjournal, settle, hkeeps.journal, hkeeps.step]
    rfl

theorem finish_eq (h : { m with shell := { m.shell with queue := [] } }.teardown = .ok m₁) :
    m.finish = some (farewell { m₁ with shell := { m₁.shell with status := .stopped } }) := by
  generalize hm₂ : { m₁ with shell := { m₁.shell with status := .stopped } } = m₂
  unfold finish farewell
  rw [h]
  cases he : m₂.notify.error <;> simp only [hm₂, he]

/-- A machine is torn down whatever its exit actions do. -/
theorem finish_spec (hm : Clean c m) : ∃ exited o, m.Exits exited ∧ m.finish = some o ∧
    TornDown m exited o := by
  have hexits : m.Exits (m.chart.inExitOrder m.configuration.elems) :=
    ⟨Chart.nodup_inExitOrder m.configuration.nodup, fun s => Outline.mem_inExitOrder ..,
      Chart.pairwise_inExitOrder _⟩
  have hcontains : ∀ s ∈ m.chart.inExitOrder m.configuration.elems, m.cleared.chart.contains s := by
    intro s hs
    change m.chart.contains s
    rw [hm.chart]
    exact hm.contains s ((hexits.mem s).mp hs)
  have hdown : { m with shell := { m.shell with queue := [] } }.teardown =
      (do
        let m' ← (m.chart.inExitOrder m.configuration.elems).foldlM
          (fun m s => m.abandonState s) m.cleared
        return m'.settle .stop (m.chart.inExitOrder m.configuration.elems) []) := rfl
  rcases abandons_cases hcontains with ⟨left, hfold, hleft⟩ |
    ⟨front, s, back, n, left, m₁, d, he, hleft, hn, hbad, hfold⟩
  · rw [hfold] at hdown
    exact ⟨_, _, hexits, finish_eq hdown, .stopped (stopped_of_abandons hexits hleft)⟩
  · rw [hfold] at hdown
    refine ⟨_, _, hexits, ?_, .faulted he hleft hn hbad⟩
    unfold finish
    rw [hdown]
    rfl

/-! ## Nothing more -/

theorem ending_after_unmoved (h : m.Unmoved m') {m'' : Machine D} (hend : m'.Ending steps m'') :
    m.Ending steps m'' := by
  have hup : m'.Up → m.Up := by
    rw [Up, h.status]
    exact id
  cases hend with
  | waits h' => exact .waits (unmoved_trans h h')
  | stopped hup' h' hfin hs hsignal htaken hentered hlast =>
    exact .stopped (hup hup') (unmoved_trans h h') hfin hs hsignal htaken hentered hlast
  | faulted hup' h' hfin hs hlast => exact .faulted (hup hup') (unmoved_trans h h') hfin hs hlast

/-- All that a machine does that was asked to stop is to be torn down, if its queue is free. -/
theorem waits_or_finishes (hm : m.status ≠ .notStarted) (hstop : m.shell.stopRequested = true)
    (h : m.Does e m') : e.Silent ∧ ((m.Unmoved m' ∧ e.step = none) ∨
      (m.blocked = false ∧ m.Ending e.step.toList m')) := by
  have hopen : ¬ m.Serves false := fun hserves => by simp [hserves.stopRequested] at hstop
  cases h with
  | call hr =>
    -- only somebody who asks to stop once more is admitted
    obtain rfl := Shell.stop_of_admitted hm hstop hr
    obtain ⟨-, rfl⟩ := Shell.stop_admitted hr
    exact ⟨⟨rfl, rfl, rfl, rfl⟩, Or.inl ⟨⟨rfl, ⟨rfl, rfl, rfl, rfl, rfl⟩, rfl, rfl, rfl, hstop.symm,
      rfl, List.nil_subset _⟩, rfl⟩⟩
  | result hlive _ => exact absurd hstop (by simpa [isLive] using (Bool.and_eq_true_iff.mp hlive).1)
  | discard hs | idle hs | pass hs | fault hs | turn hs | turnPanicked hs => exact absurd hs hopen
  | @stop m₁ o hup hserves hdown hfin =>
    have hs : o.machine.status = .stopped := by
      rw [finish_eq hdown, Option.some.injEq] at hfin
      exact hfin ▸ (farewell_frame (by simp [status])).1
    exact ⟨⟨rfl, rfl, rfl, rfl⟩, Or.inr ⟨hserves.free,
      .stopped hup unmoved_refl hfin hs rfl rfl rfl unmoved_refl⟩⟩
  | faultStopping hup hserves hdown =>
    exact ⟨⟨rfl, rfl, rfl, rfl⟩, Or.inr ⟨hserves.free,
      .faulted hup unmoved_refl (by rw [finish, hdown]) rfl unmoved_refl⟩⟩
  | outside =>
    exact ⟨⟨rfl, rfl, rfl, rfl⟩, Or.inl
      ⟨⟨rfl, ⟨rfl, rfl, rfl, rfl, rfl⟩, rfl, rfl, rfl, rfl, rfl, List.Subset.refl _⟩, rfl⟩⟩

/-- Whatever a machine goes through that was asked to stop, it ends by being torn down. -/
theorem ending_of_goes (hm : m.status ≠ .notStarted) (hstop : m.shell.stopRequested = true)
    (h : m.Goes log m') : m'.status ≠ .notStarted ∧ m'.shell.stopRequested = true ∧
      (∀ e ∈ log, e.Silent) ∧ m.Ending (Event.steps log) m' := by
  induction h with
  | rest => exact ⟨hm, hstop, fun e he => absurd he List.not_mem_nil, .waits unmoved_refl⟩
  | @next log e m' m'' _ hdoes ih =>
    obtain ⟨hstarted, hasked, hsilent, hending⟩ := ih
    have hcons : e.Silent → ∀ e' ∈ e :: log, e'.Silent := fun he e' he' =>
      (List.mem_cons.mp he').elim (fun h => h ▸ he) (hsilent e')
    refine ⟨fun hs => hstarted (notStarted_of_does hdoes hs).1,
      stopRequested_kept hdoes hasked, ?_⟩
    rw [Event.steps_cons]
    generalize Event.steps log = earlier at hending
    -- a machine that has ended is silent and moves no more
    have hover : m'.Ended → m'.Unmoved m'' ∧ e.Silent ∧ e.step = none :=
      fun hend => unmoved_of_does hend hdoes
    cases hending with
    | waits hmoved =>
      obtain ⟨he, hor⟩ := waits_or_finishes hstarted hasked hdoes
      rw [List.append_nil]
      refine ⟨hcons he, ?_⟩
      rcases hor with ⟨hmoved', hstep⟩ | ⟨-, hnext⟩
      · rw [hstep]
        exact .waits (unmoved_trans hmoved hmoved')
      · exact ending_after_unmoved hmoved hnext
    | stopped hup hmoved hfin hs hsignal htaken hentered hlast =>
      obtain ⟨hmoved', he, hstep⟩ := hover (Or.inl (hlast.status.trans hs))
      rw [hstep]
      exact ⟨hcons he, .stopped hup hmoved hfin hs hsignal htaken hentered
        (unmoved_trans hlast hmoved')⟩
    | faulted hup hmoved hfin hs hlast =>
      obtain ⟨hmoved', he, hstep⟩ := hover (Or.inr (hlast.status.trans hs))
      rw [hstep]
      exact ⟨hcons he, .faulted hup hmoved hfin hs (unmoved_trans hlast hmoved')⟩

/-- A machine that was asked to stop and whose queue is blocked waits for good. -/
theorem held_of_goes (hm : m.status ≠ .notStarted) (hstop : m.shell.stopRequested = true)
    (hblocked : m.blocked = true) (h : m.Goes log m') :
    m.Unmoved m' ∧ Event.steps log = [] := by
  induction h with
  | rest => exact ⟨unmoved_refl, rfl⟩
  | @next log e m₁ m₂ _ hdoes ih =>
    obtain ⟨hmoved, hsteps⟩ := ih
    obtain ⟨-, ⟨hmoved', hstep⟩ | ⟨hfree, -⟩⟩ := waits_or_finishes (by rwa [hmoved.status])
      (hmoved.stopRequested.trans hstop) hdoes
    · refine ⟨unmoved_trans hmoved hmoved', ?_⟩
      rw [Event.steps_cons, hstep, hsteps]
      rfl
    · exact absurd (hmoved.blocked.trans hblocked) (by simp [hfree])

/-- It answers every call at once and stays as it is, whatever it is asked for. -/
theorem call_of_held (hm : m.status ≠ .notStarted) (hstop : m.shell.stopRequested = true)
    (hblocked : m.blocked = true) (fuel : Nat) (call : Call D) :
    ∃ o, m.call fuel call = some o ∧ m.Unmoved o.machine ∧
      (call = .stop → m.Up → o.error = none) := by
  unfold Machine.call
  cases hr : m.shell.receive m.timers.nextEpoch call with
  | refused r =>
    refine ⟨_, rfl, unmoved_refl, ?_⟩
    rintro rfl (hs | hs)
    all_goals simp [Shell.receive, show m.shell.status = _ from hs] at hr
  | ignored => exact ⟨_, rfl, unmoved_refl, fun _ _ => rfl⟩
  | admitted shell =>
    have hdrain : { m with shell }.drain fuel = some { machine := { m with shell } } :=
      if_pos hblocked
    refine ⟨_, hdrain, ?_, fun _ _ => rfl⟩
    obtain rfl := Shell.stop_of_admitted hm hstop hr
    obtain ⟨-, rfl⟩ := Shell.stop_admitted hr
    exact ⟨rfl, ⟨rfl, rfl, rfl, rfl, rfl⟩, rfl, rfl, rfl, hstop.symm, rfl, List.nil_subset _⟩

/-- Rounds that close without a panic close with the end of a machine that was asked to stop. -/
theorem ended_of_closes (hup : m.Up) (h : m.Closes o) (hcalm : ¬ o.Panicked)
    (hasked : o.machine.shell.stopRequested = true) : o.machine.Ended := by
  cases h with
  | idle hserves => exact absurd (hasked.symm.trans hserves.stopRequested) (by simp)
  | turn _ hturn ho hbad => exact (ended_of_advance ho hbad).resolve_left hcalm
  | stop hserves hfin =>
    exact (finish_work (by rcases hup with h | h <;> simp [h]) hserves.stopRequested hfin).1

theorem ended_of_noted (hup : m.Up) (h : m.Closes o) (hcalm : ¬ (noted o).Panicked)
    (hasked : (noted o).machine.shell.stopRequested = true) : (noted o).machine.Ended := by
  obtain ⟨worked, he⟩ := noted_eq o
  rw [he] at hcalm hasked ⊢
  exact ended_of_closes (o := o) hup h hcalm hasked

/-- When calls from outside have been answered, a machine that was asked to stop has come to its
end. -/
theorem ended_of_atRest (h : AtRest c m) (hasked : m.shell.stopRequested = true) : m.Ended := by
  induction h with
  | fresh _ hm => exact absurd (hasked.symm.trans hm.stopRequested) (by simp)
  | call hrest hcall hcalm ih =>
    rcases comes_of_call hcall with
      hsame | ⟨hblocked, shell, hr, -⟩ | ⟨m', o', ⟨shell, hr, hreaches⟩, hclose, rfl⟩
    · rw [hsame] at hasked ⊢
      exact ih hasked
    · -- the queue of a machine at rest that takes calls in is free
      have hfree := free_of_atRest hrest fun hend => not_admitted_of_ended hend hr
      exact absurd hblocked (by simp [hfree])
    · have hup := up_of_reaches hreaches (Shell.up_of_receive hr)
      exact ended_of_noted hup hclose hcalm hasked
  | result hrest hlive _ hdrain hcalm _ =>
    have hup := up_of_isLive hlive
    rcases reaches_of_drain hdrain with ⟨hblocked, -⟩ | ⟨m', o', hreaches, hclose, rfl⟩
    · have hfree := free_of_atRest hrest (not_ended_of_up hup)
      exact absurd hblocked (by simp [enqueueAll, hfree])
    · exact ended_of_noted (up_of_reaches hreaches hup) hclose hcalm hasked
  | outside _ ih => exact ih hasked

/-- If somebody asks a machine to stop and is admitted, from outside, by an action or by a listener,
then that event was the last in which it did any work. The round goes on unless something went
wrong; then the machine is torn down, and stays as that has left it. Where a listener has panicked
the machine is not torn down at all. -/
theorem stopping_of_run (hrun : Run c steps m) (h : m.Does e m') (hcalls : m.CallsStop e m') :
    Stopping c m' ∧ (e.processed.isSome = true →
      m.Round m' ∨ ∃ o, m.Closes o ∧ o.machine = m' ∧ (o.Panicked ∨ m'.Ended)) := by
  refine ⟨?_, round_of_does h⟩
  have hasked := (stopRequested_of_does h).mpr (Or.inr hcalls)
  have hstarted := started_of_callsStop h hcalls
  have hclean := clean_of_run (run_does hrun h)
  refine ⟨fun log m'' hgoes => (ending_of_goes hstarted hasked hgoes).2.2,
    fun _ hup m₁ hmoved => ?_, fun hfree m₁ o hmoved hfin =>
      ⟨fun caller call hcomes => ?_, fun receiver s id result hcomes => ?_⟩,
    fun hblocked log m'' hgoes => ?_, fun log m'' hgoes hrest => ?_,
    fun log m'' hgoes hs later m₂ hlater => ?_⟩
  · obtain ⟨exited, o, hexits, hfin, hdown⟩ := finish_spec (clean_of_sameStates hclean
      ⟨hmoved.chart, hmoved.stage.configuration, hmoved.stage.history⟩)
    have hstarted₁ : m₁.status ≠ .notStarted := by rwa [hmoved.status]
    obtain ⟨-, hidle, hqueue⟩ := finish_work hstarted₁ (hmoved.stopRequested.trans hasked) hfin
    exact ⟨exited, o, hexits, hfin, hdown, hidle, hqueue⟩
  · exact call_of_comes hcomes
      (.stop ⟨hmoved.blocked.trans hfree, hmoved.stopRequested.trans hasked⟩ hfin)
  · exact deliver_of_comes hcomes
      (.stop ⟨hmoved.blocked.trans hfree, hmoved.stopRequested.trans hasked⟩ hfin)
  · obtain ⟨hmoved, hsteps⟩ := held_of_goes hstarted hasked hblocked hgoes
    have hasked' : m''.shell.stopRequested = true := hmoved.stopRequested.trans hasked
    refine ⟨hmoved, hsteps, fun fuel call => ?_, fun fuel s id result => ?_⟩
    · obtain ⟨o, ho, hmoved', hstop⟩ := call_of_held (by rwa [hmoved.status]) hasked'
        (hmoved.blocked.trans hblocked) fuel call
      refine ⟨o, ho, unmoved_trans hmoved hmoved', fun he hup => hstop he ?_⟩
      rwa [Up, hmoved.status]
    · exact if_neg (by simp [isLive, hasked'])
  · exact ended_of_atRest hrest (ending_of_goes hstarted hasked hgoes).2.1
  · obtain ⟨hmoved, -⟩ := unmoved_of_goes (Or.inl hs) hlater
    have hend : m₂.Ended := Or.inl (hmoved.status.trans hs)
    exact ⟨hmoved, call_of_ended hend, fun fuel s id result => deliver_of_ended hend fuel⟩

end Machine

/-! ## An iron -/

/-- A bare domain with a host that keeps a diary. -/
abbrev Domain.diary (S : Type) [DecidableEq S] : Domain where
  State := S
  Event := String
  Context := Unit
  Patch := Unit
  Output := Unit
  Host := List String
  decEqState := inferInstance
  stateName := fun _ => ""
  eventName := id
  apply := fun _ _ => ()

inductive IronState | iron | steaming | scaled
deriving DecidableEq

/-- Writes a line into the diary. -/
def notes (line : String) : Action (.diary IronState) :=
  .effect line fun _ _ diary => diary ++ [line]

/-- An iron that switches itself off when it beeps. Full of scale it cannot vent its steam. -/
def ironTree : StateTree (.diary IronState) :=
  .node { id := .iron, kind := .compound .steaming, exit := [notes "cold"] }
    [.node
      { id := .steaming
        kind := .atomic
        exit := [notes "steam off"]
        transitions :=
          [{ trigger := .event "beep"
             actions := [{ name := "switch off"
                           deed := .effect fun _ _ _ => [.stop fun _ diary => diary] }] },
          { trigger := .event "scale", target := some .scaled }] } [],
    .node
      { id := .scaled
        kind := .atomic
        exit := [{ name := "vent", deed := .effect fun _ _ _ => [.panic "blocked"] }] } []]

def iron : Chart (.diary IronState) :=
  { ironTree.outline with tree := ironTree, outline_eq := rfl, flawless := by cbv }

/-- An iron that nobody has switched on yet. -/
def coldIron : Machine (.diary IronState) :=
  { chart := iron, context := (), shell := { host := [] } }

/-- An iron that is on. -/
def hotIron : Machine (.diary IronState) := coldIron.after 9 [.start]

/-- An iron that is about to beep. -/
def beepingIron : Machine (.diary IronState) :=
  { hotIron with shell := hotIron.shell.enqueue (.signal (.event "beep")) }

open Machine in
theorem atRest_coldIron : AtRest iron coldIron :=
  .fresh rfl ⟨rfl, rfl, rfl, rfl, rfl, rfl, rfl, rfl, rfl, rfl, rfl⟩

open Machine in
/-- As it beeps the iron switches itself off: the step in which that is asked for is settled, and then
the iron is torn down. -/
theorem iron_beeps : ∃ steps m e m', Run iron steps m ∧ hotIron.Comes (.send "beep") m ∧
    m.Does e m' ∧ m.CallsStop e m' ∧ e.step.isSome = true ∧ Stopping iron m' ∧
      (e.processed.isSome = true →
        m.Round m' ∨ ∃ o, m.Closes o ∧ o.machine = m' ∧ (o.Panicked ∨ m'.Ended)) := by
  obtain ⟨⟨steps, hrun⟩, -⟩ := run_of_atRest (atRest_after atRest_coldIron 9 [.start])
  have hr : hotIron.shell.receive hotIron.timers.nextEpoch (.send "beep") =
      .admitted (hotIron.shell.enqueue (.signal (.event "beep"))) := by
    have hs : hotIron.shell.status = .running := by cbv
    have hopen : hotIron.shell.stopRequested = false := by cbv
    simp [Shell.receive, Shell.receiveWork, hs, hopen]
  have hturned : beepingIron.turned?.map (·.2.shell.stopRequested) = some true := by cbv
  obtain ⟨⟨step, m'⟩, hturn, hasked⟩ := Option.map_eq_some_iff.mp hturned
  obtain ⟨e, hdoes, he⟩ := does_of_settling (settling_of_turned? hturn)
  have hopen : beepingIron.shell.stopRequested = false := by cbv
  have hcalls := ((stopRequested_of_does hdoes).mp hasked).resolve_left (by simp [hopen])
  have hrun' : Run iron steps beepingIron := hrun.move (.call hr)
  exact ⟨steps, beepingIron, e, m', hrun', ⟨_, hr, .refl⟩, hdoes, hcalls, by rw [he]; rfl,
    stopping_of_run hrun' hdoes hcalls⟩

/-- An iron that cannot vent its steam is not left altogether when it is to be stopped: what is to be
written into its diary as it gets cold never is. Nor is an iron torn down if somebody who is told of a
step asks for that and panics, or if somebody has panicked before. -/
theorem iron_sticks :
    (((coldIron.after 9 [.start, .send "scale"]).call 9 .stop).map fun o =>
        (o.error, o.machine.status, o.machine.configuration.elems, o.machine.shell.host)) =
      some (some (.defect (.actionPanicked .scaled "vent" "blocked")), .faulted,
        [.iron, .scaled], ["steam off"]) ∧
    (((coldIron.subscribe fun n _ =>
          if n = 0 then [] else [.stop fun _ diary => diary, .panic "burnt"]).1.after 9 [.start]).call 9
        (.send "scale")).map (fun o =>
          (o.error, o.machine.shell.stopRequested, o.machine.status, o.machine.configuration.elems)) =
      some (some (.listenerPanicked "burnt"), true, .running, [.iron, .scaled]) ∧
    ((((coldIron.subscribe fun _ _ => [.panic "burnt"]).1.call 9 .start).bind fun o =>
        o.machine.call 9 .stop).map fun o =>
          (o.error, o.machine.shell.stopRequested, o.machine.status, o.machine.configuration.elems)) =
      some (none, true, .running, [.iron, .steaming]) := by
  refine ⟨by cbv, by cbv, by cbv⟩

end Statechart
