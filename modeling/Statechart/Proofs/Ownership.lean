import Statechart.Proofs.Flow
import Statechart.Proofs.Trace

/-!
# Who owns pending work

Between two signals every pending timer belongs to an active state, which declares the
delayed transition it was armed for, and every running invocation to an active state that
declares one; a machine that is not running has neither (`Owned`). A pending timer was armed
by a step that entered its state, and no step since then has left the state
(`PendingSince`): a state takes its timers with it when it is left, on whatever path.

Both are kept by every move and every step, so they hold at every moment of a run. The
signal of a timer is made as the timer is taken from the table (`nextTurn_cases`), and none
waits in the queue (`sourced_of_run`); so when it is processed, the state is still the one
that the timer was armed for (`owned_of_run`).
-/

namespace Statechart

variable {D : Domain} {c : Chart D} {m m' : Machine D} {steps : List (Settled D)}
  {step : Settled D} {t : Timer D.State}

/-- What is pending belongs to active states, which declare it. -/
structure Machine.Owned (c : Chart D) (m : Machine D) : Prop where
  timers : ∀ t ∈ m.timers.pending, t.state ∈ m.configuration ∧ c.Delays t
  invocations : ∀ s ∈ m.invocations.states, s ∈ m.configuration ∧ c.Invokes s
  idle : m.status ≠ .running → m.Idle

/-- Whether a timer was armed by a step, in which its state was entered. -/
structure Settled.Armed (step : Settled D) (t : Timer D.State) : Prop where
  entered : t.state ∈ step.entered
  new : t ∉ step.before.timers.pending
  pending : t ∈ step.after.timers.pending
  deadline : t.deadline = step.between.shell.clock.now.add t.delay

/-- Whether a timer was armed by one of several steps, the latest first, and its state not left
since. -/
def PendingSince (steps : List (Settled D)) (t : Timer D.State) : Prop :=
  ∃ later step earlier, steps = later ++ step :: earlier ∧ step.Armed t ∧
    ∀ e ∈ later, t.state ∉ e.exited

theorem pendingSince_cons (h : PendingSince steps t) (hx : t.state ∉ step.exited) :
    PendingSince (step :: steps) t := by
  obtain ⟨later, origin, earlier, rfl, harmed, hlater⟩ := h
  refine ⟨step :: later, origin, earlier, rfl, harmed, fun e he => ?_⟩
  rcases List.mem_cons.mp he with rfl | he
  · exact hx
  · exact hlater e he

namespace Machine

theorem owned_of_idle (h : m.Idle) : m.Owned c where
  timers := by
    rw [h.1]
    exact fun t ht => absurd ht List.not_mem_nil
  invocations := by
    rw [Invocations.states, h.2]
    exact fun s hs => absurd hs List.not_mem_nil
  idle := fun _ => h

/-- What a settled step does to the chart and the configuration. -/
theorem configuration_of_settles {p : Progress D} (h : m.Settles step p) :
    step.between.chart = m.chart ∧ ∀ x, x ∈ step.after.configuration ↔
      (x ∈ m.configuration ∧ x ∉ step.exited) ∨ x ∈ step.entered := by
  obtain ⟨henters, ⟨hchart, -, hconf⟩, hcases⟩ := settles_cases h
  refine ⟨(Settled.chart_between hcases).trans hchart, fun x => ?_⟩
  rw [Settled.mem_after henters hcases, hconf]

/-- A move keeps what is pending with its owners. -/
theorem owned_move (hmove : m.Move m') (howned : m.Owned c)
    (hsince : ∀ t ∈ m.timers.pending, PendingSince steps t) :
    m'.Owned c ∧ ∀ t ∈ m'.timers.pending, PendingSince steps t := by
  rcases move_work hmove with ⟨-, hidle, -⟩ | hpasses
  · refine ⟨owned_of_idle hidle, ?_⟩
    rw [hidle.1]
    exact fun t ht => absurd ht List.not_mem_nil
  · refine ⟨⟨fun t ht => ?_, fun s hs => ?_, fun hstatus => ?_⟩,
      fun t ht => hsince t (hpasses.timers ht)⟩
    · rw [hpasses.configuration]
      exact howned.timers t (hpasses.timers ht)
    · rw [hpasses.configuration]
      exact howned.invocations s (hpasses.invocations hs)
    · have hsame : m'.status = m.status :=
        hpasses.status.resolve_right fun h => hstatus h.2
      obtain ⟨htimers, hrunning⟩ := howned.idle (hsame ▸ hstatus)
      refine ⟨List.subset_nil.mp (htimers ▸ hpasses.timers), ?_⟩
      have hstates := hpasses.invocations
      simp only [Invocations.states, hrunning, List.map_nil] at hstates
      exact List.map_eq_nil_iff.mp (List.subset_nil.mp hstates)

/-- So does a step, and the timers that it arms are armed for states it enters. -/
theorem owned_settling (hc : m.chart = c) (hsettling : m.Settling step m') (howned : m.Owned c)
    (hsince : ∀ t ∈ m.timers.pending, PendingSince steps t) :
    m'.Owned c ∧ ∀ t ∈ m'.timers.pending, PendingSince (step :: steps) t := by
  rcases settling_work hsettling with ⟨-, -, hidle, -⟩ |
    ⟨m₀, later, p, hturn, hstep, heffects, hgoes⟩
  · refine ⟨owned_of_idle hidle, ?_⟩
    rw [hidle.1]
    exact fun t ht => absurd ht List.not_mem_nil
  · have hpasses := (turn_passes hturn).1
    have hm₀ : m₀.chart = c := by
      rw [(nextTurn_process hturn).2]
      exact hc
    obtain ⟨hchart, hconf⟩ := configuration_of_settles hstep
    rw [hpasses.configuration] at hconf
    have htimer : ∀ t ∈ m'.timers.pending, (t.state ∈ m'.configuration ∧ c.Delays t) ∧
        PendingSince (step :: steps) t := by
      intro t ht
      rw [hgoes.timers] at ht
      rw [hgoes.configuration, hconf]
      rcases heffects.timers t ht with ⟨ht, hx⟩ | ⟨hentered, hepoch, harms⟩
      · have ht := hpasses.timers ht
        obtain ⟨hactive, hdelays⟩ := howned.timers t ht
        exact ⟨⟨Or.inl ⟨hactive, hx⟩, hdelays⟩, pendingSince_cons (hsince t ht) hx⟩
      · refine ⟨⟨Or.inr hentered, (hchart.trans hm₀) ▸ harms.declared⟩, [], step, steps, rfl,
          ⟨hentered, fun hold => ?_, ht, harms.deadline⟩, fun e he => absurd he List.not_mem_nil⟩
        -- an older timer would have an older epoch
        rw [(before_of_settles hstep).2] at hold
        exact absurd (m₀.timers.fresh t hold) (Nat.not_lt.mpr hepoch)
    refine ⟨⟨fun t ht => (htimer t ht).1, fun s hs => ?_, fun hstatus => ?_⟩,
      fun t ht => (htimer t ht).2⟩
    · rw [hgoes.invocations] at hs
      rw [hgoes.configuration, hconf]
      rcases heffects.invocations s hs with ⟨hs, hx⟩ | ⟨hentered, hinvokes⟩
      · obtain ⟨hactive, hinvokes⟩ := howned.invocations s (hpasses.invocations hs)
        exact ⟨Or.inl ⟨hactive, hx⟩, hinvokes⟩
      · exact ⟨Or.inr hentered, (hchart.trans hm₀) ▸ hinvokes⟩
    · rw [hgoes.status] at hstatus
      obtain ⟨htimers, hrunning, -, -⟩ := heffects.done (heffects.status.resolve_left hstatus)
      exact ⟨by rw [hgoes.timers]; exact htimers, by rw [hgoes.invocations]; exact hrunning⟩

/-- So it is all along a run. -/
theorem pending_of_run (hrun : Run c steps m) :
    m.Owned c ∧ ∀ t ∈ m.timers.pending, PendingSince steps t := by
  induction hrun with
  | fresh _ hm =>
    refine ⟨owned_of_idle ⟨hm.timers, hm.invocations⟩, ?_⟩
    rw [hm.timers]
    exact fun t ht => absurd ht List.not_mem_nil
  | move _ hmove ih => exact owned_move hmove ih.1 ih.2
  | settle hrun hsettling ih =>
    have hc := (run_invariant (P := fun _ _ _ => True) (fun _ _ _ _ => trivial)
      (fun _ _ _ _ => trivial) hrun).resolve_left (not_ended_of_up (settling_status hsettling))
    exact owned_settling hc.1 hsettling ih.1 ih.2

end Machine

open Machine in
/-- At every moment of a run what is pending belongs to active states, which declare it, and
nothing is pending unless the machine is running; every pending timer was armed by a step that
entered its state, which was not left since; and a timer's signal is processed as the timer is
taken from the table. -/
theorem owned_of_run (hrun : Run c steps m) :
    m.Owned c ∧ (∀ t ∈ m.timers.pending, PendingSince steps t) ∧
      ∀ m₀ s i delay later, m.nextTurn = .process m₀ (.timer s i delay) later →
        ∃ t ∈ m.timers.pending, t.state = s ∧ t.index = i ∧ t.delay = delay ∧
          PendingSince steps t := by
  obtain ⟨howned, hsince⟩ := pending_of_run hrun
  refine ⟨howned, hsince, fun m₀ s i delay later hturn => ?_⟩
  obtain ⟨rest, -, ⟨hqueue, -⟩ | ⟨now, horizon, t, timers, -, -, hpop, he, -⟩⟩ := nextTurn_cases hturn
  · exact absurd (sourced_of_run hrun _ (hqueue ▸ List.mem_cons_self ..)) id
  · have ht : t ∈ m.timers.pending := by
      have hdue : t ∈ m.timers.due now horizon :=
        (Timers.popDue_spec hpop).1 ▸ List.mem_cons_self ..
      exact (List.mem_filter.mp hdue).1
    rw [Signal.timer.injEq] at he
    exact ⟨t, ht, he.1.symm, he.2.1.symm, he.2.2.symm, hsince t ht⟩

/-! ## A kettle -/

inductive KettleState | kettle | off | heating
deriving DecidableEq

/-- A kettle that heats for three seconds and is watched meanwhile. -/
def kettleTree : StateTree (.bare KettleState) :=
  .bare .kettle (.compound .off) []
    [.bare .off .atomic [.bare "press" .heating],
    .node
      { id := .heating
        kind := .atomic
        transitions := [.bareOn (.after (.ofMillis 3000)) .off]
        invocation := some { name := "watch", start := fun _ => .ok .await } } []]

def kettle : Chart (.bare KettleState) :=
  { kettleTree.outline with tree := kettleTree, outline_eq := rfl, flawless := by cbv }

/-- A kettle that was pressed three seconds ago, with somebody to watch it. -/
def heatedKettle : Machine (.bare KettleState) :=
  ({ kettle.machine with canInvoke := true }.trace [.start, .send "press"]).2.setClock
    (.ofMillis 3000)

/-- The state and the position of the timer whose signal a machine is about to process. -/
def Machine.ringing? (m : Machine D) : Option (D.State × Nat) :=
  match m.nextTurn with
  | .process _ (.timer s i _) _ => some (s, i)
  | _ => none

open Machine in
/-- When the kettle is about to switch itself off, it is still heating as it was when the timer was
armed. -/
theorem kettle_owned : ∃ steps m, Run kettle steps m ∧ m.invocations.states = [.heating] ∧
    m.Owned kettle ∧ ∃ m₀ s i delay later, m.nextTurn = .process m₀ (.timer s i delay) later ∧
      ∃ t ∈ m.timers.pending, t.state = s ∧ t.index = i ∧ t.delay = delay ∧
        PendingSince steps t := by
  have htrace := run_trace (m := { kettle.machine with canInvoke := true })
    ⟨rfl, rfl, rfl, rfl, rfl, rfl, rfl, rfl, rfl, rfl, rfl⟩ [.start, .send "press"]
  have hheated : Move _ heatedKettle := .outside
  let shell := heatedKettle.shell.enqueue (.timers (.ofMillis 3000) heatedKettle.timers.nextEpoch)
  have hcalled : heatedKettle.Move { heatedKettle with shell } := by
    refine .call (c := .tick) ?_
    have hstatus : heatedKettle.shell.status = .running := by cbv
    have hstop : heatedKettle.shell.stopRequested = false := by cbv
    have hnow : heatedKettle.shell.clock.now = .ofMillis 3000 := by cbv
    simp [Shell.receive, Shell.receiveWork, hstatus, hstop, hnow, shell]
  have hrun := (htrace.move hheated).move hcalled
  have hnext : { heatedKettle with shell }.ringing? = some (.heating, 0) := by cbv
  obtain ⟨howned, -, htimer⟩ := owned_of_run hrun
  unfold ringing? at hnext
  split at hnext
  · next m₀ s i delay later hturn =>
    exact ⟨_, _, hrun, by cbv, howned, m₀, s, i, delay, later, hturn, htimer m₀ s i delay later hturn⟩
  · exact absurd hnext (by simp)

end Statechart
