import Statechart.Proofs.Flow
import Statechart.Proofs.Trace

/-!
# Machines at rest

Between calls from outside a machine is at rest (`AtRest`): nobody has called it yet, or the
last call was answered. It may have been refused, or have led to a defect; only a listener
that panics never lets the call return. However long it took to work the queue off, the
queue is empty then, and it is free unless the machine's life is over (`rest_of_workOff`). The
machine is at a moment of a run (`run_of_atRest`).
-/

namespace Statechart

variable {D : Domain}

/-- Whether somebody who was told of a step panicked. -/
def Outcome.Panicked (o : Outcome D) : Prop := ∃ message, o.error = some (.listenerPanicked message)

namespace Machine

variable {c : Chart D} {m m' m₀ : Machine D} {signal : Signal D} {o : Outcome D}

/-- A machine between two calls from outside. -/
inductive AtRest (c : Chart D) : Machine D → Prop
  | fresh {m : Machine D} : m.chart = c → m.Fresh → AtRest c m
  | call {m : Machine D} {fuel : Nat} {call : Call D} {o : Outcome D} :
      AtRest c m → m.call fuel call = some o → ¬ o.Panicked → AtRest c o.machine
  | result {m : Machine D} {fuel : Nat} {s : D.State} {id : InvocationId}
      {invocations : Invocations D.State} {result : Except InvokeError D.Output} {o : Outcome D} :
      AtRest c m → m.isLive → m.invocations.settle? s id = some invocations →
      ({ m with invocations }.enqueueAll [.signal (resultSignal s id result)]).drain fuel = some o →
      ¬ o.Panicked → AtRest c o.machine
  /-- The clock, the host, the listeners, what is to be carried out and whether it can be belong to
  the outside. -/
  | outside {m : Machine D} {host : D.Host} {clock : Clock} {listeners : List (Listener D)}
      {nextListener : Nat} {launched : List (Launch D)} {awaiting : List (String × InvocationId)}
      {canInvoke worked : Bool} :
      AtRest c m → AtRest c
        { m with
          shell := { m.shell with host, clock, listeners, nextListener }
          launched, awaiting, canInvoke, worked }

/-- The machine after calls from outside; those that are not answered are left out. -/
def after (m : Machine D) (fuel : Nat) (calls : List (Call D)) : Machine D :=
  calls.foldl
    (fun m call =>
      match m.call fuel call with
      | some { machine, error := none } => machine
      | _ => m) m

theorem atRest_after (h : AtRest c m) (fuel : Nat) (calls : List (Call D)) :
    AtRest c (m.after fuel calls) := by
  refine List.foldlRecOn (motive := AtRest c) calls _ h fun m hm call _ => ?_
  split
  · next machine hcall => exact hm.call hcall fun hpanic => by simp [Outcome.Panicked] at hpanic
  · exact hm

/-- What the machine goes on with after processing a signal. -/
theorem advance_work (hm : m.status = .running) (h : m.advance signal = some o) :
    (∃ (m₁ : Machine D) (d : Defect D.State), o = m₁.fault d) ∨
      (∃ invocations : Invocations D.State, invocations.running ⊆ m.invocations.running ∧
        o = { machine := { m with invocations } }) ∨
      ∃ step p, m.Settles step p ∧ step.signal = signal ∧ o = (absorb p).notify ∧
        step.Effects m ∧ step.Continues o.machine := by
  refine (advance_cases h).imp ?_ (Or.imp_right ?_)
  · intro h
    obtain ⟨m₁, d, -, he⟩ := h
    exact ⟨m₁, d, he⟩
  · intro h
    obtain ⟨step, p, hstep, hsignal, rfl⟩ := h
    have heffects := effects_of_settles hm hstep
    have hnone : ∀ w ∈ ([] : List (Work D)), w.External := fun w hw => absurd hw List.not_mem_nil
    have hgoes := continues_notify (settled_of_settles hstep).2 heffects.status hnone
    exact ⟨step, p, hstep, hsignal, rfl, heffects, by simpa [enqueueAll] using hgoes⟩

/-- A machine that goes on after processing a signal is running or completed. -/
theorem up_of_advance (hm : m.status = .running) (h : m.advance signal = some o)
    (hgood : o.error = none) : o.machine.Up := by
  rcases advance_work hm h with ⟨m₁, d, rfl⟩ | ⟨invocations, -, rfl⟩ |
    ⟨step, p, -, -, -, heffects, hgoes⟩
  · exact absurd hgood (by simp [fault])
  · exact Or.inl hm
  · rw [Up, hgoes.status]
    exact heffects.status

theorem nextTurn_idle (h : m.nextTurn = .idle) : m.shell.queue = [] := by
  unfold nextTurn at h
  split at h
  · assumption
  · dsimp only at h
    split at h
    · exact absurd h (by simp)
    · split at h
      · exact absurd h (by simp)
      · split at h <;> exact absurd h (by simp)

/-- A queue that was worked off is empty, and it is free unless the machine's life is over. -/
theorem rest_of_workOff : ∀ {fuel : Nat} {m : Machine D}, m.status ≠ .notStarted →
    m.blocked = false → m.workOff fuel = some o → ¬ o.Panicked →
      o.machine.shell.queue = [] ∧ (o.machine.blocked = false ∨ o.machine.Ended)
  | 0, _, _, _, h, _ => absurd h (by simp [workOff])
  | fuel + 1, m, hm, hfree, h, hcalm => by
    unfold workOff at h
    split at h
    · next hstop =>
      obtain ⟨hend, -, hqueue⟩ := finish_work hm hstop h
      exact ⟨hqueue, Or.inr hend⟩
    · split at h
      · next hturn =>
        rw [Option.some.injEq] at h
        exact h ▸ ⟨nextTurn_idle hturn, Or.inl hfree⟩
      · next m' hturn =>
        refine rest_of_workOff ?_ ?_ h hcalm
        · rw [nextTurn_skip hturn]
          exact hm
        · rw [nextTurn_skip hturn]
          exact hfree
      · next m₀ signal later hturn =>
        obtain ⟨-, hstatus, -⟩ := turn_passes hturn
        have hfree₀ : m₀.blocked = false := by rw [(nextTurn_process hturn).2]; exact hfree
        obtain ⟨o', ho', h⟩ := Option.bind_eq_some_iff.mp h
        split at h
        · next e he =>
          rw [Option.pure_def, Option.some.injEq] at h
          subst h
          -- a defect clears the queue, and that a listener panics is excluded
          rcases advance_work hstatus ho' with ⟨m₁, d, rfl⟩ | ⟨invocations, -, rfl⟩ |
            ⟨step, p, -, -, rfl, -, -⟩
          · exact ⟨rfl, Or.inr (Or.inr rfl)⟩
          · exact absurd he (by simp)
          · unfold notify at hcalm he
            obtain ⟨message, -, hmessage⟩ := Option.map_eq_some_iff.mp he
            exact absurd ⟨message, he.trans (hmessage ▸ rfl)⟩ hcalm
        · next he =>
          have hfree' : (o'.machine.enqueueAll later).blocked = false :=
            (blocked_of_advance ho' he).trans hfree₀
          refine rest_of_workOff ?_ hfree' h hcalm
          have hup := up_of_advance hstatus ho' he
          change o'.machine.status ≠ _
          rcases hup with hup | hup <;> simp [hup]

theorem drain_of_free (hfree : m.blocked = false) (fuel : Nat) :
    m.drain fuel = (m.workOff fuel).map noted := by
  simp [drain, hfree]

theorem rest_of_drain {fuel : Nat} (hup : m.Up) (hfree : m.blocked = false)
    (h : m.drain fuel = some o) (hcalm : ¬ o.Panicked) :
    o.machine.shell.queue = [] ∧ (o.machine.blocked = false ∨ o.machine.Ended) := by
  rw [drain_of_free hfree] at h
  obtain ⟨o', ho', rfl⟩ := Option.map_eq_some_iff.mp h
  obtain ⟨worked, he⟩ := noted_eq o'
  rw [he] at hcalm ⊢
  refine rest_of_workOff (o := o') ?_ hfree ho' hcalm
  rcases hup with hup | hup <;> simp [hup]

theorem not_admitted_of_ended {call : Call D} {horizon : Nat} {shell : Shell D} (h : m.Ended) :
    m.shell.receive horizon call ≠ .admitted shell := by
  intro hr
  have hne : m.shell.status ≠ .notStarted := by
    rcases h with h | h <;> exact fun he => by simp [status, he] at h
  have hs := Shell.up_of_receive hr
  rw [Shell.receive_status hne hr] at hs
  exact not_ended_of_up hs h

private theorem rest_of_atRest (h : AtRest c m) :
    m.shell.queue = [] ∧ (m.blocked = false ∨ m.Ended) := by
  induction h with
  | fresh _ hm => exact ⟨hm.queue, Or.inl hm.free⟩
  | @call m _ _ _ _ hcall hcalm ih =>
    -- a call that is refused or ignored leaves the machine as it was
    unfold Machine.call at hcall
    split at hcall
    · rw [Option.some.injEq] at hcall
      exact hcall ▸ ih
    · rw [Option.some.injEq] at hcall
      exact hcall ▸ ih
    · next shell hr =>
      have hfree := ih.2.resolve_right fun hend => not_admitted_of_ended hend hr
      have hup := Shell.up_of_receive hr
      exact rest_of_drain (m := { m with shell }) hup hfree hcall hcalm
  | @result m _ _ _ invocations _ _ _ hlive _ hdrain hcalm ih =>
    have hup := up_of_isLive hlive
    have hfree := ih.2.resolve_right (not_ended_of_up hup)
    exact rest_of_drain (m := enqueueAll { m with invocations } _) hup hfree hdrain hcalm
  | outside _ ih => exact ih

/-- The queue of a machine at rest is free, unless the machine's life is over. -/
theorem free_of_atRest (h : AtRest c m) (hend : ¬ m.Ended) : m.blocked = false :=
  (rest_of_atRest h).2.resolve_right hend

/-- A machine at rest is at a moment of a run, with no work in its queue. -/
theorem run_of_atRest (h : AtRest c m) : (∃ steps, Run c steps m) ∧ m.shell.queue = [] := by
  refine ⟨?_, (rest_of_atRest h).1⟩
  induction h with
  | fresh hc hm => exact ⟨[], .fresh hc hm⟩
  | call _ hcall _ ih =>
    obtain ⟨steps, hrun⟩ := ih
    obtain ⟨new, hnew⟩ := run_call hrun hcall
    exact ⟨_, hnew⟩
  | @result m fuel s id invocations result o _ hlive hsettle hdrain _ ih =>
    obtain ⟨steps, hrun⟩ := ih
    have hdeliver : m.deliver fuel s id result = some o.machine := by
      simp only [deliver, if_pos hlive, hsettle, hdrain, Option.map_some]
    obtain ⟨new, hnew⟩ := run_deliver hrun hdeliver
    exact ⟨_, hnew⟩
  | outside _ ih =>
    obtain ⟨steps, hrun⟩ := ih
    exact ⟨steps, hrun.move .outside⟩

end Machine

variable {S : Type} [DecidableEq S]

theorem Chart.atRest_machine (c : Chart (.bare S)) : Machine.AtRest c c.machine :=
  .fresh rfl ⟨rfl, rfl, rfl, rfl, rfl, rfl, rfl, rfl, rfl, rfl, rfl⟩

/-- What a machine on a chart is after some calls, it is at a moment of a run. -/
theorem Chart.run_after (c : Chart (.bare S)) (fuel : Nat) (calls : List (Call (.bare S))) :
    ∃ steps, Machine.Run c steps (c.machine.after fuel calls) :=
  (Machine.run_of_atRest (Machine.atRest_after c.atRest_machine fuel calls)).1

end Statechart
