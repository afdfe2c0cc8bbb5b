import Statechart.Proofs.Machine.Requests
import Statechart.Proofs.Machine.Work
import Statechart.Proofs.Run

/-!
# Pending work and the queue in the course of a turn

A turn takes work out of the queue: a signal, or the first due timer (`nextTurn_cases`). What
comes of it is a defect, nothing at all, or a settled step (`advance_cases`).

A settled step has phases, each of which is known to treat pending work and the queue in a
certain way (`phases_of_settles`). Put together, the timers pending after the step are those
from before whose state was not left, and those armed for the states entered; the same goes
for invocations; what waited in the queue goes on waiting, and the completions raised come
last (`effects_of_settles`). All this is over when the step completes the machine.
-/

namespace Statechart

variable {D : Domain}

namespace Machine

variable {m m₀ m' : Machine D} {signal : Signal D} {step : Settled D} {p : Progress D}

/-! ## What a turn takes out of the queue -/

/-- A turn that processes a signal finds it at the head of the queue, or finds work there that
fires timers, and goes on with the first of them that is due. -/
theorem nextTurn_cases {later : List (Work D)} (h : m.nextTurn = .process m₀ signal later) :
    ∃ rest, m.status = .running ∧
      ((m.shell.queue = .signal signal :: rest ∧ later = [] ∧
          m₀ = { m with shell := { m.shell with queue := rest } }) ∨
        ∃ now horizon t timers, m.shell.queue = .timers now horizon :: rest ∧
          later = [.timers now horizon] ∧ m.timers.popDue now horizon = some (t, timers) ∧
          signal = .timer t.state t.index t.delay ∧
          m₀ = { m with shell := { m.shell with queue := rest }, timers }) := by
  obtain ⟨hstatus, -⟩ := nextTurn_process h
  refine (?_ : ∃ rest, _).imp fun rest hrest => ⟨hstatus, hrest⟩
  unfold nextTurn at h
  split at h
  · exact absurd h (by simp)
  · next work rest hqueue =>
    dsimp only at h
    split at h
    · exact absurd h (by simp)
    · split at h
      · rw [Turn.process.injEq] at h
        obtain ⟨rfl, rfl, rfl⟩ := h
        exact ⟨rest, Or.inl ⟨hqueue, rfl, rfl⟩⟩
      · next now horizon =>
        split at h
        · exact absurd h (by simp)
        · next t timers hpop =>
          rw [Turn.process.injEq] at h
          obtain ⟨rfl, rfl, rfl⟩ := h
          exact ⟨rest, Or.inr ⟨now, horizon, t, timers, hqueue, rfl, hpop, rfl, rfl⟩⟩

/-- A turn with nothing to do drops work: the machine is not running, or no timer is due. -/
theorem nextTurn_skip_cases (h : m.nextTurn = .skip m') :
    ∃ work, m.shell.queue = work :: m'.shell.queue ∧
      (m.status ≠ .running ∨ ∃ now horizon, work = .timers now horizon ∧
        m.timers.popDue now horizon = none) := by
  unfold nextTurn at h
  split at h
  · exact absurd h (by simp)
  · next work rest hqueue =>
    dsimp only at h
    split at h
    · next hstatus =>
      rw [Turn.skip.injEq] at h
      exact ⟨work, h ▸ hqueue, Or.inl hstatus⟩
    · split at h
      · exact absurd h (by simp)
      · next now horizon =>
        split at h
        · next hpop =>
          rw [Turn.skip.injEq] at h
          exact ⟨_, h ▸ hqueue, Or.inr ⟨now, horizon, rfl, hpop⟩⟩
        · exact absurd h (by simp)

/-! ## What comes of a signal -/

theorem absorb_same (m : Machine D) : absorb { machine := m } = m := by
  simp [absorb, enqueueAll]

/-- Of a signal comes a defect, nothing but that an invocation is retired, or a settled step. -/
theorem advance_cases {o : Outcome D} (h : m.advance signal = some o) :
    (∃ m₁ d, m.process signal = .error (.defect m₁ d) ∧ o = m₁.fault d) ∨
      (∃ invocations : Invocations D.State, invocations.running ⊆ m.invocations.running ∧
        o = { machine := { m with invocations } }) ∨
      ∃ step p, m.Settles step p ∧ step.signal = signal ∧ o = (absorb p).notify := by
  unfold advance at h
  split at h
  · exact absurd h (by simp)
  · next m₁ d hproc => exact Or.inl ⟨m₁, d, hproc, (Option.some.inj h).symm⟩
  · next p hproc =>
    rw [Option.some.injEq] at h
    subst h
    refine Or.inr ((process_cases hproc).imp ?_ ?_)
    · intro h
      obtain ⟨invocations, hrunning, rfl⟩ := h
      exact ⟨invocations, hrunning, by rw [if_neg (by simp), absorb_same]⟩
    · intro h
      obtain ⟨step, hstep, hsignal⟩ := h
      exact ⟨step, p, hstep, hsignal, by rw [if_pos (settled_of_settles hstep).1]⟩

end Machine

/-! ## What a settled step does -/

namespace Settled

/-- The states whose completion a step signals, in order. -/
def raised (step : Settled D) : List D.State :=
  match step.between.enterAll step.signal step.entered with
  | .ok p => p.close.raised
  | .error _ => []

/-- A step that completes the machine signals nothing. -/
theorem raised_eq {step : Settled D} {p : Progress D}
    (h : step.between.enterAll step.signal step.entered = .ok p) :
    step.raised = if p.completed then [] else p.raised := by
  rw [raised, h]
  change p.close.raised = _
  unfold Progress.close
  split <;> rfl

/-- What leaving does to the pending work and the queue of the machine that settles a step. -/
structure Leaves (m : Machine D) (step : Settled D) : Prop where
  leads : m.shell.Leads step.between.shell
  epoch : step.between.timers.nextEpoch = m.timers.nextEpoch
  timers : ∀ t, t ∈ step.between.timers.pending ↔ t ∈ m.timers.pending ∧ t.state ∉ step.exited
  invocations : ∀ x ∈ step.between.invocations.states, x ∈ m.invocations.states ∧ x ∉ step.exited

/-- What a settled step makes of the pending work and the queue of the machine that settles it. -/
structure Effects (m : Machine D) (step : Settled D) : Prop where
  status : step.after.status = .running ∨ step.after.status = .done
  onward : m.timers.Onward step.after.timers
  timers : ∀ t ∈ step.after.timers.pending, (t ∈ m.timers.pending ∧ t.state ∉ step.exited) ∨
    (t.state ∈ step.entered ∧ m.timers.nextEpoch ≤ t.epoch ∧
      step.between.Arms step.between.shell.clock.now t)
  /-- Nothing is cancelled but by leaving a state or by completing the machine. -/
  kept : step.after.status = .running → ∀ t ∈ m.timers.pending, t.state ∉ step.exited →
    t ∈ step.after.timers.pending
  invocations : ∀ x ∈ step.after.invocations.states, (x ∈ m.invocations.states ∧ x ∉ step.exited) ∨
    (x ∈ step.entered ∧ step.between.chart.Invokes x)
  queue : step.after.status = .running → ∃ sent,
    step.after.shell.queue = sent ++ step.raised.map (fun s => .signal (.done s)) ∧
      (∀ w ∈ sent, w ∈ m.shell.queue ∨ w.External) ∧
      (step.after.shell.stopRequested = false → m.shell.queue <+: sent)
  done : step.after.status = .done → step.after.timers.pending = [] ∧
    step.after.invocations.running = [] ∧ step.after.shell.queue = [] ∧ step.raised = []

end Settled

namespace Machine

variable {m before left : Machine D} {signal : Signal D} {step : Settled D} {p : Progress D}

/-- Taking in a signal leaves the shell and the timers alone. -/
theorem reacting?_work (h : m.reacting? signal = some before) :
    before.shell = m.shell ∧ before.timers = m.timers ∧
      before.invocations.running ⊆ m.invocations.running := by
  obtain ⟨_, hrunning, rfl⟩ := exists_of_reacting? h
  exact ⟨rfl, rfl, hrunning⟩

/-- The machine whose transitions a step takes has the queue and the timers of the machine that
settles it. -/
theorem before_of_settles (h : m.Settles step p) :
    step.before.shell = m.shell ∧ step.before.timers = m.timers := by
  cases h with
  | initial _ _ _ => exact ⟨rfl, rfl⟩
  | reaction hreact _ _ _ _ _ _ _ _ =>
    obtain ⟨hshell, htimers, -⟩ := reacting?_work hreact
    exact ⟨hshell, htimers⟩

/-- The entering phase of a settled step, and how the machine comes out of it. -/
theorem entering_of_settles (h : m.Settles step p) : ∃ p',
    step.between.enterAll step.signal step.entered = .ok p' ∧
      p = { p'.close with
            machine := p'.close.machine.settle step.signal step.exited step.entered
            settled := true } := by
  cases h with
  | initial _ _ h => exact exists_of_settleEntry h
  | reaction _ _ _ _ _ _ _ _ h => exact exists_of_settleEntry h

/-- The leaving phase of a settled step. -/
theorem leaves_of_settles (h : m.Settles step p) : step.Leaves m := by
  cases h with
  | initial _ _ _ =>
    exact ⟨Shell.leads_refl, rfl, fun t => by simp, fun x hx => ⟨hx, List.not_mem_nil⟩⟩
  | @reaction before left between _ _ _ exited _ _ hreact _ _ _ _ hleft hbetween _ _ =>
    obtain ⟨hshell, htimers, hrunning⟩ := reacting?_work hreact
    obtain ⟨hepoch, hexited, hinvoked⟩ := exitStates_work hleft
    obtain ⟨ht, hi⟩ := runTransitions_work hbetween
    have hlead : before.shell.Leads left.shell :=
      exitStates_leads (m := before.recordHistories exited) hleft
    constructor
    · exact hshell ▸ Shell.leads_trans hlead (runTransitions_leads hbetween)
    · change between.timers.nextEpoch = _
      rw [ht, hepoch, ← htimers]
      rfl
    · intro t
      change t ∈ between.timers.pending ↔ _
      rw [ht, hexited, ← htimers]
      rfl
    · intro x hx
      change x ∈ between.invocations.states at hx
      rw [hi, hinvoked] at hx
      exact ⟨List.map_subset _ hrunning hx.1, hx.2⟩

/-- The pending work and the queue of a machine that has absorbed a step. -/
theorem absorb_work (p : Progress D) :
    (absorb p).timers = p.machine.timers ∧
      (absorb p).invocations.states = p.machine.invocations.states ∧
      (p.completed = true → (absorb p).status = .done ∧ (absorb p).shell.queue = []) ∧
      (p.completed = false → (absorb p).shell =
        (p.machine.enqueueAll (p.raised.map fun s => .signal (.done s))).shell) := by
  have hfold : ∀ (l : List (Launch D)) (m : Machine D),
      (l.foldl handOver m).timers = m.timers ∧
        (l.foldl handOver m).invocations.states = m.invocations.states ∧
        (l.foldl handOver m).shell = m.shell := by
    intro l
    induction l with
    | nil => exact fun m => ⟨rfl, rfl, rfl⟩
    | cons a l ih =>
      intro m
      obtain ⟨h₁, h₂, h₃⟩ := ih (m.handOver a)
      exact ⟨h₁, h₂.trans (Invocations.states_attach _), h₃⟩
  unfold absorb
  dsimp only
  cases hc : p.completed with
  | true => exact ⟨rfl, rfl, fun _ => ⟨rfl, rfl⟩, fun h => absurd h (by simp)⟩
  | false =>
    obtain ⟨h₁, h₂, h₃⟩ := hfold p.launches
      (p.machine.enqueueAll (p.raised.map fun s => .signal (.done s)))
    exact ⟨h₁, h₂, fun h => absurd h (by simp), fun _ => h₃⟩

/-- After a step the machine is running, unless the step completes it. -/
theorem status_of_settles (hm : m.status = .running) (h : m.Settles step p) :
    step.after.status = if p.completed then .done else .running := by
  obtain ⟨-, hafter⟩ := settled_of_settles h
  obtain ⟨-, -, hdone, hrunning⟩ := absorb_work p
  cases hc : p.completed with
  | true => exact hafter ▸ (hdone hc).1
  | false =>
    obtain ⟨p', henter, hp⟩ := entering_of_settles h
    have hleads := (leaves_of_settles h).leads
    have hbetween : step.between.status = .running := by
      refine (hleads.status fun he => ?_).trans hm
      simp [status, he] at hm
    have hkeeps := keeps_trans (enterAll_keeps henter).1 (Progress.close_keeps (p := p')).1
    have hend : p'.close.machine.status = .running :=
      (hkeeps.status (by simp [hbetween])).trans hbetween
    rw [hafter, if_neg (by simp), status, hrunning hc, hp]
    exact hend

/-- What a settled step makes of the pending work and the queue. -/
theorem effects_of_settles (hm : m.status = .running) (h : m.Settles step p) : step.Effects m := by
  have hstatus := status_of_settles hm h
  obtain ⟨-, hafter⟩ := settled_of_settles h
  obtain ⟨p', henter, hp⟩ := entering_of_settles h
  obtain ⟨hleads, hepoch, hexited, hinvoked⟩ := leaves_of_settles h
  have hworks : Progress.Works step.between.shell.clock.now step.entered _ p' :=
    Progress.foldlM_enterState_work henter
  have hshell : step.between.shell.Leads p'.machine.shell :=
    Progress.foldlM_enterState_leads henter
  have hlead := Shell.leads_trans hleads hshell
  have hraised := Settled.raised_eq henter
  have hpast : m.timers.Onward step.between.timers :=
    ⟨Nat.le_of_eq hepoch.symm, fun t ht => Or.inl ((hexited t).mp ht).1⟩
  have honward := Timers.onward_trans hpast hworks.onward
  obtain ⟨htimers, hstates, hdone, hrunning⟩ := absorb_work p
  rw [← hafter] at htimers hstates hdone hrunning
  cases hc : p'.completed with
  | true =>
    -- the step completes the machine, and cancels all that is pending
    have hclose : p'.close =
        { p' with machine := p'.machine.cancelAll, raised := [], launches := [] } := if_pos hc
    rw [hclose] at hp
    rw [hc] at hraised
    have hcompleted : p.completed = true := by rw [hp]; exact hc
    rw [hcompleted, if_pos rfl] at hstatus
    have hpending : step.after.timers.pending = [] := by
      rw [htimers, hp]
      exact Timers.pending_clear _
    have hidle : step.after.invocations.states = [] := by
      rw [hstates, hp]
      rfl
    refine ⟨Or.inr hstatus, ?_, by simp [hpending], by simp [hstatus], by simp [hidle],
      by simp [hstatus], fun _ => ⟨hpending, by simpa [Invocations.states] using hidle,
        (hdone hcompleted).2, hraised⟩⟩
    rw [htimers, hp]
    exact Timers.onward_trans honward Timers.onward_keep
  | false =>
    have hclose : p'.close = p' := if_neg (by simp [hc])
    rw [hclose] at hp
    rw [hc] at hraised
    have hcompleted : p.completed = false := by rw [hp]; exact hc
    rw [hcompleted, if_neg (by simp)] at hstatus
    have hshell := hrunning hcompleted
    have htimers' : step.after.timers = p'.machine.timers := htimers.trans (by rw [hp]; rfl)
    have hstates' : step.after.invocations.states = p'.machine.invocations.states :=
      hstates.trans (by rw [hp]; rfl)
    refine ⟨Or.inl hstatus, by rw [htimers']; exact honward, fun t ht => ?_, fun _ t ht hx => ?_,
      fun x hx => ?_, fun _ => ⟨p'.machine.shell.queue, ?_, hlead.joined, fun hs => ?_⟩,
      by simp [hstatus]⟩
    · rw [htimers'] at ht
      rcases hworks.armed t ht with ht | ⟨hentered, harms⟩
      · exact Or.inl ((hexited t).mp ht)
      · exact Or.inr ⟨hentered, hepoch ▸ harms.epoch, harms⟩
    · rw [htimers']
      exact hworks.kept t ((hexited t).mpr ⟨ht, hx⟩)
    · rw [hstates'] at hx
      exact (hworks.invoked x hx).imp_left (hinvoked x)
    · rw [hshell, hp, hraised]
      rfl
    · rw [hshell, hp] at hs
      exact hlead.waits hs

end Machine

end Statechart
