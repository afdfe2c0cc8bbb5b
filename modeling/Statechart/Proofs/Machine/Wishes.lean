import Statechart.Proofs.Machine.Requests

/-!
# Asking to stop

Whoever calls the machine can ask it to stop, from outside or from code that runs inside a step.
If the call is admitted the wish is noted, and it is never taken back. So the wish is there after
some code has run exactly if it was there before, or somebody asked on the way
(`stopRequested_iff`).
-/

namespace Statechart.Shell

variable {D : Domain} {s s' s'' : Shell D} {horizon : Nat} {asked : List (Work D)}

/-- While code runs between two shells, somebody asks to stop, and is admitted. -/
def AsksToStop (s s' : Shell D) : Prop :=
  ∃ s₁ s₂ horizon earlier later, Asks s earlier s₁ ∧
    s₁.receive horizon .stop = .admitted s₂ ∧ Asks s₂ later s'

/-- The wish to stop is admitted by a machine that is running or completed, and noted. -/
theorem stop_admitted (h : s.receive horizon .stop = .admitted s') :
    (s.status = .running ∨ s.status = .done) ∧
      s' = { s with stopRequested := true, queue := [] } := by
  rw [receive] at h
  split at h <;> simp only [reduceCtorEq, Admission.admitted.injEq] at h
  · next hs => exact ⟨Or.inl hs, h.symm⟩
  · next hs => exact ⟨Or.inr hs, h.symm⟩

/-- Of the calls to a machine that was asked to stop, only another such call is admitted. -/
theorem stop_of_admitted {c : Call D} (hs : s.status ≠ .notStarted) (hstop : s.stopRequested = true)
    (h : s.receive horizon c = .admitted s') : c = .stop := by
  cases c with
  | stop => rfl
  | start =>
    rw [receive] at h
    split at h <;> simp only [reduceCtorEq, Admission.admitted.injEq] at h
    next hstatus => exact absurd hstatus hs
  | send e =>
    obtain ⟨hopen, -⟩ := receiveWork_admitted (w := .signal (.event e)) h
    exact absurd (hstop.symm.trans hopen) (by simp)
  | tick =>
    obtain ⟨hopen, -⟩ := receiveWork_admitted (w := .timers s.clock.now horizon) h
    exact absurd (hstop.symm.trans hopen) (by simp)

/-- A wish that was noted stays. -/
theorem stopRequested_of_asks (h : Asks s asked s') (hs : s.stopRequested = true) :
    s'.stopRequested = true := by
  induction h with
  | rest | count => exact hs
  | call h => exact (receive_leads h).stop hs
  | command => exact (perform_leads _).stop hs
  | trans _ _ ih ih' => exact ih' (ih hs)

theorem asksToStop_of_stop (h : s.receive horizon .stop = .admitted s') : s.AsksToStop s' :=
  ⟨s, s', horizon, [], [], .rest, h, .rest⟩

theorem asksToStop_before (h : Asks s asked s') (hs : s'.AsksToStop s'') : s.AsksToStop s'' := by
  obtain ⟨s₁, s₂, horizon, earlier, later, hbefore, hstop, hafter⟩ := hs
  exact ⟨s₁, s₂, horizon, _, later, h.trans hbefore, hstop, hafter⟩

theorem asksToStop_after (hs : s.AsksToStop s') (h : Asks s' asked s'') : s.AsksToStop s'' := by
  obtain ⟨s₁, s₂, horizon, earlier, later, hbefore, hstop, hafter⟩ := hs
  exact ⟨s₁, s₂, horizon, earlier, _, hbefore, hstop, hafter.trans h⟩

/-- Of calls, only the one that asks to stop changes the wish. -/
theorem stopRequested_of_receive {c : Call D} (h : s.receive horizon c = .admitted s')
    (hs : s'.stopRequested = true) : s.stopRequested = true ∨ c = .stop := by
  cases c with
  | stop => exact Or.inr rfl
  | start =>
    rw [receive] at h
    split at h <;> simp only [reduceCtorEq, Admission.admitted.injEq] at h
    subst h
    exact Or.inl hs
  | send e =>
    obtain ⟨-, -, rfl⟩ := receiveWork_admitted (w := .signal (.event e)) h
    exact Or.inl hs
  | tick =>
    obtain ⟨-, -, rfl⟩ := receiveWork_admitted (w := .timers s.clock.now horizon) h
    exact Or.inl hs

private theorem stopRequested_of_callAndTell {c : Call D} {tell : Reply → D.Host → D.Host}
    (hs : (s.callAndTell horizon c tell).stopRequested = true) :
    s.stopRequested = true ∨ s.AsksToStop (s.callAndTell horizon c tell) := by
  unfold callAndTell callInside at hs ⊢
  cases hr : s.receive horizon c with
  | refused | ignored =>
    rw [hr] at hs
    exact Or.inl hs
  | admitted s' =>
    rw [hr] at hs
    refine (stopRequested_of_receive hr hs).imp_right fun hc => ?_
    -- the host is told of the reply, as by a command of its own
    have htold : Asks s' [] { s' with host := tell .ok s'.host } :=
      @Asks.command _ s' horizon (.act (tell .ok))
    exact asksToStop_after (asksToStop_of_stop (hc ▸ hr)) htold

private theorem stopRequested_of_perform {c : Command D}
    (hs : (s.perform horizon c).1.stopRequested = true) :
    s.stopRequested = true ∨ s.AsksToStop (s.perform horizon c).1 := by
  cases c with
  | act | status | subscribe | panic => exact Or.inl hs
  | advance | unsubscribe =>
    rw [perform] at hs
    split at hs <;> exact Or.inl hs
  | send | start | stop | tick => exact stopRequested_of_callAndTell hs

/-- The wish to stop is there after some code has run if and only if it was there before, or somebody
asked to stop on the way. -/
theorem stopRequested_iff (h : Asks s asked s') :
    s'.stopRequested = true ↔ s.stopRequested = true ∨ s.AsksToStop s' := by
  constructor
  · intro hs
    induction h with
    | rest | count => exact Or.inl hs
    | call h =>
      exact (stopRequested_of_receive h hs).imp_right fun hc => asksToStop_of_stop (hc ▸ h)
    | command => exact stopRequested_of_perform hs
    | trans h h' ih ih' =>
      rcases ih' hs with hs | hasks
      · exact (ih hs).imp_right fun hasks => asksToStop_after hasks h'
      · exact Or.inr (asksToStop_before h hasks)
  · intro hs
    rcases hs with hs | ⟨s₁, s₂, horizon, _, _, -, hstop, hafter⟩
    · exact stopRequested_of_asks h hs
    · exact stopRequested_of_asks hafter ((stop_admitted hstop).2 ▸ rfl)

end Statechart.Shell
