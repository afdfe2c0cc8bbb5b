import Statechart.Proofs.Machine.Invocations
import Statechart.Proofs.Turn

/-!
# What a step launches

The invocations that a step starts are handed over to be carried out when the step is over,
unless it completes the machine (`Settled.launches`). Each of them was started for a state that
the step entered, under an identity that was not drawn before, and is the running one of its
state then. The entry of any other state is as it was, or empty if the step has left the state
(`table_of_settles`).
-/

namespace Statechart

variable {D : Domain}

/-- The invocation whose result a signal brings, and its state. -/
def Signal.result? : Signal D → Option (D.State × InvocationId)
  | .invokeDone s id _ | .invokeError s id _ => some (s, id)
  | _ => none

namespace Settled

/-- The invocations that a step hands over to be carried out, in order. -/
def launches (step : Settled D) : List (Launch D) :=
  match step.between.enterAll step.signal step.entered with
  | .ok p => p.close.launches
  | .error _ => []

theorem launches_eq {step : Settled D} {p : Progress D}
    (h : step.between.enterAll step.signal step.entered = .ok p) :
    step.launches = if p.completed then [] else p.launches := by
  rw [launches, h]
  change p.close.launches = _
  unfold Progress.close
  split <;> rfl

/-- What a settled step makes of the table of invocations. -/
structure Table (step : Settled D) : Prop where
  launched : step.after.launched = step.before.launched ++ step.launches
  drawn : ∀ id, step.before.invocations.supply.Drawn id → step.after.invocations.supply.Drawn id
  new : ∀ a ∈ step.launches, ¬ step.before.invocations.supply.Drawn a.id ∧
    step.after.invocations.supply.Drawn a.id
  distinct : (step.launches.map (·.id)).Nodup
  states : (step.launches.map (·.state)).Sublist step.entered
  declared : step.after.status = .running → ∀ x ∈ step.entered, step.before.chart.Invokes x →
    ∃ a ∈ step.launches, a.state = x
  running : ∀ x, (∃ a ∈ step.launches, a.state = x) →
    ∃ a ∈ step.launches, a.state = x ∧ step.after.invocations.pending? x = some (a.id, false)
  kept : step.after.status = .running → ∀ x, (∀ a ∈ step.launches, a.state ≠ x) →
    step.after.invocations.get? x =
      if x ∈ step.exited then none else step.before.invocations.get? x

end Settled

namespace Machine

variable {m : Machine D} {step : Settled D} {p : Progress D}

/-- What leaving makes of the table. -/
theorem invocations_between (h : m.Settles step p) :
    step.between.invocations.supply = step.before.invocations.supply ∧
      ∀ x, step.between.invocations.get? x =
        if x ∈ step.exited then none else step.before.invocations.get? x := by
  cases h with
  | initial => exact ⟨rfl, fun x => (if_neg List.not_mem_nil).symm⟩
  | @reaction before left between _ _ _ exited _ _ _ _ _ _ _ hleft hbetween _ _ =>
    obtain ⟨hsupply, hget⟩ := get?_exitStates hleft
    have hsame := (runTransitions_work hbetween).2
    exact ⟨hsame ▸ hsupply, fun x => hsame ▸ hget x⟩

/-- A step leaves alone what was launched before. -/
theorem launched_between (h : m.Settles step p) : step.between.launched = step.before.launched := by
  cases h with
  | initial => rfl
  | reaction _ _ _ _ _ hleft hbetween _ _ =>
    exact (keeps_trans (exitStates_keeps hleft).1 (runTransitions_keeps hbetween).1).launched

/-- What the entries of a step start, and what the end of the step makes of it. -/
theorem starts_of_settles (h : m.Settles step p) : ∃ new p',
    Progress.Starts step.entered { machine := step.between } new p' ∧
      step.launches = (if p.completed then [] else new) ∧
      p.machine.launched = step.before.launched ∧
      p.machine.invocations.supply = step.before.invocations.supply.skip new.length ∧
      (p.completed = false → p.launches = new ∧ p.machine.invocations = p'.machine.invocations) := by
  obtain ⟨p', henter, hp⟩ := entering_of_settles h
  obtain ⟨new, hstarts⟩ : ∃ new, Progress.Starts step.entered { machine := step.between } new p' :=
    Progress.starts_foldlM_enterState henter
  have hlaunched := (enterAll_keeps henter).1.launched.trans (launched_between h)
  have hsupply : p'.machine.invocations.supply =
      step.before.invocations.supply.skip new.length :=
    (invocations_between h).1 ▸ hstarts.supply
  have hnew : p'.launches = new := hstarts.launches
  have hlaunches := Settled.launches_eq henter
  refine ⟨new, p', hstarts, ?_⟩
  -- a machine that is done hands no task over, though their identities have been drawn
  cases hc : p'.completed with
  | true =>
    have hclose : p'.close =
        { p' with machine := p'.machine.cancelAll, raised := [], launches := [] } := if_pos hc
    rw [hclose] at hp
    have hcompleted : p.completed = true := by rw [hp]; exact hc
    rw [hc, ← hcompleted] at hlaunches
    refine ⟨by rw [hlaunches, hcompleted]; rfl, by rw [hp]; exact hlaunched,
      by rw [hp]; exact hsupply, by simp [hcompleted]⟩
  | false =>
    have hclose : p'.close = p' := if_neg (by simp [hc])
    rw [hclose] at hp
    have hcompleted : p.completed = false := by rw [hp]; exact hc
    rw [hc, hnew, ← hcompleted] at hlaunches
    exact ⟨hlaunches, by rw [hp]; exact hlaunched, by rw [hp]; exact hsupply,
      fun _ => ⟨by rw [hp]; exact hnew, by rw [hp]; rfl⟩⟩

theorem table_of_completed (hm : m.status = .running) (h : m.Settles step p)
    (hc : p.completed = true) : step.Table := by
  have hstatus := status_of_settles hm h
  obtain ⟨-, hafter⟩ := settled_of_settles h
  obtain ⟨new, p', -, hlaunches, hlaunched, hsupply, -⟩ := starts_of_settles h
  rw [hc, if_pos rfl] at hstatus hlaunches
  have hsame : step.after.launched = p.machine.launched := by rw [hafter, absorb, hc, if_pos rfl]
  refine ⟨by rw [hsame, hlaunched, hlaunches, List.append_nil], ?_, by simp [hlaunches],
    by simp [hlaunches], by simp [hlaunches], by simp [hstatus], by simp [hlaunches],
    by simp [hstatus]⟩
  rw [hafter, (absorb_invocations p).1, hsupply]
  exact fun _ hid => Supply.drawn_skip.mpr (Or.inl hid)

theorem table_of_continued (h : m.Settles step p) (hc : p.completed = false) : step.Table := by
  obtain ⟨-, hafter⟩ := settled_of_settles h
  obtain ⟨new, p', hstarts, hlaunches, hlaunched, hsupply, hend⟩ := starts_of_settles h
  obtain ⟨hlist, hmachine⟩ := hend hc
  rw [hc, if_neg (by simp)] at hlaunches
  obtain ⟨habsorbed, hpending, hkept, hhanded⟩ := absorb_invocations p
  rw [← hafter] at habsorbed hpending hkept hhanded
  obtain ⟨hbefore, hget⟩ := invocations_between h
  have hchart := Settled.chart_between (settles_cases h).2.2
  have hskip : step.after.invocations.supply =
      step.before.invocations.supply.skip new.length := habsorbed.trans hsupply
  have hids : new.map (·.id) = step.before.invocations.supply.upcoming new.length := by
    rw [← hbefore]
    exact hstarts.ids
  rw [← hlaunches] at hstarts hids hskip
  constructor
  case launched => rw [hhanded hc, hlist, hlaunches, hlaunched]
  case drawn =>
    rw [hskip]
    exact fun _ hid => Supply.drawn_skip.mpr (Or.inl hid)
  case new =>
    intro a ha
    have hid := List.mem_map_of_mem (f := (·.id)) ha
    rw [hids] at hid
    rw [hskip]
    exact ⟨Supply.not_drawn_of_mem_upcoming hid, Supply.drawn_skip.mpr (Or.inr hid)⟩
  case distinct =>
    rw [hids]
    exact Supply.nodup_upcoming ..
  case states => exact hstarts.states
  case declared => exact fun _ x hx hinvokes => hstarts.declared x hx (hchart ▸ hinvokes)
  case running =>
    intro x hx
    obtain ⟨a, ha, hax, hrunning⟩ := hstarts.running x hx
    refine ⟨a, ha, hax, ?_⟩
    rw [hpending, Invocations.pending?, hmachine, hrunning]
    rfl
  case kept =>
    intro _ x hx
    rw [hkept x (by rwa [hlist, ← hlaunches]), hmachine, hstarts.kept x hx]
    exact hget x

theorem table_of_settles (hm : m.status = .running) (h : m.Settles step p) : step.Table := by
  cases hc : p.completed with
  | true => exact table_of_completed hm h hc
  | false => exact table_of_continued h hc

/-! ## Taking in a result -/

/-- The result of an invocation gets as far as the selection of transitions if the invocation is
running and the result was accepted; then the invocation is retired. -/
theorem reacting?_of_result {signal : Signal D} {s : D.State} {id : InvocationId}
    (hresult : signal.result? = some (s, id)) : m.reacting? signal =
      if m.invocations.pending? s = some (id, true) then
        some { m with invocations := m.invocations.remove s }
      else none := by
  have hconsume : m.reacting? signal = (m.invocations.consume? s id).map
      fun invocations => { m with invocations } := by
    cases signal with
    | invokeDone | invokeError =>
      obtain ⟨rfl, rfl⟩ := Prod.mk.inj (Option.some.inj hresult)
      rfl
    | _ => exact absurd hresult (by simp [Signal.result?])
  rw [hconsume, Invocations.consume?_eq]
  split <;> rfl

theorem reacting?_of_no_result {signal : Signal D} {before : Machine D}
    (hresult : signal.result? = none) (h : m.reacting? signal = some before) : before = m := by
  unfold reacting? at h
  cases signal with
  | start | stop => exact absurd h (by simp)
  | invokeDone | invokeError => exact absurd hresult (by simp [Signal.result?])
  | event | timer | done => exact (Option.some.inj h).symm

/-- A signal that settles nothing is passed over at once, or sets off no transition. -/
theorem process_unsettled {signal : Signal D} (h : m.process signal = .ok p)
    (hp : p.settled = false) : (m.reacting? signal = none ∧ p = { machine := m }) ∨
      ∃ before, m.reacting? signal = some before ∧ before.select signal = .ok [] ∧
        p = { machine := before } := by
  have hsettles : ¬ ∃ step, m.Settles step p ∧ step.signal = signal := by
    rintro ⟨step, hstep, -⟩
    exact absurd (settled_of_settles hstep).1 (by simp [hp])
  by_cases hs : signal = .start
  · subst hs
    exact Or.inl ⟨rfl, (settles_of_start h).resolve_right hsettles⟩
  · rw [process_eq hs] at h
    cases hreact : m.reacting? signal with
    | none =>
      rw [hreact] at h
      exact Or.inl ⟨rfl, (Except.ok.inj h).symm⟩
    | some before =>
      rw [hreact] at h
      exact Or.inr ⟨before, rfl, (settles_of_react hreact h).resolve_right hsettles⟩

end Machine

end Statechart
