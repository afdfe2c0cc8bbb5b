import Statechart.Proofs.Isolation
import Statechart.Proofs.Journal

/-!
# Where the context comes from

Nothing but an action that assigns changes the context. Where states assign nothing as they are
entered or left (`AssignsInTransitions`), that is up to the transitions taken: the context after a
signal is what the actions of those transitions make of the context before it
(`context_of_processed`), and it stays as it is as long as no signal is processed
(`context_of_unprocessed`).
-/

namespace Statechart

variable {D : Domain}

namespace Action

/-- What an action makes of the context, if its code does not panic. -/
def assigned (signal : Signal D) (context : D.Context) (a : Action D) : D.Context :=
  match a.deed with
  | .assign patches =>
    match patches context signal with
    | .ok ps => D.applyAll ps context
    | .error _ => context
  | .effect _ => context

/-- What actions make of the context, one after another. -/
def assignedAll (signal : Signal D) (actions : List (Action D)) (context : D.Context) : D.Context :=
  actions.foldl (assigned signal) context

variable {signal : Signal D} {context : D.Context}

theorem assigned_of_not_isAssign {a : Action D} (h : a.isAssign = false) :
    a.assigned signal context = context := by
  unfold assigned
  unfold isAssign at h
  split
  · next hdeed => simp [hdeed] at h
  · rfl

theorem assignedAll_of_not_isAssign {actions : List (Action D)}
    (h : ∀ a ∈ actions, a.isAssign = false) : assignedAll signal actions context = context :=
  List.foldlRecOn (motive := (· = context)) actions (assigned signal) rfl
    fun _ hcontext a ha => hcontext ▸ assigned_of_not_isAssign (h a ha)

theorem assignedAll_append (actions actions' : List (Action D)) :
    assignedAll signal (actions ++ actions') context =
      assignedAll signal actions' (assignedAll signal actions context) :=
  List.foldl_append

end Action

/-- Whether states assign nothing as they are entered or left. -/
def Chart.AssignsInTransitions (c : Chart D) : Prop :=
  ∀ n ∈ c.nodes, ∀ a ∈ n.entry ++ n.exit, a.isAssign = false

namespace Machine

variable {c : Chart D} {m m' m₀ : Machine D} {s : D.State} {signal : Signal D} {step : Settled D}
  {p : Progress D} {e : Event D} {steps : List (Settled D)} {l : List D.State}

/-- The actions that a machine runs for the transitions it takes on a signal. -/
def actionsOn (m : Machine D) (signal : Signal D) : List (Action D) :=
  (m.takes signal).flatMap (·.transition.actions)

/-! ## Phases -/

theorem context_of_runAction {a : Action D} (h : m.runAction s signal a = .ok m') :
    m'.context = a.assigned signal m.context := by
  unfold runAction at h
  unfold Action.assigned
  cases hdeed : a.deed with
  | assign patches =>
    rw [hdeed] at h
    dsimp only at h ⊢
    cases hps : patches m.context signal with
    | ok ps =>
      rw [hps] at h
      exact Except.ok.inj h ▸ rfl
    | error message =>
      rw [hps] at h
      exact absurd h (by simp [halt])
  | effect commands =>
    rw [hdeed] at h
    dsimp only at h ⊢
    split at h
    · exact Except.ok.inj h ▸ rfl
    · exact absurd h (by simp [halt])

theorem context_of_runActions : ∀ {actions : List (Action D)} {m : Machine D},
    m.runActions s signal actions = .ok m' →
      m'.context = Action.assignedAll signal actions m.context
  | [], m, h => by
    rw [runActions, List.foldlM_nil, pure_eq_ok] at h
    exact h ▸ rfl
  | a :: actions, m, h => by
    rw [runActions, List.foldlM_cons, bind_eq_ok] at h
    obtain ⟨m₁, h₁, h₂⟩ := h
    rw [context_of_runActions (m := m₁) h₂, context_of_runAction h₁]
    rfl

theorem context_of_runTransitions : ∀ {taken : List (Selected D)} {m : Machine D},
    m.runTransitions signal taken = .ok m' →
      m'.context = Action.assignedAll signal (taken.flatMap (·.transition.actions)) m.context
  | [], m, h => by
    rw [runTransitions, List.foldlM_nil, pure_eq_ok] at h
    exact h ▸ rfl
  | t :: taken, m, h => by
    rw [runTransitions, List.foldlM_cons, bind_eq_ok] at h
    obtain ⟨m₁, h₁, h₂⟩ := h
    rw [context_of_runTransitions (m := m₁) h₂, context_of_runActions h₁, List.flatMap_cons,
      Action.assignedAll_append]

section

variable (hc : c.AssignsInTransitions)

include hc

theorem not_isAssign_of_node {n : Node D} (hn : c.node? s = some n) :
    (∀ a ∈ n.entry, a.isAssign = false) ∧ ∀ a ∈ n.exit, a.isAssign = false := by
  have hall := hc n (c.node?_eq_some.mp hn).1
  exact ⟨fun a ha => hall a (List.mem_append_left _ ha),
    fun a ha => hall a (List.mem_append_right _ ha)⟩

theorem context_of_exitStates : ∀ {l : List D.State} {m : Machine D}, m.chart = c →
    m.exitStates signal l = .ok m' → m'.context = m.context
  | [], m, _, h => by
    rw [exitStates, List.foldlM_nil, pure_eq_ok] at h
    exact h ▸ rfl
  | s :: l, m, hm, h => by
    rw [exitStates, List.foldlM_cons, bind_eq_ok] at h
    obtain ⟨m₁, h₁, h₂⟩ := h
    have hchart := (exitState_keeps h₁).1.chart
    rw [context_of_exitStates (m := m₁) (hchart.trans hm) h₂]
    obtain ⟨n, m₂, hn, hrun, rfl⟩ := exists_of_exitState h₁
    have hexit := (not_isAssign_of_node hc (hm ▸ hn)).2
    exact (context_of_runActions hrun).trans (Action.assignedAll_of_not_isAssign hexit)

theorem context_of_enterState {p p' : Progress D} {now : Duration} (hm : p.machine.chart = c)
    (h : p.enterState signal now s = .ok p') : p'.machine.context = p.machine.context := by
  obtain ⟨n, m₁, p₁, hn, hrun, hlaunch, rfl⟩ := Progress.exists_of_enterState h
  rw [Progress.completeBy_machine]
  have hentry := (not_isAssign_of_node hc (hm ▸ hn)).1
  have hran : m₁.context = p.machine.context :=
    (context_of_runActions hrun).trans (Action.assignedAll_of_not_isAssign hentry)
  rcases Progress.launchOf_cases hlaunch with ⟨-, rfl⟩ | ⟨_, _, _, -, -, -, rfl⟩
  · exact hran
  · exact hran

theorem context_of_enterAll (hm : m.chart = c) (h : m.enterAll signal l = .ok p) :
    p.machine.context = m.context := by
  have hfold : ∀ {l : List D.State} {p p' : Progress D}, p.machine.chart = c →
      l.foldlM (fun p s => p.enterState signal m.shell.clock.now s) p = .ok p' →
        p'.machine.context = p.machine.context := by
    intro l
    induction l with
    | nil =>
      intro p p' _ h
      rw [List.foldlM_nil, pure_eq_ok] at h
      exact h ▸ rfl
    | cons s l ih =>
      intro p p' hp h
      rw [List.foldlM_cons, bind_eq_ok] at h
      obtain ⟨p₁, h₁, h₂⟩ := h
      have hchart := (Progress.enterState_keeps h₁).1.chart
      exact (ih (hchart.trans hp) h₂).trans (context_of_enterState hc hp h₁)
  exact hfold (p := { machine := m }) hm h

end

/-! ## Signals -/

theorem absorb_context (p : Progress D) : (absorb p).context = p.machine.context := by
  have hfold : ∀ (l : List (Launch D)) (m : Machine D),
      (l.foldl handOver m).context = m.context := by
    intro l
    induction l with
    | nil => exact fun m => rfl
    | cons a l ih => exact fun m => ih (m.handOver a)
  unfold absorb
  dsimp only
  split
  · rfl
  · exact hfold _ _

/-- The context after a settled step is what the actions of the transitions taken make of the one
before it. -/
theorem context_of_settles (hc : c.AssignsInTransitions) (hm : m.chart = c)
    (h : m.Settles step p) :
    step.after.context = Action.assignedAll step.signal (m.actionsOn step.signal) m.context := by
  have htakes := takes_of_settles h
  have hbefore := sameStage_of_settles h
  obtain ⟨p', henter, hp⟩ := entering_of_settles h
  rw [(settled_of_settles h).2, absorb_context, hp]
  have hclose : p'.close.machine.context = p'.machine.context := by
    unfold Progress.close
    split <;> rfl
  refine hclose.trans ?_
  unfold actionsOn
  rw [← htakes]
  obtain ⟨-, ⟨hchart, -⟩, hcases⟩ := settles_cases h
  have hbetween : step.between.chart = c := (Settled.chart_between hcases).trans (hchart.trans hm)
  rw [context_of_enterAll hc hbetween henter]
  cases h with
  | initial _ _ _ => rfl
  | @reaction before left between _ _ _ exited _ _ _ _ _ _ _ hleft hran _ _ =>
    have hexit : left.context = before.context :=
      context_of_exitStates hc (m := before.recordHistories exited) (hchart.trans hm) hleft
    rw [context_of_runTransitions hran, hexit, hbefore.context]

/-- A signal that settles no step sets off no transition. -/
theorem takes_of_unsettled (h : m.process signal = .ok p) (hp : p.settled = false) :
    m.takes signal = [] := by
  unfold takes
  rcases process_unsettled h hp with ⟨hnone, -⟩ | ⟨before, hbefore, hselect, -⟩
  · rw [hnone]
  · rw [hbefore]
    dsimp only
    rw [hselect]
    rfl

/-! ## Along a run -/

/-- When a signal is processed and the machine survives it, the context becomes what the actions of
the transitions taken make of it. -/
theorem context_of_processed (hc : c.AssignsInTransitions) (hm : m.chart = c) (h : m.Does e m')
    (he : e.processed = some (m₀, signal)) (hup : m'.status ≠ .faulted) :
    m'.context = Action.assignedAll signal (m₀.actionsOn signal) m.context := by
  have hturns : ∀ {step p later}, m.nextTurn = .process m₀ step.signal later → m₀.Settles step p →
      (absorb p).context = Action.assignedAll step.signal (m₀.actionsOn step.signal) m.context := by
    intro step p later hturn hstep
    have hstage := sameStage_of_process hturn
    have hchart : m₀.chart = c := by rw [(nextTurn_process hturn).2]; exact hm
    rw [← (settled_of_settles hstep).2, context_of_settles hc hchart hstep, hstage.context]
  cases h with
  | call | result | discard | idle | stop | faultStopping | outside => exact absurd he (by simp)
  | pass _ hturn hproc hp =>
    obtain ⟨rfl, rfl⟩ := Prod.mk.inj (Option.some.inj he)
    rw [actionsOn, takes_of_unsettled hproc hp]
    rcases process_cases hproc with ⟨invocations, -, rfl⟩ | ⟨step, hstep, -⟩
    · exact (absorb_context _).trans (sameStage_of_process hturn).context
    · rw [(settled_of_settles hstep).1] at hp
      exact absurd hp (by simp)
  | fault => exact absurd rfl hup
  | turn _ hturn hstep _ _ _ | turnPanicked _ hturn hstep _ _ _ =>
    obtain ⟨rfl, rfl⟩ := Prod.mk.inj (Option.some.inj he)
    exact hturns hturn hstep

theorem context_of_abandons (hc : c.AssignsInTransitions) (hm : m.chart = c)
    (h : m.Abandons l m') : m'.context = m.context := by
  induction h with
  | rest => rfl
  | @next m m₁ m' s n l hn hrun _ ih =>
    have hchart : m₁.chart = c := (runActions_keeps hrun).1.chart.trans hm
    rw [ih hchart]
    have hexit := (not_isAssign_of_node hc (hm ▸ hn)).2
    exact (context_of_runActions hrun).trans (Action.assignedAll_of_not_isAssign hexit)

/-- As long as the machine survives, nothing else touches the context. -/
theorem context_of_unprocessed (hc : c.AssignsInTransitions) (hm : m.chart = c) (h : m.Does e m')
    (he : e.processed = none) (hup : m'.status ≠ .faulted) : m'.context = m.context := by
  cases h with
  | call | result | outside => rfl
  | discard _ _ hturn | idle _ _ hturn =>
    rw [nextTurn_skip hturn]
  | pass | fault | turn | turnPanicked => exact absurd he (by simp)
  | stop _ _ hdown hfin =>
    obtain ⟨left, habandons, rfl⟩ := settled_of_teardown hdown
    rw [finish_eq hdown, Option.some.injEq] at hfin
    subst hfin
    have hleft : left.context = m.context :=
      context_of_abandons hc (m := m.cleared) hm habandons
    unfold farewell
    split <;> exact hleft
  | faultStopping => exact absurd rfl hup

end Machine

end Statechart
