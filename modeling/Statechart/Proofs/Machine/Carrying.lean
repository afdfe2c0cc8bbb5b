import Statechart.Proofs.Machine.Assigning
import Statechart.Proofs.Machine.Calm

/-!
# What the actions of transitions do, and nothing else

On a mild chart (`Chart.Mild`) nothing is run as a state other than the root is entered or left,
and the actions of transitions do no more than assign to the context and change the host. Running
such actions always succeeds, and what it makes of a machine can be written down (`Machine.carry`).

So whatever becomes of a signal, whether it is processed or a defect comes up as states are entered,
the context and the shell of the machine are those that the actions of the transitions taken make of
them (`process_underway`). The clock and the queue stay as they were.
-/

namespace Statechart

variable {D : Domain}

/-- Whether a command does no more than change the host. -/
def Command.Mild : Command D → Prop
  | .act _ => True
  | _ => False

/-- What a command makes of the host, if it does no more than change it. -/
def Command.changed (host : D.Host) : Command D → D.Host
  | .act change => change host
  | _ => host

namespace Action

/-- Whether an action never panics, and does no more than assign to the context or change the
host. -/
def Mild (a : Action D) : Prop :=
  match a.deed with
  | .assign patches => ∀ context signal, ∃ ps, patches context signal = .ok ps
  | .effect commands => ∀ context signal host, ∀ c ∈ commands context signal host, c.Mild

/-- What an action makes of the host. -/
def changed (signal : Signal D) (context : D.Context) (host : D.Host) (a : Action D) : D.Host :=
  match a.deed with
  | .assign _ => host
  | .effect commands => (commands context signal host).foldl Command.changed host

/-- What an action makes of the context and the host. -/
def carried (signal : Signal D) (x : D.Context × D.Host) (a : Action D) : D.Context × D.Host :=
  (a.assigned signal x.1, a.changed signal x.1 x.2)

/-- What actions make of them, one after another. -/
def carriedAll (signal : Signal D) (actions : List (Action D)) (x : D.Context × D.Host) :
    D.Context × D.Host :=
  actions.foldl (carried signal) x

theorem mild_assign {name : String} {patch : D.Context → Signal D → D.Patch} :
    (assign (D := D) name patch).Mild := fun _ _ => ⟨_, rfl⟩

theorem mild_assignMany {name : String} {patches : D.Context → Signal D → List D.Patch} :
    (assignMany (D := D) name patches).Mild := fun _ _ => ⟨_, rfl⟩

theorem mild_effect {name : String} {change : D.Context → Signal D → D.Host → D.Host} :
    (effect (D := D) name change).Mild := by
  intro context signal _ c hc
  rw [List.mem_singleton.mp hc]
  trivial

variable {signal : Signal D} {x : D.Context × D.Host}

theorem carriedAll_append (actions actions' : List (Action D)) :
    carriedAll signal (actions ++ actions') x =
      carriedAll signal actions' (carriedAll signal actions x) :=
  List.foldl_append

theorem fst_carriedAll : ∀ (actions : List (Action D)) (x : D.Context × D.Host),
    (carriedAll signal actions x).1 = assignedAll signal actions x.1
  | [], _ => rfl
  | a :: actions, x => fst_carriedAll actions (a.carried signal x)

end Action

/-- A chart whose states run nothing as they are entered or left, but for what the root runs as it
is left, and whose transitions have mild actions. -/
structure Chart.Mild (c : Chart D) : Prop where
  entry : ∀ n ∈ c.nodes, n.entry = []
  exit : ∀ n ∈ c.nodes, n.id ≠ c.root → n.exit = []
  transition : ∀ n ∈ c.nodes, ∀ tr ∈ n.transitions, ∀ a ∈ tr.actions, a.Mild

namespace Shell

theorem performAll_mild {horizon : Nat} : ∀ {cs : List (Command D)} {s : Shell D},
    (∀ c ∈ cs, c.Mild) →
      s.performAll horizon cs = ({ s with host := cs.foldl Command.changed s.host }, none)
  | [], _, _ => rfl
  | c :: cs, s, h => by
    have hc := h c (List.mem_cons_self ..)
    cases c with
    | act change =>
      exact performAll_mild (s := { s with host := change s.host })
        fun c hc => h c (List.mem_cons_of_mem _ hc)
    | _ => exact hc.elim

end Shell

open Attempt

namespace Machine

variable {c : Chart D} {m m' m₁ : Machine D} {s : D.State} {signal : Signal D}
  {step : Settled D} {p : Progress D} {taken : List (Selected D)} {l : List D.State}

/-- The machine with the context and the host that actions make of its own. -/
def carry (m : Machine D) (signal : Signal D) (actions : List (Action D)) : Machine D :=
  let x := Action.carriedAll signal actions (m.context, m.shell.host)
  { m with context := x.1, shell := { m.shell with host := x.2 } }

/-! ## Actions -/

theorem runAction_mild {a : Action D} (h : a.Mild) :
    m.runAction s signal a = .ok (m.carry signal [a]) := by
  unfold Action.Mild at h
  unfold runAction carry
  dsimp only [Action.carriedAll, List.foldl, Action.carried, Action.assigned, Action.changed]
  cases hdeed : a.deed with
  | assign patches =>
    rw [hdeed] at h
    obtain ⟨ps, hps⟩ := h m.context signal
    simp only [hps]
  | effect commands =>
    rw [hdeed] at h
    simp only [Shell.performAll_mild (h m.context signal m.shell.host)]

theorem runActions_mild : ∀ {actions : List (Action D)} {m : Machine D}, (∀ a ∈ actions, a.Mild) →
    m.runActions s signal actions = .ok (m.carry signal actions)
  | [], _, _ => rfl
  | a :: actions, m, h => by
    rw [runActions, List.foldlM_cons]
    refine bind_eq_ok.mpr ⟨_, runAction_mild (h a (List.mem_cons_self ..)), ?_⟩
    exact runActions_mild (m := m.carry signal [a]) fun a ha => h a (List.mem_cons_of_mem _ ha)

theorem carry_append (actions actions' : List (Action D)) :
    m.carry signal (actions ++ actions') = (m.carry signal actions).carry signal actions' := by
  simp only [carry, Action.carriedAll_append]

theorem runTransitions_mild : ∀ {taken : List (Selected D)} {m : Machine D},
    (∀ t ∈ taken, ∀ a ∈ t.transition.actions, a.Mild) →
      m.runTransitions signal taken = .ok (m.carry signal (taken.flatMap (·.transition.actions)))
  | [], _, _ => rfl
  | t :: taken, m, h => by
    rw [runTransitions, List.foldlM_cons, List.flatMap_cons, carry_append]
    exact bind_eq_ok.mpr ⟨_, runActions_mild (h t (List.mem_cons_self ..)),
      runTransitions_mild fun u hu => h u (List.mem_cons_of_mem _ hu)⟩

/-! ## Phases -/

/-- Whether a machine has the context and the shell of another. -/
def SameWorld (m m' : Machine D) : Prop := m'.context = m.context ∧ m'.shell = m.shell

theorem sameWorld_trans (h : m.SameWorld m') (h' : m'.SameWorld m₁) : m.SameWorld m₁ :=
  ⟨h'.1.trans h.1, h'.2.trans h.2⟩

/-- Whether something launched is an invocation of the chart, started in a context. -/
def Started (c : Chart D) (context : D.Context) (l : Launch D) : Prop :=
  ∃ n ∈ c.nodes, ∃ invocation, n.invocation = some invocation ∧
    invocation.start context = .ok l.operation

/-- What has become of a machine on the way through a step: it has its context and its shell, and
has launched invocations of the chart. -/
structure Underway (c : Chart D) (m : Machine D) (p : Progress D) : Prop where
  world : m.SameWorld p.machine
  chart : p.machine.chart = c
  started : ∀ l ∈ p.launches, Started c m.context l

/-- Launching an invocation only notes it. -/
theorem launch_ends {invocation : Invocation D} : (m.launch s invocation).Ends
    (fun x => (m.SameWorld x.1 ∧ x.1.chart = m.chart) ∧
      invocation.start m.context = .ok x.2.operation)
    (fun m' _ => m.SameWorld m') True := by
  unfold launch
  split
  · exact ends_halt ⟨rfl, rfl⟩
  · split
    · exact ends_halt ⟨rfl, rfl⟩
    · next hstart => exact ends_ok ⟨⟨⟨rfl, rfl⟩, rfl⟩, hstart⟩

theorem launchOf_ends {n : Node D} (hp : Underway c m p) (hn : n ∈ c.nodes) :
    (p.launchOf n).Ends (Underway c m) (fun m' _ => m.SameWorld m') True := by
  unfold Progress.launchOf
  split
  · exact ends_ok hp
  · next invocation hinvocation =>
    refine ends_bind (ends_mono launch_ends (fun _ h => h)
      (fun _ _ h => sameWorld_trans hp.world h) id) fun x hx => ends_ok ?_
    refine ⟨sameWorld_trans hp.world hx.1.1, hx.1.2.trans hp.chart, fun l hl => ?_⟩
    rcases List.mem_append.mp hl with hl | hl
    · exact hp.started l hl
    · obtain rfl := List.mem_singleton.mp hl
      exact ⟨n, hn, invocation, hinvocation, hp.world.1 ▸ hx.2⟩

/-- The root is never left by a transition. -/
theorem root_not_mem_leaving : m.chart.root ∉ m.leaving taken := by
  rw [mem_leaving]
  rintro ⟨-, t, -, d, -, hroot⟩
  exact Chart.not_isDescendant_root hroot

theorem sameWorld_carry {actions : List (Action D)} (h : m.SameWorld m') :
    (m.carry signal actions).SameWorld (m'.carry signal actions) := by
  unfold SameWorld carry
  rw [h.1, h.2]
  exact ⟨rfl, rfl⟩

theorem underway_of_sameWorld (h : m.SameWorld m') (hp : Underway c m' p) : Underway c m p :=
  ⟨sameWorld_trans h hp.world, hp.chart, h.1 ▸ hp.started⟩

section

variable (hc : c.Mild)

include hc

/-- Leaving states other than the root touches neither the context nor the shell. -/
theorem sameWorld_of_exitStates : ∀ {l : List D.State} {m : Machine D}, m.chart = c →
    c.root ∉ l → m.exitStates signal l = .ok m' → m.SameWorld m'
  | [], m, _, _, h => by
    rw [exitStates, List.foldlM_nil, pure_eq_ok] at h
    exact h ▸ ⟨rfl, rfl⟩
  | s :: l, m, hm, hl, h => by
    rw [exitStates, List.foldlM_cons, bind_eq_ok] at h
    obtain ⟨m₁, h₁, h₂⟩ := h
    rw [List.mem_cons, not_or] at hl
    have hrest := sameWorld_of_exitStates (m := m₁) ((exitState_keeps h₁).1.chart.trans hm) hl.2 h₂
    obtain ⟨n, m₂, hn, hrun, rfl⟩ := exists_of_exitState h₁
    obtain ⟨hmem, hid⟩ := c.node?_eq_some.mp (hm ▸ hn)
    rw [hc.exit n hmem (hid ▸ Ne.symm hl.1)] at hrun
    obtain rfl := pure_eq_ok.mp hrun
    exact hrest

/-- Nor does entering a state, also if a defect gets in its way. -/
theorem enterState_ends {now : Duration} (hp : Underway c m p) : (p.enterState signal now s).Ends
    (Underway c m) (fun m' _ => m.SameWorld m') True := by
  unfold Progress.enterState
  dsimp only
  refine ends_bind (ends_mono (ends_self lookup_ends) (fun _ h => h) (fun m' _ h => h ▸ hp.world)
    False.elim) fun n hn => ?_
  have hmem := (c.node?_eq_some.mp (hp.chart ▸ lookup_eq_ok hn)).1
  rw [hc.entry n hmem]
  -- running no actions leaves the machine as it is
  let m' := { p.machine with configuration := p.machine.configuration.insert s }
  change Attempt.Ends (Progress.launchOf { p with machine := m'.armTimers now n } n >>= fun p =>
    pure (p.completeBy n)) _ _ _
  refine ends_bind (launchOf_ends ⟨hp.world, hp.chart, hp.started⟩ hmem) fun p₁ hp₁ => ends_ok ?_
  unfold Progress.completeBy
  split
  · exact ⟨hp₁.world, hp₁.chart, hp₁.started⟩
  · exact hp₁

/-- So it is with all that is entered in a step. -/
theorem settleEntry_underway {exited entered : List D.State} (hm : m.chart = c) :
    (m.settleEntry signal exited entered).Ends (Underway c m) (fun m' _ => m.SameWorld m')
      True := by
  have hall : (m.enterAll signal entered).Ends (Underway c m) (fun m' _ => m.SameWorld m') True :=
    ends_foldlM ⟨⟨rfl, rfl⟩, hm, fun l hl => absurd hl List.not_mem_nil⟩
      fun p s _ hp => enterState_ends hc hp
  have henter : (m.enterStates signal entered).Ends (Underway c m)
      (fun m' _ => m.SameWorld m') True := by
    refine ends_bind hall fun p hp => ends_ok ?_
    unfold Progress.close
    split
    · exact ⟨hp.world, hp.chart, fun l hl => absurd hl List.not_mem_nil⟩
    · exact hp
  exact ends_bind henter fun p hp => ends_ok ⟨hp.world, hp.chart, hp.started⟩

/-! ## Signals -/

theorem mild_of_declared (hdecl : ∀ t ∈ taken, Declared c t) :
    ∀ t ∈ taken, ∀ a ∈ t.transition.actions, a.Mild := by
  intro t ht
  obtain ⟨n, hn, htr⟩ := hdecl t ht
  exact hc.transition n (c.node?_eq_some.mp hn).1 _ htr

/-- By the time that states are entered in a settled step, the actions of the transitions taken have
been run, and nothing else. -/
theorem sameWorld_between (hm : m.chart = c) (h : m.Settles step p) :
    (m.carry step.signal (m.actionsOn step.signal)).SameWorld step.between := by
  have htakes := takes_of_settles h
  cases h with
  | initial => exact ⟨rfl, rfl⟩
  | @reaction before left between signal selected taken _ _ _ hreact hselect _ htaken hexited hleft
      hbetween _ _ =>
    obtain ⟨invocations, -, rfl⟩ := exists_of_reacting? hreact
    have hdecl : ∀ t ∈ taken, Declared c t := by
      rw [← htaken]
      exact fun t ht => hm ▸ (mem_select hselect (mem_withoutConflicts ht)).1
    have hworld : m.SameWorld left := by
      refine sameWorld_of_exitStates hc (m := Machine.recordHistories { m with invocations } _) hm ?_
        hleft
      exact hexited ▸ hm ▸ root_not_mem_leaving (m := { m with invocations })
    rw [runTransitions_mild (mild_of_declared hc hdecl)] at hbetween
    obtain rfl := Except.ok.inj hbetween
    rw [actionsOn, ← htakes]
    exact sameWorld_carry hworld

variable (hcalm : c.Calm) (hm : Clean c m)

include hcalm hm

theorem take_underway (hdecl : ∀ t ∈ taken, Declared c t) : (m.take signal taken).Ends
    (Underway c (m.carry signal (taken.flatMap (·.transition.actions))))
    (fun m' _ => (m.carry signal (taken.flatMap (·.transition.actions))).SameWorld m') True := by
  let exited := m.leaving taken
  have hactive : ∀ s ∈ exited, c.contains s := fun s hs => hm.contains s (mem_leaving.mp hs).1
  have hexit : ((m.recordHistories exited).exitStates signal exited).Ends
      (fun left => m.SameWorld left ∧ left.chart = c)
      (fun m' _ => (m.carry signal (taken.flatMap (·.transition.actions))).SameWorld m') True := by
    refine ⟨fun h => ⟨?_, (exitStates_keeps h).1.chart.trans hm.chart⟩, fun h => ?_,
      fun _ => trivial⟩
    · exact sameWorld_of_exitStates hc (m := m.recordHistories exited) hm.chart
        (hm.chart ▸ root_not_mem_leaving) h
    · exact absurd h (exitStates_calm (m := m.recordHistories exited) hcalm hm.chart hactive _ _)
  unfold take
  refine ends_bind hexit fun left hleft => ?_
  rw [runTransitions_mild (mild_of_declared hc hdecl)]
  have hworld : (m.carry signal (taken.flatMap (·.transition.actions))).SameWorld
      (left.carry signal (taken.flatMap (·.transition.actions))) := sameWorld_carry hleft.1
  refine ends_bind (ends_ok (a := left.carry signal (taken.flatMap (·.transition.actions))) rfl) ?_
  rintro between rfl
  refine ends_bind (ends_orEndless fun _ _ => trivial) fun entered _ => ?_
  exact ends_mono (settleEntry_underway hc hleft.2) (fun _ h => underway_of_sameWorld hworld h)
    (fun _ _ h => sameWorld_trans hworld h) id

/-- Whatever becomes of a signal, the context and the shell are those that the actions of the
transitions taken make of them. -/
theorem process_underway : (m.process signal).Ends
    (Underway c (m.carry signal (m.actionsOn signal)))
    (fun m' _ => (m.carry signal (m.actionsOn signal)).SameWorld m') True := by
  have hrest : ∀ {before : Machine D}, m.SameWorld before → before.chart = c →
      Underway c m { machine := before } := fun hworld hchart =>
    ⟨hworld, hchart, fun l hl => absurd hl List.not_mem_nil⟩
  by_cases hs : signal = .start
  · subst hs
    unfold process
    dsimp only
    split
    · unfold enterInitial
      exact ends_bind (ends_orEndless fun _ _ => trivial) fun set _ =>
        settleEntry_underway hc hm.chart
    · exact ends_ok (hrest ⟨rfl, rfl⟩ hm.chart)
  · rw [process_eq hs, actionsOn]
    cases hbefore : m.reacting? signal with
    | none =>
      have htakes : m.takes signal = [] := by simp only [takes, hbefore]
      rw [htakes]
      exact ends_ok (hrest ⟨rfl, rfl⟩ hm.chart)
    | some before =>
      obtain ⟨invocations, -, rfl⟩ := exists_of_reacting? hbefore
      -- a result is taken off the table first, which leaves the world as it is
      have hclean : Clean c { m with invocations } := ⟨hm.chart, hm.contains, hm.plain, hm.history⟩
      have hworld : (m.carry signal (m.actionsOn signal)).SameWorld
          (({ m with invocations } : Machine D).carry signal (m.actionsOn signal)) := ⟨rfl, rfl⟩
      rw [actionsOn] at hworld
      unfold react
      refine ends_bind ⟨fun h => h, fun h => absurd h (select_calm hcalm hclean _ _),
        fun _ => trivial⟩ fun selected hselect => ?_
      have htakes : m.takes signal =
          ({ m with invocations } : Machine D).withoutConflicts selected := by
        simp only [takes, hbefore, hselect]
      rw [htakes] at hworld ⊢
      split
      · exact ends_ok (hrest ⟨rfl, rfl⟩ hm.chart)
      · refine ends_mono (take_underway hc hcalm hclean fun t ht => ?_)
          (fun _ h => underway_of_sameWorld hworld h) (fun _ _ h => sameWorld_trans hworld h) id
        exact hm.chart ▸ (mem_select hselect (mem_withoutConflicts ht)).1

/-- At every moment the context becomes what the actions of the transitions taken on the signal that
is processed make of it, also if a defect comes up then. -/
theorem context_of_does {e : Event D} (hassign : c.AssignsInTransitions) (h : m.Does e m') :
    m'.context = e.processed.elim m.context fun x =>
      Action.assignedAll x.2 (x.1.actionsOn x.2) m.context := by
  have hup : m'.status ≠ .faulted → m'.context = e.processed.elim m.context fun x =>
      Action.assignedAll x.2 (x.1.actionsOn x.2) m.context := by
    intro hup
    cases he : e.processed with
    | none => exact context_of_unprocessed hassign hm.chart h he hup
    | some x => exact context_of_processed hassign hm.chart h he hup
  -- telling the listeners does not fault a machine
  have hturns : ∀ {step m₀ later p}, m.nextTurn = .process m₀ step.signal later →
      m₀.Settles step p → (absorb p).notify.machine.status ≠ .faulted := by
    intro step m₀ later p hturn hstep hfault
    have hlive := (effects_of_settles (turn_passes hturn).2.1 hstep).status
    rw [(settled_of_settles hstep).2] at hlive
    rw [notify_status (by rcases hlive with hs | hs <;> simp [hs])] at hfault
    rcases hlive with hs | hs <;> exact absurd (hs.symm.trans hfault) (by simp)
  cases h with
  | call | result | outside => rfl
  | discard _ _ hturn | idle _ _ hturn => rw [nextTurn_skip hturn]; rfl
  | pass _ hturn hproc hp =>
    refine hup fun hfault => ?_
    rcases process_cases hproc with ⟨invocations, -, rfl⟩ | ⟨step, hstep, -⟩
    · rw [absorb_same] at hfault
      exact absurd ((turn_passes hturn).2.1.symm.trans hfault) (by simp)
    · rw [(settled_of_settles hstep).1] at hp
      exact absurd hp (by simp)
  | @fault m₀ m₁ signal _ _ _ hturn hproc =>
    have hworld := (process_underway hc hcalm (clean_of_turn hm hturn)).defect hproc
    change m₁.context = Action.assignedAll signal (m₀.actionsOn signal) m.context
    rw [hworld.1, ← (sameStage_of_process hturn).context]
    exact Action.fst_carriedAll ..
  | turn _ hturn hstep | turnPanicked _ hturn hstep => exact hup (hturns hturn hstep)
  | stop _ _ hdown hfin =>
    refine hup fun hfault => ?_
    obtain rfl := Option.some.inj ((finish_eq hdown).symm.trans hfin)
    rw [(farewell_frame (by simp [status])).1] at hfault
    exact absurd hfault (by simp [status])
  | faultStopping _ _ hdown =>
    exact absurd hdown (teardown_calm (m := { m with shell := { m.shell with queue := [] } }) hcalm
      hm.chart hm.contains _ _)

end

end Machine

end Statechart
