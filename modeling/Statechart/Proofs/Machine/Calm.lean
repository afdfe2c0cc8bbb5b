import Statechart.Proofs.Isolation
import Statechart.Proofs.Clean

/-!
# Code that never panics

If the guards and the actions supplied with a chart never panic (`Chart.Calm`), hardly anything can
go wrong with a machine in states of the chart. Selecting transitions, leaving states and running the
actions of transitions always succeed. What is left is the invocations: a defect comes up only as
the machine enters a state that invokes something (`enters_of_halt`), and stopping never hits one
(`teardown_calm`).
-/

namespace Statechart

variable {D : Domain}

/-! ## Code -/

/-- Whether a condition always has an answer. -/
def Guard.Calm (g : Guard D) : Prop :=
  ∀ context signal, ∃ answer, g.holds context signal = .ok answer

/-- Whether a command never panics. -/
def Command.Calm (c : Command D) : Prop :=
  ∀ (s : Shell D) (horizon : Nat), (s.perform horizon c).2 = none

/-- Whether an action never panics. -/
def Action.Calm (a : Action D) : Prop :=
  match a.deed with
  | .assign patches => ∀ context signal, ∃ ps, patches context signal = .ok ps
  | .effect commands => ∀ context signal host, ∀ c ∈ commands context signal host, c.Calm

/-- Whether the guards and the actions of a chart never panic. -/
structure Chart.Calm (c : Chart D) : Prop where
  guard : ∀ n ∈ c.nodes, ∀ tr ∈ n.transitions, ∀ g, tr.guard = some g → g.Calm
  state : ∀ n ∈ c.nodes, ∀ a ∈ n.entry ++ n.exit, a.Calm
  transition : ∀ n ∈ c.nodes, ∀ tr ∈ n.transitions, ∀ a ∈ tr.actions, a.Calm

theorem Guard.calm_ofContext {name : String} {holds : D.Context → Bool} :
    (Guard.ofContext (D := D) name fun context => .ok (holds context)).Calm :=
  fun context _ => ⟨holds context, rfl⟩

theorem Guard.calm_ofEvent {name : String} {holds : D.Event → Bool} :
    (Guard.ofEvent (D := D) name fun e => .ok (holds e)).Calm := by
  intro context signal
  unfold Guard.ofEvent
  dsimp only
  split <;> exact ⟨_, rfl⟩

namespace Action

theorem calm_assign {name : String} {patch : D.Context → Signal D → D.Patch} :
    (assign (D := D) name patch).Calm := fun _ _ => ⟨_, rfl⟩

theorem calm_assignMany {name : String} {patches : D.Context → Signal D → List D.Patch} :
    (assignMany (D := D) name patches).Calm := fun _ _ => ⟨_, rfl⟩

theorem calm_effect {name : String} {change : D.Context → Signal D → D.Host → D.Host} :
    (effect (D := D) name change).Calm := by
  intro context signal _ c hc s horizon
  rw [List.mem_singleton.mp hc]
  rfl

end Action

/-! ## Attempts -/

/-- Whether an attempt does not halt on a defect. -/
def Attempt.Calm {α : Type} (x : Attempt D α) : Prop := ∀ m d, x ≠ .error (.defect m d)

namespace Attempt

variable {α β : Type} {x : Attempt D α} {f : α → Attempt D β} {e : Halt D}

theorem calm_iff : x.Calm ↔ x.Ends (fun _ => True) (fun _ _ => False) True :=
  ⟨fun h => ⟨fun _ => trivial, fun he => h _ _ he, fun _ => trivial⟩, fun h _ _ he => h.defect he⟩

theorem calm_ok (a : α) : Calm (D := D) (.ok a) := fun _ _ h => absurd h (by simp)

theorem calm_orEndless (o : Option α) : Calm (D := D) (Machine.orEndless o) := by
  intro m d h
  cases o <;> simp [Machine.orEndless] at h

theorem exists_ok {good : α → Prop} {bad : Machine D → Defect D.State → Prop}
    (h : x.Ends good bad False) (hcalm : x.Calm) : ∃ a, x = .ok a := by
  cases hx : x with
  | ok a => exact ⟨a, rfl⟩
  | error halt =>
    cases halt with
    | defect m d => exact absurd hx (hcalm m d)
    | endless => exact (h.endless hx).elim

/-- A computation in two parts halts in one of them. -/
theorem bind_eq_error : x >>= f = .error e ↔ x = .error e ∨ ∃ a, x = .ok a ∧ f a = .error e := by
  cases x with
  | error e => simp [bind, Except.bind]
  | ok a => simp [bind, Except.bind]

theorem calm_bind (hx : x.Calm) (hf : ∀ a, x = .ok a → (f a).Calm) : Calm (x >>= f) := by
  intro m d h
  rcases bind_eq_error.mp h with h | ⟨a, ha, h⟩
  · exact hx m d h
  · exact hf a ha m d h

/-- A loop halts in one of its turns, and until then what each turn keeps is kept. -/
theorem exists_of_foldlM_error {I : β → Prop} {f : β → α → Attempt D β} :
    ∀ {l : List α} {b : β}, I b → (∀ b, ∀ a ∈ l, ∀ b', I b → f b a = .ok b' → I b') →
      l.foldlM f b = .error e → ∃ b, ∃ a ∈ l, I b ∧ f b a = .error e
  | [], _, _, _, h => absurd h (by simp [pure, Except.pure])
  | a :: l, b, hb, hkeep, h => by
    rw [List.foldlM_cons] at h
    rcases bind_eq_error.mp h with h | ⟨b', hb', h⟩
    · exact ⟨b, a, List.mem_cons_self .., hb, h⟩
    · obtain ⟨b, x, hx, hI, he⟩ := exists_of_foldlM_error
        (hkeep b a (List.mem_cons_self ..) b' hb hb')
        (fun b x hx => hkeep b x (List.mem_cons_of_mem _ hx)) h
      exact ⟨b, x, List.mem_cons_of_mem _ hx, hI, he⟩

theorem calm_foldlM {I : β → Prop} {f : β → α → Attempt D β} {l : List α} {b : β} (hb : I b)
    (hkeep : ∀ b, ∀ a ∈ l, ∀ b', I b → f b a = .ok b' → I b')
    (hf : ∀ b, ∀ a ∈ l, I b → (f b a).Calm) : Calm (l.foldlM f b) := by
  intro m d h
  obtain ⟨b', a, ha, hI, he⟩ := exists_of_foldlM_error hb hkeep h
  exact hf b' a ha hI m d he

end Attempt

open Attempt

namespace Machine

variable {c : Chart D} {m m' m₁ : Machine D} {s : D.State} {signal : Signal D} {d : Defect D.State}
  {t : Selected D} {taken : List (Selected D)} {l : List D.State}

/-! ## Actions -/

theorem performAll_calm {horizon : Nat} : ∀ {cs : List (Command D)} {s : Shell D},
    (∀ c ∈ cs, c.Calm) → (s.performAll horizon cs).2 = none
  | [], _, _ => rfl
  | c :: cs, s, h => by
    have hc := h c (List.mem_cons_self ..) s horizon
    unfold Shell.performAll
    split
    · exact performAll_calm fun c hc => h c (List.mem_cons_of_mem _ hc)
    · next hp => simp [hp] at hc

theorem runActions_calm {actions : List (Action D)} (h : ∀ a ∈ actions, a.Calm) :
    (m.runActions s signal actions).Calm := by
  refine calm_foldlM (I := fun _ => True) trivial (fun _ _ _ _ _ _ => trivial)
    fun m a ha _ m' d he => ?_
  have hcalm := h a ha
  unfold Action.Calm at hcalm
  unfold runAction at he
  split at he
  · next hdeed =>
    rw [hdeed] at hcalm
    obtain ⟨ps, hps⟩ := hcalm m.context signal
    simp [hps] at he
  · next commands hdeed =>
    rw [hdeed] at hcalm
    have hnone : (m.shell.performAll m.timers.nextEpoch
        (commands m.context signal m.shell.host)).2 = none :=
      performAll_calm (hcalm m.context signal m.shell.host)
    split at he
    · exact absurd he (by simp)
    · next hp => simp [hp] at hnone

theorem lookup_calm (h : m.chart.contains s) : (m.lookup s).Calm := by
  intro m' d he
  obtain ⟨n, hn⟩ := Chart.contains_iff.mp h
  simp [lookup, hn] at he

/-! ## Selection -/

section

variable (hc : c.Calm) (hm : Clean c m)

include hc

theorem guardHolds_calm (hdecl : Declared c t) : (m.guardHolds signal t).Calm := by
  intro m' d he
  obtain ⟨n, hn, htr⟩ := hdecl
  unfold guardHolds at he
  split at he
  · exact absurd he (by simp)
  · next g hg =>
    obtain ⟨answer, hanswer⟩ := hc.guard n (c.node?_eq_some.mp hn).1 _ htr g hg m.context signal
    simp [hanswer] at he

include hm

theorem firstEnabledOf_calm {states : List D.State} (hstates : ∀ s ∈ states, c.contains s) :
    (m.firstEnabledOf signal states).Calm :=
  calm_iff.mpr (firstEnabledOf_ends
    (fun _ hdecl => calm_iff.mp (guardHolds_calm hc (hm.chart ▸ hdecl)))
    fun s hs => lookup_of_contains (hm.chart ▸ hstates s hs))

/-- Selecting transitions succeeds. -/
theorem select_calm : (m.select signal).Calm :=
  calm_iff.mpr (select_ends (fun _ hdecl => calm_iff.mp (guardHolds_calm hc (hm.chart ▸ hdecl)))
    fun _ hx _ hs => lookup_of_contains (contains_of_path hm hx hs))

end

/-! ## Phases -/

section

variable (hc : c.Calm) (hm : m.chart = c)

include hc hm

theorem exitStates_calm (hl : ∀ s ∈ l, c.contains s) : (m.exitStates signal l).Calm := by
  refine calm_foldlM (I := fun m : Machine D => m.chart = c) hm
    (fun m s _ m' hm h => (exitState_keeps h).1.chart.trans hm) fun m s hs hm => ?_
  unfold exitState
  refine calm_bind (lookup_calm (hm ▸ hl s hs)) fun n hn => ?_
  refine calm_bind (runActions_calm fun a ha => ?_) fun _ _ => calm_ok _
  exact hc.state n (c.node?_eq_some.mp (hm ▸ lookup_eq_ok hn)).1 a (List.mem_append_right _ ha)

theorem runTransitions_calm (htaken : ∀ t ∈ taken, Declared c t) :
    (m.runTransitions signal taken).Calm := by
  refine calm_foldlM (I := fun m : Machine D => m.chart = c) hm
    (fun m t _ m' hm h => (runActions_keeps h).1.chart.trans hm) fun m t ht _ => ?_
  obtain ⟨n, hn, htr⟩ := htaken t ht
  exact runActions_calm (hc.transition n (c.node?_eq_some.mp hn).1 _ htr)

/-- A defect as states are entered comes up with a state that invokes something. -/
theorem invokes_of_enterAll (h : m.enterAll signal l = .error (.defect m' d)) :
    ∃ s ∈ l, c.contains s → c.Invokes s := by
  obtain ⟨p, s, hs, hp, he⟩ := exists_of_foldlM_error
    (I := fun p : Progress D => p.machine.chart = c) hm
    (fun p s _ p' hp h => (Progress.enterState_keeps h).1.chart.trans hp) h
  refine ⟨s, hs, fun hcontains => ?_⟩
  unfold Progress.enterState at he
  rcases bind_eq_error.mp he with he | ⟨n, hn, he⟩
  · exact absurd he (lookup_calm (hp ▸ hcontains) _ _)
  · have hnode : c.node? s = some n := hp ▸ lookup_eq_ok hn
    rcases bind_eq_error.mp he with he | ⟨m₁, -, he⟩
    · refine absurd he (runActions_calm (fun a ha => ?_) _ _)
      exact hc.state n (c.node?_eq_some.mp hnode).1 a (List.mem_append_left _ ha)
    · rcases bind_eq_error.mp he with he | ⟨p₁, -, he⟩
      · refine ⟨n, hnode, ?_⟩
        unfold Progress.launchOf at he
        split at he
        · exact absurd he (by simp)
        · next hinvocation => rw [hinvocation]; rfl
      · exact absurd he (by simp [pure, Except.pure])

/-- Stopping never hits a defect. -/
theorem teardown_calm (hactive : ∀ s ∈ m.configuration, c.contains s) : m.teardown.Calm := by
  unfold teardown
  refine calm_bind (calm_foldlM (I := fun m : Machine D => m.chart = c) hm
    (fun m s _ m' hm h => ?_) fun m₁ s hs hm₁ => ?_) fun _ _ => calm_ok _
  · obtain ⟨n, m₂, -, hrun, rfl⟩ := exists_of_abandonState h
    exact (runActions_keeps hrun).1.chart.trans hm
  · have hs := hactive s ((Outline.mem_inExitOrder ..).mp hs)
    unfold abandonState
    refine calm_bind (lookup_calm (hm₁ ▸ hs)) fun n hn => ?_
    refine calm_bind (runActions_calm fun a ha => ?_) fun _ _ => calm_ok _
    exact hc.state n (c.node?_eq_some.mp (hm₁ ▸ lookup_eq_ok hn)).1 a (List.mem_append_right _ ha)

end

/-! ## Signals -/

/-- What a machine that processes a signal is to enter: the root and what comes with it, or what the
transitions taken lead to by the time they have been taken. -/
inductive Enters (m : Machine D) : Signal D → List D.State → Prop
  | initial {set : StateSet D.State} : m.configuration.isEmpty →
      m.chart.enterInto m.history m.chart.root .empty = some set →
        Enters m .start (m.chart.inEntryOrder set.elems)
  | reaction {signal : Signal D} {between : Machine D} {entered : List D.State} :
      m.Alters (fun _ => False) between → between.entering (m.takes signal) = some entered →
        Enters m signal entered

section

variable {m₀ : Machine D} (hc : c.Calm) (halters : m₀.Alters (fun _ => False) m)

include hc halters

theorem invokes_of_settleEntry {exited entered : List D.State} (hm : m.chart = c)
    (h : m.settleEntry signal exited entered = .error (.defect m' d)) :
    (∃ s ∈ entered, c.contains s → c.Invokes s) ∧ m₀.Alters (· ∈ entered) m' := by
  have halters := alters_mono (Q := (· ∈ entered)) (fun _ => False.elim) halters
  refine ⟨?_, ((settleEntry_alters (fun _ hs => hs) halters).defect h).1⟩
  unfold settleEntry enterStates at h
  rcases bind_eq_error.mp h with h | ⟨_, -, h⟩
  · rcases bind_eq_error.mp h with h | ⟨_, -, h⟩
    · exact invokes_of_enterAll hc hm h
    · exact absurd h (by simp [pure, Except.pure])
  · exact absurd h (by simp [pure, Except.pure])

theorem entering_of_take (hm : Clean c m) (hdecl : ∀ t ∈ taken, Declared c t)
    (h : m.take signal taken = .error (.defect m' d)) : ∃ between entered,
      m₀.Alters (fun _ => False) between ∧ between.entering taken = some entered ∧
        (∃ s ∈ entered, c.contains s → c.Invokes s) ∧ m₀.Alters (· ∈ entered) m' := by
  unfold take at h
  rcases bind_eq_error.mp h with h | ⟨left, hleft, h⟩
  · have hactive : ∀ s ∈ m.leaving taken, c.contains s := fun s hs =>
      hm.contains s (mem_leaving.mp hs).1
    exact absurd h
      (exitStates_calm (m := m.recordHistories (m.leaving taken)) hc hm.chart hactive _ _)
  · have hleft := (exitStates_alters (halters.tail .remember)).ok hleft
    have hchart : ∀ {m₁ : Machine D}, m₀.Alters (fun _ => False) m₁ → m₁.chart = c := fun h =>
      (unsettled_of_alters h).chart.trans ((unsettled_of_alters halters).chart.symm.trans hm.chart)
    rcases bind_eq_error.mp h with h | ⟨between, hbetween, h⟩
    · exact absurd h (runTransitions_calm hc (hchart hleft) hdecl _ _)
    · have hbetween := (runTransitions_alters hleft).ok hbetween
      rcases bind_eq_error.mp h with h | ⟨entered, hentered, h⟩
      · exact absurd h (calm_orEndless _ _ _)
      · exact ⟨between, entered, hbetween, orEndless_eq_ok hentered,
          invokes_of_settleEntry hc hbetween (hchart hbetween) h⟩

end

/-- A settled step enters what the machine is to enter. -/
theorem enters_of_settles {step : Settled D} {p : Progress D} (h : m.Settles step p) :
    m.Enters step.signal step.entered := by
  have htakes := takes_of_settles h
  cases h with
  | initial hempty hset _ => exact .initial hempty hset
  | reaction hreact _ _ _ _ hleft hbetween hentered _ =>
    obtain ⟨invocations, -, rfl⟩ := exists_of_reacting? hreact
    have hbefore : m.Alters (fun _ => False) { m with invocations } := .single .work
    have hleft := (exitStates_alters (hbefore.tail .remember)).ok hleft
    have hbetween := (runTransitions_alters hleft).ok hbetween
    exact .reaction hbetween (htakes ▸ hentered)

/-- What is active after some alterations was so before, or has been entered. -/
theorem mem_of_alters {P : D.State → Prop} (h : m.Alters P m') (hs : s ∈ m'.configuration) :
    s ∈ m.configuration ∨ P s := by
  induction h with
  | refl => exact Or.inl hs
  | tail _ halter ih =>
    cases halter with
    | context | command | work | remember => exact ih hs
    | leave => exact ih (StateSet.mem_erase.mp hs).1
    | enter hP _ =>
      rcases StateSet.mem_insert.mp hs with hs | rfl
      · exact ih hs
      · exact Or.inr hP

/-- A defect that comes up as a signal is processed comes up with a state that invokes something.
What has become of the machine by then is that some states were left, and some of those that it was
to enter have been entered. -/
theorem enters_of_halt (hc : c.Calm) (hm : Clean c m)
    (h : m.process signal = .error (.defect m' d)) : ∃ entered, m.Enters signal entered ∧
      (∃ s ∈ entered, c.contains s → c.Invokes s) ∧ m.Alters (· ∈ entered) m' := by
  by_cases hs : signal = .start
  · subst hs
    unfold process at h
    dsimp only at h
    split at h
    · next hempty =>
      unfold enterInitial at h
      rcases bind_eq_error.mp h with h | ⟨set, hset, h⟩
      · exact absurd h (calm_orEndless _ _ _)
      · exact ⟨_, .initial hempty (orEndless_eq_ok hset),
          invokes_of_settleEntry hc .refl hm.chart h⟩
    · exact absurd h (by simp)
  · rw [process_eq hs] at h
    split at h
    · next before hbefore =>
      obtain ⟨invocations, -, rfl⟩ := exists_of_reacting? hbefore
      have hclean : Clean c { m with invocations } := ⟨hm.chart, hm.contains, hm.plain, hm.history⟩
      unfold react at h
      -- selecting is calm, so it is taking that halts
      rcases bind_eq_error.mp h with h | ⟨selected, hselect, h⟩
      · exact absurd h (select_calm hc hclean _ _)
      · have htakes : m.takes signal = { m with invocations }.withoutConflicts selected := by
          simp only [takes, hbefore, hselect]
        split at h
        · exact absurd h (by simp [pure, Except.pure])
        · rw [← htakes] at h
          have hdecl : ∀ t ∈ m.takes signal, Declared c t := by
            intro t ht
            rw [htakes] at ht
            exact hm.chart ▸ (mem_select hselect (mem_withoutConflicts ht)).1
          obtain ⟨between, entered, hbetween, hentered, hrest⟩ :=
            entering_of_take hc (.single .work) hclean hdecl h
          exact ⟨entered, .reaction hbetween hentered, hrest⟩
    · exact absurd h (by simp)

end Machine

end Statechart
