import Mathlib.Logic.Relation
import Statechart.Proofs.Machine.Requests
import Statechart.Proofs.Machine.Selection

/-!
# What a defect leaves

A phase of a step that hits a defect does not hand its machine on, it halts with it, half way
through whatever it was doing. What can have happened to the machine by then is what happens to
it in a step anyway, bit by bit (`Alter`): an action assigns to the context or has a command
carried out, pending work comes and goes, history is recorded, a state is left or entered. No bit
of it counts or records a step, hands an invocation over or tells a listener (`Unsettled`), so it
does not matter how far the step got.

Each phase is gone through once, with a postcondition for either way it ends (`Attempt.Ends`).
Guards are asked before anything happens at all, and nothing else panics as they do. So a guard
that panics leaves the machine as it was (`process_ends`). What else may be known of the lookups and
the guards that transitions are selected by is left open (`select_ends`).
-/

namespace Statechart

variable {D : Domain}

/-! ## Attempts -/

namespace Attempt

variable {α β : Type}

/-- What holds of the result of an attempt, of the machine and the defect that it halts with, and
of work without end. -/
structure Ends (x : Attempt D α) (good : α → Prop) (bad : Machine D → Defect D.State → Prop)
    (endless : Prop) : Prop where
  ok : ∀ {a}, x = .ok a → good a
  defect : ∀ {m d}, x = .error (.defect m d) → bad m d
  endless : x = .error .endless → endless

variable {x : Attempt D α} {f : α → Attempt D β} {good good' : α → Prop} {goal : β → Prop}
  {bad bad' : Machine D → Defect D.State → Prop} {endless endless' : Prop} {a : α}
  {m : Machine D} {d : Defect D.State}

theorem ends_ok (h : good a) : Ends (.ok a) good bad endless :=
  ⟨fun he => Except.ok.inj he ▸ h, fun he => absurd he (by simp), fun he => absurd he (by simp)⟩

theorem ends_halt (h : bad m d) : (m.halt d : Attempt D α).Ends good bad endless := by
  refine ⟨fun he => absurd he (by simp [Machine.halt]), fun he => ?_,
    fun he => absurd he (by simp [Machine.halt])⟩
  rw [Machine.halt, Except.error.injEq, Halt.defect.injEq] at he
  exact he.1 ▸ he.2 ▸ h

theorem ends_orEndless {x : Option α} (h : ∀ a, x = some a → good a) :
    (Machine.orEndless x : Attempt D α).Ends good bad True := by
  cases x with
  | some a => exact ends_ok (h a rfl)
  | none =>
    exact ⟨fun he => absurd he (by simp [Machine.orEndless]),
      fun he => absurd he (by simp [Machine.orEndless]), fun _ => trivial⟩

theorem ends_mono (h : x.Ends good bad endless) (hgood : ∀ a, good a → good' a)
    (hbad : ∀ m d, bad m d → bad' m d) (hendless : endless → endless') :
    x.Ends good' bad' endless' :=
  ⟨fun he => hgood _ (h.ok he), fun he => hbad _ _ (h.defect he), fun he => hendless (h.endless he)⟩

theorem ends_self (h : x.Ends good bad endless) : x.Ends (fun a => x = .ok a) bad endless :=
  ⟨id, h.defect, h.endless⟩

/-- Of two attempts, one after the other, the second starts from what is known of the first. -/
theorem ends_bind (h : x.Ends good bad endless)
    (hf : ∀ a, good a → (f a).Ends goal bad endless) : Ends (x >>= f) goal bad endless := by
  cases x with
  | ok a => exact hf a (h.ok rfl)
  | error e =>
    refine ⟨fun he => absurd he (by simp [bind, Except.bind]), fun he => ?_, fun he => ?_⟩
    · exact h.defect (congrArg Except.error (Except.error.inj he))
    · exact h.endless (congrArg Except.error (Except.error.inj he))

/-- What is kept from one attempt to the next is kept to the end. -/
theorem ends_foldlM {f : β → α → Attempt D β} :
    ∀ {l : List α} {b : β}, goal b →
      (∀ b, ∀ a ∈ l, goal b → (f b a).Ends goal bad endless) → (l.foldlM f b).Ends goal bad endless
  | [], _, hb, _ => ends_ok hb
  | a :: l, b, hb, hstep => by
    rw [List.foldlM_cons]
    exact ends_bind (hstep b a (List.mem_cons_self ..) hb) fun b' hb' =>
      ends_foldlM hb' fun b a ha => hstep b a (List.mem_cons_of_mem _ ha)

end Attempt

/-- Whether a guard is to blame for a defect. -/
def Defect.OfGuard {S : Type} : Defect S → Prop
  | .guardPanicked .. => True
  | _ => False

/-! ## Bit by bit -/

/-- Nobody who listens was told of anything: whoever listens did so before and was not called since,
or has not been called at all. -/
def Shell.Untold (s s' : Shell D) : Prop :=
  s.nextListener ≤ s'.nextListener ∧
    ∀ l ∈ s'.listeners, l ∈ s.listeners ∨ (s.nextListener ≤ l.id ∧ l.calls = 0)

namespace Machine

/-- One of the things that happen to a machine in a step before the step is settled. Only states
of the chart of which `P` holds are entered. -/
inductive Alter (P : D.State → Prop) (m : Machine D) : Machine D → Prop
  | context {context : D.Context} : Alter P m { m with context }
  | command {horizon : Nat} {c : Command D} :
      Alter P m { m with shell := (m.shell.perform horizon c).1 }
  | work {timers : Timers D.State} {invocations : Invocations D.State}
      {awaiting : List (String × InvocationId)} :
      Alter P m { m with timers, invocations, awaiting }
  | remember {leaving : List D.State} : Alter P m (m.recordHistories leaving)
  | leave {s : D.State} : Alter P m { m with configuration := m.configuration.erase s }
  | enter {s : D.State} {n : Node D} : P s → m.chart.node? s = some n →
      Alter P m { m with configuration := m.configuration.insert s }

/-- Such things happen to a machine, one after another. -/
abbrev Alters (P : D.State → Prop) : Machine D → Machine D → Prop := Relation.ReflTransGen (Alter P)

/-- Whether two machines run one chart, are in the same states and remember the same ones. -/
structure SameStates (m m' : Machine D) : Prop where
  chart : m'.chart = m.chart
  configuration : m'.configuration = m.configuration
  history : m'.history = m.history

/-- What has become of a machine when it has processed a signal: it was altered, and what follows
does not touch its states. -/
def Altered (P : D.State → Prop) (m m' : Machine D) : Prop :=
  ∃ m₁, m.Alters P m₁ ∧ m₁.SameStates m'

/-- What is left alone as long as no step is settled. -/
structure Unsettled (m m' : Machine D) : Prop where
  chart : m'.chart = m.chart
  journal : m'.journal = m.journal
  step : m'.step = m.step
  launched : m'.launched = m.launched
  blocked : m'.blocked = m.blocked
  untold : m.shell.Untold m'.shell
  leads : m.shell.Leads m'.shell

end Machine

/-- An attempt that goes on with what alterations make of a machine, or halts with such a machine,
and not because of a guard. -/
abbrev Attempt.Alters {α : Type} (x : Attempt D α) (P : D.State → Prop) (m : Machine D)
    (machine : α → Machine D) : Prop :=
  x.Ends (fun a => m.Alters P (machine a)) (fun m' d => m.Alters P m' ∧ ¬ d.OfGuard) False

namespace Shell

variable {s s' s'' : Shell D} {horizon : Nat}

theorem untold_refl : Untold s s := ⟨Nat.le_refl _, fun _ hl => Or.inl hl⟩

theorem untold_trans (h : Untold s s') (h' : Untold s' s'') : Untold s s'' := by
  refine ⟨Nat.le_trans h.1 h'.1, fun l hl => ?_⟩
  rcases h'.2 l hl with hl | ⟨hid, hcalls⟩
  · exact h.2 l hl
  · exact Or.inr ⟨Nat.le_trans h.1 hid, hcalls⟩

/-- A call leaves the listeners alone. -/
theorem receive_listeners {c : Call D} (h : s.receive horizon c = .admitted s') :
    s'.listeners = s.listeners ∧ s'.nextListener = s.nextListener := by
  cases c with
  | start | stop =>
    rw [receive] at h
    split at h <;> simp only [reduceCtorEq, Admission.admitted.injEq] at h
    all_goals exact h ▸ ⟨rfl, rfl⟩
  | send e =>
    obtain ⟨-, -, rfl⟩ := receiveWork_admitted (w := .signal (.event e)) h
    exact ⟨rfl, rfl⟩
  | tick =>
    obtain ⟨-, -, rfl⟩ := receiveWork_admitted (w := .timers s.clock.now horizon) h
    exact ⟨rfl, rfl⟩

theorem callAndTell_listeners {c : Call D} {tell : Reply → D.Host → D.Host} :
    (s.callAndTell horizon c tell).listeners = s.listeners ∧
      (s.callAndTell horizon c tell).nextListener = s.nextListener := by
  unfold callAndTell callInside
  cases hr : s.receive horizon c with
  | refused | ignored => exact ⟨rfl, rfl⟩
  | admitted s' =>
    obtain ⟨hlisteners, hnext⟩ := receive_listeners hr
    exact ⟨hlisteners, hnext⟩

/-- A command tells nobody of anything. -/
theorem perform_untold (c : Command D) : Untold s (s.perform horizon c).1 := by
  have hsame : ∀ {s' : Shell D}, s'.listeners = s.listeners → s'.nextListener = s.nextListener →
      Untold s s' := fun hl hn => ⟨Nat.le_of_eq hn.symm, fun l h => Or.inl (hl ▸ h)⟩
  cases c with
  | act | status | panic => exact untold_refl
  | advance =>
    rw [perform]
    split <;> exact untold_refl
  | send | start | stop | tick => exact hsame callAndTell_listeners.1 callAndTell_listeners.2
  | subscribe react tell =>
    refine ⟨Nat.le_succ _, fun l hl => ?_⟩
    rcases List.mem_append.mp hl with hl | hl
    · exact Or.inl hl
    · exact Or.inr (List.mem_singleton.mp hl ▸ ⟨Nat.le_refl _, rfl⟩)
  | unsubscribe which =>
    rw [perform]
    split
    · exact ⟨Nat.le_refl _, fun l hl => Or.inl (List.mem_filter.mp hl).1⟩
    · exact untold_refl

end Shell

namespace Machine

variable {P : D.State → Prop} {m m' m₀ : Machine D} {s : D.State} {signal : Signal D}

theorem unsettled_of_alter (h : m.Alter P m') : m.Unsettled m' := by
  cases h with
  | command => exact ⟨rfl, rfl, rfl, rfl, rfl, Shell.perform_untold _, Shell.perform_leads _⟩
  | context | work | remember | leave | enter =>
    exact ⟨rfl, rfl, rfl, rfl, rfl, Shell.untold_refl, Shell.leads_refl⟩

theorem unsettled_of_alters (h : m.Alters P m') : m.Unsettled m' := by
  induction h with
  | refl => exact ⟨rfl, rfl, rfl, rfl, rfl, Shell.untold_refl, Shell.leads_refl⟩
  | tail _ h ih =>
    have hlast := unsettled_of_alter h
    exact ⟨hlast.chart.trans ih.chart, hlast.journal.trans ih.journal, hlast.step.trans ih.step,
      hlast.launched.trans ih.launched, hlast.blocked.trans ih.blocked, Shell.untold_trans ih.untold hlast.untold,
      Shell.leads_trans ih.leads hlast.leads⟩

/-! ## Phases -/

theorem lookup_alters (h : m₀.Alters P m) : (m.lookup s).Ends (fun n => m.chart.node? s = some n)
    (fun m' d => m₀.Alters P m' ∧ ¬ d.OfGuard) False := by
  unfold lookup
  split
  · next n hn => exact Attempt.ends_ok hn
  · exact Attempt.ends_halt ⟨h, id⟩

theorem performAll_alters {horizon : Nat} : ∀ (cs : List (Command D)) {m : Machine D},
    m.Alters P { m with shell := (m.shell.performAll horizon cs).1 }
  | [], _ => .refl
  | c :: cs, m => by
    have hc : m.Alters P { m with shell := (m.shell.perform horizon c).1 } := .single .command
    unfold Shell.performAll
    split
    · next s' he =>
      rw [he] at hc
      exact hc.trans (performAll_alters cs)
    · next s' message he =>
      rw [he] at hc
      exact hc

theorem runAction_alters {a : Action D} (h : m₀.Alters P m) :
    (m.runAction s signal a).Alters P m₀ id := by
  unfold runAction
  split
  · split
    · exact Attempt.ends_ok (h.tail .context)
    · exact Attempt.ends_halt ⟨h, id⟩
  · next commands _ =>
    have hshell : m.Alters P
        { m with
          shell := (m.shell.performAll m.timers.nextEpoch
            (commands m.context signal m.shell.host)).1 } :=
      performAll_alters _
    split
    · next shell he =>
      rw [he] at hshell
      exact Attempt.ends_ok (h.trans hshell)
    · next shell message he =>
      rw [he] at hshell
      exact Attempt.ends_halt ⟨h.trans hshell, id⟩

theorem runActions_alters {actions : List (Action D)} (h : m₀.Alters P m) :
    (m.runActions s signal actions).Alters P m₀ id :=
  Attempt.ends_foldlM h fun _ _ _ h => runAction_alters h

theorem exitState_alters (h : m₀.Alters P m) : (m.exitState signal s).Alters P m₀ id := by
  unfold exitState
  refine Attempt.ends_bind (lookup_alters h) fun n _ => ?_
  refine Attempt.ends_bind (runActions_alters (h.tail .work)) fun m' h => ?_
  exact Attempt.ends_ok (h.tail .leave)

theorem exitStates_alters {leaving : List D.State} (h : m₀.Alters P m) :
    (m.exitStates signal leaving).Alters P m₀ id :=
  Attempt.ends_foldlM h fun _ _ _ h => exitState_alters h

theorem runTransitions_alters {taken : List (Selected D)} (h : m₀.Alters P m) :
    (m.runTransitions signal taken).Alters P m₀ id :=
  Attempt.ends_foldlM h fun _ _ _ h => runActions_alters h

theorem launch_alters {invocation : Invocation D} (h : m₀.Alters P m) :
    (m.launch s invocation).Alters P m₀ Prod.fst := by
  unfold launch
  split
  · exact Attempt.ends_halt ⟨h, id⟩
  · split
    · exact Attempt.ends_halt ⟨h, id⟩
    · exact Attempt.ends_ok (h.tail .work)

end Machine

namespace Progress

variable {P : D.State → Prop} {p : Progress D} {m₀ : Machine D} {s : D.State} {signal : Signal D}
  {now : Duration}

theorem launchOf_alters {n : Node D} (h : m₀.Alters P p.machine) :
    (p.launchOf n).Alters P m₀ (·.machine) := by
  unfold launchOf
  split
  · exact Attempt.ends_ok h
  · exact Attempt.ends_bind (Machine.launch_alters h) fun _ h => Attempt.ends_ok h

theorem enterState_alters (hs : P s) (h : m₀.Alters P p.machine) :
    (p.enterState signal now s).Alters P m₀ (·.machine) := by
  unfold enterState
  refine Attempt.ends_bind (Machine.lookup_alters h) fun n hn => ?_
  refine Attempt.ends_bind (Machine.runActions_alters (h.tail (.enter hs hn))) fun m h => ?_
  have harmed : m₀.Alters P (m.armTimers now n) := Relation.ReflTransGen.tail h .work
  refine Attempt.ends_bind (launchOf_alters harmed) fun p h => Attempt.ends_ok ?_
  change m₀.Alters P (p.completeBy n).machine
  rwa [completeBy_machine]

end Progress

namespace Machine

variable {P : D.State → Prop} {m m' m₀ : Machine D} {s : D.State} {signal : Signal D}

/-- Settling a step that enters states ends well, or before the step is counted. -/
theorem settleEntry_alters {exited entered : List D.State} (hentered : ∀ s ∈ entered, P s)
    (h : m₀.Alters P m) : (m.settleEntry signal exited entered).Ends
      (fun p => m₀.Altered P p.machine) (fun m' d => m₀.Alters P m' ∧ ¬ d.OfGuard) False := by
  have hentering : (m.enterAll signal entered).Alters P m₀ (·.machine) :=
    Attempt.ends_foldlM h fun p s hs h => Progress.enterState_alters (hentered s hs) h
  have hentered : (m.enterStates signal entered).Ends (fun p => m₀.Altered P p.machine)
      (fun m' d => m₀.Alters P m' ∧ ¬ d.OfGuard) False := by
    refine Attempt.ends_bind hentering fun p h => Attempt.ends_ok ⟨p.machine, h, ?_⟩
    obtain ⟨hkeeps, hconf⟩ := Progress.close_keeps (p := p)
    exact ⟨hkeeps.chart, hconf, hkeeps.history⟩
  refine Attempt.ends_bind hentered fun p h => Attempt.ends_ok ?_
  obtain ⟨m₁, halters, hsame⟩ := h
  exact ⟨m₁, halters, hsame.chart, hsame.configuration, hsame.history⟩

/-! ## Guards -/

/-- A guard is asked without anything happening, and nothing but the guard goes wrong. -/
theorem guardHolds_ends {t : Selected D} :
    (m.guardHolds signal t).Ends (fun _ => True) (fun m' d => m' = m ∧ d.OfGuard) False := by
  unfold guardHolds
  split
  · exact Attempt.ends_ok trivial
  · split
    · exact Attempt.ends_ok trivial
    · exact Attempt.ends_halt ⟨rfl, trivial⟩

theorem lookup_ends : (m.lookup s).Ends (fun n => m.chart.node? s = some n) (fun m' _ => m' = m)
    False := by
  unfold lookup
  split
  · next n hn => exact Attempt.ends_ok hn
  · exact Attempt.ends_halt rfl

/-- Nothing goes wrong as a state of the chart is looked up. -/
theorem lookup_of_contains {bad : Machine D → Defect D.State → Prop} {endless : Prop}
    (hs : m.chart.contains s) :
    (m.lookup s).Ends (fun n => m.chart.node? s = some n) bad endless := by
  obtain ⟨n, hn⟩ := Chart.contains_iff.mp hs
  have hfound : m.lookup s = .ok n := by rw [lookup, hn]
  rw [hfound]
  exact Attempt.ends_ok hn

/-! ## Selection

To select transitions is to look states up and to ask guards, and ends as these end. -/

section

variable {bad : Machine D → Defect D.State → Prop} {endless : Prop}

theorem firstEnabled_ends : ∀ {ts : List (Selected D)},
    (∀ t ∈ ts, (m.guardHolds signal t).Ends (fun _ => True) bad endless) →
      (m.firstEnabled signal ts).Ends (fun _ => True) bad endless
  | [], _ => Attempt.ends_ok trivial
  | t :: ts, hguard => by
    have hrest : (m.firstEnabled signal ts).Ends (fun _ => True) bad endless :=
      firstEnabled_ends fun u hu => hguard u (List.mem_cons_of_mem _ hu)
    unfold firstEnabled
    split
    · refine Attempt.ends_bind (hguard t (List.mem_cons_self ..)) fun holds _ => ?_
      split
      · exact Attempt.ends_ok trivial
      · exact hrest
    · exact hrest

variable (hguard : ∀ t, Declared m.chart t →
  (m.guardHolds signal t).Ends (fun _ => True) bad endless)

include hguard

theorem firstEnabledOf_ends : ∀ {states : List D.State},
    (∀ s ∈ states, (m.lookup s).Ends (fun n => m.chart.node? s = some n) bad endless) →
      (m.firstEnabledOf signal states).Ends (fun _ => True) bad endless
  | [], _ => Attempt.ends_ok trivial
  | s :: states, hlookup => by
    unfold firstEnabledOf
    refine Attempt.ends_bind (hlookup s (List.mem_cons_self ..)) fun n hn => ?_
    refine Attempt.ends_bind (firstEnabled_ends fun t ht =>
      hguard t (declared_of_mem_listOf hn ht)) fun found _ => ?_
    split
    · exact Attempt.ends_ok trivial
    · exact firstEnabledOf_ends fun s hs => hlookup s (List.mem_cons_of_mem _ hs)

theorem selectAbove_ends {leaves : List D.State}
    (hlookup : ∀ x ∈ leaves, ∀ s ∈ x :: m.chart.ancestors x,
      (m.lookup s).Ends (fun n => m.chart.node? s = some n) bad endless) :
    (m.selectAbove signal leaves).Ends (fun _ => True) bad endless := by
  refine Attempt.ends_foldlM trivial fun selected x hx _ => ?_
  refine Attempt.ends_bind (firstEnabledOf_ends hguard (hlookup x hx)) fun found _ => ?_
  split <;> exact Attempt.ends_ok trivial

/-- States are looked up from the active ones upwards. -/
theorem select_ends (hlookup : ∀ x ∈ m.configuration, ∀ s ∈ x :: m.chart.ancestors x,
      (m.lookup s).Ends (fun n => m.chart.node? s = some n) bad endless) :
    (m.select signal).Ends (fun _ => True) bad endless := by
  have hself : ∀ s, m.isActive s →
      (m.lookup s).Ends (fun n => m.chart.node? s = some n) bad endless :=
    fun s hs => hlookup s (of_decide_eq_true hs) s (List.mem_cons_self ..)
  -- these signals ask the state that they are addressed to, and no other
  have hown : ∀ s, (if m.isActive s then (·.toList) <$> m.firstEnabledOf signal [s]
      else .ok [] : Attempt D (List (Selected D))).Ends (fun _ => True) bad endless := by
    intro s
    split
    · next hs =>
      rw [map_eq_pure_bind]
      refine Attempt.ends_bind (firstEnabledOf_ends hguard fun x hx => ?_)
        fun _ _ => Attempt.ends_ok trivial
      exact List.mem_singleton.mp hx ▸ hself s hs
    · exact Attempt.ends_ok trivial
  unfold select
  cases signal with
  | start | stop => exact Attempt.ends_ok trivial
  | event e =>
    exact selectAbove_ends hguard fun x hx =>
      hlookup x ((Outline.mem_inDocumentOrder ..).mp (List.mem_filter.mp hx).1)
  | timer s i delay =>
    dsimp only
    split
    · next hs =>
      refine Attempt.ends_bind (hself s hs) fun n hn => ?_
      split
      · next t ht =>
        have hdecl := declared_of_mem_listOf hn (List.mem_of_getElem? ht)
        refine Attempt.ends_bind (hguard t hdecl) fun holds _ => ?_
        split <;> exact Attempt.ends_ok trivial
      · exact Attempt.ends_ok trivial
    · exact Attempt.ends_ok trivial
  | invokeDone s | invokeError s | done s => exact hown s

end

/-- Nothing happens to the machine as transitions are selected. -/
theorem select_unchanged :
    (m.select signal).Ends (fun _ => True) (fun m' _ => m' = m) False :=
  select_ends (fun _ _ => Attempt.ends_mono guardHolds_ends (fun _ h => h) (fun _ _ h => h.1) id)
    fun _ _ _ _ => lookup_ends

/-! ## Signals -/

/-- What a defect leaves of a machine that processes a signal. -/
abbrev Halts (P : D.State → Prop) (m m' : Machine D) (d : Defect D.State) : Prop :=
  m.Alters P m' ∧ (d.OfGuard → ∃ invocations : Invocations D.State, m' = { m with invocations })

/-- States that a step of a machine may enter satisfy `P`, as far as the chart has to do with it. -/
structure Admits (P : D.State → Prop) (m : Machine D) : Prop where
  initial : ∀ set, m.chart.enterInto m.history m.chart.root .empty = some set →
    ∀ s ∈ m.chart.inEntryOrder set.elems, P s
  entering : ∀ m' taken entered, m.Alters (fun _ => False) m' →
    (∀ t ∈ taken, Declared m'.chart t) → m'.entering taken = some entered → ∀ s ∈ entered, P s

theorem alters_mono {Q : D.State → Prop} (hPQ : ∀ s, P s → Q s) (h : m.Alters P m') :
    m.Alters Q m' := by
  refine Relation.ReflTransGen.mono (fun m₁ m₂ h => ?_) _ _ h
  cases h with
  | context => exact .context
  | command => exact .command
  | work => exact .work
  | remember => exact .remember
  | leave => exact .leave
  | enter hs hn => exact .enter (hPQ _ hs) hn

theorem take_ends {taken : List (Selected D)} (hP : m₀.Admits P) (h : m₀.Alters (fun _ => False) m)
    (hdecl : ∀ t ∈ taken, Declared m.chart t) :
    (m.take signal taken).Ends (fun p => m₀.Altered P p.machine)
      (fun m' d => m₀.Alters P m' ∧ ¬ d.OfGuard) True := by
  have hany : ∀ m' (d : Defect D.State), m₀.Alters (fun _ => False) m' ∧ ¬ d.OfGuard →
      m₀.Alters P m' ∧ ¬ d.OfGuard :=
    fun m' d h => ⟨alters_mono (fun _ => False.elim) h.1, h.2⟩
  unfold take
  refine Attempt.ends_bind (Attempt.ends_mono (exitStates_alters (h.tail .remember))
    (fun _ h => h) hany False.elim) fun left hleft => ?_
  refine Attempt.ends_bind (Attempt.ends_mono (runTransitions_alters hleft)
    (fun _ h => h) hany False.elim) fun between hbetween => ?_
  refine Attempt.ends_bind (Attempt.ends_orEndless fun _ h => h) fun entered hentered => ?_
  have hchart : between.chart = m.chart :=
    (unsettled_of_alters hbetween).chart.trans (unsettled_of_alters h).chart.symm
  exact Attempt.ends_mono (settleEntry_alters
    (hP.entering _ _ _ hbetween (fun t ht => hchart ▸ hdecl t ht) hentered)
    (alters_mono (fun _ => False.elim) hbetween)) (fun _ h => h) (fun _ _ h => h) False.elim

theorem react_ends (hP : m₀.Admits P) (h : m₀.Alters (fun _ => False) m) :
    (m.react signal).Ends (fun p => m₀.Altered P p.machine)
      (fun m' d => m₀.Alters P m' ∧ (d.OfGuard → m' = m)) True := by
  unfold react
  refine Attempt.ends_bind (Attempt.ends_mono (Attempt.ends_self select_unchanged) (fun _ h => h)
    (fun m' d he => ?_) False.elim) fun selected hsel => ?_
  · exact ⟨he ▸ alters_mono (fun _ => False.elim) h, fun _ => he⟩
  · split
    · exact Attempt.ends_ok ⟨m, alters_mono (fun _ => False.elim) h, rfl, rfl, rfl⟩
    · have hdecl : ∀ t ∈ m.withoutConflicts selected, Declared m.chart t :=
        fun t ht => (mem_select hsel (mem_withoutConflicts ht)).1
      exact Attempt.ends_mono (take_ends hP h hdecl) (fun _ h => h)
        (fun m' d h => ⟨h.1, fun hd => absurd hd h.2⟩) id

/-- A defect leaves a machine that processes a signal altered, but before the step was counted; if
a guard is to blame, all that has happened is that an invocation is retired. -/
theorem process_ends (hP : m.Admits P) :
    (m.process signal).Ends (fun p => m.Altered P p.machine) (m.Halts P) True := by
  have hsame : Attempt.Ends (D := D) (.ok ({ machine := m } : Progress D))
      (fun p => m.Altered P p.machine) (m.Halts P) True :=
    Attempt.ends_ok ⟨m, .refl, rfl, rfl, rfl⟩
  have hreact : ∀ invocations, ({ m with invocations }.react signal).Ends
      (fun p => m.Altered P p.machine) (m.Halts P) True := fun invocations =>
    Attempt.ends_mono (react_ends hP (.single .work)) (fun _ h => h)
      (fun _ _ h => ⟨h.1, fun hd => ⟨invocations, h.2 hd⟩⟩) id
  cases signal with
  | start =>
    unfold process
    dsimp only
    split
    · unfold enterInitial
      refine Attempt.ends_bind (Attempt.ends_orEndless fun _ h => h) fun set hset => ?_
      exact Attempt.ends_mono (settleEntry_alters (hP.initial _ hset) .refl) (fun _ h => h)
        (fun m' d h => ⟨h.1, fun hd => absurd hd h.2⟩) False.elim
    · exact hsame
  | stop => exact hsame
  | event | timer | done => exact hreact m.invocations
  | invokeDone s id output | invokeError s id error =>
    unfold process
    dsimp only
    split
    · exact hreact _
    · exact hsame

/-! ## Stopping -/

theorem abandonState_alters (h : m₀.Alters P m) : (m.abandonState s).Alters P m₀ id := by
  unfold abandonState
  refine Attempt.ends_bind (lookup_alters h) fun n _ => ?_
  refine Attempt.ends_bind (runActions_alters h) fun m' h => ?_
  exact Attempt.ends_ok (h.tail .leave)

/-- Stopping comes to an end, and a defect leaves the machine altered, but before it is over. -/
theorem teardown_ends : m.teardown.Ends (m.Altered fun _ => False)
    (fun m' d => m.Alters (fun _ => False) m' ∧ ¬ d.OfGuard) False := by
  unfold teardown
  have hcancelled : m.Alters (fun _ => False) m.cancelAll := .single .work
  have hleft : ((m.chart.inExitOrder m.configuration.elems).foldlM
      (fun (m : Machine D) s => m.abandonState s) m.cancelAll).Alters (fun _ => False) m id :=
    Attempt.ends_foldlM hcancelled fun _ _ _ h => abandonState_alters h
  exact Attempt.ends_bind hleft fun m' h => Attempt.ends_ok ⟨m', h, rfl, rfl, rfl⟩

end Machine

end Statechart
