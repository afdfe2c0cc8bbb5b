import Statechart.Machine.Queue

/-!
# What running code leaves alone

Actions and listeners change the context and the shell, and of the shell they cannot
change the life stage once the machine was started (`notify_status`). Whether the queue is
blocked depends on the listeners alone (`blocked_notify`). Leaving and
entering states also touches the pending work and the configuration, and the latter in
a known way: leaving takes the states out, entering puts them in. Everything else a
machine has is kept from the beginning of a phase of a step to its end (`Keeps`).

What each bit of a step comes to is said once: `exists_of_exitState`,
`exists_of_enterState`, `launchOf_cases`, `exists_of_settleEntry` and `finish_cases`.
-/

namespace Statechart

variable {D : Domain}

/-- A computation in two parts has a result if both parts have one. -/
theorem bind_eq_ok {ε α β : Type} {x : Except ε α} {f : α → Except ε β} {b : β} :
    x >>= f = .ok b ↔ ∃ a, x = .ok a ∧ f a = .ok b := by
  cases x with
  | error e => simp [bind, Except.bind]
  | ok a => simp [bind, Except.bind]

theorem pure_eq_ok {ε α : Type} {a b : α} : (pure a : Except ε α) = .ok b ↔ a = b :=
  Except.ok.injEq a b ▸ Iff.rfl

/-- What every turn of a loop does to its state the loop does to it as well. -/
theorem relates_foldlM {ε α β : Type} {R : β → β → Prop} {f : β → α → Except ε β}
    (hrefl : ∀ b, R b b) (htrans : ∀ {b₁ b₂ b₃}, R b₁ b₂ → R b₂ b₃ → R b₁ b₃)
    (hturn : ∀ {b a b'}, f b a = .ok b' → R b b') :
    ∀ {l : List α} {b b' : β}, l.foldlM f b = .ok b' → R b b'
  | [], b, b', h => by
    rw [List.foldlM_nil, pure_eq_ok] at h
    exact h ▸ hrefl b
  | a :: l, b, b', h => by
    rw [List.foldlM_cons, bind_eq_ok] at h
    obtain ⟨b₁, h₁, h₂⟩ := h
    exact htrans (hturn h₁) (relates_foldlM hrefl htrans hturn h₂)

/-! ## The life stage -/

namespace Shell

variable {s s' : Shell D} {horizon : Nat}

theorem receive_status {c : Call D} (hs : s.status ≠ .notStarted)
    (h : s.receive horizon c = .admitted s') : s'.status = s.status := by
  have hwork : ∀ w, s.receiveWork w = .admitted s' → s'.status = s.status := by
    intro w hw
    unfold receiveWork at hw
    split at hw
    · exact absurd hw (by simp)
    · split at hw <;> simp only [reduceCtorEq, Admission.admitted.injEq] at hw
      exact hw ▸ rfl
  cases c with
  | start =>
    rw [receive] at h
    split at h
    · exact absurd ‹_› hs
    all_goals exact absurd h (by simp)
  | send e => exact hwork _ h
  | tick => exact hwork _ h
  | stop =>
    rw [receive] at h
    split at h <;> simp only [reduceCtorEq, Admission.admitted.injEq] at h
    · exact h ▸ rfl
    · exact h ▸ rfl

/-- A machine that admits a call is running or completed from then on. -/
theorem up_of_receive {c : Call D} (h : s.receive horizon c = .admitted s') :
    s'.status = .running ∨ s'.status = .done := by
  have hwork : ∀ w, s.receiveWork w = .admitted s' → s'.status = .running := by
    intro w hw
    unfold receiveWork at hw
    split at hw
    · exact absurd hw (by simp)
    · split at hw <;> simp only [reduceCtorEq, Admission.admitted.injEq] at hw
      subst hw
      assumption
  cases c with
  | start =>
    rw [receive] at h
    split at h <;> simp only [reduceCtorEq, Admission.admitted.injEq] at h
    exact h ▸ Or.inl rfl
  | send e => exact Or.inl (hwork _ h)
  | tick => exact Or.inl (hwork _ h)
  | stop =>
    rw [receive] at h
    split at h <;> simp only [reduceCtorEq, Admission.admitted.injEq] at h <;> subst h
    · exact Or.inl ‹_›
    · exact Or.inr ‹_›

theorem callInside_status {c : Call D} (hs : s.status ≠ .notStarted) :
    (s.callInside horizon c).1.status = s.status := by
  unfold callInside
  split
  · rfl
  · rfl
  · next s' hr => exact receive_status hs hr

/-- A command does not change the life stage of a machine that was started. -/
theorem perform_status (hs : s.status ≠ .notStarted) (c : Command D) :
    (s.perform horizon c).1.status = s.status := by
  cases c with
  | act change => rfl
  | advance span =>
    rw [perform]
    split <;> rfl
  | send e tell => exact callInside_status hs
  | start tell => exact callInside_status hs
  | stop tell => exact callInside_status hs
  | tick tell => exact callInside_status hs
  | status tell => rfl
  | subscribe react tell => rfl
  | unsubscribe which =>
    rw [perform]
    split <;> rfl
  | panic message => rfl

theorem performAll_status : ∀ (cs : List (Command D)) {s : Shell D}, s.status ≠ .notStarted →
    (s.performAll horizon cs).1.status = s.status
  | [], _, _ => rfl
  | c :: cs, s, hs => by
    have hc : (s.perform horizon c).1.status = s.status := perform_status hs c
    unfold performAll
    split
    · next s' h =>
      rw [h] at hc
      rw [performAll_status cs (by rwa [hc]), hc]
    · next s' message h =>
      rw [h] at hc
      exact hc

theorem tellAll_status {snapshot : Snapshot D} :
    ∀ (ls : List (Listener D)) {s : Shell D}, s.status ≠ .notStarted →
      (s.tellAll horizon snapshot ls).1.status = s.status
  | [], _, _ => rfl
  | l :: ls, s, hs => by
    have hl : ((s.countCall l.id).performAll horizon (l.react l.calls snapshot)).1.status =
        (s.countCall l.id).status := performAll_status _ hs
    unfold tellAll
    split
    · next s' h =>
      rw [h] at hl
      rw [tellAll_status ls (by rw [hl]; exact hs), hl]
      rfl
    · next s' message h =>
      rw [h] at hl
      exact hl

end Shell

namespace Machine

variable {m m' m'' : Machine D} {s x : D.State} {signal : Signal D}

/-- Everything of a machine that leaving and entering states does not touch. -/
structure Keeps (m m' : Machine D) : Prop where
  chart : m'.chart = m.chart
  history : m'.history = m.history
  canInvoke : m'.canInvoke = m.canInvoke
  journal : m'.journal = m.journal
  step : m'.step = m.step
  launched : m'.launched = m.launched
  blocked : m'.blocked = m.blocked
  status : m.status ≠ .notStarted → m'.status = m.status

theorem keeps_refl : Keeps m m := ⟨rfl, rfl, rfl, rfl, rfl, rfl, rfl, fun _ => rfl⟩

theorem keeps_trans (h : Keeps m m') (h' : Keeps m' m'') : Keeps m m'' where
  chart := h'.chart.trans h.chart
  history := h'.history.trans h.history
  canInvoke := h'.canInvoke.trans h.canInvoke
  journal := h'.journal.trans h.journal
  step := h'.step.trans h.step
  launched := h'.launched.trans h.launched
  blocked := h'.blocked.trans h.blocked
  status := by
    intro hs
    have he := h.status hs
    rw [h'.status (by rwa [he]), he]

/-- Listeners leave the life stage as it is. -/
theorem notify_status (hs : m.status ≠ .notStarted) : (m.notify).machine.status = m.status :=
  Shell.tellAll_status _ hs

/-! ## Actions -/

theorem runAction_frame {a : Action D} (h : m.runAction s signal a = .ok m') :
    m' = { m with context := m'.context, shell := m'.shell } ∧
      (m.status ≠ .notStarted → m'.status = m.status) := by
  unfold runAction at h
  split at h
  · split at h
    · rw [Except.ok.injEq] at h
      exact h ▸ ⟨rfl, fun _ => rfl⟩
    · exact absurd h (by simp [halt])
  · next commands _ =>
    split at h
    · next shell hp =>
      rw [Except.ok.injEq] at h
      subst h
      refine ⟨rfl, fun hs => ?_⟩
      have hstatus : (m.shell.performAll m.timers.nextEpoch
          (commands m.context signal m.shell.host)).1.status = m.shell.status :=
        Shell.performAll_status _ hs
      rwa [hp] at hstatus
    · exact absurd h (by simp [halt])

theorem runActions_frame :
    ∀ {actions : List (Action D)} {m : Machine D}, m.runActions s signal actions = .ok m' →
      m' = { m with context := m'.context, shell := m'.shell } ∧
        (m.status ≠ .notStarted → m'.status = m.status)
  | [], m, h => by
    rw [runActions, List.foldlM_nil, pure_eq_ok] at h
    exact h ▸ ⟨rfl, fun _ => rfl⟩
  | a :: actions, m, h => by
    rw [runActions, List.foldlM_cons, bind_eq_ok] at h
    obtain ⟨m₁, h₁, h₂⟩ := h
    obtain ⟨he₁, hs₁⟩ := runAction_frame h₁
    obtain ⟨he₂, hs₂⟩ := runActions_frame (m := m₁) h₂
    refine ⟨?_, fun hs => (hs₂ (by rwa [hs₁ hs])).trans (hs₁ hs)⟩
    rw [he₁] at he₂
    exact he₂

/-- Actions keep what leaving and entering states keeps, and the configuration too. -/
theorem runActions_keeps {actions : List (Action D)} (h : m.runActions s signal actions = .ok m') :
    Keeps m m' ∧ m'.configuration = m.configuration := by
  obtain ⟨he, hs⟩ := runActions_frame h
  rw [he]
  exact ⟨⟨rfl, rfl, rfl, rfl, rfl, rfl, rfl, fun hn => hs hn⟩, rfl⟩

theorem lookup_eq_ok {n : Node D} (h : m.lookup s = .ok n) : m.chart.node? s = some n := by
  unfold lookup at h
  split at h
  · next n' hn => rw [hn, ← Except.ok.inj h]
  · exact absurd h (by simp [halt])

/-! ## Leaving -/

/-- A state is left by cancelling its pending work and running its exit actions. -/
theorem exists_of_exitState (h : m.exitState signal s = .ok m') : ∃ n m₁,
    m.chart.node? s = some n ∧
      { m with timers := m.timers.cancel s, invocations := m.invocations.cancel s }.runActions
        s signal n.exit = .ok m₁ ∧
      m' = { m₁ with configuration := m₁.configuration.erase s } := by
  obtain ⟨n, hn, h⟩ := bind_eq_ok.mp h
  obtain ⟨m₁, h₁, h⟩ := bind_eq_ok.mp h
  exact ⟨n, m₁, lookup_eq_ok hn, h₁, (pure_eq_ok.mp h).symm⟩

/-- On the way to the end a state is left by running its exit actions. -/
theorem exists_of_abandonState (h : m.abandonState s = .ok m') : ∃ n m₁,
    m.chart.node? s = some n ∧ m.runActions s .stop n.exit = .ok m₁ ∧
      m' = { m₁ with configuration := m₁.configuration.erase s } := by
  obtain ⟨n, hn, h⟩ := bind_eq_ok.mp h
  obtain ⟨m₁, h₁, h⟩ := bind_eq_ok.mp h
  exact ⟨n, m₁, lookup_eq_ok hn, h₁, (pure_eq_ok.mp h).symm⟩

theorem exitState_keeps (h : m.exitState signal s = .ok m') :
    Keeps m m' ∧ m'.configuration = m.configuration.erase s := by
  obtain ⟨n, m₁, -, h₁, rfl⟩ := exists_of_exitState h
  obtain ⟨hk, hc⟩ := runActions_keeps h₁
  refine ⟨⟨hk.chart, hk.history, hk.canInvoke, hk.journal, hk.step, hk.launched, hk.blocked,
    hk.status⟩, ?_⟩
  simp only [hc]

/-- Leaving states takes them out of the configuration. -/
theorem exitStates_keeps : ∀ {l : List D.State} {m : Machine D}, m.exitStates signal l = .ok m' →
    Keeps m m' ∧ ∀ x, x ∈ m'.configuration ↔ x ∈ m.configuration ∧ x ∉ l
  | [], m, h => by
    rw [exitStates, List.foldlM_nil, pure_eq_ok] at h
    exact h ▸ ⟨keeps_refl, by simp⟩
  | s :: l, m, h => by
    rw [exitStates, List.foldlM_cons, bind_eq_ok] at h
    obtain ⟨m₁, h₁, h₂⟩ := h
    obtain ⟨hk₁, hc₁⟩ := exitState_keeps h₁
    obtain ⟨hk₂, hc₂⟩ := exitStates_keeps (m := m₁) h₂
    refine ⟨keeps_trans hk₁ hk₂, fun x => ?_⟩
    rw [hc₂, hc₁, StateSet.mem_erase, List.mem_cons, not_or, and_assoc]

/-- The actions of transitions keep the configuration. -/
theorem runTransitions_keeps {taken : List (Selected D)}
    (h : m.runTransitions signal taken = .ok m') :
    Keeps m m' ∧ m'.configuration = m.configuration :=
  relates_foldlM (R := fun m m' : Machine D => Keeps m m' ∧ m'.configuration = m.configuration)
    (fun _ => ⟨keeps_refl, rfl⟩) (fun h h' => ⟨keeps_trans h.1 h'.1, h'.2.trans h.2⟩)
    runActions_keeps h

end Machine

/-! ## Entering -/

namespace Progress

variable {p p' : Progress D} {signal : Signal D} {now : Duration} {s x : D.State}

/-- A state that declares an invocation has it started under the next number. -/
theorem launchOf_cases {n : Node D} (h : p.launchOf n = .ok p') :
    (n.invocation = none ∧ p' = p) ∨ ∃ invocation operation awaiting,
      n.invocation = some invocation ∧ p.machine.canInvoke ∧
        invocation.start p.machine.context = .ok operation ∧
        p' = { p with
          machine := { p.machine with
            invocations := p.machine.invocations.register n.id, awaiting }
          launches := p.launches ++
            [{ state := n.id, id := p.machine.invocations.supply.next, operation }] } := by
  unfold launchOf at h
  split at h
  · next hnone => exact Or.inl ⟨hnone, (Except.ok.inj h).symm⟩
  · next invocation hsome =>
    obtain ⟨⟨m, l⟩, hl, h⟩ := bind_eq_ok.mp h
    obtain rfl := pure_eq_ok.mp h
    unfold Machine.launch at hl
    split at hl
    · exact absurd hl (by simp [Machine.halt])
    · next hcan =>
      split at hl
      · exact absurd hl (by simp [Machine.halt])
      · next operation hstart =>
        rw [Except.ok.injEq, Prod.mk.injEq] at hl
        obtain ⟨rfl, rfl⟩ := hl
        exact Or.inr ⟨invocation, operation, _, hsome, by simpa using hcan, hstart, rfl⟩

theorem launchOf_keeps {n : Node D} (h : p.launchOf n = .ok p') :
    p.machine.Keeps p'.machine ∧ p'.machine.configuration = p.machine.configuration ∧
      p'.settled = p.settled := by
  rcases launchOf_cases h with ⟨-, rfl⟩ | ⟨_, _, _, -, -, -, rfl⟩
  · exact ⟨Machine.keeps_refl, rfl, rfl⟩
  · exact ⟨⟨rfl, rfl, rfl, rfl, rfl, rfl, rfl, fun _ => rfl⟩, rfl, rfl⟩

theorem completeBy_machine (n : Node D) : (p.completeBy n).machine = p.machine := by
  unfold completeBy
  split <;> rfl

/-- A state is entered by running its entry actions, arming its timers and starting its
invocation, in this order. -/
theorem exists_of_enterState (h : p.enterState signal now s = .ok p') : ∃ n m₁ p₁,
    p.machine.chart.node? s = some n ∧
      { p.machine with configuration := p.machine.configuration.insert s }.runActions
        s signal n.entry = .ok m₁ ∧
      { p with machine := m₁.armTimers now n }.launchOf n = .ok p₁ ∧ p' = p₁.completeBy n := by
  obtain ⟨n, hn, h⟩ := bind_eq_ok.mp h
  obtain ⟨m₁, h₁, h⟩ := bind_eq_ok.mp h
  obtain ⟨p₁, hp₁, h⟩ := bind_eq_ok.mp h
  exact ⟨n, m₁, p₁, Machine.lookup_eq_ok hn, h₁, hp₁, (pure_eq_ok.mp h).symm⟩

theorem enterState_keeps (h : p.enterState signal now s = .ok p') :
    p.machine.Keeps p'.machine ∧ p'.machine.configuration = p.machine.configuration.insert s := by
  obtain ⟨n, m₁, p₁, -, h₁, hp₁, rfl⟩ := exists_of_enterState h
  obtain ⟨hk₁, hc₁⟩ := Machine.runActions_keeps h₁
  obtain ⟨hk₂, hc₂, -⟩ := launchOf_keeps hp₁
  rw [completeBy_machine]
  have harm : p.machine.Keeps (m₁.armTimers now n) :=
    ⟨hk₁.chart, hk₁.history, hk₁.canInvoke, hk₁.journal, hk₁.step, hk₁.launched, hk₁.blocked,
      hk₁.status⟩
  exact ⟨Machine.keeps_trans harm hk₂, hc₂.trans hc₁⟩

/-- Entering states puts them into the configuration. -/
theorem foldlM_enterState_keeps : ∀ {l : List D.State} {p : Progress D},
    l.foldlM (fun p s => p.enterState signal now s) p = .ok p' →
      p.machine.Keeps p'.machine ∧
        ∀ x, x ∈ p'.machine.configuration ↔ x ∈ p.machine.configuration ∨ x ∈ l
  | [], p, h => by
    rw [List.foldlM_nil, pure_eq_ok] at h
    exact h ▸ ⟨Machine.keeps_refl, by simp⟩
  | s :: l, p, h => by
    rw [List.foldlM_cons, bind_eq_ok] at h
    obtain ⟨p₁, h₁, h₂⟩ := h
    obtain ⟨hk₁, hc₁⟩ := enterState_keeps h₁
    obtain ⟨hk₂, hc₂⟩ := foldlM_enterState_keeps h₂
    refine ⟨Machine.keeps_trans hk₁ hk₂, fun x => ?_⟩
    rw [hc₂, hc₁, StateSet.mem_insert, List.mem_cons, or_assoc]

theorem close_keeps :
    p.machine.Keeps p.close.machine ∧ p.close.machine.configuration = p.machine.configuration := by
  unfold close
  split <;> exact ⟨⟨rfl, rfl, rfl, rfl, rfl, rfl, rfl, fun _ => rfl⟩, rfl⟩

end Progress

namespace Machine

variable {m m' : Machine D} {signal : Signal D} {p : Progress D} {l l' : List D.State}

/-- A step on its way, when the machine has entered some states. -/
def enterAll (m : Machine D) (signal : Signal D) (l : List D.State) : Attempt D (Progress D) :=
  l.foldlM (fun p s => p.enterState signal m.shell.clock.now s) { machine := m }

theorem enterAll_keeps (h : m.enterAll signal l = .ok p) :
    m.Keeps p.machine ∧ ∀ x, x ∈ p.machine.configuration ↔ x ∈ m.configuration ∨ x ∈ l :=
  Progress.foldlM_enterState_keeps h

/-- States are entered one after another. -/
theorem exists_of_enterAll_append (h : m.enterAll signal (l ++ l') = .ok p) :
    ∃ p', m.enterAll signal l = .ok p' := by
  unfold enterAll at h
  rw [List.foldlM_append, bind_eq_ok] at h
  obtain ⟨p', h', -⟩ := h
  exact ⟨p', h'⟩

/-- The last phase of a step enters states, one after another, and settles the step. -/
theorem exists_of_settleEntry {exited entered : List D.State}
    (h : m.settleEntry signal exited entered = .ok p) : ∃ p', m.enterAll signal entered = .ok p' ∧
      p = { p'.close with
            machine := p'.close.machine.settle signal exited entered
            settled := true } := by
  unfold settleEntry enterStates at h
  obtain ⟨p₁, h₁, h⟩ := bind_eq_ok.mp h
  obtain ⟨p', h', h₁⟩ := bind_eq_ok.mp h₁
  rw [pure_eq_ok] at h h₁
  subst h h₁
  exact ⟨p', h', rfl⟩

/-- What is left of a machine when it settles a step. -/
theorem settleEntry_spec {exited entered : List D.State}
    (h : m.settleEntry signal exited entered = .ok p) :
    p.settled = true ∧ p.machine.chart = m.chart ∧ p.machine.history = m.history ∧
      (m.status ≠ .notStarted → p.machine.status = m.status) ∧
      ∀ x, x ∈ p.machine.configuration ↔ x ∈ m.configuration ∨ x ∈ entered := by
  obtain ⟨p₂, h₂, rfl⟩ := exists_of_settleEntry h
  obtain ⟨hk, hc⟩ := enterAll_keeps h₂
  obtain ⟨hk', hc'⟩ := Progress.close_keeps (p := p₂)
  have hall := keeps_trans hk hk'
  refine ⟨rfl, hall.chart, hall.history, hall.status, fun x => ?_⟩
  change x ∈ p₂.close.machine.configuration ↔ _
  rw [hc', hc]

/-! ## Stopping -/

/-- A machine that stops is torn down; then it faults, or the listeners are told and let go. -/
theorem finish_cases {o : Outcome D} (h : m.finish = some o) :
    (∃ m₁ d, { m with shell := { m.shell with queue := [] } }.teardown = .error (.defect m₁ d) ∧
        o = m₁.fault d) ∨
      ∃ m₁ told listeners, { m with shell := { m.shell with queue := [] } }.teardown = .ok m₁ ∧
        { m₁ with shell := { m₁.shell with status := .stopped } }.notify = told ∧
        o = { told with
              machine := { told.machine with shell := { told.machine.shell with listeners } } } := by
  unfold finish at h
  split at h
  · exact absurd h (by simp)
  · next m₁ d hdown => exact Or.inl ⟨m₁, d, hdown, (Option.some.inj h).symm⟩
  · next m₁ hdown =>
    dsimp only at h
    split at h
    · exact Or.inr ⟨m₁, _, _, hdown, rfl, (Option.some.inj h).symm⟩
    · next hcalm =>
      refine Or.inr ⟨m₁, _, [], hdown, rfl, ?_⟩
      rw [hcalm]
      exact (Option.some.inj h).symm

/-! ## After a step -/

/-- Absorbing a step keeps the chart, the history and the configuration. -/
theorem absorb_spec (p : Progress D) :
    (absorb p).chart = p.machine.chart ∧ (absorb p).history = p.machine.history ∧
      (absorb p).configuration = p.machine.configuration ∧
      ((absorb p).status = p.machine.status ∨ (absorb p).status = .done) := by
  have hfold : ∀ (l : List (Launch D)) (m : Machine D),
      (l.foldl handOver m).chart = m.chart ∧ (l.foldl handOver m).history = m.history ∧
        (l.foldl handOver m).configuration = m.configuration ∧
        (l.foldl handOver m).status = m.status := by
    intro l
    induction l with
    | nil => exact fun m => ⟨rfl, rfl, rfl, rfl⟩
    | cons a l ih => exact fun m => ih (m.handOver a)
  unfold absorb
  dsimp only
  split
  · exact ⟨rfl, rfl, rfl, Or.inr rfl⟩
  · obtain ⟨h₁, h₂, h₃, h₄⟩ := hfold p.launches
      (p.machine.enqueueAll (p.raised.map fun s => .signal (.done s)))
    exact ⟨h₁, h₂, h₃, Or.inl h₄⟩

/-! ## Whether the queue is blocked -/

theorem blocked_settleEntry {exited entered : List D.State}
    (h : m.settleEntry signal exited entered = .ok p) : p.machine.blocked = m.blocked := by
  obtain ⟨p₂, h₂, rfl⟩ := exists_of_settleEntry h
  exact (keeps_trans (enterAll_keeps h₂).1 Progress.close_keeps.1).blocked

theorem blocked_absorb (p : Progress D) : (absorb p).blocked = p.machine.blocked := by
  unfold absorb
  dsimp only
  split
  · rfl
  · exact List.foldlRecOn (motive := fun m : Machine D => m.blocked = p.machine.blocked)
      p.launches handOver rfl fun _ h _ _ => h

/-- The queue is blocked by a listener that panics, and by nobody else. -/
theorem blocked_notify :
    m.notify.machine.blocked = true ↔ m.blocked = true ∨ m.notify.error ≠ none := by
  simp [notify, Option.isSome_iff_ne_none]

end Machine

end Statechart
