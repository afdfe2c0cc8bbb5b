import Mathlib.Data.List.Sort
import Statechart.Proofs.AtRest

/-!
# Firing timers

A tick puts one piece of work into the queue: fire what is due at the present clock reading
and was armed before this moment, the horizon. Each time its turn comes, the first due timer
is taken out (`popDue_spec`) and the work goes to the end of the queue. Between two such
turns the machine processes whatever else is waiting, and timers may be cancelled and armed,
but none is armed before the horizon; so what is due only gets less (`due_of_turn`), and the
timers that fire are some of those due at the beginning, in their order (`fired_sublist`).

The work stays in the queue as long as the machine is running and nothing stops it
(`fired_or_cancelled`): in the end every timer has fired, or a step has left its state.

All of this supposes that nobody asks for another tick on the way (`AsksNoTick`). Then no
other call fires a timer at all (`turns_silent`).
-/

namespace Statechart

variable {D : Domain}

/-- Whether a signal is that of a timer. -/
def Signal.isTimer : Signal D → Bool
  | .timer .. => true
  | _ => false

namespace Timers

variable {S : Type} {q q' : Timers S} {now : Duration} {horizon : Nat}

instance : Std.Antisymm (Timer.before (S := S)) where
  antisymm := by
    intro a b hab hba
    rcases hab with h | ⟨h, h'⟩
    · rcases hba with hba | ⟨hba, -⟩
      · exact absurd (Nat.lt_trans h hba) (Nat.lt_irrefl _)
      · exact absurd h (hba ▸ Nat.lt_irrefl _)
    · rcases hba with hba | ⟨-, hba⟩
      · exact absurd hba (h ▸ Nat.lt_irrefl _)
      · exact absurd (Nat.lt_trans h' hba) (Nat.lt_irrefl _)

/-- In the course of time, what was armed before a horizon and is due only gets less. -/
theorem due_sublist (h : Onward q q') (hh : horizon ≤ q.nextEpoch) :
    (q'.due now horizon).Sublist (q.due now horizon) := by
  refine List.sublist_of_subperm_of_pairwise (List.subperm_of_subset
    (q'.nodup_pending.filter _) fun t ht => ?_) (q'.ordered.filter _) (q.ordered.filter _)
  obtain ⟨hmem, hdue⟩ := List.mem_filter.mp ht
  refine List.mem_filter.mpr ⟨(h.pending t hmem).resolve_right fun hnew => ?_, hdue⟩
  simp only [Timer.isDue, Bool.and_eq_true, decide_eq_true_eq] at hdue
  exact absurd hdue.2 (Nat.not_lt.mpr (Nat.le_trans hh hnew))

end Timers

namespace Machine

/-- The machines at which a signal is processed while a queue is worked off, one after another. -/
def turns : Nat → Machine D → List (Machine D)
  | 0, _ => []
  | fuel + 1, m =>
    if m.shell.stopRequested then []
    else
      match m.nextTurn with
      | .idle => []
      | .skip m => turns fuel m
      | .process m₀ signal later =>
        m :: match m₀.advance signal with
          | some { machine := m', error := none } => turns fuel (m'.enqueueAll later)
          | _ => []

/-- Whether a machine processes the signal of a timer in its next turn. -/
def processesTimer (m : Machine D) : Bool :=
  match m.nextTurn with
  | .process _ signal _ => signal.isTimer
  | .idle | .skip _ => false

/-- The timer that the work at the head of the queue takes out. -/
def fires? (m : Machine D) : Option (Timer D.State) :=
  match m.shell.queue with
  | .timers now horizon :: _ => (m.timers.popDue now horizon).map (·.1)
  | _ => none

/-- The turns in which a queue is worked off. There are none if it is blocked. -/
def turnsOfDrain (m : Machine D) (fuel : Nat) : List (Machine D) :=
  if m.blocked then [] else m.turns fuel

/-- The turns that a call from outside makes a machine take. -/
def turnsOf (m : Machine D) (fuel : Nat) (call : Call D) : List (Machine D) :=
  match m.shell.receive m.timers.nextEpoch call with
  | .admitted shell => { m with shell }.turnsOfDrain fuel
  | .refused _ | .ignored => []

/-- The turns that the result of an invocation makes a machine take. -/
def turnsOfResult (m : Machine D) (fuel : Nat) (s : D.State) (id : InvocationId)
    (result : Except InvokeError D.Output) : List (Machine D) :=
  if m.isLive then
    match m.invocations.settle? s id with
    | none => []
    | some invocations =>
      ({ m with invocations }.enqueueAll [.signal (resultSignal s id result)]).turnsOfDrain fuel
  else []

/-- The clock readings and horizons of the work in the queue that fires timers. -/
def ticks (m : Machine D) : List (Duration × Nat) :=
  m.shell.queue.filterMap fun
    | .timers now horizon => some (now, horizon)
    | .signal _ => none

/-- Whether nobody asks for a tick in the next turn of a machine: when the signal is processed and
the listeners are told, no work that fires timers is in the queue but what was there before. -/
def AsksNoTick (m : Machine D) : Prop :=
  ∀ m₀ signal later o, m.nextTurn = .process m₀ signal later → m₀.advance signal = some o →
    o.machine.ticks ⊆ m₀.ticks

variable {c : Chart D} {m m' m₀ : Machine D} {signal : Signal D} {o : Outcome D} {fuel : Nat}
  {later : List (Work D)} {P : Duration → Nat → Prop} {now : Duration} {horizon : Nat}
  {t : Timer D.State}

/-- The work that fires timers in the queue after the next turn of a machine. -/
def ticksAfter? (m : Machine D) : Option (List (Duration × Nat)) :=
  match m.nextTurn with
  | .process m₀ signal _ => (m₀.advance signal).map (·.machine.ticks)
  | .idle | .skip _ => none

theorem asksNoTick_of_nil (h : m.ticksAfter? = some []) : m.AsksNoTick := by
  intro m₀ signal later o hturn ho
  rw [ticksAfter?, hturn] at h
  simp only [ho, Option.map_some, Option.some.injEq] at h
  rw [h]
  exact List.nil_subset _

theorem mem_ticks : (now, horizon) ∈ m.ticks ↔ .timers now horizon ∈ m.shell.queue := by
  rw [ticks, List.mem_filterMap]
  constructor
  · intro h
    obtain ⟨work, hwork, he⟩ := h
    cases work with
    | timers => simp_all
    | signal => exact absurd he (by simp)
  · exact fun h => ⟨_, h, rfl⟩

/-! ## Turn by turn -/

theorem turns_stop (h : m.shell.stopRequested = true) : m.turns fuel = [] := by
  cases fuel with
  | zero => rfl
  | succ fuel => simp [turns, h]

theorem turns_idle (h : m.nextTurn = .idle) : m.turns fuel = [] := by
  cases fuel with
  | zero => rfl
  | succ fuel => simp [turns, h]

theorem turns_skip (hstop : m.shell.stopRequested = false) (h : m.nextTurn = .skip m') :
    m.turns (fuel + 1) = m'.turns fuel := by
  simp [turns, hstop, h]

/-- The machine goes on to its next turns unless it halts. -/
theorem turns_process (fuel : Nat) (hstop : m.shell.stopRequested = false)
    (h : m.nextTurn = .process m₀ signal later) :
    m.turns (fuel + 1) = [m] ∨ ∃ o, m₀.advance signal = some o ∧ o.error = none ∧
      m.turns (fuel + 1) = m :: (o.machine.enqueueAll later).turns fuel := by
  simp only [turns, hstop, h, Bool.false_eq_true, if_false]
  split
  · next m' he => exact Or.inr ⟨_, he, rfl, rfl⟩
  · exact Or.inl rfl

theorem turns_of_advance (hstop : m.shell.stopRequested = false)
    (h : m.nextTurn = .process m₀ signal later) (ho : m₀.advance signal = some o)
    (hgood : o.error = none) :
    m.turns (fuel + 1) = m :: (o.machine.enqueueAll later).turns fuel := by
  obtain ⟨m', error⟩ := o
  subst hgood
  simp [turns, hstop, h, ho]

/-! ## The work that fires timers -/

/-- A queue whose work firing timers satisfies `P`, and in which no timer's signal waits. -/
structure Asked (P : Duration → Nat → Prop) (m : Machine D) : Prop where
  timers : ∀ now horizon, .timers now horizon ∈ m.shell.queue → P now horizon
  signals : ∀ s i delay, .signal (.timer s i delay) ∉ m.shell.queue

theorem asked_of_subset (hm : Asked P m) (h : m'.shell.queue ⊆ m.shell.queue) : Asked P m' :=
  ⟨fun now horizon hw => hm.timers now horizon (h hw), fun s i delay hw => hm.signals s i delay (h hw)⟩

theorem asked_of_external (work : Work D) (hm : m.shell.queue = [work]) (hwork : work.External)
    (hP : ∀ now horizon, work = .timers now horizon → P now horizon) : Asked P m where
  timers := by
    intro now horizon h
    rw [hm, List.mem_singleton] at h
    exact hP now horizon h.symm
  signals := by
    intro s i delay h
    rw [hm, List.mem_singleton] at h
    subst h
    exact hwork

/-- A turn only takes work out of the queue. -/
theorem queue_of_turn (h : m.nextTurn = .process m₀ signal later) :
    m₀.shell.queue ⊆ m.shell.queue ∧ later ⊆ m.shell.queue := by
  obtain ⟨rest, -, ⟨hqueue, rfl, rfl⟩ | ⟨now, horizon, t, timers, hqueue, rfl, -, -, rfl⟩⟩ :=
    nextTurn_cases h
  · rw [hqueue]
    exact ⟨List.subset_cons_self .., List.nil_subset _⟩
  · rw [hqueue]
    exact ⟨List.subset_cons_self .., List.cons_subset.mpr ⟨List.mem_cons_self .., List.nil_subset _⟩⟩

/-- Processing a signal never puts the signal of a timer into the queue. -/
theorem timer_of_advance {s : D.State} {i : Nat} {delay : Duration} (hm : m.status = .running)
    (h : m.advance signal = some o) (hgood : o.error = none)
    (hw : .signal (.timer s i delay) ∈ o.machine.shell.queue) :
    .signal (.timer s i delay) ∈ m.shell.queue := by
  rcases advance_work hm h with ⟨m₁, d, rfl⟩ | ⟨invocations, -, rfl⟩ |
    ⟨step, p, -, -, -, heffects, hgoes⟩
  · exact absurd hgood (by simp [fault])
  · exact hw
  · have hw := (hgoes.queue _ hw).resolve_right id
    rcases heffects.status with hs | hs
    · obtain ⟨sent, hqueue, hsent, -⟩ := heffects.queue hs
      rw [hqueue] at hw
      rcases List.mem_append.mp hw with hw | hw
      · exact (hsent _ hw).resolve_right id
      · exact absurd hw (by simp)
    · rw [(heffects.done hs).2.2.1] at hw
      exact absurd hw List.not_mem_nil

/-- If nobody asks for a tick, a turn leaves no other work that fires timers in the queue. -/
theorem asked_turn (hm : Asked P m) (hquiet : m.AsksNoTick)
    (hturn : m.nextTurn = .process m₀ signal later) (h : m₀.advance signal = some o)
    (hgood : o.error = none) : Asked P (o.machine.enqueueAll later) := by
  obtain ⟨hqueue, hlater⟩ := queue_of_turn hturn
  obtain ⟨-, hstatus, -⟩ := turn_passes hturn
  constructor
  · intro now horizon hw
    rcases List.mem_append.mp hw with hw | hw
    · exact hm.timers now horizon
        (hqueue (mem_ticks.mp (hquiet m₀ signal later o hturn h (mem_ticks.mpr hw))))
    · exact hm.timers now horizon (hlater hw)
  · intro s i delay hw
    rcases List.mem_append.mp hw with hw | hw
    · exact hm.signals s i delay (hqueue (timer_of_advance hstatus h hgood hw))
    · exact hm.signals s i delay (hlater hw)

theorem asked_skip (hm : Asked P m) (h : m.nextTurn = .skip m') : Asked P m' := by
  obtain ⟨work, hqueue, -⟩ := nextTurn_skip_cases h
  exact asked_of_subset hm (hqueue ▸ List.subset_cons_self ..)

/-- If nobody asks for a tick, none but the work at the beginning fires timers in any turn. -/
theorem asked_of_turns : ∀ {fuel : Nat} {m : Machine D}, Asked P m →
    (∀ turn ∈ m.turns fuel, turn.AsksNoTick) →
      ∀ turn ∈ m.turns fuel, Asked P turn ∧
        ∃ m₀ signal later, turn.nextTurn = .process m₀ signal later
  | 0, _, _, _ => fun _ h => absurd h List.not_mem_nil
  | fuel + 1, m, hm, hquiet => by
    cases hstop : m.shell.stopRequested with
    | true => simp [turns_stop hstop]
    | false =>
      cases hturn : m.nextTurn with
      | idle => simp [turns_idle hturn]
      | skip m' =>
        rw [turns_skip hstop hturn] at hquiet ⊢
        exact asked_of_turns (asked_skip hm hturn) hquiet
      | process m₀ signal later =>
        have hfirst : Asked P m ∧ ∃ m₀ signal later, m.nextTurn = .process m₀ signal later :=
          ⟨hm, m₀, signal, later, hturn⟩
        rcases turns_process fuel hstop hturn with he | ⟨o, ho, hgood, he⟩
        · rw [he]
          exact fun turn h => List.mem_singleton.mp h ▸ hfirst
        · rw [he] at hquiet ⊢
          have hrest := asked_of_turns (asked_turn hm (hquiet m (List.mem_cons_self ..)) hturn ho hgood)
            fun turn h => hquiet turn (List.mem_cons_of_mem _ h)
          intro turn h
          rcases List.mem_cons.mp h with rfl | h
          · exact hfirst
          · exact hrest turn h

/-- A timer's signal is processed exactly when a timer is taken out. -/
theorem processesTimer_eq (hm : Asked P m) (hturn : m.nextTurn = .process m₀ signal later) :
    m.processesTimer = m.fires?.isSome := by
  obtain ⟨rest, -, ⟨hqueue, -⟩ | ⟨now, horizon, t, timers, hqueue, -, hpop, rfl, -⟩⟩ :=
    nextTurn_cases hturn
  · have hnone : signal.isTimer = false := by
      cases signal with
      -- a timer's signal is never put into the queue
      | timer s i delay => exact absurd (hqueue ▸ List.mem_cons_self ..) (hm.signals s i delay)
      | _ => rfl
    simp [processesTimer, fires?, hturn, hqueue, hnone]
  · simp [processesTimer, fires?, hturn, hqueue, hpop, Signal.isTimer]

/-! ## What is due -/

/-- What is due after a turn was due before it, except for what the turn took out. -/
theorem due_of_advance (hm : m.status = .running) (hh : horizon ≤ m.timers.nextEpoch)
    (h : m.advance signal = some o) (hgood : o.error = none) :
    horizon ≤ o.machine.timers.nextEpoch ∧
      (o.machine.timers.due now horizon).Sublist (m.timers.due now horizon) := by
  rcases advance_work hm h with ⟨m₁, d, rfl⟩ | ⟨invocations, -, rfl⟩ |
    ⟨step, p, -, -, -, heffects, hgoes⟩
  · exact absurd hgood (by simp [fault])
  · exact ⟨hh, List.Sublist.refl _⟩
  · rw [hgoes.timers]
    exact ⟨Nat.le_trans hh heffects.onward.epoch, Timers.due_sublist heffects.onward hh⟩

/-- The timers that fire are among those due at first, in their order. -/
theorem fired_sublist : ∀ {fuel : Nat} {m : Machine D},
    Asked (fun n h => n = now ∧ h = horizon) m → horizon ≤ m.timers.nextEpoch →
    (∀ turn ∈ m.turns fuel, turn.AsksNoTick) →
      ((m.turns fuel).filterMap fires?).Sublist (m.timers.due now horizon)
  | 0, _, _, _, _ => List.nil_sublist _
  | fuel + 1, m, hm, hh, hquiet => by
    cases hstop : m.shell.stopRequested with
    | true => simp [turns_stop hstop]
    | false =>
      cases hturn : m.nextTurn with
      | idle => simp [turns_idle hturn]
      | skip m' =>
        rw [turns_skip hstop hturn] at hquiet ⊢
        have htimers : m'.timers = m.timers := by rw [nextTurn_skip hturn]
        rw [← htimers] at hh ⊢
        exact fired_sublist (asked_skip hm hturn) hh hquiet
      | process m₀ signal later =>
        obtain ⟨hpasses, hstatus, -⟩ := turn_passes hturn
        -- the turns after this one fire some of the timers that this one leaves
        have hrest : ∃ rest, m.turns (fuel + 1) = m :: rest ∧
            (rest.filterMap fires?).Sublist (m₀.timers.due now horizon) := by
          rcases turns_process fuel hstop hturn with he | ⟨o, ho, hgood, he⟩
          · exact ⟨[], he, List.nil_sublist _⟩
          · rw [he] at hquiet
            have hasked := asked_turn hm (hquiet m (List.mem_cons_self ..)) hturn ho hgood
            obtain ⟨hh', hdue⟩ := due_of_advance hstatus (hpasses.epoch ▸ hh) ho hgood
            exact ⟨_, he, (fired_sublist hasked hh'
              fun turn h => hquiet turn (List.mem_cons_of_mem _ h)).trans hdue⟩
        obtain ⟨rest, he, hsub⟩ := hrest
        rw [he]
        obtain ⟨queue, -, ⟨hqueue, -, rfl⟩ | ⟨now', horizon', t, timers, hqueue, -, hpop, -, rfl⟩⟩ :=
          nextTurn_cases hturn
        · rw [List.filterMap_cons_none (by simp [fires?, hqueue])]
          exact hsub
        -- the timer taken out is the first of those due, and the rest are what it leaves
        · obtain ⟨rfl, rfl⟩ := hm.timers now' horizon' (hqueue ▸ List.mem_cons_self ..)
          rw [List.filterMap_cons_some (b := t) (by simp [fires?, hqueue, hpop]),
            (Timers.popDue_spec hpop).1]
          exact hsub.cons_cons t

/-! ## What fires in the end -/

theorem nextTurn_running (hm : m.status = .running) (h : m.nextTurn = .skip m') :
    ∃ now horizon, m.shell.queue = .timers now horizon :: m'.shell.queue ∧
      m.timers.due now horizon = [] := by
  obtain ⟨work, hqueue, hstatus | ⟨now, horizon, rfl, hpop⟩⟩ := nextTurn_skip_cases h
  · exact absurd hm hstatus
  · exact ⟨now, horizon, hqueue, Timers.popDue_eq_none.mp hpop⟩

/-- A machine that is running when its queue is worked off was running all the time, and nobody
asked to stop it. -/
theorem running_of_workOff : ∀ {fuel : Nat} {m : Machine D}, m.status ≠ .notStarted →
    m.workOff fuel = some o → o.machine.status = .running →
      m.status = .running ∧ m.shell.stopRequested = false
  | 0, _, _, h, _ => absurd h (by simp [workOff])
  | fuel + 1, m, hm, h, hend => by
    unfold workOff at h
    split at h
    · next hstop =>
      rcases (finish_work hm hstop h).1 with he | he <;> simp [he] at hend
    · next hstop =>
      rw [Bool.not_eq_true] at hstop
      refine ⟨?_, hstop⟩
      split at h
      · rw [Option.some.injEq] at h
        subst h
        exact hend
      · next m' hturn =>
        have he : m'.status = m.status := by
          rw [nextTurn_skip hturn]
          rfl
        exact he ▸ (running_of_workOff (he ▸ hm) h hend).1
      · next hturn => exact (nextTurn_process hturn).1

/-- As long as the machine runs and nobody asks to stop it, work goes on waiting, and timers go on
pending unless their state is left. -/
theorem waits_of_advance (hm : m.status = .running) (h : m.advance signal = some o)
    (hgood : o.error = none) (hrunning : o.machine.status = .running)
    (hstop : o.machine.shell.stopRequested = false) :
    m.shell.queue <+: o.machine.shell.queue ∧ ∀ t ∈ m.timers.pending,
      t ∈ o.machine.timers.pending ∨ ∃ step p, m.Settles step p ∧ step.signal = signal ∧
        (absorb p).notify.error = none ∧ t.state ∈ step.exited := by
  rcases advance_work hm h with ⟨m₁, d, rfl⟩ | ⟨invocations, -, rfl⟩ |
    ⟨step, p, hstep, hsignal, rfl, heffects, hgoes⟩
  · exact absurd hgood (by simp [fault])
  · exact ⟨List.prefix_refl _, fun t ht => Or.inl ht⟩
  · have hstatus : step.after.status = .running := hgoes.status ▸ hrunning
    have hafter := (settled_of_settles hstep).2
    have hleads : step.after.shell.Leads (absorb p).notify.machine.shell := hafter ▸ notify_leads
    have hstop' : step.after.shell.stopRequested = false := by
      cases hs : step.after.shell.stopRequested with
      | false => rfl
      | true => exact absurd (hleads.stop hs) (by simp [hstop])
    obtain ⟨sent, hqueue, -, hwaits⟩ := heffects.queue hstatus
    -- actions and listeners only append to the queue
    have hsent : m.shell.queue <+: step.after.shell.queue := by
      rw [hqueue]
      exact (hwaits hstop').trans (List.prefix_append ..)
    refine ⟨hsent.trans (hleads.waits hstop), fun t ht => ?_⟩
    by_cases hx : t.state ∈ step.exited
    · exact Or.inr ⟨step, p, hstep, hsignal, hgood, hx⟩
    · rw [hgoes.timers]
      exact Or.inl (heffects.kept hstatus t ht hx)

/-- Whether a machine cancels a pending timer in its next turn: the step leaves its state. -/
def Cancels (m : Machine D) (t : Timer D.State) : Prop :=
  t ∈ m.timers.pending ∧ ∃ step m', m.Settling step m' ∧ t.state ∈ step.exited

/-- A turn with the work that fires timers in the queue leaves it there, and of the timers due it
fires one, or cancels some. -/
theorem due_of_turn (hm : Asked (fun n h => n = now ∧ h = horizon) m)
    (hwork : .timers now horizon ∈ m.shell.queue) (hserves : m.Serves false)
    (hturn : m.nextTurn = .process m₀ signal later) (ho : m₀.advance signal = some o)
    (hgood : o.error = none) (hrunning : o.machine.status = .running)
    (hgoing : o.machine.shell.stopRequested = false) :
    .timers now horizon ∈ (o.machine.enqueueAll later).shell.queue ∧
      ∀ t ∈ m.timers.due now horizon, m.fires? = some t ∨ m.Cancels t ∨
        t ∈ o.machine.timers.due now horizon := by
  obtain ⟨hpasses, hstatus, -⟩ := turn_passes hturn
  obtain ⟨hwaits, hkept⟩ := waits_of_advance hstatus ho hgood hrunning hgoing
  have hrest : ∀ t ∈ m₀.timers.due now horizon,
      m.Cancels t ∨ t ∈ o.machine.timers.due now horizon := by
    intro t ht
    obtain ⟨hpending, hdue⟩ := List.mem_filter.mp ht
    rcases hkept t hpending with hpending' | ⟨step, p, hstep, rfl, hcalm, hx⟩
    · exact Or.inr (List.mem_filter.mpr ⟨hpending', hdue⟩)
    · exact Or.inl ⟨hpasses.timers hpending, step, _, .turn hserves hturn hstep hcalm, hx⟩
  -- the turn processes a signal, or fires the first timer that is due
  obtain ⟨queue, -, ⟨hqueue, -, rfl⟩ | ⟨now', horizon', t', timers, hqueue, rfl, hpop, -, rfl⟩⟩ :=
    nextTurn_cases hturn
  · rw [hqueue] at hwork
    refine ⟨List.mem_append_left _ (hwaits.subset ?_), fun t ht => Or.inr (hrest t ht)⟩
    exact (List.mem_cons.mp hwork).resolve_left (by simp)
  · obtain ⟨rfl, rfl⟩ := hm.timers now' horizon' (hqueue ▸ List.mem_cons_self ..)
    refine ⟨List.mem_append_right _ (List.mem_cons_self ..), fun t ht => ?_⟩
    rw [(Timers.popDue_spec hpop).1] at ht
    rcases List.mem_cons.mp ht with rfl | ht
    · exact Or.inl (by simp [fires?, hqueue, hpop])
    · exact Or.inr (hrest t ht)

/-- If the work that fires timers is in the queue and the machine is running in the end, what was due
has fired or was cancelled. -/
theorem fired_or_cancelled : ∀ {fuel : Nat} {m : Machine D},
    Asked (fun n h => n = now ∧ h = horizon) m → (∀ turn ∈ m.turns fuel, turn.AsksNoTick) →
    m.status = .running → m.blocked = false → .timers now horizon ∈ m.shell.queue →
    m.workOff fuel = some o → o.error = none → o.machine.status = .running →
    ∀ t ∈ m.timers.due now horizon, ∃ turn ∈ m.turns fuel, turn.fires? = some t ∨ turn.Cancels t
  | 0, _, _, _, _, _, _, h, _, _ => absurd h (by simp [workOff])
  | fuel + 1, m, hm, hquiet, hrun, hfree, hwork, h, hgood, hend => by
    obtain ⟨-, hstop⟩ := running_of_workOff (by simp [hrun]) h hend
    unfold workOff at h
    rw [hstop, if_neg (by simp)] at h
    cases hturn : m.nextTurn with
    | idle =>
      rw [nextTurn_idle hturn] at hwork
      exact absurd hwork List.not_mem_nil
    | skip m' =>
      -- work that fires timers is only dropped when no timer is due
      obtain ⟨now', horizon', hqueue, hdue⟩ := nextTurn_running hrun hturn
      obtain ⟨rfl, rfl⟩ := hm.timers now' horizon' (hqueue ▸ List.mem_cons_self ..)
      rw [hdue]
      exact fun t ht => absurd ht List.not_mem_nil
    | process m₀ signal later =>
      rw [hturn] at h
      obtain ⟨o', ho', h⟩ := Option.bind_eq_some_iff.mp h
      obtain ⟨-, hstatus, -⟩ := turn_passes hturn
      split at h
      · next e he =>
        rw [Option.pure_def, Option.some.injEq] at h
        subst h
        exact absurd hgood (by simp [he])
      · next hgood' =>
        have hstarted : (o'.machine.enqueueAll later).status ≠ .notStarted := by
          change o'.machine.status ≠ _
          rcases up_of_advance hstatus ho' hgood' with hup | hup <;> simp [hup]
        obtain ⟨hrunning, hgoing⟩ := running_of_workOff hstarted h hend
        have hfree' : (o'.machine.enqueueAll later).blocked = false :=
          (blocked_of_advance ho' hgood').trans (by rw [(nextTurn_process hturn).2]; exact hfree)
        obtain ⟨hwork', hdue⟩ :=
          due_of_turn hm hwork ⟨hfree, hstop⟩ hturn ho' hgood' hrunning hgoing
        rw [turns_of_advance hstop hturn ho' hgood'] at hquiet ⊢
        have hasked := asked_turn hm (hquiet m (List.mem_cons_self ..)) hturn ho' hgood'
        intro t ht
        rcases hdue t ht with hfires | hcancels | ht
        · exact ⟨m, List.mem_cons_self .., Or.inl hfires⟩
        · exact ⟨m, List.mem_cons_self .., Or.inr hcancels⟩
        · obtain ⟨turn, hturn, hover⟩ := fired_or_cancelled hasked
            (fun turn h => hquiet turn (List.mem_cons_of_mem _ h)) hrunning hfree' hwork' h hgood
            hend t ht
          exact ⟨turn, List.mem_cons_of_mem _ hturn, hover⟩

/-! ## Calls -/

/-- At a machine at rest, calls that are no ticks put no work into the queue that fires timers. -/
theorem asked_call {call : Call D} {shell : Shell D} (hqueue : m.shell.queue = [])
    (h : m.shell.receive m.timers.nextEpoch call = .admitted shell)
    (hP : call = .tick → P m.shell.clock.now m.timers.nextEpoch) : Asked P { m with shell } := by
  have hone : ∀ work : Work D, work.External → shell = m.shell.enqueue work →
      (∀ now horizon, work = .timers now horizon → P now horizon) →
      Asked P { m with shell } := by
    intro work hwork he hP
    refine asked_of_external work ?_ hwork hP
    simp [he, Shell.enqueue, hqueue]
  cases call with
  | start =>
    rw [Shell.receive] at h
    split at h <;> simp only [reduceCtorEq, Admission.admitted.injEq] at h
    refine asked_of_external (.signal .start) ?_ trivial fun _ _ h => absurd h (by simp)
    simp [← h, Shell.enqueue, hqueue]
  | send e =>
    have hwork : (Work.signal (.event e) : Work D).External := trivial
    exact hone _ hwork (Shell.receiveWork_admitted h).2.2 fun _ _ h => absurd h (by simp)
  | tick =>
    have hwork : (Work.timers m.shell.clock.now m.timers.nextEpoch : Work D).External := trivial
    refine hone _ hwork (Shell.receiveWork_admitted h).2.2 fun now horizon he => ?_
    rw [Work.timers.injEq] at he
    exact he.1 ▸ he.2 ▸ hP rfl
  | stop =>
    rw [Shell.receive] at h
    split at h <;> simp only [reduceCtorEq, Admission.admitted.injEq] at h
    all_goals
      subst h
      exact ⟨fun _ _ h => absurd h List.not_mem_nil, fun _ _ _ => List.not_mem_nil⟩

theorem turnsOfDrain_of_free (hfree : m.blocked = false) (fuel : Nat) :
    m.turnsOfDrain fuel = m.turns fuel := by
  simp [turnsOfDrain, hfree]

/-- If no work in the queue fires timers and nobody asks for a tick, no timer fires. -/
theorem turns_silent (hm : Asked (fun _ _ => False) m)
    (hquiet : ∀ turn ∈ m.turnsOfDrain fuel, turn.AsksNoTick) :
    ∀ turn ∈ m.turnsOfDrain fuel, turn.fires? = none ∧ turn.processesTimer = false := by
  unfold turnsOfDrain at hquiet ⊢
  split at hquiet
  · next hblocked =>
    rw [if_pos hblocked]
    exact fun turn h => absurd h List.not_mem_nil
  next hfree =>
  rw [if_neg hfree]
  intro turn h
  obtain ⟨hasked, m₀, signal, later, hturn⟩ := asked_of_turns hm hquiet turn h
  have hnone : turn.fires? = none := by
    unfold fires?
    split
    · next now horizon rest hqueue =>
      exact (hasked.timers now horizon (hqueue ▸ List.mem_cons_self ..)).elim
    · rfl
  rw [processesTimer_eq hasked hturn, hnone]
  exact ⟨rfl, rfl⟩

/-- The signals of timers that are processed are as many as the timers that fire. -/
theorem countP_processesTimer (hm : Asked P m) (hquiet : ∀ turn ∈ m.turns fuel, turn.AsksNoTick) :
    (m.turns fuel).countP processesTimer =
      ((m.turns fuel).filterMap fires?).length := by
  rw [List.length_filterMap_eq_countP]
  refine List.countP_congr fun turn h => ?_
  obtain ⟨hasked, m₀, signal, later, hturn⟩ := asked_of_turns hm hquiet turn h
  rw [processesTimer_eq hasked hturn]

/-- The turns of a tick that is admitted by a machine with nothing in its queue. -/
theorem turns_of_tick {shell : Shell D} (hqueue : m.shell.queue = []) (hfree : m.blocked = false)
    (hr : m.shell.receive m.timers.nextEpoch .tick = .admitted shell)
    (hquiet : ∀ turn ∈ { m with shell }.turns fuel, turn.AsksNoTick) :
    (({ m with shell }.turns fuel).filterMap fires?).Sublist
        (m.timers.due m.shell.clock.now m.timers.nextEpoch) ∧
      ({ m with shell }.turns fuel).countP processesTimer =
        (({ m with shell }.turns fuel).filterMap fires?).length ∧
      ∀ o, { m with shell }.workOff fuel = some o → o.error = none → o.machine.status = .running →
        ∀ t ∈ m.timers.due m.shell.clock.now m.timers.nextEpoch,
          ∃ turn ∈ { m with shell }.turns fuel, turn.fires? = some t ∨ turn.Cancels t := by
  have hasked : Asked (fun n h => n = m.shell.clock.now ∧ h = m.timers.nextEpoch)
      { m with shell } := asked_call hqueue hr fun _ => ⟨rfl, rfl⟩
  obtain ⟨-, hstatus, he⟩ :=
    Shell.receiveWork_admitted (w := .timers m.shell.clock.now m.timers.nextEpoch) hr
  refine ⟨fired_sublist hasked (Nat.le_refl _) hquiet, countP_processesTimer hasked hquiet,
    fun o ho hgood hend => fired_or_cancelled hasked hquiet ?_ hfree ?_ ho hgood hend⟩
  · rw [he]
    exact hstatus
  · rw [he]
    exact List.mem_append_right _ (List.mem_cons_self ..)

/-- What a tick does for the timers that are due when it begins. -/
theorem due_of_tick (hqueue : m.shell.queue = []) (hfree : m.Up → m.blocked = false)
    (hquiet : ∀ turn ∈ m.turnsOf fuel .tick, turn.AsksNoTick) :
    ((m.turnsOf fuel .tick).filterMap fires?).Sublist
        (m.timers.due m.shell.clock.now m.timers.nextEpoch) ∧
      (m.turnsOf fuel .tick).countP processesTimer =
        ((m.turnsOf fuel .tick).filterMap fires?).length ∧
      ∀ o, m.call fuel .tick = some o → o.error = none → o.machine.status = .running →
        ∀ t ∈ m.timers.due m.shell.clock.now m.timers.nextEpoch,
          ∃ turn ∈ m.turnsOf fuel .tick, turn.fires? = some t ∨ turn.Cancels t := by
  unfold turnsOf at hquiet ⊢
  cases hr : m.shell.receive m.timers.nextEpoch .tick with
  | refused r =>
    refine ⟨by simp, by simp, fun o ho hgood => ?_⟩
    simp only [Machine.call, hr, Option.some.injEq] at ho
    exact absurd hgood (by simp [← ho])
  | ignored =>
    refine ⟨by simp, by simp, fun o ho _ hend => ?_⟩
    simp only [Machine.call, hr, Option.some.injEq] at ho
    have hdone : m.status = .done := Shell.receiveWork_ignored hr
    exact absurd hend (by simp [← ho, hdone])
  | admitted shell =>
    rw [hr] at hquiet
    have hup : m.Up := Or.inl (Shell.receiveWork_admitted hr).2.1
    have hfree' : { m with shell }.blocked = false := hfree hup
    simp only [turnsOfDrain_of_free hfree'] at hquiet ⊢
    obtain ⟨hsub, hcount, hall⟩ := turns_of_tick hqueue hfree' hr hquiet
    refine ⟨hsub, hcount, fun o ho hgood hend => ?_⟩
    simp only [Machine.call, hr, drain_of_free hfree'] at ho
    obtain ⟨o', ho', rfl⟩ := Option.map_eq_some_iff.mp ho
    obtain ⟨worked, he⟩ := noted_eq o'
    rw [he] at hgood hend
    exact hall o' ho' hgood hend

/-- A call that does not ask for a tick fires no timer. -/
theorem silent_of_call {call : Call D} (hqueue : m.shell.queue = []) (hcall : call ≠ .tick)
    (hquiet : ∀ turn ∈ m.turnsOf fuel call, turn.AsksNoTick) :
    ∀ turn ∈ m.turnsOf fuel call, turn.fires? = none ∧ turn.processesTimer = false := by
  unfold turnsOf at hquiet ⊢
  split at hquiet
  · next shell hr => exact turns_silent (asked_call hqueue hr fun h => absurd h hcall) hquiet
  all_goals exact fun turn h => absurd h List.not_mem_nil

/-- Nor does the result of an invocation. -/
theorem silent_of_result {s : D.State} {id : InvocationId} {result : Except InvokeError D.Output}
    (hqueue : m.shell.queue = [])
    (hquiet : ∀ turn ∈ m.turnsOfResult fuel s id result, turn.AsksNoTick) :
    ∀ turn ∈ m.turnsOfResult fuel s id result,
      turn.fires? = none ∧ turn.processesTimer = false := by
  unfold turnsOfResult at hquiet ⊢
  split at hquiet
  · next hlive =>
    rw [if_pos hlive]
    split at hquiet
    · exact fun turn h => absurd h List.not_mem_nil
    · refine turns_silent (asked_of_external (.signal (resultSignal s id result)) ?_ ?_
        fun _ _ h => absurd h (by simp)) hquiet
      · simp [enqueueAll, hqueue]
      · cases result <;> trivial
  · next hlive =>
    rw [if_neg hlive]
    exact fun turn h => absurd h List.not_mem_nil

end Machine

open Machine

variable {c : Chart D} {m : Machine D} {fuel : Nat}

/-- Of the timers due when a tick begins, some fire in their order and none twice, and no other timer
does; if the machine is running in the end, those that did not fire were cancelled as their state
was left. No other call, and no result of an invocation, fires a timer. All this holds unless
somebody asks for a tick on the way. -/
theorem tick_fires (hm : AtRest c m) :
    ((∀ turn ∈ m.turnsOf fuel .tick, turn.AsksNoTick) →
      let due := m.timers.pending.filter (·.deadline ≤ m.shell.clock.now)
      let fired := (m.turnsOf fuel .tick).filterMap fires?
      fired.Sublist due ∧ fired.Pairwise Timer.before ∧
        (m.turnsOf fuel .tick).countP processesTimer ≤ due.length ∧
        ∀ o, m.call fuel .tick = some o → o.error = none → o.machine.status = .running →
          ∀ t ∈ due, t ∈ fired ∨ ∃ turn ∈ m.turnsOf fuel .tick, turn.Cancels t) ∧
    (∀ call, call ≠ .tick → (∀ turn ∈ m.turnsOf fuel call, turn.AsksNoTick) →
      ∀ turn ∈ m.turnsOf fuel call, turn.fires? = none ∧
        turn.processesTimer = false) ∧
    ∀ s id result, (∀ turn ∈ m.turnsOfResult fuel s id result, turn.AsksNoTick) →
      ∀ turn ∈ m.turnsOfResult fuel s id result, turn.fires? = none ∧
        turn.processesTimer = false := by
  obtain ⟨-, hqueue⟩ := run_of_atRest hm
  refine ⟨fun hquiet => ?_, fun call hcall hquiet => silent_of_call hqueue hcall hquiet,
    fun s id result hquiet => silent_of_result hqueue hquiet⟩
  have hdue : m.timers.due m.shell.clock.now m.timers.nextEpoch =
      m.timers.pending.filter (·.deadline ≤ m.shell.clock.now) := by
    refine List.filter_congr fun t ht => ?_
    simp [Timer.isDue, m.timers.fresh t ht]
  rw [← hdue]
  have hfree : m.Up → m.blocked = false := fun hup => free_of_atRest hm (not_ended_of_up hup)
  obtain ⟨hsub, hcount, hall⟩ := due_of_tick hqueue hfree hquiet
  refine ⟨hsub, (m.timers.ordered.filter _).sublist hsub, hcount ▸ hsub.length_le,
    fun o ho hgood hend t ht => ?_⟩
  obtain ⟨turn, hturn, hfires | hcancels⟩ := hall o ho hgood hend t ht
  · exact Or.inl (List.mem_filterMap.mpr ⟨turn, hturn, hfires⟩)
  · exact Or.inr ⟨turn, hturn, hcancels⟩

/-! ## A kitchen -/

inductive KitchenState | kitchen | cooking | rice | boiling | steamed | soup | simmering | eggs | served
deriving DecidableEq

/-- A kitchen with rice, soup and eggs on the stove. The meal is served while the eggs are not yet
done. -/
def kitchenTree : StateTree (.bare KitchenState) :=
  .bare .kitchen (.compound .cooking) []
    [.bare .cooking .parallel [.bareOn (.after (.ofMillis 5000)) .served]
      [.bare .rice (.compound .boiling) []
        [.bare .boiling .atomic [.bareOn (.after (.ofMillis 3000)) .steamed],
        .bare .steamed .atomic [.bareOn (.after (.ofMillis 1000)) .boiling]],
      .bare .soup (.compound .simmering) []
        [.bare .simmering .atomic [.bareOn (.after (.ofMillis 3000)) .simmering]],
      .bare .eggs .atomic [.bareOn (.after (.ofMillis 7000)) .eggs]],
    .bare .served .atomic]

def kitchen : Chart (.bare KitchenState) :=
  { kitchenTree.outline with tree := kitchenTree, outline_eq := rfl, flawless := by cbv }

/-- A kitchen that has been cooking for ten seconds. -/
def lateKitchen : Machine (.bare KitchenState) :=
  (kitchen.machine.after 9 [.start]).setClock (.ofMillis 10000)

theorem atRest_lateKitchen : AtRest kitchen lateKitchen :=
  (atRest_after kitchen.atRest_machine 9 [.start]).outside

/-- A late tick fires the timers of the rice, of the soup and of the meal, and the meal is served: the
timer of the eggs is due as well, but is cancelled. -/
theorem kitchen_serves :
    ((lateKitchen.turnsOf 9 .tick).filterMap fires?).map (·.state) =
        [.boiling, .simmering, .cooking] ∧
      ∃ t ∈ lateKitchen.timers.pending, t.state = .eggs ∧
        ∃ turn ∈ lateKitchen.turnsOf 9 .tick, turn.Cancels t := by
  have hfired : ((lateKitchen.turnsOf 9 .tick).filterMap fires?).map (·.state) =
      [.boiling, .simmering, .cooking] := by cbv
  have hticks : (lateKitchen.turnsOf 9 .tick).map ticksAfter? = [some [], some [], some []] := by cbv
  have hquiet : ∀ turn ∈ lateKitchen.turnsOf 9 .tick, turn.AsksNoTick := by
    intro turn hturn
    have hafter := List.mem_map_of_mem (f := ticksAfter?) hturn
    rw [hticks] at hafter
    exact asksNoTick_of_nil (by simpa using hafter)
  have hcall : (lateKitchen.call 9 .tick).map (fun o => (o.error, o.machine.status)) =
      some (none, .running) := by cbv
  have hdue : (lateKitchen.timers.pending.filter (·.deadline ≤ lateKitchen.shell.clock.now)).map
      (·.state) = [.boiling, .simmering, .cooking, .eggs] := by cbv
  obtain ⟨o, ho, he⟩ := Option.map_eq_some_iff.mp hcall
  rw [Prod.mk.injEq] at he
  obtain ⟨-, -, -, hall⟩ := (tick_fires atRest_lateKitchen).1 hquiet
  have heggs : KitchenState.eggs ∈ (lateKitchen.timers.pending.filter
      (·.deadline ≤ lateKitchen.shell.clock.now)).map (·.state) := by
    rw [hdue]
    decide
  obtain ⟨t, ht, hstate⟩ := List.mem_map.mp heggs
  refine ⟨hfired, t, (List.mem_filter.mp ht).1, hstate, ?_⟩
  refine (hall o ho he.1 he.2 t ht).resolve_left fun hfires => ?_
  have hmem := List.mem_map_of_mem (f := fun t : Timer KitchenState => t.state) hfires
  rw [hfired, hstate] at hmem
  exact absurd hmem (by decide)

end Statechart
