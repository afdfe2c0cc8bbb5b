import Statechart.Proofs.Journal

/-!
# Telling the listeners

Whoever listens is told of every step when it is settled, and of nothing else. A listener runs
while the queue is worked off: it may send events, ask to stop, and change who listens, itself
included. All this happens around the machine and not in it. What a listener sends waits in the
queue, and who is told of a step was settled as the telling began.

From outside listeners come and go as they do from inside (`Shell.Regroups`). A run in which nobody
meddles with them otherwise (`Attends`) covers every call and every result (`attends_call`,
`attends_deliver`). On such a run listeners are told apart by their numbers (`Shell.Registered`),
and the number of times that a listener was called is the number of steps settled since it
listens (`heard_of_attends`).
-/

namespace Statechart

variable {D : Domain}

/-! ## Coming and going -/

namespace Shell

/-- Listeners are told apart by their numbers, and no number is given twice. -/
structure Registered (s : Shell D) : Prop where
  distinct : (s.listeners.map (·.id)).Nodup
  known : ∀ l ∈ s.listeners, l.id < s.nextListener

/-- Some begin to listen and some stop, whatever else happens to the shell. Nobody is called. -/
inductive Regroups (s : Shell D) : Shell D → Prop
  | same {s' : Shell D} :
      s'.listeners = s.listeners → s'.nextListener = s.nextListener → Regroups s s'
  | subscribe {s' s'' : Shell D} {react : Reaction D} :
      Regroups s s' → s''.listeners = s'.listeners ++ [{ id := s'.nextListener, react }] →
      s''.nextListener = s'.nextListener + 1 → Regroups s s''
  | unsubscribe {s' s'' : Shell D} {id : Nat} :
      Regroups s s' → s''.listeners = s'.listeners.filter (·.id ≠ id) →
      s''.nextListener = s'.nextListener → Regroups s s''

variable {s s' s'' : Shell D} {horizon : Nat} {snapshot : Snapshot D} {l l' : Listener D}
  {front back ls : List (Listener D)}

theorem regroups_refl : Regroups s s := .same rfl rfl

theorem regroups_trans (h : Regroups s s') (h' : Regroups s' s'') : Regroups s s'' := by
  induction h' with
  | @same s'' hlisteners hnext =>
    -- the last shell may differ from the one before in everything else
    cases h with
    | same hl hn => exact .same (hlisteners.trans hl) (hnext.trans hn)
    | subscribe h hl hn => exact .subscribe h (hlisteners.trans hl) (hnext.trans hn)
    | unsubscribe h hl hn => exact .unsubscribe h (hlisteners.trans hl) (hnext.trans hn)
  | subscribe _ hl hn ih => exact .subscribe ih hl hn
  | unsubscribe _ hl hn ih => exact .unsubscribe ih hl hn

theorem registered_of_regroups (hs : s.Registered) (h : Regroups s s') : s'.Registered := by
  induction h with
  | same hlisteners hnext => exact ⟨hlisteners ▸ hs.distinct, hlisteners ▸ hnext ▸ hs.known⟩
  | @subscribe s' s'' react _ hlisteners hnext ih =>
    refine ⟨?_, fun l hl => ?_⟩
    · rw [hlisteners, List.map_append, List.map_singleton, List.nodup_append]
      refine ⟨ih.distinct, List.nodup_singleton _, fun a ha b hb => ?_⟩
      obtain ⟨l, hl, rfl⟩ := List.mem_map.mp ha
      exact List.mem_singleton.mp hb ▸ Nat.ne_of_lt (ih.known l hl)
    · rw [hnext]
      rw [hlisteners, List.mem_append, List.mem_singleton] at hl
      rcases hl with hl | rfl
      · exact Nat.lt_succ_of_lt (ih.known l hl)
      · exact Nat.lt_succ_self _
  | unsubscribe _ hlisteners hnext ih =>
    refine ⟨?_, fun l hl => ?_⟩
    · rw [hlisteners]
      exact ih.distinct.sublist (List.filter_sublist.map _)
    · rw [hnext]
      rw [hlisteners] at hl
      exact ih.known l (List.mem_filter.mp hl).1

theorem untold_of_regroups (h : Regroups s s') : Untold s s' := by
  induction h with
  | same hlisteners hnext =>
    exact ⟨Nat.le_of_eq hnext.symm, fun l hl => Or.inl (hlisteners ▸ hl)⟩
  | subscribe _ hlisteners hnext ih =>
    refine ⟨Nat.le_trans ih.1 (hnext ▸ Nat.le_succ _), fun l hl => ?_⟩
    rw [hlisteners, List.mem_append, List.mem_singleton] at hl
    rcases hl with hl | rfl
    · exact ih.2 l hl
    · exact Or.inr ⟨ih.1, rfl⟩
  | unsubscribe _ hlisteners hnext ih =>
    refine ⟨Nat.le_trans ih.1 (Nat.le_of_eq hnext.symm), fun l hl => ?_⟩
    rw [hlisteners] at hl
    exact ih.2 l (List.mem_filter.mp hl).1

/-- Whoever listens under a number was there before if the number was given before. -/
theorem mem_of_untold (h : Untold s s') (hl : l ∈ s'.listeners) (hid : l.id < s.nextListener) :
    l ∈ s.listeners :=
  (h.2 l hl).resolve_right fun hnew => absurd hnew.1 (Nat.not_le.mpr hid)

theorem eq_of_registered (hs : s.Registered) (hl : l ∈ s.listeners) (hl' : l' ∈ s.listeners)
    (hid : l'.id = l.id) : l' = l :=
  List.inj_on_of_nodup_map hs.distinct hl' hl hid

/-! ## Commands -/

theorem perform_regroups (c : Command D) : Regroups s (s.perform horizon c).1 := by
  cases c with
  | act | status | panic => exact .same rfl rfl
  | advance =>
    rw [perform]
    split <;> exact .same rfl rfl
  | send | start | stop | tick => exact .same callAndTell_listeners.1 callAndTell_listeners.2
  | subscribe react tell => exact .subscribe regroups_refl rfl rfl
  | unsubscribe which =>
    rw [perform]
    split
    · exact .unsubscribe regroups_refl rfl rfl
    · exact regroups_refl

theorem performAll_regroups : ∀ (cs : List (Command D)) {s : Shell D},
    Regroups s (s.performAll horizon cs).1
  | [], _ => regroups_refl
  | c :: cs, s => by
    have hc : Regroups s (s.perform horizon c).1 := perform_regroups c
    unfold performAll
    split
    · next s' h =>
      rw [h] at hc
      exact regroups_trans hc (performAll_regroups cs)
    · next s' message h =>
      rw [h] at hc
      exact hc

/-! ## Telling -/

theorem mem_countCall {id : Nat} : l' ∈ (s.countCall id).listeners ↔
    ∃ l ∈ s.listeners, l' = { l with calls := l.calls + if l.id = id then 1 else 0 } := by
  rw [countCall, List.mem_map]
  refine exists_congr fun l => and_congr_right fun _ => ?_
  rw [eq_comm]
  split <;> rfl

theorem registered_countCall {id : Nat} (hs : s.Registered) : (s.countCall id).Registered := by
  refine ⟨?_, fun l' hl' => ?_⟩
  · have hids : (s.countCall id).listeners.map (·.id) = s.listeners.map (·.id) := by
      rw [countCall, List.map_map]
      refine List.map_congr_left fun l _ => ?_
      dsimp only [Function.comp_apply]
      split <;> rfl
    rw [hids]
    exact hs.distinct
  · obtain ⟨l, hl, rfl⟩ := mem_countCall.mp hl'
    exact hs.known l hl

theorem tellAll_registered : ∀ (ls : List (Listener D)) {s : Shell D}, s.Registered →
    (s.tellAll horizon snapshot ls).1.Registered
  | [], _, hs => hs
  | l :: ls, s, hs => by
    have hl : ((s.countCall l.id).performAll horizon (l.react l.calls snapshot)).1.Registered :=
      registered_of_regroups (registered_countCall hs) (performAll_regroups _)
    unfold tellAll
    split
    · next s' h =>
      rw [h] at hl
      exact tellAll_registered ls hl
    · next s' message h =>
      rw [h] at hl
      exact hl

/-- If nobody panics, each of those who are told is called once and nobody else is. -/
theorem tellAll_counts : ∀ {ls : List (Listener D)} {s : Shell D}, (ls.map (·.id)).Nodup →
    (∀ l ∈ ls, l.id < s.nextListener) → s.tellAll horizon snapshot ls = (s', none) →
      s.nextListener ≤ s'.nextListener ∧ ∀ l' ∈ s'.listeners,
        (s.nextListener ≤ l'.id ∧ l'.calls = 0) ∨ ∃ l ∈ s.listeners,
          l' = { l with calls := l.calls + if l.id ∈ ls.map (·.id) then 1 else 0 }
  | [], s, _, _, h => by
    obtain rfl : s = s' := congrArg Prod.fst h
    exact ⟨Nat.le_refl _, fun l hl => Or.inr ⟨l, hl, by simp⟩⟩
  | a :: ls, s, hdistinct, hknown, h => by
    rw [List.map_cons, List.nodup_cons] at hdistinct
    unfold tellAll at h
    split at h
    · next s₁ hs₁ =>
      have huntold : (s.countCall a.id).Untold s₁ := by
        have hregroups : Regroups (s.countCall a.id)
            ((s.countCall a.id).performAll horizon (a.react a.calls snapshot)).1 :=
          performAll_regroups _
        rw [hs₁] at hregroups
        exact untold_of_regroups hregroups
      have hnext : s.nextListener ≤ s₁.nextListener := huntold.1
      obtain ⟨hnext', hcounts⟩ := tellAll_counts hdistinct.2
        (fun l hl => Nat.lt_of_lt_of_le (hknown l (List.mem_cons_of_mem _ hl)) hnext) h
      refine ⟨Nat.le_trans hnext hnext', fun l' hl' => ?_⟩
      rcases hcounts l' hl' with ⟨hid, hcalls⟩ | ⟨l₁, hl₁, rfl⟩
      · exact Or.inl ⟨Nat.le_trans hnext hid, hcalls⟩
      · rcases huntold.2 l₁ hl₁ with hl₁ | ⟨hid, hcalls⟩
        · obtain ⟨l, hl, rfl⟩ := mem_countCall.mp hl₁
          refine Or.inr ⟨l, hl, ?_⟩
          by_cases hid : l.id = a.id
          · simp [hid, hdistinct.1]
          · simp [hid]
        · -- one who begins to listen in the middle of this is not told
          have hnew : l₁.id ∉ ls.map (·.id) := by
            intro hmem
            obtain ⟨l, hl, he⟩ := List.mem_map.mp hmem
            exact absurd (he ▸ hknown l (List.mem_cons_of_mem _ hl)) (Nat.not_lt.mpr hid)
          exact Or.inl ⟨hid, by simp [hcalls, hnew]⟩
    · exact absurd (congrArg Prod.snd h) (by simp)

/-- Listeners are told one after another. -/
theorem tellAll_split : ∀ {front : List (Listener D)} {s : Shell D},
    s.tellAll horizon snapshot (front ++ l :: back) = (s', none) →
      ∃ s₁ s₂, s.tellAll horizon snapshot front = (s₁, none) ∧
        (s₁.countCall l.id).performAll horizon (l.react l.calls snapshot) = (s₂, none) ∧
        s₂.tellAll horizon snapshot back = (s', none)
  | [], s, h => by
    rw [List.nil_append, tellAll] at h
    split at h
    · next s₂ hs₂ => exact ⟨s, s₂, rfl, hs₂, h⟩
    · exact absurd (congrArg Prod.snd h) (by simp)
  | a :: front, s, h => by
    rw [List.cons_append, tellAll] at h
    split at h
    · next s₀ hs₀ =>
      obtain ⟨s₁, s₂, hfront, hl, hback⟩ := tellAll_split h
      exact ⟨s₁, s₂, by rw [tellAll, hs₀]; exact hfront, hl, hback⟩
    · exact absurd (congrArg Prod.snd h) (by simp)

end Shell

namespace Machine

/-- What a machine goes through later, if nobody meddles with its listeners. -/
inductive Attends (m : Machine D) : List (Event D) → Machine D → Prop
  | rest : Attends m [] m
  | next {log : List (Event D)} {e : Event D} {m' m'' : Machine D} :
      Attends m log m' → m'.Does e m'' → (e.step = none → m'.shell.Regroups m''.shell) →
        Attends m (e :: log) m''

/-- The machine tells everybody who listens of what it is now, and calls a listener once. -/
def Calls (m : Machine D) (l : Listener D) : Prop :=
  ∃ front back s₁ s₂, m.shell.listeners = front ++ l :: back ∧
    (∀ l' ∈ front ++ back, l'.id ≠ l.id) ∧
    m.shell.tellAll m.timers.nextEpoch m.snapshot front = (s₁, none) ∧
    (s₁.countCall l.id).performAll m.timers.nextEpoch (l.react l.calls m.snapshot) = (s₂, none) ∧
    s₂.tellAll m.timers.nextEpoch m.snapshot back = (m.notify.machine.shell, none)

/-- A snapshot shows what a machine is. -/
structure Shows (m : Machine D) (snapshot : Snapshot D) : Prop where
  status : snapshot.status = m.status
  step : snapshot.step = m.step
  configuration : ∀ s, s ∈ snapshot.configuration ↔ s ∈ m.configuration
  value : snapshot.value = m.chart.value fun s => s ∈ m.configuration
  context : snapshot.context = m.context

/-- A listener is told of a step, the `number`th of the machine. -/
structure Tells (m : Machine D) (step : Settled D) (number : Nat) (l : Listener D)
    (m' : Machine D) : Prop where
  /-- In the middle of the step nobody is told of anything. -/
  untold : m.shell.Untold step.after.shell
  called : step.after.Calls l
  /-- What is told is the machine as it goes on. -/
  seen : m'.snapshot = step.after.snapshot
  shown : step.after.Shows step.after.snapshot
  numbered : step.after.snapshot.step = number

/-- What a listener is told while the machine goes on from `m₁`, if it goes on listening. -/
structure Heard (m₁ : Machine D) (l : Listener D) (log : List (Event D)) (m₂ : Machine D) :
    Prop where
  /-- It is called once for every step. -/
  told : ∀ later e earlier step, log = later ++ e :: earlier → e.step = some step →
    ∃ m m', m₁.Attends earlier m ∧ m.Does e m' ∧ m'.Attends later m₂ ∧
      m.Tells step (m₁.snapshot.step + (Event.steps earlier).length + 1)
        { l with calls := l.calls + (Event.steps earlier).length } m'
  /-- When no step is settled nobody is told: not if the signal is discarded, not if it fails. -/
  quiet : ∀ later e earlier, log = later ++ e :: earlier → e.step = none →
    ∃ m m', m₁.Attends earlier m ∧ m.Does e m' ∧ m'.Attends later m₂ ∧ m.shell.Untold m'.shell
  counted : ∀ l' ∈ m₂.shell.listeners, l'.id = l.id →
    l' = { l with calls := l.calls + (Event.steps log).length }
  /-- Once the machine was stopped nobody is told any more. -/
  last : ∀ later e earlier step, log = later ++ e :: earlier → e.step = some step →
    step.signal = .stop →
      Event.steps later = [] ∧ ∀ l' ∈ m₂.shell.listeners, l'.id ≠ l.id ∧ l'.calls = 0

/-- If a listener still listens, it has been called so many times more. -/
structure Counted (l : Listener D) (n : Nat) (m : Machine D) : Prop where
  registered : m.shell.Registered
  known : l.id < m.shell.nextListener
  calls : ∀ l' ∈ m.shell.listeners, l'.id = l.id → l' = { l with calls := l.calls + n }

variable {c : Chart D} {m m' m₀ m₁ m₂ : Machine D} {signal : Signal D} {step : Settled D}
  {p : Progress D} {e : Event D} {n : Nat} {log : List (Event D)} {steps : List (Settled D)}
  {l : Listener D} {d : Defect D.State} {o : Outcome D} {fuel : Nat}

/-! ## What is told -/

theorem regroups_of_alters {P : D.State → Prop} (h : m.Alters P m') :
    m.shell.Regroups m'.shell := by
  induction h with
  | refl => exact Shell.regroups_refl
  | tail _ h ih =>
    cases h with
    | command => exact Shell.regroups_trans ih (Shell.perform_regroups _)
    | context | work | remember | leave | enter => exact ih

theorem regroups_absorb (p : Progress D) : p.machine.shell.Regroups (absorb p).shell := by
  unfold absorb
  dsimp only
  split
  · exact .same rfl rfl
  · exact List.foldlRecOn (motive := fun m : Machine D => p.machine.shell.Regroups m.shell)
      p.launches handOver (.same rfl rfl) fun _ h _ _ => h

/-- Until a step is settled, listeners come and go by the actions of the step. -/
theorem regroups_of_settles (h : m.Settles step p) : m.shell.Regroups step.after.shell := by
  obtain ⟨p', henter, hp⟩ := entering_of_settles h
  have hbefore := (before_of_settles h).1
  have hbetween : step.before.Alters (fun _ => True) step.between := by
    cases h with
    | initial => exact .refl
    | reaction _ _ _ _ _ hleft hbetween _ _ =>
      exact (runTransitions_alters ((exitStates_alters (.single .remember)).ok hleft)).ok hbetween
  have hentered : (step.between.enterAll step.signal step.entered).Alters (fun _ => True)
      step.before (·.machine) :=
    Attempt.ends_foldlM hbetween fun p s _ h => Progress.enterState_alters trivial h
  have hclose : p.machine.shell = p'.machine.shell := by
    rw [hp]
    change p'.close.machine.shell = _
    unfold Progress.close
    split <;> rfl
  rw [← hbefore, (settled_of_settles h).2]
  exact Shell.regroups_trans (regroups_of_alters (hentered.ok henter))
    (hclose ▸ regroups_absorb p)

theorem signal_of_settles (h : m.Settles step p) : step.signal ≠ .stop := by
  cases h with
  | initial => exact fun he => by cases he
  | reaction hreact => 
    rintro rfl
    exact absurd hreact (by simp [reacting?])

theorem regroups_of_abandons {left : List D.State} (h : m.Abandons left m') :
    m.shell.Regroups m'.shell := by
  induction h with
  | rest => exact Shell.regroups_refl
  | next _ hrun _ ih =>
    have hactions := (runActions_alters (P := fun _ => True) .refl).ok hrun
    exact Shell.regroups_trans (regroups_of_alters hactions) ih

theorem regroups_of_nextTurn {later : List (Work D)} (h : m.nextTurn = .process m₀ signal later) :
    m.shell.Regroups m₀.shell := by
  rw [(nextTurn_process h).2]
  exact .same rfl rfl

theorem regroups_cleared (m : Machine D) : m.shell.Regroups m.cleared.shell := .same rfl rfl

theorem shows_snapshot (m : Machine D) : m.Shows m.snapshot :=
  ⟨rfl, rfl, fun _ => Outline.mem_inDocumentOrder .., rfl, rfl⟩

/-- Listeners cannot change what they are told. -/
theorem snapshot_notify (hm : m.status ≠ .notStarted) : m.notify.machine.snapshot = m.snapshot := by
  unfold snapshot
  rw [notify_status hm]
  rfl

/-- A step and what comes of telling the listeners of it: the machine goes on as told, or is
stopped, and then nobody listens any more. -/
theorem telling_of_settling (h : m.Settling step m') (hcalm : step.after.notify.error = none) :
    m.shell.Regroups step.after.shell ∧ m'.snapshot = step.after.snapshot ∧
      m'.shell.nextListener = step.after.notify.machine.shell.nextListener ∧
      ((step.signal ≠ .stop ∧
          m'.shell.listeners = step.after.notify.machine.shell.listeners) ∨
        (step.signal = .stop ∧ m'.Ended ∧ m'.shell.listeners = [])) := by
  cases h with
  | turn _ hturn hstep _ =>
    have hafter := (settled_of_settles hstep).2
    have hstarted : step.after.status ≠ .notStarted := by
      rcases (effects_of_settles (turn_passes hturn).2.1 hstep).status with hs | hs <;> simp [hs]
    rw [← hafter]
    exact ⟨Shell.regroups_trans (regroups_of_nextTurn hturn) (regroups_of_settles hstep),
      snapshot_notify hstarted, rfl, Or.inl ⟨signal_of_settles hstep, rfl⟩⟩
  | turnPanicked _ _ hstep hbad =>
    rw [(settled_of_settles hstep).2] at hcalm
    exact absurd (hcalm.symm.trans hbad) (by simp)
  | @stop m₁ o _ _ hdown hfin =>
    -- the listeners are told of the stopped machine last, and are dropped then
    obtain ⟨left, hleft, rfl⟩ := settled_of_teardown hdown
    have hshell : m.shell.Regroups left.shell :=
      Shell.regroups_trans (regroups_cleared m) (regroups_of_abandons hleft)
    rw [finish_eq hdown, farewell, hcalm, Option.some.injEq] at hfin
    subst hfin
    have htold := snapshot_notify (m := { left.settle .stop (m.chart.inExitOrder m.configuration.elems) []
      with shell := { left.shell with status := .stopped } }) (by simp [status])
    exact ⟨Shell.regroups_trans hshell (.same rfl rfl), htold, rfl,
      Or.inr ⟨rfl, Or.inl (congrArg Snapshot.status htold), rfl⟩⟩

/-- Everybody who listens as a step is told of is called once in doing so, if nobody panics. -/
theorem counts_of_notify (hm : m.shell.Registered) (hcalm : m.notify.error = none) :
    m.notify.machine.shell.Registered ∧
      m.shell.nextListener ≤ m.notify.machine.shell.nextListener ∧
      ∀ l' ∈ m.notify.machine.shell.listeners, (m.shell.nextListener ≤ l'.id ∧ l'.calls = 0) ∨
        ∃ l ∈ m.shell.listeners, l' = { l with calls := l.calls + 1 } := by
  have htold : m.shell.tellAll m.timers.nextEpoch m.snapshot m.shell.listeners =
      (m.notify.machine.shell, none) := by
    refine Prod.ext rfl ?_
    exact Option.map_eq_none_iff.mp hcalm
  obtain ⟨hnext, hcounts⟩ := Shell.tellAll_counts hm.distinct hm.known htold
  refine ⟨Shell.tellAll_registered _ hm, hnext, fun l' hl' => (hcounts l' hl').imp_right ?_⟩
  rintro ⟨l, hl, rfl⟩
  exact ⟨l, hl, by rw [if_pos (List.mem_map_of_mem hl)]⟩

/-- A listener is called once, wherever it stands in the list. -/
theorem calls_of_mem (hm : m.shell.Registered) (hl : l ∈ m.shell.listeners)
    (hcalm : m.notify.error = none) : m.Calls l := by
  obtain ⟨front, back, hlisteners⟩ := List.append_of_mem hl
  have htold : m.shell.tellAll m.timers.nextEpoch m.snapshot (front ++ l :: back) =
      (m.notify.machine.shell, none) := by
    rw [← hlisteners]
    refine Prod.ext rfl ?_
    exact Option.map_eq_none_iff.mp hcalm
  have hdistinct := hm.distinct
  rw [hlisteners, List.map_append, List.map_cons, List.nodup_middle, List.nodup_cons,
    ← List.map_append] at hdistinct
  obtain ⟨s₁, s₂, hfront, hcall, hback⟩ := Shell.tellAll_split htold
  exact ⟨front, back, s₁, s₂, hlisteners,
    fun l' hl' he => hdistinct.1 (List.mem_map.mpr ⟨l', hl', he⟩), hfront, hcall, hback⟩

/-! ## Along a run -/

theorem goes_of_attends (h : m.Attends log m') : m.Goes log m' := by
  induction h with
  | rest => exact .rest
  | next _ hdoes _ ih => exact ih.next hdoes

theorem attends_split (h : m.Attends log m') : ∀ later e earlier, log = later ++ e :: earlier →
    ∃ m₁ m₂, m.Attends earlier m₁ ∧ m₁.Does e m₂ ∧
      (e.step = none → m₁.shell.Regroups m₂.shell) ∧ m₂.Attends later m' := by
  induction h with
  | rest => intro later e earlier he; simp at he
  | next hattends hdoes hquiet ih =>
    intro later e earlier he
    cases later with
    | nil =>
      rw [List.nil_append, List.cons.injEq] at he
      obtain ⟨rfl, rfl⟩ := he
      exact ⟨_, _, hattends, hdoes, hquiet, .rest⟩
    | cons _ later =>
      rw [List.cons_append, List.cons.injEq] at he
      obtain ⟨rfl, rfl⟩ := he
      obtain ⟨m₁, m₂, hearlier, hdoes₁, hquiet₁, hlater⟩ := ih later e earlier rfl
      exact ⟨m₁, m₂, hearlier, hdoes₁, hquiet₁, hlater.next hdoes hquiet⟩

theorem registered_of_settling (hm : m.shell.Registered) (h : m.Settling step m') :
    m'.shell.Registered := by
  have hturns : ∀ {m₀ later p}, m.nextTurn = .process m₀ step.signal later → m₀.Settles step p →
      (absorb p).notify.machine.shell.Registered := by
    intro m₀ later p hturn hstep
    refine Shell.tellAll_registered _ ?_
    rw [← (settled_of_settles hstep).2]
    exact Shell.registered_of_regroups hm
      (Shell.regroups_trans (regroups_of_nextTurn hturn) (regroups_of_settles hstep))
  cases h with
  | turn _ hturn hstep _ =>
    exact Shell.registered_of_regroups (hturns hturn hstep) (.same rfl rfl)
  | turnPanicked _ hturn hstep _ => exact hturns hturn hstep
  | stop _ _ hdown hfin =>
    obtain ⟨left, hleft, rfl⟩ := settled_of_teardown hdown
    have hshell : m.shell.Regroups left.shell :=
      Shell.regroups_trans (regroups_cleared m) (regroups_of_abandons hleft)
    rw [finish_eq hdown, Option.some.injEq] at hfin
    subst hfin
    unfold farewell
    split
    · exact Shell.tellAll_registered _
        (Shell.registered_of_regroups hm (Shell.regroups_trans hshell (.same rfl rfl)))
    · exact ⟨List.nodup_nil, fun l hl => absurd hl List.not_mem_nil⟩

theorem registered_of_attends (hm : m.shell.Registered) (h : m.Attends log m') :
    m'.shell.Registered := by
  induction h with
  | rest => exact hm
  | @next log e _ _ _ hdoes hquiet ih =>
    cases he : e.step with
    | none => exact Shell.registered_of_regroups ih (hquiet he)
    | some step => exact registered_of_settling ih (settling_of_does hdoes he)

theorem counted_of_regroups (hl : Counted l n m) (h : m.shell.Regroups m'.shell) :
    Counted l n m' where
  registered := Shell.registered_of_regroups hl.registered h
  known := Nat.lt_of_lt_of_le hl.known (Shell.untold_of_regroups h).1
  calls := fun l' hl' hid => hl.calls l'
    (Shell.mem_of_untold (Shell.untold_of_regroups h) hl' (hid ▸ hl.known)) hid

/-- A step calls a listener once, and not before it is over. -/
theorem counted_of_settling (hl : Counted l n m) (h : m.Settling step m')
    (hcalm : step.after.notify.error = none) :
    Counted l n step.after ∧ Counted l (n + 1) m' := by
  obtain ⟨hregroups, -, hnext, hor⟩ := telling_of_settling h hcalm
  have hafter : Counted l n step.after := counted_of_regroups hl hregroups
  obtain ⟨-, hnext', hcounts⟩ := counts_of_notify hafter.registered hcalm
  refine ⟨hafter, registered_of_settling hl.registered h, ?_, fun l' hl' hid => ?_⟩
  · rw [hnext]
    exact Nat.lt_of_lt_of_le hafter.known hnext'
  · rcases hor with ⟨-, hlisteners⟩ | ⟨-, -, hlisteners⟩
    · rw [hlisteners] at hl'
      rcases hcounts l' hl' with ⟨hnew, -⟩ | ⟨l₁, hl₁, rfl⟩
      · exact absurd (hid ▸ hafter.known) (Nat.not_lt.mpr hnew)
      · rw [hafter.calls l₁ hl₁ hid, Nat.add_assoc]
    · rw [hlisteners] at hl'
      exact absurd hl' List.not_mem_nil

theorem counted_of_attends (hl : Counted l n m) (h : m.Attends log m')
    (hcalm : ∀ step ∈ Event.steps log, step.after.notify.error = none) :
    Counted l (n + (Event.steps log).length) m' := by
  induction h with
  | rest => exact hl
  | @next log e _ _ _ hdoes hquiet ih =>
    rw [Event.steps_cons] at hcalm ⊢
    have hbefore := ih fun step hs => hcalm step (List.mem_append_right _ hs)
    cases he : e.step with
    | none => exact counted_of_regroups hbefore (hquiet he)
    | some step =>
      rw [he] at hcalm
      exact (counted_of_settling hbefore (settling_of_does hdoes he)
        (hcalm step (List.mem_cons_self ..))).2

theorem regroups_of_attends (h : m.Attends log m') (hnone : ∀ e ∈ log, e.step = none) :
    m.shell.Regroups m'.shell := by
  induction h with
  | rest => exact Shell.regroups_refl
  | next _ _ hquiet ih =>
    exact Shell.regroups_trans (ih fun e he => hnone e (List.mem_cons_of_mem _ he))
      (hquiet (hnone _ (List.mem_cons_self ..)))

/-! ## What a run covers -/

/-- A turn of the queue is an event in which nobody meddles with the listeners, and so is one in
which something goes wrong. -/
theorem does_of_advance {later : List (Work D)} (hserves : m.Serves false)
    (hturn : m.nextTurn = .process m₀ signal later) (ho : m₀.advance signal = some o) :
    ∃ e m', (m' = if o.error = none then o.machine.enqueueAll later else o.machine) ∧ m.Does e m' ∧
      (e.step = none → m.shell.Regroups m'.shell) := by
  have hqueue := regroups_of_nextTurn hturn
  unfold advance at ho
  cases hproc : m₀.process signal with
  | error halt =>
    rw [hproc] at ho
    cases halt with
    | endless => exact absurd ho (by simp)
    | defect m₁ d =>
      obtain rfl := Option.some.inj ho
      have hfailed := regroups_of_alters ((process_ends (admits_any m₀)).defect hproc).1
      have hcleared : m₁.shell.Regroups (m₁.fault d).machine.shell := .same rfl rfl
      exact ⟨_, _, (if_neg (by simp [fault])).symm, .fault hserves hturn hproc, fun _ =>
        Shell.regroups_trans hqueue (Shell.regroups_trans hfailed hcleared)⟩
  | ok p =>
    rw [hproc] at ho
    obtain rfl := Option.some.inj ho
    rcases process_cases hproc with ⟨invocations, -, rfl⟩ | ⟨step, hstep, rfl⟩
    · refine ⟨_, _, (if_pos rfl).symm, .pass hserves hturn hproc rfl, fun _ => ?_⟩
      rw [absorb_same]
      exact Shell.regroups_trans hqueue (.same rfl rfl)
    · rw [if_pos (settled_of_settles hstep).1]
      cases hend : (absorb p).notify.error with
      | none =>
        obtain ⟨e, hdoes, he⟩ := does_of_settling (.turn hserves hturn hstep hend)
        exact ⟨e, _, (if_pos rfl).symm, hdoes, fun hnone => absurd (he.symm.trans hnone) (by simp)⟩
      | some error =>
        obtain ⟨e, hdoes, he⟩ := does_of_settling (.turnPanicked hserves hturn hstep hend)
        exact ⟨e, _, (if_neg (by simp)).symm, hdoes,
          fun hnone => absurd (he.symm.trans hnone) (by simp)⟩

theorem does_of_round (h : m.Round m') :
    ∃ e, m.Does e m' ∧ (e.step = none → m.shell.Regroups m'.shell) := by
  cases h with
  | skip hstop hturn =>
    have hsame : m.shell.Regroups m'.shell := by
      rw [nextTurn_skip hturn]
      exact .same rfl rfl
    by_cases hs : m.status = .running
    · exact ⟨_, .idle hstop hs hturn, fun _ => hsame⟩
    · exact ⟨_, .discard hstop hs hturn, fun _ => hsame⟩
  | turn hstop hturn ho hgood =>
    obtain ⟨e, m', rfl, hdoes⟩ := does_of_advance hstop hturn ho
    rw [if_pos hgood] at hdoes
    exact ⟨e, hdoes⟩

/-- The rounds of working the queue off are among the things that a machine goes through. -/
theorem goes_reaches {log : List (Event D)} {m'' : Machine D} (h : m.Goes log m')
    (hreaches : m'.Reaches m'') : ∃ log', m.Goes log' m'' := by
  induction hreaches with
  | refl => exact ⟨log, h⟩
  | tail _ hround ih =>
    obtain ⟨log', hgoes⟩ := ih
    obtain ⟨e, hdoes, -⟩ := does_of_round hround
    exact ⟨e :: log', hgoes.next hdoes⟩

/-- The last round is such an event as well, unless there was nothing left to do. -/
theorem does_of_closes (hup : m.Up) (h : m.Closes o) : o.machine = m ∨
    ∃ e, m.Does e o.machine ∧ (e.step = none → m.shell.Regroups o.machine.shell) := by
  cases h with
  | idle => exact Or.inl rfl
  | turn hstop hturn ho hbad =>
    obtain ⟨e, m', rfl, hdoes⟩ := does_of_advance hstop hturn ho
    rw [if_neg hbad] at hdoes
    exact Or.inr ⟨e, hdoes⟩
  | stop hstop hfin =>
    cases hdown : { m with shell := { m.shell with queue := [] } }.teardown with
    | ok m₁ =>
      exact Or.inr ⟨_, .stop hup hstop hdown hfin, fun hnone => absurd hnone (by simp)⟩
    | error halt =>
      rw [finish, hdown] at hfin
      cases halt with
      | endless => exact absurd hfin (by simp)
      | defect m₁ d =>
        obtain rfl := Option.some.inj hfin
        have hqueue : m.shell.Regroups { m.shell with queue := [] } := .same rfl rfl
        have hfailed := regroups_of_alters (teardown_ends.defect hdown).1
        have hcleared : m₁.shell.Regroups (m₁.fault d).machine.shell := .same rfl rfl
        exact Or.inr ⟨_, .faultStopping hup hstop hdown, fun _ =>
          Shell.regroups_trans hqueue (Shell.regroups_trans hfailed hcleared)⟩

theorem attends_drain (h : m.Attends log m') (hup : m'.Up) (hdrain : m'.drain fuel = some o) :
    ∃ log', m.Attends log' o.machine := by
  rcases reaches_of_drain hdrain with ⟨-, rfl⟩ | ⟨m₁, o', hreaches, hclose, rfl⟩
  · exact ⟨log, h⟩
  have hlast : ∃ log', m.Attends log' m₁ := by
    clear hclose
    induction hreaches with
    | refl => exact ⟨log, h⟩
    | tail _ hround ih =>
      obtain ⟨log', hlog'⟩ := ih
      obtain ⟨e, hdoes, hquiet⟩ := does_of_round hround
      exact ⟨e :: log', hlog'.next hdoes hquiet⟩
  obtain ⟨log', hlog'⟩ := hlast
  obtain ⟨worked, hnoted⟩ := noted_eq o'
  rw [hnoted]
  rcases does_of_closes (up_of_reaches hreaches hup) hclose with hsame | ⟨e, hdoes, hquiet⟩
  · exact ⟨_, (hsame ▸ hlog').next .outside fun _ => .same rfl rfl⟩
  · exact ⟨_, (hlog'.next hdoes hquiet).next .outside fun _ => .same rfl rfl⟩

/-- Whatever the listeners do, a call from outside is part of such a run. -/
theorem attends_call {call : Call D} (h : m.Attends log m') (hcall : m'.call fuel call = some o) :
    ∃ log', m.Attends log' o.machine := by
  unfold Machine.call at hcall
  split at hcall
  · exact ⟨log, Option.some.inj hcall ▸ h⟩
  · exact ⟨log, Option.some.inj hcall ▸ h⟩
  · next shell hr =>
    obtain ⟨hlisteners, hnext⟩ := Shell.receive_listeners hr
    exact attends_drain (h.next (.call hr) fun _ => .same hlisteners hnext)
      (Shell.up_of_receive hr) hcall

/-- So is the result of an invocation that comes in. -/
theorem attends_deliver {s : D.State} {id : InvocationId} {result : Except InvokeError D.Output}
    {m'' : Machine D} (h : m.Attends log m') (hdeliver : m'.deliver fuel s id result = some m'') :
    ∃ log', m.Attends log' m'' := by
  unfold deliver at hdeliver
  split at hdeliver
  · next hlive =>
    split at hdeliver
    · exact ⟨log, Option.some.inj hdeliver ▸ h⟩
    · next invocations hsettle =>
      obtain ⟨o, ho, rfl⟩ := Option.map_eq_some_iff.mp hdeliver
      exact attends_drain (h.next (.result hlive hsettle) fun _ => .same rfl rfl)
        (up_of_isLive hlive) ho
  · exact ⟨log, Option.some.inj hdeliver ▸ h⟩

/-- So are those who begin to listen, those who stop, and another reading of the clock. -/
theorem attends_subscribe (h : m.Attends log m') (react : Reaction D) :
    m.Attends ({} :: log) (m'.subscribe react).1 :=
  h.next .outside fun _ => .subscribe Shell.regroups_refl rfl rfl

theorem attends_unsubscribe (h : m.Attends log m') (id : Nat) :
    m.Attends ({} :: log) (m'.unsubscribe id) :=
  h.next .outside fun _ => .unsubscribe Shell.regroups_refl rfl rfl

theorem attends_withClock (h : m.Attends log m') (clock : Clock) :
    m.Attends ({} :: log) (m'.withClock clock) :=
  h.next .outside fun _ => .same rfl rfl

theorem attends_after (h : m.Attends log m') (fuel : Nat) (calls : List (Call D)) :
    ∃ log', m.Attends log' (m'.after fuel calls) := by
  refine List.foldlRecOn (motive := fun m'' => ∃ log', m.Attends log' m'') calls _ ⟨log, h⟩
    fun m'' h call _ => ?_
  obtain ⟨log', h⟩ := h
  split
  · next hcall => exact attends_call h hcall
  · exact ⟨log', h⟩

theorem attends_turned? (h : m.Attends log m') (hturn : m'.turned? = some (step, m₂)) :
    ∃ e, e.step = some step ∧ m.Attends (e :: log) m₂ := by
  obtain ⟨e, hdoes, he⟩ := does_of_settling (settling_of_turned? hturn)
  exact ⟨e, he, h.next hdoes fun hnone => absurd (he.symm.trans hnone) (by simp)⟩

theorem attends_teardown (h : m.Attends log m') (hup : m'.Up) (hserves : m'.Serves true)
    (hdown : { m' with shell := { m'.shell with queue := [] } }.teardown = .ok m₁) :
    ∃ e step m'', e.step = some step ∧
      step.after = { m₁ with shell := { m₁.shell with status := .stopped } } ∧
      m.Attends (e :: log) m'' := by
  have hdoes := Does.stop hup hserves hdown (finish_eq hdown)
  exact ⟨_, _, _, rfl, rfl, h.next hdoes fun hnone => absurd hnone (by simp)⟩

/-! ## Being told -/

/-- Somebody who listens and goes on listening is told of every step that is settled later, once
and in order, and of nothing else. -/
theorem heard_of_attends {older newer : List (Event D)} (hm : m₀.Fresh)
    (hnobody : m₀.shell.listeners = []) (holder : m₀.Attends older m₁)
    (hl : l ∈ m₁.shell.listeners) (hnewer : m₁.Attends newer m₂)
    (hstays : ∀ step ∈ Event.steps newer, l.id ∈ step.after.shell.listeners.map (·.id))
    (hcalm : ∀ step ∈ Event.steps newer, step.after.notify.error = none) :
    m₁.Heard l newer m₂ := by
  have hrun : Run m₀.chart (Event.steps older ++ []) m₁ :=
    run_goes (.fresh rfl hm) (goes_of_attends holder)
  have hregistered : m₁.shell.Registered :=
    registered_of_attends ⟨by simp [hnobody], by simp [hnobody]⟩ holder
  have hstart : Counted l 0 m₁ := ⟨hregistered, hregistered.known l hl,
    fun l' hl' hid => Shell.eq_of_registered hregistered hl hl' hid⟩
  have hsteps : ∀ later e earlier step, newer = later ++ e :: earlier → e.step = some step →
      Event.steps newer = Event.steps later ++ step :: Event.steps earlier := by
    intro later e earlier step he hstep
    rw [he, Event.steps, List.filterMap_append]
    exact congrArg (Event.steps later ++ ·) (Event.steps_cons.trans (by rw [hstep]; rfl))
  have hpast : ∀ {later e earlier step m}, newer = later ++ e :: earlier → e.step = some step →
      m₁.Attends earlier m → Counted l (Event.steps earlier).length m := by
    intro later e earlier step m he hstep hearlier
    have hcounted := counted_of_attends hstart hearlier fun step' hs =>
      hcalm step' (by rw [hsteps later e earlier step he hstep]; simp [hs])
    rwa [Nat.zero_add] at hcounted
  have hmem : ∀ {later e earlier step}, newer = later ++ e :: earlier → e.step = some step →
      step ∈ Event.steps newer := fun he hstep => by simp [hsteps _ _ _ _ he hstep]
  refine ⟨fun later e earlier step he hstep => ?_, fun later e earlier he hstep => ?_,
    fun l' hl' hid => ?_, fun later e earlier step he hstep hstop => ?_⟩
  · obtain ⟨m, m', hearlier, hdoes, -, hlater⟩ := attends_split hnewer later e earlier he
    have hsettling := settling_of_does hdoes hstep
    have hnow := hcalm step (hmem he hstep)
    obtain ⟨hregroups, hseen, -, -⟩ := telling_of_settling hsettling hnow
    obtain ⟨hafter, -⟩ := counted_of_settling (hpast he hstep hearlier) hsettling hnow
    obtain ⟨l', hl', hid⟩ := List.mem_map.mp (hstays step (hmem he hstep))
    have hcalled := calls_of_mem hafter.registered hl' hnow
    rw [hafter.calls l' hl' hid] at hcalled
    refine ⟨m, m', hearlier, hdoes, hlater, Shell.untold_of_regroups hregroups, hcalled, hseen,
      shows_snapshot _, ?_⟩
    change step.after.step = m₁.step + _ + 1
    rw [(journal_of_settling hsettling).2.2, step_of_goes hrun (goes_of_attends hearlier)]
  · obtain ⟨m, m', hearlier, hdoes, hquiet, hlater⟩ := attends_split hnewer later e earlier he
    exact ⟨m, m', hearlier, hdoes, hlater, Shell.untold_of_regroups (hquiet hstep)⟩
  · have hcounted := counted_of_attends hstart hnewer hcalm
    rw [Nat.zero_add] at hcounted
    exact hcounted.calls l' hl' hid
  · obtain ⟨m, m', hearlier, hdoes, -, hlater⟩ := attends_split hnewer later e earlier he
    have hsettling := settling_of_does hdoes hstep
    have hnow := hcalm step (hmem he hstep)
    obtain ⟨-, -, -, hor⟩ := telling_of_settling hsettling hnow
    obtain ⟨-, hend, hlisteners⟩ := hor.resolve_left fun h => h.1 hstop
    obtain ⟨-, hcounted⟩ := counted_of_settling (hpast he hstep hearlier) hsettling hnow
    have hover : ∀ e ∈ later, e.step = none :=
      fun e he => ((unmoved_of_goes hend (goes_of_attends hlater)).2 e he).2
    refine ⟨List.filterMap_eq_nil_iff.mpr hover, fun l' hl' => ?_⟩
    rcases (Shell.untold_of_regroups (regroups_of_attends hlater hover)).2 l' hl' with hold | hnew
    · rw [hlisteners] at hold
      exact absurd hold List.not_mem_nil
    · exact ⟨Nat.ne_of_gt (Nat.lt_of_lt_of_le hcounted.known hnew.1), hnew.2⟩

/-- The numbers of those who are told of what a machine is now, if nobody panics. -/
def told? (m : Machine D) : Option (List Nat) :=
  if m.notify.error.isNone then some (m.shell.listeners.map (·.id)) else none

theorem calm_of_told? {ids : List Nat} (h : m.told? = some ids) :
    m.notify.error = none ∧ m.shell.listeners.map (·.id) = ids := by
  unfold told? at h
  split at h
  · next hcalm => exact ⟨Option.isNone_iff_eq_none.mp hcalm, Option.some.inj h⟩
  · exact absurd h (by simp)

end Machine

/-! ## A dog -/

inductive HouseState | house | quiet | ringing
deriving DecidableEq

/-- A house with a bell. -/
def houseTree : StateTree (.bare HouseState) :=
  .bare .house (.compound .quiet) []
    [.bare .quiet .atomic [.bare "ring" .ringing], .bare .ringing .atomic [.bare "bark" .quiet]]

def house : Chart (.bare HouseState) :=
  { houseTree.outline with tree := houseTree, outline_eq := rfl, flawless := by cbv }

/-- A dog that barks when the bell rings, by which it wakes another, and then has enough. -/
def dog : Reaction (.bare HouseState) := fun n _ =>
  match n with
  | 0 => [.send "bark" fun _ _ => (), .subscribe (fun _ _ => []) fun _ _ => ()]
  | 1 => [.stop fun _ _ => ()]
  | _ => []

/-- A house with a dog in it. -/
def guardedHouse : Machine (.bare HouseState) := ((house.machine.after 9 [.start]).subscribe dog).1

/-- The bell is about to ring. -/
def rungHouse : Machine (.bare HouseState) :=
  { guardedHouse with shell := guardedHouse.shell.enqueue (.signal (.event "ring")) }

namespace Machine

/-- The dog is told of the bell, of its own barking and of the house being torn down. -/
theorem dog_hears : ∃ l older newer m', house.machine.Fresh ∧ house.machine.shell.listeners = [] ∧
    house.machine.Attends older guardedHouse ∧ l ∈ guardedHouse.shell.listeners ∧
    guardedHouse.Attends newer m' ∧ (Event.steps newer).length = 3 ∧
    (∀ step ∈ Event.steps newer, l.id ∈ step.after.shell.listeners.map (·.id)) ∧
    (∀ step ∈ Event.steps newer, step.after.notify.error = none) ∧
    guardedHouse.Heard l newer m' := by
  have hfresh : house.machine.Fresh := ⟨rfl, rfl, rfl, rfl, rfl, rfl, rfl, rfl, rfl, rfl, rfl⟩
  obtain ⟨log, hstarted⟩ := attends_after (m := house.machine) .rest 9 [.start]
  have holder := attends_subscribe hstarted dog
  have hr : guardedHouse.shell.receive guardedHouse.timers.nextEpoch (.send "ring") =
      .admitted (guardedHouse.shell.enqueue (.signal (.event "ring"))) := by
    have hs : guardedHouse.shell.status = .running := by cbv
    have hopen : guardedHouse.shell.stopRequested = false := by cbv
    simp [Shell.receive, Shell.receiveWork, hs, hopen]
  obtain ⟨e₀, hrung, he₀⟩ : ∃ e, guardedHouse.Attends [e] rungHouse ∧ e.step = none :=
    ⟨_, Attends.rest.next (.call hr) fun _ => .same rfl rfl, rfl⟩
  have hturns : (rungHouse.turned?.bind fun bell => bell.2.turned?.bind fun bark =>
      ({ bark.2 with shell := { bark.2.shell with queue := [] } }.teardown.toOption.map
        fun m : Machine (.bare HouseState) => (bell.1.after.told?, bark.1.after.told?,
          told? { m with shell := { m.shell with status := .stopped } },
          bark.2.status, bark.2.blocked, bark.2.shell.stopRequested))) =
      some (some [0], some [0, 1], some [0, 1], .running, false, true) := by
    cbv
  simp only [Option.bind_eq_some_iff, Option.map_eq_some_iff, Prod.exists, Prod.mk.injEq] at hturns
  obtain ⟨bell, m₁, hbell, bark, m₂, hbark, m₃, hdown, htold₁, htold₂, htold₃, hrunning, hfree,
    hstop⟩ := hturns
  replace hdown := toOption_eq_some hdown
  obtain ⟨e₁, he₁, hattends₁⟩ := attends_turned? hrung hbell
  obtain ⟨e₂, he₂, hattends₂⟩ := attends_turned? hattends₁ hbark
  obtain ⟨e₃, last, m', he₃, hlast, hattends₃⟩ :=
    attends_teardown hattends₂ (Or.inl hrunning) ⟨hfree, hstop⟩ hdown
  obtain ⟨hcalm₁, hids₁⟩ := calm_of_told? htold₁
  obtain ⟨hcalm₂, hids₂⟩ := calm_of_told? htold₂
  obtain ⟨hcalm₃, hids₃⟩ := calm_of_told? (m := last.after) (hlast ▸ htold₃)
  obtain ⟨l, hl, hid⟩ : ∃ l ∈ guardedHouse.shell.listeners, l.id = 0 :=
    ⟨_, List.mem_append_right _ (List.mem_singleton.mpr rfl), by cbv⟩
  have hsteps : Event.steps [e₃, e₂, e₁, e₀] = [last, bark, bell] := by
    simp [Event.steps, he₀, he₁, he₂, he₃]
  have hstays : ∀ step ∈ Event.steps [e₃, e₂, e₁, e₀],
      l.id ∈ step.after.shell.listeners.map (·.id) := by
    simp only [hsteps, hid, List.forall_mem_cons, hids₁, hids₂, hids₃]
    simp
  have hcalm : ∀ step ∈ Event.steps [e₃, e₂, e₁, e₀], step.after.notify.error = none := by
    simp [hsteps, hcalm₁, hcalm₂, hcalm₃]
  exact ⟨l, _, _, m', hfresh, rfl, holder, hl, hattends₃, congrArg List.length hsteps, hstays, hcalm,
    heard_of_attends hfresh rfl holder hl hattends₃ hstays hcalm⟩

end Machine

end Statechart
