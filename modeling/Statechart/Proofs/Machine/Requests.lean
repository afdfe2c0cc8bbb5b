import Statechart.Proofs.Machine.Frames

/-!
# What running code asks for

Code that runs inside a step, and listeners after it, ask for work by calling the machine.
A call puts work at the end of the queue, or asks to stop, and then the queue is emptied;
nothing else happens to the queue until the step is over (`Leads`). So as long as nobody
asks to stop, all work that was waiting goes on waiting, and whatever joins it comes from
outside: it is never the signal of a timer or of a completion.

What running code does to the shell it does by commands, one after another (`Asks`). The work
that joins the queue is that of the calls among them which are admitted, in their order
(`queue_of_asks`).

Every lemma here says so of one phase of a step, or of the listeners (`notify_leads`).
-/

namespace Statechart

variable {D : Domain}

/-- Work that comes from outside: what a call asks for, and the result of an invocation. -/
def Work.External : Work D → Prop
  | .signal (.timer ..) | .signal (.done _) | .signal .stop => False
  | _ => True

/-- The work that a call made at a clock reading asks for. -/
def Call.work (now : Duration) (horizon : Nat) : Call D → List (Work D)
  | .start => [.signal .start]
  | .send e => [.signal (.event e)]
  | .tick => [.timers now horizon]
  | .stop => []

/-- The call that a command makes. -/
def Command.call? : Command D → Option (Call D)
  | .send e _ => some (.send e)
  | .start _ => some .start
  | .stop _ => some .stop
  | .tick _ => some .tick
  | .act _ | .advance _ | .status _ | .subscribe .. | .unsubscribe _ | .panic _ => none

namespace Shell

/-- The work that a call asks for, if it is admitted. -/
def askedByCall (s : Shell D) (horizon : Nat) (c : Call D) : List (Work D) :=
  match s.receive horizon c with
  | .admitted _ => c.work s.clock.now horizon
  | .refused _ | .ignored => []

/-- The work that a command asks for. -/
def askedBy (s : Shell D) (horizon : Nat) (c : Command D) : List (Work D) :=
  (c.call?.map (s.askedByCall horizon)).getD []

/-- Commands are carried out, one after another, and calls come in, which ask for some work in all.
Nothing else happens but that calls of listeners are counted. -/
inductive Asks : Shell D → List (Work D) → Shell D → Prop
  | rest {s : Shell D} : Asks s [] s
  | count {s : Shell D} {listener : Nat} : Asks s [] (s.countCall listener)
  | call {s s' : Shell D} {horizon : Nat} {c : Call D} :
      s.receive horizon c = .admitted s' → Asks s (c.work s.clock.now horizon) s'
  | command {s : Shell D} {horizon : Nat} {c : Command D} :
      Asks s (s.askedBy horizon c) (s.perform horizon c).1
  | trans {s s' s'' : Shell D} {asked asked' : List (Work D)} :
      Asks s asked s' → Asks s' asked' s'' → Asks s (asked ++ asked') s''

variable {s s' s'' : Shell D} {horizon : Nat}

/-- What becomes of the queue and of the wish to stop while code runs. -/
structure Leads (s s' : Shell D) : Prop where
  status : s.status ≠ .notStarted → s'.status = s.status
  stop : s.stopRequested = true → s'.stopRequested = true
  joined : ∀ w ∈ s'.queue, w ∈ s.queue ∨ w.External
  waits : s'.stopRequested = false → s.queue <+: s'.queue
  /-- Once a stop was asked for, nobody is admitted any more. -/
  quiet : s.status ≠ .notStarted → s.stopRequested = true → s'.queue ⊆ s.queue
  asks : ∃ asked, Asks s asked s'

theorem leads_refl : Leads s s :=
  ⟨fun _ => rfl, fun h => h, fun _ h => Or.inl h, fun _ => List.prefix_refl _,
    fun _ _ => List.Subset.refl _, [], .rest⟩

theorem leads_trans (h : Leads s s') (h' : Leads s' s'') : Leads s s'' where
  status := by
    intro hs
    have he := h.status hs
    rw [h'.status (by rwa [he]), he]
  stop := fun hs => h'.stop (h.stop hs)
  joined := by
    intro w hw
    rcases h'.joined w hw with hw | hw
    · exact h.joined w hw
    · exact Or.inr hw
  waits := by
    intro hs
    cases hs' : s'.stopRequested with
    | false => exact (h.waits hs').trans (h'.waits hs)
    | true =>
      rw [h'.stop hs'] at hs
      exact absurd hs (by simp)
  quiet := by
    intro hs hstop
    exact List.Subset.trans (h'.quiet (by rwa [h.status hs]) (h.stop hstop)) (h.quiet hs hstop)
  asks := by
    obtain ⟨asked, hasked⟩ := h.asks
    obtain ⟨asked', hasked'⟩ := h'.asks
    exact ⟨_, hasked.trans hasked'⟩

/-- Code that leaves life stage, queue and wish to stop alone. -/
theorem leads_of_same (hstatus : s'.status = s.status) (hqueue : s'.queue = s.queue)
    (hstop : s'.stopRequested = s.stopRequested) (hasks : ∃ asked, Asks s asked s') :
    Leads s s' where
  status := fun _ => hstatus
  stop := fun h => hstop.trans h
  joined := fun _ hw => Or.inl (hqueue ▸ hw)
  waits := fun _ => hqueue ▸ List.prefix_refl _
  quiet := fun _ _ => hqueue ▸ List.Subset.refl _
  asks := hasks

/-- New work is only admitted by a running machine that nobody asked to stop. -/
theorem receiveWork_admitted {w : Work D} (h : s.receiveWork w = .admitted s') :
    s.stopRequested = false ∧ s.status = .running ∧ s' = s.enqueue w := by
  unfold receiveWork at h
  split at h
  · exact absurd h (by simp)
  · next hstop =>
    rw [Bool.not_eq_true] at hstop
    split at h <;> simp only [reduceCtorEq, Admission.admitted.injEq] at h
    next hstatus =>
    exact ⟨hstop, hstatus, h.symm⟩

/-- The shell after a call that was admitted: the work that the call asks for is at the end of the
queue, or a stop is asked for. -/
theorem receive_cases {c : Call D} (h : s.receive horizon c = .admitted s') :
    (s'.queue = s.queue ++ c.work s.clock.now horizon ∧ s'.stopRequested = s.stopRequested ∧
        ((s.status = .running ∧ s.stopRequested = false ∧ s'.status = s.status) ∨
          (s.status = .notStarted ∧ s'.status = .running))) ∨
      (s'.queue = [] ∧ s'.stopRequested = true ∧ s'.status = s.status ∧ s.status ≠ .notStarted) := by
  cases c with
  | start =>
    rw [receive] at h
    split at h <;> simp only [reduceCtorEq, Admission.admitted.injEq] at h
    next hstatus =>
    exact Or.inl (h ▸ ⟨rfl, rfl, Or.inr ⟨hstatus, rfl⟩⟩)
  | send e =>
    obtain ⟨hstop, hstatus, rfl⟩ := receiveWork_admitted (w := .signal (.event e)) h
    exact Or.inl ⟨rfl, rfl, Or.inl ⟨hstatus, hstop, rfl⟩⟩
  | tick =>
    obtain ⟨hstop, hstatus, rfl⟩ := receiveWork_admitted (w := .timers s.clock.now horizon) h
    exact Or.inl ⟨rfl, rfl, Or.inl ⟨hstatus, hstop, rfl⟩⟩
  | stop =>
    rw [receive] at h
    split at h <;> simp only [reduceCtorEq, Admission.admitted.injEq] at h
    · next hstatus => exact Or.inr (h ▸ ⟨rfl, rfl, rfl, by simp [hstatus]⟩)
    · next hstatus => exact Or.inr (h ▸ ⟨rfl, rfl, rfl, by simp [hstatus]⟩)

theorem external_of_work {c : Call D} {now : Duration} {w : Work D} (h : w ∈ c.work now horizon) :
    w.External := by
  cases c <;> simp only [Call.work, List.mem_singleton, List.not_mem_nil] at h
  all_goals exact h ▸ trivial

/-- New work is passed over only when the machine has completed. -/
theorem receiveWork_ignored {w : Work D} (h : s.receiveWork w = .ignored) : s.status = .done := by
  unfold receiveWork at h
  split at h
  · exact absurd h (by simp)
  · split at h <;> first | assumption | exact absurd h (by simp)

/-- A call that is admitted puts the work it asks for at the end of the queue, or empties it. -/
theorem receive_leads {c : Call D} (h : s.receive horizon c = .admitted s') : Leads s s' := by
  have hasks : ∃ asked, Asks s asked s' := ⟨_, .call h⟩
  rcases receive_cases h with ⟨hqueue, hstop, hor⟩ | ⟨hqueue, hstop, hstatus, -⟩
  · refine ⟨fun hs => ?_, fun hs => hstop.trans hs, fun v hv => ?_, fun _ => ?_,
      fun hs hwish => ?_, hasks⟩
    · exact (hor.resolve_right fun h => hs h.1).2.2
    · rw [hqueue] at hv
      exact (List.mem_append.mp hv).imp_right external_of_work
    · exact hqueue ▸ List.prefix_append ..
    · have hopen := (hor.resolve_right fun h => hs h.1).2.1
      rw [hopen] at hwish
      exact absurd hwish (by simp)
  · exact ⟨fun _ => hstatus, fun _ => hstop, fun w hw => absurd (hqueue ▸ hw) List.not_mem_nil,
      fun h => absurd (hstop.symm.trans h) (by simp), fun _ _ => hqueue ▸ List.nil_subset _, hasks⟩

theorem askedByCall_eq {c : Call D} (h : s.receive horizon c = .admitted s') :
    s.askedByCall horizon c = c.work s.clock.now horizon := by
  rw [askedByCall, h]

/-- A command that calls the machine does to the queue what the call does. -/
theorem queue_of_callAndTell {c : Call D} {tell : Reply → D.Host → D.Host}
    (hs : (s.callAndTell horizon c tell).stopRequested = false) :
    (s.callAndTell horizon c tell).queue = s.queue ++ s.askedByCall horizon c ∧
      s.stopRequested = false := by
  unfold callAndTell callInside at hs ⊢
  cases hr : s.receive horizon c with
  | refused r =>
    rw [hr] at hs
    exact ⟨by simp [askedByCall, hr], hs⟩
  | ignored =>
    rw [hr] at hs
    exact ⟨by simp [askedByCall, hr], hs⟩
  | admitted s' =>
    rw [hr] at hs
    rw [askedByCall_eq hr]
    rcases receive_cases hr with ⟨hqueue, hstop, -⟩ | ⟨-, hstop, -⟩
    · exact ⟨hqueue, hstop.symm.trans hs⟩
    · exact absurd (hstop.symm.trans hs) (by simp)

/-- So does every command: the work that it asks for joins the queue. -/
theorem queue_of_perform {c : Command D} (hs : (s.perform horizon c).1.stopRequested = false) :
    (s.perform horizon c).1.queue = s.queue ++ s.askedBy horizon c ∧ s.stopRequested = false := by
  cases c with
  | send | start | stop | tick => exact queue_of_callAndTell hs
  | act | status | subscribe | panic => exact ⟨(List.append_nil _).symm, hs⟩
  | advance | unsubscribe =>
    rw [perform] at hs ⊢
    split at hs <;> exact ⟨(List.append_nil _).symm, hs⟩

/-- As long as nobody asks to stop, what is asked for joins the queue. -/
theorem queue_of_asks {asked : List (Work D)} (h : Asks s asked s') (hs : s'.stopRequested = false) :
    s'.queue = s.queue ++ asked ∧ s.stopRequested = false := by
  induction h with
  | rest | count => exact ⟨(List.append_nil _).symm, hs⟩
  | call h =>
    rcases receive_cases h with ⟨hqueue, hstop, -⟩ | ⟨-, hstop, -⟩
    · exact ⟨hqueue, hstop.symm.trans hs⟩
    · exact absurd (hstop.symm.trans hs) (by simp)
  | command => exact queue_of_perform hs
  | trans _ _ ih ih' =>
    obtain ⟨hqueue', hs'⟩ := ih' hs
    obtain ⟨hqueue, hs''⟩ := ih hs'
    exact ⟨by rw [hqueue', hqueue, List.append_assoc], hs''⟩

/-- What is asked for is the work of calls. -/
theorem mem_asks {asked : List (Work D)} (h : Asks s asked s') {w : Work D} (hw : w ∈ asked) :
    ∃ (c : Call D) (now : Duration) (horizon : Nat), w ∈ c.work now horizon := by
  have hcall : ∀ {s : Shell D} {horizon : Nat} {c : Call D}, w ∈ s.askedByCall horizon c →
      ∃ (c : Call D) (now : Duration) (horizon : Nat), w ∈ c.work now horizon := by
    intro s horizon c hw
    unfold askedByCall at hw
    split at hw
    · exact ⟨_, _, _, hw⟩
    · exact absurd hw List.not_mem_nil
    · exact absurd hw List.not_mem_nil
  induction h with
  | rest | count => exact absurd hw List.not_mem_nil
  | call => exact ⟨_, _, _, hw⟩
  | @command s horizon c =>
    cases c with
    | send | start | stop | tick => exact hcall hw
    | act | advance | status | subscribe | unsubscribe | panic => exact absurd hw List.not_mem_nil
  | trans _ _ ih ih' => exact (List.mem_append.mp hw).elim ih ih'

/-- The first call that a machine admits starts it. -/
theorem running_of_receive {c : Call D} (hs : s.status = .notStarted)
    (h : s.receive horizon c = .admitted s') : s'.status = .running := by
  rcases receive_cases h with ⟨-, -, ⟨hrunning, -⟩ | ⟨-, hstatus⟩⟩ | ⟨-, -, -, hstarted⟩
  · exact absurd (hs.symm.trans hrunning) (by simp)
  · exact hstatus
  · exact absurd hs hstarted

theorem callInside_leads {c : Call D} : Leads s (s.callInside horizon c).1 := by
  unfold callInside
  split
  · exact leads_refl
  · exact leads_refl
  · next hr => exact receive_leads hr

theorem perform_leads (c : Command D) : Leads s (s.perform horizon c).1 := by
  have hasks : ∃ asked, Asks s asked (s.perform horizon c).1 := ⟨_, .command⟩
  -- telling the host of the reply leaves the rest of the shell as the call has left it
  have hcall : ∀ call tell, (s.perform horizon c).1 = s.callAndTell horizon call tell →
      Leads s (s.perform horizon c).1 := by
    intro call tell he
    have hleads : Leads s (s.callInside horizon call).1 := callInside_leads
    exact { hleads with
      status := he ▸ hleads.status, stop := he ▸ hleads.stop, joined := he ▸ hleads.joined
      waits := he ▸ hleads.waits, quiet := he ▸ hleads.quiet, asks := hasks }
  cases c with
  | act change => exact leads_of_same rfl rfl rfl hasks
  | advance span =>
    rw [perform] at hasks ⊢
    split at hasks
    · exact leads_of_same rfl rfl rfl hasks
    · exact leads_refl
  | send e tell => exact hcall _ _ rfl
  | start tell => exact hcall _ _ rfl
  | stop tell => exact hcall _ _ rfl
  | tick tell => exact hcall _ _ rfl
  | status tell => exact leads_of_same rfl rfl rfl hasks
  | subscribe react tell => exact leads_of_same rfl rfl rfl hasks
  | unsubscribe which =>
    rw [perform] at hasks ⊢
    split at hasks
    · exact leads_of_same rfl rfl rfl hasks
    · exact leads_refl
  | panic message => exact leads_refl

theorem performAll_leads : ∀ (cs : List (Command D)) {s : Shell D},
    Leads s (s.performAll horizon cs).1
  | [], _ => leads_refl
  | c :: cs, s => by
    have hc : Leads s (s.perform horizon c).1 := perform_leads c
    unfold performAll
    split
    · next s' h =>
      rw [h] at hc
      exact leads_trans hc (performAll_leads cs)
    · next s' message h =>
      rw [h] at hc
      exact hc

theorem tellAll_leads {snapshot : Snapshot D} :
    ∀ (ls : List (Listener D)) {s : Shell D}, Leads s (s.tellAll horizon snapshot ls).1
  | [], _ => leads_refl
  | l :: ls, s => by
    have hcount : Leads s (s.countCall l.id) := leads_of_same rfl rfl rfl ⟨[], .count⟩
    have hl : Leads s ((s.countCall l.id).performAll horizon (l.react l.calls snapshot)).1 :=
      leads_trans hcount (performAll_leads _)
    unfold tellAll
    split
    · next s' h =>
      rw [h] at hl
      exact leads_trans hl (tellAll_leads ls)
    · next s' message h =>
      rw [h] at hl
      exact hl

end Shell

namespace Machine

variable {m m' : Machine D} {s : D.State} {signal : Signal D}

theorem notify_leads : m.shell.Leads (m.notify).machine.shell := Shell.tellAll_leads _

theorem runAction_leads {a : Action D} (h : m.runAction s signal a = .ok m') :
    m.shell.Leads m'.shell := by
  unfold runAction at h
  split at h
  · split at h
    · rw [Except.ok.injEq] at h
      exact h ▸ Shell.leads_refl
    · exact absurd h (by simp [halt])
  · next commands _ =>
    split at h
    · next shell hp =>
      rw [Except.ok.injEq] at h
      have hl : m.shell.Leads
          (m.shell.performAll m.timers.nextEpoch (commands m.context signal m.shell.host)).1 :=
        Shell.performAll_leads _
      rw [hp] at hl
      exact h ▸ hl
    · exact absurd h (by simp [halt])

theorem runActions_leads {actions : List (Action D)} (h : m.runActions s signal actions = .ok m') :
    m.shell.Leads m'.shell :=
  relates_foldlM (R := fun m m' : Machine D => m.shell.Leads m'.shell) (fun _ => Shell.leads_refl)
    Shell.leads_trans runAction_leads h

theorem exitState_leads (h : m.exitState signal s = .ok m') : m.shell.Leads m'.shell := by
  obtain ⟨n, m₁, -, h₁, rfl⟩ := exists_of_exitState h
  have hl := runActions_leads h₁
  exact hl

theorem exitStates_leads {l : List D.State} (h : m.exitStates signal l = .ok m') :
    m.shell.Leads m'.shell :=
  relates_foldlM (R := fun m m' : Machine D => m.shell.Leads m'.shell) (fun _ => Shell.leads_refl)
    Shell.leads_trans exitState_leads h

theorem runTransitions_leads {taken : List (Selected D)}
    (h : m.runTransitions signal taken = .ok m') : m.shell.Leads m'.shell :=
  relates_foldlM (R := fun m m' : Machine D => m.shell.Leads m'.shell) (fun _ => Shell.leads_refl)
    Shell.leads_trans runActions_leads h

/-- Leaving every active state on the way to the end. -/
theorem abandonState_leads (h : m.abandonState s = .ok m') : m.shell.Leads m'.shell := by
  obtain ⟨n, m₁, -, h₁, rfl⟩ := exists_of_abandonState h
  have hl := runActions_leads h₁
  exact hl

theorem foldlM_abandonState_leads {l : List D.State}
    (h : l.foldlM (fun m s => m.abandonState s) m = .ok m') : m.shell.Leads m'.shell :=
  relates_foldlM (R := fun m m' : Machine D => m.shell.Leads m'.shell) (fun _ => Shell.leads_refl)
    Shell.leads_trans abandonState_leads h

theorem teardown_leads (h : m.teardown = .ok m') : m.shell.Leads m'.shell := by
  unfold teardown at h
  obtain ⟨m₁, h₁, h⟩ := bind_eq_ok.mp h
  rw [pure_eq_ok] at h
  have hl := foldlM_abandonState_leads (m := m.cancelAll) h₁
  exact h ▸ hl

end Machine

namespace Progress

variable {p p' : Progress D} {signal : Signal D} {now : Duration} {s : D.State}

theorem enterState_leads (h : p.enterState signal now s = .ok p') :
    p.machine.shell.Leads p'.machine.shell := by
  obtain ⟨n, m₁, p₁, -, h₁, hp₁, rfl⟩ := exists_of_enterState h
  rw [completeBy_machine]
  have hlaunch : p₁.machine.shell = m₁.shell := by
    rcases launchOf_cases hp₁ with ⟨-, rfl⟩ | ⟨_, _, _, -, -, -, rfl⟩
    · rfl
    · rfl
  have hl := Machine.runActions_leads h₁
  exact hlaunch ▸ hl

theorem foldlM_enterState_leads {l : List D.State}
    (h : l.foldlM (fun p s => p.enterState signal now s) p = .ok p') :
    p.machine.shell.Leads p'.machine.shell :=
  relates_foldlM (R := fun p p' : Progress D => p.machine.shell.Leads p'.machine.shell)
    (fun _ => Shell.leads_refl) Shell.leads_trans enterState_leads h

end Progress

end Statechart
