import Statechart.Proofs.Completion

/-!
# What a completion signal finds

The signal of a completion waits in the queue behind whatever was sent before it, and when
its turn comes, nothing is asked but whether the state it is addressed to is active. In the
meantime other steps may have left the state and entered it again, or have left the final
state in it; then a `done` transition is taken although the state is not in its final state.

A state that is signalled is in its final state after the step that signals it
(`final_of_raised`), and stays so as long as no step leaves a final state within it
(`Reopens`). So `final_of_done` says that the signal finds the state in its final state if no
step has reopened it since it was signalled last. For a compound state it says as well when
this is so: its final child has not been left since, for it would have been signalled again
if a final child had been entered (`not_mem_entered`).
-/

namespace Statechart

open Chart

variable {D : Domain}

namespace Chart

variable {c : Chart D} {active : D.State → Bool} {s t : D.State}

/-- What follows from entering a final state are states that are in their final state now: the state
around it, and the one around that if it is not parallel itself. -/
theorem completed_cases (hs : active s) (h : t ∈ (c.completionOf active s).completed) :
    c.inFinalState active t ∧
      ∃ q, c.parent? s = some q ∧ (t = q ∨ (¬ c.isParallel q ∧ c.parent? q = some t)) := by
  have hpar : ∀ g, t ∈ (c.completeParallel g).completed → t = g := by
    intro g hg
    unfold Outline.completeParallel at hg
    split at hg
    · exact absurd hg List.not_mem_nil
    · exact List.mem_singleton.mp hg
  by_cases hfinal : c.isFinal s
  · obtain ⟨n, hn, he⟩ := completionOf_of_isFinal active hfinal
    rw [he, Outline.complete, parent?_of_node hn] at h
    split at h
    · exact absurd h List.not_mem_nil
    · next q hq =>
      split at h
      · exact absurd h List.not_mem_nil
      · split at h
        · split at h
          · next hqf =>
            obtain rfl := hpar q h
            exact ⟨hqf, t, hq, Or.inl rfl⟩
          · exact absurd h List.not_mem_nil
        · next hnot =>
          -- the state around is compound, and this is its final child
          have hcompound := (isCompound_or_isParallel_of_parent hq).resolve_right hnot
          have hqf : c.inFinalState active q :=
            (inFinalState_compound hcompound).mpr ⟨s, hq, hfinal, hs⟩
          split at h
          · obtain rfl := List.mem_singleton.mp h
            exact ⟨hqf, t, hq, Or.inl rfl⟩
          · next g hg =>
            obtain ⟨hqg, hgf⟩ := Option.filter_eq_some_iff.mp hg
            rw [Bool.and_eq_true] at hgf
            rcases List.mem_cons.mp h with rfl | h
            · exact ⟨hqf, t, hq, Or.inl rfl⟩
            · obtain rfl := hpar g h
              exact ⟨hgf.2, q, hq, Or.inr ⟨hnot, hqg⟩⟩
  · rw [completionOf_of_not_isFinal hfinal] at h
    exact absurd h List.not_mem_nil

/-- Entering a final state completes the machine only if the root is in its final state now. -/
theorem root_of_machine (hs : active s) (h : (c.completionOf active s).machine) :
    c.inFinalState active c.root := by
  have hpar : ∀ g, (c.completeParallel g).machine → g = c.root := by
    intro g hg
    unfold Outline.completeParallel at hg
    split at hg
    · assumption
    · exact absurd hg (by simp)
  by_cases hfinal : c.isFinal s
  · obtain ⟨n, hn, he⟩ := completionOf_of_isFinal active hfinal
    -- the root itself, a child of a compound root, a region, or a child of a region
    rw [he, Outline.complete, parent?_of_node hn] at h
    split at h
    · next hroot =>
      obtain rfl := eq_root_of_parent (contains_iff.mpr ⟨n, hn⟩) hroot
      rw [inFinalState_final hfinal]
      exact hs
    · next q hq =>
      split at h
      · next hroot =>
        rw [Bool.and_eq_true, decide_eq_true_eq] at hroot
        obtain ⟨rfl, hcompound⟩ := hroot
        exact (inFinalState_compound hcompound).mpr ⟨s, hq, hfinal, hs⟩
      · split at h
        · split at h
          · next hqf => exact hpar q h ▸ hqf
          · exact absurd h (by simp)
        · split at h
          · exact absurd h (by simp)
          · next g hg =>
            obtain ⟨-, hgf⟩ := Option.filter_eq_some_iff.mp hg
            rw [Bool.and_eq_true] at hgf
            exact hpar g h ▸ hgf.2
  · rw [completionOf_of_not_isFinal hfinal] at h
    exact absurd h (by simp)

/-- A final child of a compound state completes it, or the machine. -/
theorem completed_of_compound (ht : c.isFinal t) (hs : c.parent? t = some s) (hk : c.isCompound s) :
    (c.completionOf active t).machine ∨ s ∈ (c.completionOf active t).completed := by
  obtain ⟨n, hn, he⟩ := completionOf_of_isFinal active ht
  rw [he, Outline.complete, parent?_of_node hn, hs]
  dsimp only
  by_cases hroot : s = c.root
  · rw [if_pos (by simp [hroot, hroot ▸ hk])]
    exact Or.inl rfl
  · rw [if_neg (by simp [hroot]), if_neg (not_isParallel_of_isCompound hk)]
    refine Or.inr ?_
    split
    · exact List.mem_singleton.mpr rfl
    · exact List.mem_cons_self ..

end Chart

namespace Progress

variable {c : Chart D} {p p' : Progress D} {signal : Signal D} {now : Duration} {s t : D.State}

/-- What is noted while states are entered follows from one of them, as it is entered: whatever is
active then is so in the end. -/
theorem noted_of_foldlM : ∀ {l : List D.State} {p : Progress D}, p.machine.chart = c →
    l.foldlM (fun p s => p.enterState signal now s) p = .ok p' →
      (∀ t ∈ p'.raised, t ∈ p.raised ∨ ∃ s ∈ l, ∃ active, active s ∧
        (∀ x, active x → p'.machine.isActive x) ∧ t ∈ (c.completionOf active s).completed) ∧
      (p'.completed → p.completed ∨ ∃ s ∈ l, ∃ active, active s ∧
        (∀ x, active x → p'.machine.isActive x) ∧ (c.completionOf active s).machine)
  | [], p, _, h => by
    rw [List.foldlM_nil, pure_eq_ok] at h
    exact h ▸ ⟨fun _ => Or.inl, Or.inl⟩
  | s :: l, p, hc, h => by
    rw [List.foldlM_cons, bind_eq_ok] at h
    obtain ⟨p₁, h₁, h₂⟩ := h
    obtain ⟨hraised, hcompleted⟩ := enterState_completion h₁
    obtain ⟨ihraised, ihcompleted⟩ := noted_of_foldlM ((enterState_keeps h₁).1.chart.trans hc) h₂
    rw [hc] at hraised hcompleted
    have hself : p₁.machine.isActive s := (isActive_enterState h₁).mpr (Or.inr rfl)
    -- states are only entered here, so what was active on the way is so at the end
    have hmono : ∀ x, p₁.machine.isActive x → p'.machine.isActive x := by
      intro x hx
      simp only [Machine.isActive, decide_eq_true_eq] at hx ⊢
      exact ((foldlM_enterState_keeps h₂).2 x).mpr (Or.inl hx)
    refine ⟨fun t ht => ?_, fun hdone => ?_⟩
    · rcases ihraised t ht with ht | ⟨u, hu, hrest⟩
      · rw [hraised] at ht
        exact (List.mem_append.mp ht).imp_right fun ht =>
          ⟨s, List.mem_cons_self .., _, hself, hmono, ht⟩
      · exact Or.inr ⟨u, List.mem_cons_of_mem _ hu, hrest⟩
    · rcases ihcompleted hdone with hdone | ⟨u, hu, hrest⟩
      · rw [hcompleted, Bool.or_eq_true] at hdone
        exact hdone.imp_right fun hdone => ⟨s, List.mem_cons_self .., _, hself, hmono, hdone⟩
      · exact Or.inr ⟨u, List.mem_cons_of_mem _ hu, hrest⟩

/-- What is signalled while states are entered is in its final state in the end. -/
theorem final_of_mem_raised {l : List D.State} {p : Progress D} (hc : p.machine.chart = c)
    (h : l.foldlM (fun p s => p.enterState signal now s) p = .ok p') (ht : t ∈ p'.raised) :
    t ∈ p.raised ∨ c.inFinalState p'.machine.isActive t := by
  refine ((noted_of_foldlM hc h).1 t ht).imp_right fun hnoted => ?_
  obtain ⟨s, -, active, hs, hmono, hcompleted⟩ := hnoted
  exact inFinalState_mono t (fun x _ _ => hmono x) (completed_cases hs hcompleted).1

/-- Entering a final child of a compound state signals this, or completes the machine. -/
theorem raised_of_compound : ∀ {l : List D.State} {p : Progress D}, p.machine.chart = c →
    l.foldlM (fun p s => p.enterState signal now s) p = .ok p' → c.isFinal t →
    c.parent? t = some s → c.isCompound s → t ∈ l ∨ p.completed ∨ s ∈ p.raised →
      p'.completed ∨ s ∈ p'.raised
  | [], p, _, h, _, _, _, hor => by
    rw [List.foldlM_nil, pure_eq_ok] at h
    exact h ▸ hor.resolve_left List.not_mem_nil
  | u :: l, p, hc, h, ht, hs, hk, hor => by
    rw [List.foldlM_cons, bind_eq_ok] at h
    obtain ⟨p₁, h₁, h₂⟩ := h
    obtain ⟨hraised, hcompleted⟩ := enterState_completion h₁
    rw [hc] at hraised hcompleted
    refine raised_of_compound ((enterState_keeps h₁).1.chart.trans hc) h₂ ht hs hk ?_
    rw [hraised, hcompleted, Bool.or_eq_true, List.mem_append]
    rcases hor with hl | hdone | hold
    · rcases List.mem_cons.mp hl with rfl | hl
      · exact Or.inr ((completed_of_compound ht hs hk).imp Or.inr Or.inr)
      · exact Or.inl hl
    · exact Or.inr (Or.inl (Or.inl hdone))
    · exact Or.inr (Or.inr (Or.inl hold))

end Progress

namespace Settled

variable {c : Chart D} {step : Settled D} {s t : D.State}

/-- Whether a step leaves a final state within `s`. -/
def Reopens (c : Chart D) (step : Settled D) (s : D.State) : Prop :=
  ∃ x ∈ step.exited, c.isFinal x ∧ c.isWithin x s

/-- The entering phase of a step does not complete the machine. -/
def Unfinished (step : Settled D) : Prop :=
  ∃ q, step.between.enterAll step.signal step.entered = .ok q ∧ q.completed = false

/-- A state that is signalled is in its final state. -/
theorem final_of_raised (hon : step.On c) (h : s ∈ step.raised) :
    c.inFinalState step.after.isActive s := by
  obtain ⟨q, hq⟩ := hon.enters.entering
  have hmem : s ∈ q.raised := by
    rw [raised_eq hq] at h
    split at h
    · exact absurd h List.not_mem_nil
    · exact h
  have hfinal := (Progress.final_of_mem_raised (p := { machine := step.between })
    ((chart_between hon.cases).trans hon.chart) hq hmem).resolve_left List.not_mem_nil
  refine inFinalState_mono s (fun x _ _ hx => ?_) hfinal
  simp only [Machine.isActive, decide_eq_true_eq] at hx ⊢
  exact (hon.enters.configuration x).mpr ((Machine.enterAll_keeps hq).2 x |>.mp hx)

/-- A state stays in its final state unless it is reopened. -/
theorem final_after (hon : step.On c) (hopen : ¬ step.Reopens c s)
    (h : c.inFinalState step.before.isActive s) : c.inFinalState step.after.isActive s := by
  refine inFinalState_mono s (fun x hx hxs hactive => ?_) h
  simp only [Machine.isActive, decide_eq_true_eq] at hactive ⊢
  refine (mem_after hon.enters hon.cases x).mpr (Or.inl ⟨hactive, fun hexit => ?_⟩)
  exact hopen ⟨x, hexit, hx, hxs⟩

/-- A step that does not signal a compound state, and does not complete the machine, enters no final
child of it. -/
theorem not_mem_entered (hon : step.On c) (hk : c.isCompound s) (ht : c.parent? t = some s)
    (hfinal : c.isFinal t) (hraised : s ∉ step.raised) (hopen : step.Unfinished) :
    t ∉ step.entered := by
  intro hentered
  obtain ⟨q, hq, hcompleted⟩ := hopen
  have hor := Progress.raised_of_compound (p := { machine := step.between })
    ((chart_between hon.cases).trans hon.chart) hq hfinal ht hk (Or.inl hentered)
  rw [raised_eq hq, hcompleted, if_neg (by simp)] at hraised
  exact hraised (hor.resolve_left (by simp [hcompleted]))

end Settled

namespace Machine

variable {c : Chart D} {steps later earlier waiting older : List (Settled D)}
  {step origin : Settled D} {m : Machine D} {s t : D.State}

/-! ## What a completion signal sets off -/

/-- The signal of a completion sets off a transition of the state that waits for it. -/
theorem select_done {l : List (Selected D)} (h : m.select (.done s) = .ok l) (hne : l ≠ []) :
    ∃ t : Selected D, l = [t] ∧ t.source = s ∧ t.transition.trigger = .done := by
  cases selects_of_select h with
  | above hsignal _ => exact absurd hsignal (by simp)
  | nothing => exact absurd rfl hne
  | @own _ t horigin _ hfound =>
    obtain rfl := Option.some.inj horigin
    refine ⟨t, rfl, List.mem_singleton.mp (mem_firstEnabledOf hfound).1, ?_⟩
    have haccepts := accepts_of_firstEnabledOf hfound
    cases htrigger : t.transition.trigger <;> simp_all [Trigger.accepts]
  | timer hsignal => exact absurd hsignal (by simp)

theorem withoutConflicts_singleton (t : Selected D) : m.withoutConflicts [t] = [t] := by
  simp [withoutConflicts, keepOrDrop]

/-! ## Along a run -/

/-- A state that was signalled is in its final state until it is reopened. -/
theorem final_of_raised_before (hrun : Run c steps m) (he : steps = later ++ step :: earlier)
    (hlive : step.Live) (horigin : earlier = waiting ++ origin :: older) (hs : s ∈ origin.raised)
    (hopen : ∀ e ∈ waiting, ¬ e.Reopens c s) : c.inFinalState step.before.isActive s := by
  refine (run_step (P := fun steps configuration _ => ∀ waiting origin older,
    steps = waiting ++ origin :: older → s ∈ origin.raised → (∀ e ∈ waiting, ¬ e.Reopens c s) →
      c.inFinalState (fun x => decide (x ∈ configuration)) s) (fun _ _ _ _ => ?_) ?_
    hrun later step earlier he hlive).2 waiting origin older horigin hs hopen
  · intro waiting origin older he
    simp at he
  · intro steps step hon ih waiting origin older he hs hopen
    cases waiting with
    | nil =>
      obtain ⟨rfl, rfl⟩ := List.cons.inj he
      exact Settled.final_of_raised hon hs
    | cons e waiting =>
      obtain ⟨rfl, rfl⟩ := List.cons.inj he
      exact Settled.final_after hon (hopen _ (List.mem_cons_self ..))
        (ih waiting origin older rfl hs fun e he => hopen e (List.mem_cons_of_mem _ he))

/-- As long as a compound state is not signalled again, a final child of it is active if it was so
when the state was signalled, and has not been left since. -/
theorem active_iff_not_exited (hrun : Run c steps m) (he : steps = later ++ step :: earlier)
    (hlive : step.Live) (horigin : earlier = waiting ++ origin :: older) (hk : c.isCompound s)
    (ht : c.parent? t = some s) (hfinal : c.isFinal t)
    (hquiet : ∀ e ∈ waiting, s ∉ e.raised ∧ e.Unfinished) :
    t ∈ step.before.configuration ↔
      t ∈ origin.after.configuration ∧ ∀ e ∈ waiting, t ∉ e.exited := by
  refine (run_step (P := fun steps configuration _ => ∀ waiting origin older,
    steps = waiting ++ origin :: older → (∀ e ∈ waiting, s ∉ e.raised ∧ e.Unfinished) →
      (t ∈ configuration ↔ t ∈ origin.after.configuration ∧ ∀ e ∈ waiting, t ∉ e.exited))
    (fun _ _ _ _ => ?_) ?_ hrun later step earlier he hlive).2 waiting origin older horigin hquiet
  · intro waiting origin older he
    simp at he
  · intro steps step hon ih waiting origin older he hquiet
    cases waiting with
    | nil =>
      obtain ⟨rfl, rfl⟩ := List.cons.inj he
      simp
    | cons e waiting =>
      obtain ⟨rfl, rfl⟩ := List.cons.inj he
      obtain ⟨hraised, hopen⟩ := hquiet _ (List.mem_cons_self ..)
      -- entering the child would have signalled the state, so only leaving it counts
      have hnew := Settled.not_mem_entered hon hk ht hfinal hraised hopen
      rw [Settled.mem_after hon.enters hon.cases, or_iff_left hnew,
        ih waiting origin older rfl fun e he => hquiet e (List.mem_cons_of_mem _ he),
        List.forall_mem_cons, and_assoc, and_comm (a := ∀ e ∈ waiting, t ∉ e.exited)]

/-- The steps before a machine takes a signal out of its queue left the machine running. -/
theorem unfinished_of_run (hrun : Run c steps m) (hm : m.status = .running) :
    ∀ e ∈ steps, e.Live ∧ e.Unfinished := by
  intro e he
  have hstatus := (running_of_run hrun).2 hm e he
  obtain ⟨m₀, p, hm₀, hsettles⟩ := settles_of_run hrun e he (Or.inl hstatus)
  obtain ⟨q, hq, hdone, -⟩ := raised_of_settles hm₀ hsettles
  rw [hstatus] at hdone
  exact ⟨Or.inl hstatus, q, hq, by simpa using hdone⟩

/-- A step that does not stop the machine is settled in a turn that processes its signal. -/
theorem turn_of_settling {m' : Machine D} (h : m.Settling step m') (hsignal : step.signal ≠ .stop) :
    step.Live ∧ ∃ m₀ later p, m.nextTurn = .process m₀ step.signal later ∧ m₀.Settles step p := by
  cases h with
  | turn _ hturn hstep | turnPanicked _ hturn hstep =>
    exact ⟨(effects_of_settles (turn_passes hturn).2.1 hstep).status, _, _, _, hturn, hstep⟩
  | stop => exact absurd rfl hsignal

/-- A state whose completion signal is taken out of the queue was signalled by an earlier step; this
is about the latest one that did. -/
theorem exists_raised {m₀ : Machine D} {rest : List (Work D)} (hrun : Run c steps m)
    (hturn : m.nextTurn = .process m₀ (.done s) rest) : ∃ waiting origin older,
      steps = waiting ++ origin :: older ∧ s ∈ origin.raised ∧ ∀ e ∈ waiting, s ∉ e.raised := by
  have hsourced : (Work.signal (.done s)).Sourced steps := by
    obtain ⟨queue, -, ⟨hqueue, -⟩ | ⟨now, horizon, t, timers, -, -, -, htimer, -⟩⟩ :=
      nextTurn_cases hturn
    · exact sourced_of_run hrun _ (hqueue ▸ List.mem_cons_self ..)
    · exact absurd htimer (by simp)
  obtain ⟨e, he, hs⟩ := hsourced
  obtain ⟨origin, horigin⟩ : ∃ origin, steps.find? (fun e => s ∈ e.raised) = some origin :=
    Option.isSome_iff_exists.mp (List.find?_isSome.mpr ⟨e, he, by simpa using hs⟩)
  obtain ⟨hraised, waiting, older, hsplit, hquiet⟩ := List.find?_eq_some_iff_append.mp horigin
  exact ⟨waiting, origin, older, hsplit, by simpa using hraised, by simpa using hquiet⟩

/-- What a run knows of a state when the signal of its completion sets off a transition: the state
was signalled by an earlier step, in its final state, and is still there unless a step that came
between has reopened it. A compound state is there exactly if the final child it had then has
not been left. -/
theorem final_of_done (hrun : Run c steps m) (he : steps = later ++ step :: earlier)
    (hsignal : step.signal = .done s) :
    (∃ t, step.taken = [t] ∧ t.source = s ∧ t.transition.trigger = .done) ∧
      ∃ waiting origin older, earlier = waiting ++ origin :: older ∧ s ∈ origin.raised ∧
        c.inFinalState origin.after.isActive s ∧ (∀ e ∈ waiting, s ∉ e.raised) ∧
        ((∀ e ∈ waiting, ¬ e.Reopens c s) → c.inFinalState step.before.isActive s) ∧
        (c.isCompound s → (c.inFinalState step.before.isActive s ↔
          ∃ t, c.parent? t = some s ∧ c.isFinal t ∧ t ∈ origin.after.configuration ∧
            ∀ e ∈ waiting, t ∉ e.exited)) := by
  obtain ⟨m₁, m₂, hrun₁, hsettling⟩ := run_split hrun later step earlier he
  obtain ⟨hlive, m₀, rest, p, hturn, hsettles⟩ := turn_of_settling hsettling (by simp [hsignal])
  constructor
  · cases hsettles with
    | initial => exact absurd hsignal (by simp)
    | reaction _ hselect hne htaken =>
      subst hsignal
      obtain ⟨t, rfl, hsource, htrigger⟩ := select_done hselect hne
      exact ⟨t, htaken ▸ withoutConflicts_singleton t, hsource, htrigger⟩
  · rw [hsignal] at hturn
    obtain ⟨waiting, origin, older, hsplit, hraised, hquiet⟩ := exists_raised hrun₁ hturn
    have hopen := unfinished_of_run hrun₁ (nextTurn_process hturn).1
    have horigin : origin ∈ earlier := hsplit ▸ List.mem_append_right _ (List.mem_cons_self ..)
    have hon := on_of_run hrun₁ horigin (hopen origin horigin).1
    refine ⟨waiting, origin, older, hsplit, hraised, Settled.final_of_raised hon hraised,
      hquiet, final_of_raised_before hrun he hlive hsplit hraised, fun hk => ?_⟩
    rw [inFinalState_compound hk]
    refine exists_congr fun t => and_congr_right fun ht => and_congr_right fun hfinal => ?_
    rw [Machine.isActive, decide_eq_true_eq]
    refine active_iff_not_exited hrun he hlive hsplit hk ht hfinal fun e he => ⟨hquiet e he, ?_⟩
    exact (hopen e (hsplit ▸ List.mem_append_left _ he)).2

end Machine

/-! ## A shop -/

inductive ShopState | shop | sale | order | placed | paid | clerk | shipped
deriving DecidableEq

/-- Ask for another order, in the step that is paid for. -/
def orderAgain : Action (.bare ShopState) :=
  { name := "again", deed := .effect fun _ _ _ => [.send "again" fun _ host => host] }

/-- An order is shipped when it is paid. Whoever renews an order pays for it and places another. -/
def shopTree : StateTree (.bare ShopState) :=
  .bare .shop (.compound .sale) []
    [.bare .sale .parallel []
      [.bare .order (.compound .placed) [.bareOn .done .shipped]
        [.bare .placed .atomic
          [.bare "pay" .paid,
          { trigger := .event "renew", target := some .paid, actions := [orderAgain] }],
        .bare .paid .final],
      .bare .clerk .atomic [.bare "again" .order]],
    .bare .shipped .atomic]

def shop : Chart (.bare ShopState) :=
  { shopTree.outline with tree := shopTree, outline_eq := rfl, flawless := by cbv }

open Machine

/-- The signal of a completion is known by its type and its origin. -/
theorem signal_eq_done {signal : Signal D} {s : D.State} (hname : signal.name = "done")
    (horigin : signal.origin? = some s) : signal = .done s := by
  cases signal <;> simp_all [Signal.name, Signal.origin?]

/-- An order that was paid is shipped in its final state. -/
theorem shop_ships : ∃ steps m, Run shop steps m ∧ ∃ step ∈ steps, step.signal = .done .order ∧
    (∃ t, step.taken = [t] ∧ t.source = .order ∧ t.transition.trigger = .done) ∧
      shop.inFinalState step.before.isActive .order := by
  have hrun := shop.run_trace [.start, .send "pay"]
  have hturned : (shop.machine.trace [.start, .send "pay"]).2.turned?.map
      (fun (step, _) => (step.signal.name, step.signal.origin?)) = some ("done", some .order) := by
    cbv
  have hexited : (shop.machine.trace [.start, .send "pay"]).1.map (·.exited) = [[.placed], []] := by
    cbv
  obtain ⟨⟨step, m⟩, hstep, he⟩ := Option.map_eq_some_iff.mp hturned
  rw [Prod.mk.injEq] at he
  have hsignal := signal_eq_done he.1 he.2
  have hrun := run_turned? hrun hstep
  obtain ⟨htaken, waiting, origin, older, hsplit, -, -, -, hfinal, -⟩ :=
    final_of_done hrun (List.nil_append _).symm hsignal
  refine ⟨_, _, hrun, step, List.mem_cons_self .., hsignal, htaken, hfinal fun e he hopens => ?_⟩
  -- nothing but the placed order was left before
  obtain ⟨x, hx, hxfinal, -⟩ := hopens
  have hmem := List.mem_map_of_mem (f := (·.exited)) (hsplit ▸ List.mem_append_left _ he)
  rw [hexited] at hmem
  have hplaced : ∀ l ∈ [[ShopState.placed], []], ∀ x ∈ l, ¬ shop.isFinal x := by decide
  exact hplaced _ hmem x hx hxfinal

/-- A renewed order is shipped unpaid: the signal that the first one is in its final state is taken
up when the second one, in the same state, is not. -/
theorem shop_ships_unpaid : ∃ steps m, Run shop steps m ∧ ∃ step ∈ steps, step.signal = .done .order ∧
    (∃ t ∈ step.taken, t.source = .order ∧ t.transition.trigger = .done) ∧
      shop.WellFormed step.before.configuration ∧
        ¬ shop.inFinalState step.before.isActive .order := by
  have hrun := shop.run_trace [.start, .send "renew"]
  have hturned : ((shop.machine.trace [.start, .send "renew"]).2.turned?.bind (·.2.turned?)).map
      (fun (step, _) => (step.signal.name, step.signal.origin?,
        step.taken.map (fun t => (t.source, t.transition.trigger)), step.before.configuration.elems,
        shop.inFinalState step.before.isActive .order)) =
      some ("done", some .order, [(.order, .done)], [.shop, .sale, .order, .clerk, .placed],
        false) := by cbv
  obtain ⟨⟨step, m⟩, hstep, he⟩ := Option.map_eq_some_iff.mp hturned
  obtain ⟨⟨step₁, m₁⟩, hstep₁, hstep⟩ := Option.bind_eq_some_iff.mp hstep
  simp only [Prod.mk.injEq] at he
  obtain ⟨hname, horigin, htaken, hconf, hfinal⟩ := he
  obtain ⟨t, htaken, ht⟩ := List.map_eq_singleton_iff.mp htaken
  rw [Prod.mk.injEq] at ht
  refine ⟨_, _, run_turned? (run_turned? hrun hstep₁) hstep, step, List.mem_cons_self ..,
    signal_eq_done hname horigin, ⟨t, htaken ▸ List.mem_singleton.mpr rfl, ht⟩, ?_,
    by simp [hfinal]⟩
  rw [wellFormed_iff, hconf]
  decide

end Statechart
