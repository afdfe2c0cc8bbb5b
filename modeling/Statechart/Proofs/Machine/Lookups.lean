import Statechart.Proofs.Machine.Calm

/-!
# Looking states up

A machine looks up what the chart says of a state as it selects transitions, as it leaves and
enters states, and as it leaves the active ones on the way to the end. It halts on a defect of its
own if the chart does not have the state. On a clean machine that never comes up: transitions are
selected for the active states and the states around them, or for the state a signal comes from if
this one is active; what is left is active; and what is entered is on the chart
(`enterable_of_clean`).

Each phase of a step is gone through for that (`Attempt.Finds`). Most lemmas say besides that the
phase goes on with a machine on the same chart, on which the next state is then looked up.
-/

namespace Statechart

variable {D : Domain}

/-- What holds of the result of an attempt, which never halts for want of a state. -/
abbrev Attempt.Finds {α : Type} (x : Attempt D α) (good : α → Prop) : Prop :=
  x.Ends good (fun _ d => ∀ s, d ≠ .unknownState s) True

open Attempt

namespace Machine

variable {c : Chart D} {m : Machine D} {s : D.State} {signal : Signal D} {t : Selected D}
  {taken : List (Selected D)} {l : List D.State}

theorem runAction_finds {a : Action D} (hm : m.chart = c) :
    (m.runAction s signal a).Finds fun m' => m'.chart = c := by
  unfold runAction
  split
  · split
    · exact ends_ok hm
    · exact ends_halt fun _ => nofun
  · split
    · exact ends_ok hm
    · exact ends_halt fun _ => nofun

theorem runActions_finds {actions : List (Action D)} (hm : m.chart = c) :
    (m.runActions s signal actions).Finds fun m' => m'.chart = c :=
  ends_foldlM hm fun _ _ _ hm => runAction_finds hm

/-! ## Selection -/

/-- Transitions are selected for states of the chart only, whatever state the signal comes from. -/
theorem select_finds (hm : Clean c m) : (m.select signal).Finds fun _ => True := by
  refine select_ends (fun t _ => ?_) fun x hx s hs => ?_
  · refine ends_mono guardHolds_ends (fun _ h => h) (fun m' d h s he => ?_) False.elim
    subst he
    exact h.2
  · exact lookup_of_contains (contains_of_path hm hx hs)

/-! ## Leaving -/

theorem exitState_finds (hm : m.chart = c) (hs : c.contains s) :
    (m.exitState signal s).Finds fun m' => m'.chart = c := by
  unfold exitState
  refine ends_bind (lookup_of_contains (hm ▸ hs)) fun n _ => ?_
  exact ends_bind (runActions_finds hm) fun m' hm' => ends_ok hm'

theorem exitStates_finds (hm : m.chart = c) (hl : ∀ s ∈ l, c.contains s) :
    (m.exitStates signal l).Finds fun m' => m'.chart = c :=
  ends_foldlM hm fun _ s hs hm => exitState_finds hm (hl s hs)

theorem runTransitions_finds (hm : m.chart = c) :
    (m.runTransitions signal taken).Finds fun m' => m'.chart = c :=
  ends_foldlM hm fun _ _ _ hm => runActions_finds hm

theorem abandonState_finds (hm : m.chart = c) (hs : c.contains s) :
    (m.abandonState s).Finds fun m' => m'.chart = c := by
  unfold abandonState
  refine ends_bind (lookup_of_contains (hm ▸ hs)) fun n _ => ?_
  exact ends_bind (runActions_finds hm) fun m' hm' => ends_ok hm'

/-- A machine that is stopped finds all the states it is in. -/
theorem teardown_finds (hm : Clean c m) : m.teardown.Finds fun _ => True := by
  unfold teardown
  have hleft : ((m.chart.inExitOrder m.configuration.elems).foldlM
      (fun (m : Machine D) s => m.abandonState s) m.cancelAll).Finds fun m' => m'.chart = c :=
    ends_foldlM hm.chart fun m' s hs hm' =>
      abandonState_finds hm' (hm.contains s ((Outline.mem_inExitOrder ..).mp hs))
  exact ends_bind hleft fun _ _ => ends_ok trivial

/-! ## Entering -/

theorem launch_finds {invocation : Invocation D} (hm : m.chart = c) :
    (m.launch s invocation).Finds fun launched => launched.1.chart = c := by
  unfold launch
  split
  · exact ends_halt fun _ => nofun
  · split
    · exact ends_halt fun _ => nofun
    · exact ends_ok hm

end Machine

namespace Progress

variable {c : Chart D} {p : Progress D} {s : D.State} {signal : Signal D} {now : Duration}

theorem launchOf_finds {n : Node D} (hp : p.machine.chart = c) :
    (p.launchOf n).Finds fun p' => p'.machine.chart = c := by
  unfold launchOf
  split
  · exact ends_ok hp
  · exact ends_bind (Machine.launch_finds hp) fun _ h => ends_ok h

theorem enterState_finds (hp : p.machine.chart = c) (hs : c.contains s) :
    (p.enterState signal now s).Finds fun p' => p'.machine.chart = c := by
  unfold enterState
  refine ends_bind (Machine.lookup_of_contains (hp ▸ hs)) fun n _ => ?_
  refine ends_bind (Machine.runActions_finds hp) fun m hm => ?_
  have harmed : (m.armTimers now n).chart = c := hm
  refine ends_bind (launchOf_finds harmed) fun p' hp' => ends_ok ?_
  rw [completeBy_machine]
  exact hp'

end Progress

namespace Machine

variable {c : Chart D} {m : Machine D} {signal : Signal D} {taken : List (Selected D)}

theorem settleEntry_finds {exited entered : List D.State} (hm : m.chart = c)
    (hentered : ∀ s ∈ entered, c.contains s) :
    (m.settleEntry signal exited entered).Finds fun _ => True := by
  have hentering : (m.enterAll signal entered).Finds fun p => p.machine.chart = c :=
    ends_foldlM hm fun _ s hs hp => Progress.enterState_finds hp (hentered s hs)
  have hentered : (m.enterStates signal entered).Finds fun _ => True :=
    ends_bind hentering fun _ _ => ends_ok trivial
  exact ends_bind hentered fun _ _ => ends_ok trivial

/-! ## Signals -/

theorem take_finds (hm : Clean c m) (hdecl : ∀ t ∈ taken, Declared c t) :
    (m.take signal taken).Finds fun _ => True := by
  have hleaving : ∀ s ∈ m.leaving taken, c.contains s :=
    fun s hs => hm.contains s (mem_leaving.mp hs).1
  have hrecorded : Clean c (m.recordHistories (m.leaving taken)) := clean_of_alter hm .remember
  unfold take
  -- whatever happens between, the machine is as clean when it enters states as when it left some
  refine ends_bind (ends_self (exitStates_finds hrecorded.chart hleaving)) fun left hleft => ?_
  have hleft : Clean c left := clean_of_alters hrecorded ((exitStates_alters .refl).ok hleft)
  refine ends_bind (ends_self (runTransitions_finds hleft.chart)) fun between hbetween => ?_
  have hbetween : Clean c between := clean_of_alters hleft ((runTransitions_alters .refl).ok hbetween)
  refine ends_bind (ends_orEndless fun _ h => h) fun entered hentered => ?_
  refine settleEntry_finds hbetween.chart fun s hs => ?_
  have hdecl : ∀ t ∈ taken, Declared between.chart t := hbetween.chart ▸ hdecl
  exact ((enterable_of_clean hbetween).entering between taken entered .refl hdecl hentered s hs).1

theorem react_finds (hm : Clean c m) : (m.react signal).Finds fun _ => True := by
  unfold react
  refine ends_bind (ends_self (select_finds hm)) fun selected hselect => ?_
  split
  · exact ends_ok trivial
  · refine take_finds hm fun t ht => ?_
    rw [← hm.chart]
    exact (mem_select hselect (mem_withoutConflicts ht)).1

/-- A clean machine that processes a signal finds every state that it looks up. -/
theorem process_finds (hm : Clean c m) : (m.process signal).Finds fun _ => True := by
  by_cases hs : signal = .start
  · subst hs
    unfold process
    dsimp only
    split
    · unfold enterInitial
      refine ends_bind (ends_orEndless fun _ h => h) fun set hset => ?_
      exact settleEntry_finds hm.chart fun s hs => ((enterable_of_clean hm).initial set hset s hs).1
    · exact ends_ok trivial
  · rw [process_eq hs]
    cases hreact : m.reacting? signal with
    | none => exact ends_ok trivial
    | some before =>
      obtain ⟨invocations, -, rfl⟩ := exists_of_reacting? hreact
      exact react_finds (clean_of_alter hm .work)

end Machine

end Statechart
