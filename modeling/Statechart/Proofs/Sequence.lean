import Statechart.Proofs.Chart.Orders
import Statechart.Proofs.Journal
import Statechart.Proofs.Machine.Carrying
import Statechart.Proofs.Machine.Offers
import Statechart.Proofs.Trace

/-!
# The sequence of a step

States are left inside out and entered outside in, and among states of one depth those declared last
are left first and those declared first are entered first. Both orders tell any two states of a chart
apart, so what is left and entered in a step is listed in one way only, however the sets are listed
that it is computed from.

A step runs the actions of the states it leaves, of the transitions it takes and of the states it
enters (`Settled.actions`), in this order and nothing else: from one action to the next the context
and the shell stay as they are (`Machine.Acts`), whatever happens in between to timers, invocations
and configuration. Transitions are taken in the order of the leaves for which they were selected.
-/

namespace Statechart

open Chart

variable {D : Domain}

namespace Outline

variable (c : Outline D) (s : D.State)

/-- The actions that are run as a state is left, each with the state. -/
def exitActions : List (D.State × Action D) :=
  ((c.node? s).map fun n => n.exit.map (s, ·)).getD []

/-- The actions that are run as a state is entered, each with the state. -/
def entryActions : List (D.State × Action D) :=
  ((c.node? s).map fun n => n.entry.map (s, ·)).getD []

end Outline

/-- The actions of a transition, each with the state that the transition is declared on. -/
def Selected.actions (t : Selected D) : List (D.State × Action D) :=
  t.transition.actions.map (t.source, ·)

/-- The actions that a step on a chart has to run. -/
def Settled.actions (c : Chart D) (step : Settled D) : List (D.State × Action D) :=
  step.exited.flatMap c.exitActions ++ step.taken.flatMap Selected.actions ++
    step.entered.flatMap c.entryActions

namespace Machine

/-- How a machine runs some actions, each on the context and the shell that the one before has left,
and comes to have the context and the shell of another one. -/
inductive Acts (signal : Signal D) : Machine D → List (D.State × Action D) → Machine D → Prop
  | rest {m m' : Machine D} : m.SameWorld m' → Acts signal m [] m'
  | act {m m₁ m₂ m' : Machine D} {s : D.State} {a : Action D} {l : List (D.State × Action D)} :
      m.SameWorld m₁ → m₁.runAction s signal a = .ok m₂ → Acts signal m₂ l m' →
        Acts signal m ((s, a) :: l) m'

variable {c : Chart D} {m m' m₁ : Machine D} {s : D.State} {signal : Signal D} {p p' : Progress D}
  {l l' : List (D.State × Action D)} {states : List D.State} {taken : List (Selected D)}

theorem acts_of_sameWorld (hacts : Acts signal m₁ l m') (h : m.SameWorld m₁) :
    Acts signal m l m' := by
  cases hacts with
  | rest h' => exact .rest (sameWorld_trans h h')
  | act h' hrun hrest => exact .act (sameWorld_trans h h') hrun hrest

theorem acts_append (h : Acts signal m l m₁) (h' : Acts signal m₁ l' m') :
    Acts signal m (l ++ l') m' := by
  induction h with
  | rest hsame => exact acts_of_sameWorld h' hsame
  | act hsame hrun _ ih => exact .act hsame hrun (ih h')

/-! ## Phases -/

theorem acts_of_runActions : ∀ {actions : List (Action D)} {m : Machine D},
    m.runActions s signal actions = .ok m' → Acts signal m (actions.map (s, ·)) m'
  | [], m, h => by
    obtain rfl := pure_eq_ok.mp h
    exact .rest ⟨rfl, rfl⟩
  | a :: actions, m, h => by
    rw [runActions, List.foldlM_cons, bind_eq_ok] at h
    obtain ⟨m₁, h₁, h₂⟩ := h
    exact .act ⟨rfl, rfl⟩ h₁ (acts_of_runActions h₂)

theorem exitActions_of_node {n : Node D} (hn : c.node? s = some n) :
    c.exitActions s = n.exit.map (s, ·) := by
  rw [Outline.exitActions, hn, Option.map_some, Option.getD_some]

theorem entryActions_of_node {n : Node D} (hn : c.node? s = some n) :
    c.entryActions s = n.entry.map (s, ·) := by
  rw [Outline.entryActions, hn, Option.map_some, Option.getD_some]

theorem acts_of_exitState (hm : m.chart = c) (h : m.exitState signal s = .ok m') :
    Acts signal m (c.exitActions s) m' := by
  obtain ⟨n, m₁, hn, hrun, rfl⟩ := exists_of_exitState h
  have hacts := acts_of_runActions hrun
  rw [exitActions_of_node (hm ▸ hn), ← List.append_nil (n.exit.map _)]
  exact acts_append (acts_of_sameWorld hacts ⟨rfl, rfl⟩) (.rest ⟨rfl, rfl⟩)

theorem acts_of_exitStates : ∀ {states : List D.State} {m : Machine D}, m.chart = c →
    m.exitStates signal states = .ok m' → Acts signal m (states.flatMap c.exitActions) m'
  | [], m, _, h => by
    obtain rfl := pure_eq_ok.mp h
    exact .rest ⟨rfl, rfl⟩
  | s :: states, m, hm, h => by
    rw [exitStates, List.foldlM_cons, bind_eq_ok] at h
    obtain ⟨m₁, h₁, h₂⟩ := h
    exact acts_append (acts_of_exitState hm h₁)
      (acts_of_exitStates ((exitState_keeps h₁).1.chart.trans hm) h₂)

theorem acts_of_runTransitions : ∀ {taken : List (Selected D)} {m : Machine D},
    m.runTransitions signal taken = .ok m' → Acts signal m (taken.flatMap Selected.actions) m'
  | [], m, h => by
    obtain rfl := pure_eq_ok.mp h
    exact .rest ⟨rfl, rfl⟩
  | t :: taken, m, h => by
    rw [runTransitions, List.foldlM_cons, bind_eq_ok] at h
    obtain ⟨m₁, h₁, h₂⟩ := h
    exact acts_append (acts_of_runActions h₁) (acts_of_runTransitions h₂)

/-- Nothing is run as an invocation is started. -/
theorem sameWorld_of_launchOf {n : Node D} (h : p.launchOf n = .ok p') :
    p.machine.SameWorld p'.machine := by
  rcases Progress.launchOf_cases h with ⟨-, rfl⟩ | ⟨_, _, _, -, -, -, rfl⟩
  · exact ⟨rfl, rfl⟩
  · exact ⟨rfl, rfl⟩

theorem acts_of_enterState {now : Duration} (hm : p.machine.chart = c)
    (h : p.enterState signal now s = .ok p') :
    Acts signal p.machine (c.entryActions s) p'.machine := by
  obtain ⟨n, m₁, p₁, hn, hrun, hlaunch, rfl⟩ := Progress.exists_of_enterState h
  have hacts := acts_of_runActions hrun
  rw [entryActions_of_node (hm ▸ hn), ← List.append_nil (n.entry.map _),
    Progress.completeBy_machine]
  exact acts_append (acts_of_sameWorld hacts ⟨rfl, rfl⟩)
    (.rest (sameWorld_of_launchOf hlaunch))

theorem acts_of_enterAll (hm : m.chart = c) (h : m.enterAll signal states = .ok p) :
    Acts signal m (states.flatMap c.entryActions) p.machine := by
  have hfold : ∀ {states : List D.State} {p p' : Progress D}, p.machine.chart = c →
      states.foldlM (fun p s => p.enterState signal m.shell.clock.now s) p = .ok p' →
        Acts signal p.machine (states.flatMap c.entryActions) p'.machine := by
    intro states
    induction states with
    | nil =>
      intro p p' _ h
      obtain rfl := pure_eq_ok.mp h
      exact .rest ⟨rfl, rfl⟩
    | cons s states ih =>
      intro p p' hp h
      rw [List.foldlM_cons, bind_eq_ok] at h
      obtain ⟨p₁, h₁, h₂⟩ := h
      exact acts_append (acts_of_enterState hp h₁)
        (ih ((Progress.enterState_keeps h₁).1.chart.trans hp) h₂)
  exact hfold (p := { machine := m }) hm h

theorem acts_of_settleEntry {exited : List D.State} (hm : m.chart = c)
    (h : m.settleEntry signal exited states = .ok p) :
    Acts signal m (states.flatMap c.entryActions) p.machine := by
  obtain ⟨p₁, hall, rfl⟩ := exists_of_settleEntry h
  have hclose : p₁.machine.SameWorld p₁.close.machine := by
    unfold Progress.close
    split <;> exact ⟨rfl, rfl⟩
  rw [← List.append_nil (states.flatMap _)]
  exact acts_append (acts_of_enterAll hm hall) (.rest hclose)

theorem acts_of_abandons (hm : m.chart = c) (h : m.Abandons states m') :
    Acts .stop m (states.flatMap c.exitActions) m' := by
  induction h with
  | rest => exact .rest ⟨rfl, rfl⟩
  | @next m m₁ m' s n states hn hrun _ ih =>
    have hchart : m₁.chart = c := (runActions_keeps hrun).1.chart.trans hm
    rw [List.flatMap_cons, exitActions_of_node (hm ▸ hn)]
    exact acts_append (acts_of_runActions hrun) (acts_of_sameWorld (ih hchart) ⟨rfl, rfl⟩)

end Machine

/-! ## Steps -/

/-- What is left of a shell when the queue and the life stage are left out of account. -/
def Shell.Matches (s s' : Shell D) : Prop :=
  s' = { s with queue := s'.queue, status := s'.status }

namespace Settled

/-- A step that leaves and enters states, takes transitions and runs actions in sequence. -/
structure InSequence (c : Chart D) (step : Settled D) : Prop where
  exited : c.Leaving step.exited
  entered : c.Entering step.entered
  /-- Several transitions are only taken on an event, in the order of the leaves for which they were
  selected. -/
  single : step.signal.event? = none → step.taken.length ≤ 1
  taken : ∀ e, step.signal = .event e →
    (∀ t ∈ step.taken, ∃ x, step.before.SelectedFor (.event e)
        (step.before.active.filter c.isAtomic) x t) ∧
      step.taken.Pairwise
        (step.before.SelectedBefore (.event e) (step.before.active.filter c.isAtomic))
  /-- From the machine before to the machine after the step, nothing has touched the context or the
  shell but the actions, one after another. -/
  acts : ∃ m m', m.context = step.before.context ∧ m.shell.Matches step.before.shell ∧
    Machine.Acts step.signal m (step.actions c) m' ∧
      step.after.context = m'.context ∧ m'.shell.Matches step.after.shell

variable {c : Chart D} {m m' : Machine D} {step : Settled D} {p : Progress D}
  {steps : List (Settled D)}

open Machine

theorem matches_absorb (p : Progress D) : p.machine.shell.Matches (absorb p).shell := by
  have hfold : ∀ (l : List (Launch D)) (m : Machine D), (l.foldl handOver m).shell = m.shell := by
    intro l
    induction l with
    | nil => exact fun m => rfl
    | cons a l ih => exact fun m => ih (m.handOver a)
  unfold absorb
  dsimp only
  split
  · rfl
  · rw [hfold]
    rfl

theorem acts_of_settles (hm : m.chart = c) (h : m.Settles step p) :
    Acts step.signal step.before (step.actions c) p.machine := by
  cases h with
  | initial _ _ h => exact acts_of_settleEntry hm h
  | @reaction before left between _ _ _ exited _ _ hreact _ _ _ _ hleft hbetween _ h =>
    have hbefore : before.chart = c := (reacting?_keeps hreact).1.trans hm
    have hexit := acts_of_exitStates (m := before.recordHistories exited) hbefore hleft
    have hleftChart : left.chart = c := (exitStates_keeps hleft).1.chart.trans hbefore
    have hbetweenChart : between.chart = c :=
      (runTransitions_keeps hbetween).1.chart.trans hleftChart
    exact acts_append (acts_append (acts_of_sameWorld hexit ⟨rfl, rfl⟩)
      (acts_of_runTransitions hbetween)) (acts_of_settleEntry hbetweenChart h)

theorem leaving_of_settles (hm : Clean c m) (h : m.Settles step p) : c.Leaving step.exited := by
  cases h with
  | initial =>
    have hnone : c.inExitOrder [] = [] := List.mergeSort_nil
    exact hnone ▸ leaving_inExitOrder List.nodup_nil fun x hx => absurd hx List.not_mem_nil
  | @reaction before _ _ _ _ _ _ _ _ hreact _ _ _ hexited =>
    obtain ⟨invocations, -, rfl⟩ := exists_of_reacting? hreact
    dsimp only
    rw [← hexited, Machine.leaving, hm.chart]
    refine leaving_inExitOrder (m.configuration.nodup.filter _) fun x hx => ?_
    exact hm.contains x (List.mem_filter.mp hx).1

theorem orderly_entering (hm : Clean c m) (h : m.Settles step p) : c.Entering step.entered := by
  have hcontains : ∀ x ∈ step.entered, c.contains x := by
    intro x hx
    have hactive : x ∈ (absorb p).configuration := by
      rw [← (settled_of_settles h).2, (settles_cases h).1.configuration]
      exact Or.inr hx
    exact (clean_absorb (clean_of_process hm (process_of_settles h))).contains x hactive
  obtain ⟨set, hset⟩ : ∃ set : StateSet D.State, step.entered = c.inEntryOrder set.elems := by
    cases h with
    | @initial set => exact ⟨set, by rw [hm.chart]⟩
    | @reaction before left between _ _ _ _ _ _ hreact _ _ _ _ hleft hbetween hentered _ =>
      obtain ⟨set, -, rfl⟩ := Option.map_eq_some_iff.mp hentered
      have hchart : between.chart = c := (runTransitions_keeps hbetween).1.chart.trans
        ((exitStates_keeps hleft).1.chart.trans ((reacting?_keeps hreact).1.trans hm.chart))
      exact ⟨set, hchart ▸ rfl⟩
  rw [hset] at hcontains ⊢
  exact entering_inEntryOrder set.nodup fun x hx =>
    hcontains x ((Outline.mem_inEntryOrder ..).mpr hx)

/-- A step in which transitions are taken is in sequence, and so is the step that starts a machine. -/
theorem inSequence_of_settles (hm : Clean c m) (h : m.Settles step p) : step.InSequence c := by
  refine ⟨leaving_of_settles hm h, orderly_entering hm h, fun hsignal => ?_, fun e he => ?_, ?_⟩
  · rw [takes_of_settles h]
    rcases takes_singleton (m := m) hsignal with htakes | ⟨t, htakes⟩ <;> rw [htakes] <;> simp
  · cases h with
    | initial => exact absurd he (by simp)
    | @reaction before _ _ _ selected _ _ _ _ hreact hselect _ htaken =>
      obtain rfl : _ = Signal.event e := he
      obtain rfl : m = before := Option.some.inj hreact
      obtain ⟨hfor, hpairs⟩ := pairwise_selectAbove pairwise_active_atomic hselect
      have hsub := htaken ▸ sublist_withoutConflicts selected
      rw [hm.chart] at hfor hpairs
      exact ⟨fun t ht => hfor t (hsub.subset ht), hpairs.sublist hsub⟩
  · refine ⟨step.before, p.machine, rfl, rfl, acts_of_settles hm.chart h, ?_, ?_⟩
    · rw [(settled_of_settles h).2, absorb_context]
    · rw [(settled_of_settles h).2]
      exact matches_absorb p

theorem inSequence_of_settling (hm : Clean c m) (h : m.Settling step m') : step.InSequence c := by
  cases h with
  | turn _ hturn hstep _ | turnPanicked _ hturn hstep _ =>
    exact inSequence_of_settles (clean_of_turn hm hturn) hstep
  | stop _ _ hdown _ =>
    obtain ⟨left, habandons, rfl⟩ := settled_of_teardown hdown
    have hnone : c.inEntryOrder [] = [] := List.mergeSort_nil
    refine ⟨?_, ?_, fun _ => Nat.zero_le _, fun e he => absurd he (by simp), ?_⟩
    · dsimp only
      rw [hm.chart]
      exact leaving_inExitOrder m.configuration.nodup hm.contains
    · exact hnone ▸ entering_inEntryOrder List.nodup_nil fun x hx => absurd hx List.not_mem_nil
    · have hacts := acts_of_abandons (m := m.cleared) hm.chart habandons
      refine ⟨m.cleared, left, rfl, rfl, ?_, rfl, rfl⟩
      rw [actions, List.flatMap_nil, List.flatMap_nil, List.append_nil, List.append_nil]
      exact hacts

end Settled

namespace Machine

variable {c : Chart D} {m : Machine D} {steps : List (Settled D)}

/-- Every step of every run is in sequence, those included that start and stop the machine. -/
theorem inSequence_of_run (hrun : Run c steps m) : ∀ step ∈ steps, step.InSequence c := by
  induction hrun with
  | fresh => exact fun step hstep => absurd hstep List.not_mem_nil
  | move _ _ ih => exact ih
  | settle hrun hsettling ih =>
    intro step hstep
    rcases List.mem_cons.mp hstep with rfl | hstep
    · exact Settled.inSequence_of_settling (clean_of_run hrun) hsettling
    · exact ih step hstep

end Machine

/-! ## A theatre -/

/-- A bare domain with a context that lists what was done. -/
abbrev Domain.bill (S : Type) [DecidableEq S] : Domain where
  State := S
  Event := String
  Context := List String
  Patch := String
  Output := Unit
  Host := Unit
  decEqState := inferInstance
  stateName := fun _ => ""
  eventName := id
  apply := fun line bill => bill ++ [line]

inductive TheatreState | theatre | stage | dark | act | scene | hall | noisy | quiet
deriving DecidableEq

/-- Puts a line on the bill. -/
def bills (line : String) : Action (.bill TheatreState) := .assign line fun _ _ => line

/-- A state of the theatre that is on the bill as it is entered and left. -/
def billed (id : TheatreState) (kind : NodeKind TheatreState) (entry exit : String)
    (transitions : List (Transition (.bill TheatreState)) := [])
    (children : List (StateTree (.bill TheatreState)) := []) : StateTree (.bill TheatreState) :=
  .node { id, kind, entry := [bills entry], exit := [bills exit], transitions } children

/-- A theatre where the curtain rises as the hall falls silent. -/
def theatreTree : StateTree (.bill TheatreState) :=
  billed .theatre .parallel "open" "closed" []
    [billed .stage (.compound .dark) "stage" "no stage" []
      [billed .dark .atomic "dark" "light"
        [{ trigger := .event "gong", target := some .act, actions := [bills "curtain", bills "music"] }],
      billed .act (.compound .scene) "act" "applause" [] [billed .scene .atomic "scene" "end"]],
    billed .hall (.compound .noisy) "hall" "no hall" []
      [billed .noisy .atomic "noise" "hush"
        [{ trigger := .event "gong", target := some .quiet, actions := [bills "cough"] }],
      billed .quiet .atomic "silence" "murmur"]]

def theatre : Chart (.bill TheatreState) :=
  { theatreTree.outline with tree := theatreTree, outline_eq := rfl, flawless := by cbv }

/-- A theatre that has not opened yet. -/
def closedTheatre : Machine (.bill TheatreState) :=
  { chart := theatre, context := [], shell := { host := () } }

open Machine in
/-- On the gong both regions leave what they are in, the later one first. Then the actions of the two
transitions are run, the earlier one first, and then the new states are entered by their depth. -/
theorem theatre_inSequence : ∃ steps m, Run theatre steps m ∧
    (∃ step ∈ steps, step.after.context = step.before.context ++
      ["hush", "light", "curtain", "music", "cough", "act", "silence", "scene"]) ∧
    ∀ step ∈ steps, step.InSequence theatre := by
  have hrun := run_trace (m := closedTheatre) ⟨rfl, rfl, rfl, rfl, rfl, rfl, rfl, rfl, rfl, rfl, rfl⟩
    [.start, .send "gong"]
  have hsteps : ((closedTheatre.trace [.start, .send "gong"]).1.any fun step =>
      step.after.context = step.before.context ++
        ["hush", "light", "curtain", "music", "cough", "act", "silence", "scene"]) = true := by cbv
  obtain ⟨step, hstep, hcontext⟩ := List.any_eq_true.mp hsteps
  exact ⟨_, _, hrun, ⟨step, hstep, of_decide_eq_true hcontext⟩, inSequence_of_run hrun⟩

end Statechart
