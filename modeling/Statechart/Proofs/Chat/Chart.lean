import Statechart.Chat.Session
import Statechart.Proofs.Invariant
import Statechart.Proofs.Machine.Assigning
import Statechart.Proofs.Machine.Offers

/-!
# What the states of the chat widget have in common

The chart of the widget meets what is asked of charts elsewhere: its root is not parallel, its
history state is only targeted from outside (`historyFromOutside_chart`), its code never panics
(`calm_chart`), and only its transitions assign to the context (`assignsInTransitions_chart`).

Its transitions come in two groups. Before the widget is set up there are four, none of which
waits for an event (`early_of_declared`); each leads to a state next to the one it leaves. All
others stay below a region of the state in which the widget is set up (`staysBelow_of_declared`).
-/

namespace Statechart.Chat

open Machine

instance (s : domain.State) (t : State) : Decidable (s = t) :=
  (inferInstance : DecidableEq State) s t

instance (s : Option domain.State) (t : State) : Decidable (s = some t) :=
  (inferInstance : DecidableEq (Option State)) s (some t)

variable {m : Machine domain} {t : Selected domain} {s g x : domain.State}

/-! ## States -/

theorem root_chart : ¬ chart.isParallel chart.root := by decide

theorem historyFromOutside_chart : chart.HistoryFromOutside := by decide

theorem contains_chart (s : domain.State) : chart.contains s := by
  have hall : State.all.all fun s => chart.contains s := by decide
  exact List.all_eq_true.mp hall s (by cases s <;> decide)

theorem isCompound_widget : chart.isCompound .widget := by decide

theorem parent_active : chart.parent? .active = some .widget := by decide

/-- Only setting the room up is an invocation. -/
theorem eq_of_invokes (h : chart.Invokes s) : s = .initializing := by
  have hall : ∀ n ∈ chart.nodes, n.invocation.isSome → n.id = .initializing := by decide
  obtain ⟨n, hn, hinvocation⟩ := h
  obtain ⟨hmem, rfl⟩ := chart.node?_eq_some.mp hn
  exact hall n hmem hinvocation

/-! ## Code -/

private theorem calm_guards : roomMissing.Calm ∧ textOnly.Calm ∧ audioAllowed.Calm ∧ hasText.Calm :=
  ⟨Guard.calm_ofContext, Guard.calm_ofContext, Guard.calm_ofContext, Guard.calm_ofEvent⟩

private theorem calm_assignEvent {name : String} {patches : Context → Event → List Patch} :
    (assignEvent name patches).Calm := Action.calm_assignMany

private theorem calm_effects : deregisterRoom.Calm ∧ persistLastMessage.Calm ∧
    persistAttachment.Calm ∧ notifyAlert.Calm :=
  ⟨Action.calm_effect, Action.calm_effect, Action.calm_effect, Action.calm_effect⟩

private theorem calm_assignments : storeMessages.Calm ∧ recordInitError.Calm ∧
    failMissingRoom.Calm ∧ clearAlert.Calm ∧ appendSent.Calm ∧ appendReceived.Calm ∧
    assignScroll.Calm ∧ assignInputSize.Calm ∧ assignAppSize.Calm ∧ beginDrag.Calm ∧
    trackDrag.Calm ∧ finishDrag.Calm ∧ showAlert.Calm :=
  ⟨Action.calm_assign, Action.calm_assign, Action.calm_assign, Action.calm_assign,
    calm_assignEvent, calm_assignEvent, calm_assignEvent, calm_assignEvent, calm_assignEvent,
    calm_assignEvent, calm_assignEvent, calm_assignEvent, calm_assignEvent⟩

theorem calm_chart : chart.Calm := by
  have hall : ∀ n ∈ chart.nodes, (∀ tr ∈ n.transitions, ∀ g, tr.guard = some g → g.Calm) ∧
      (∀ a ∈ n.entry ++ n.exit, a.Calm) ∧ ∀ tr ∈ n.transitions, ∀ a ∈ tr.actions, a.Calm := by
    rw [chart.nodes_eq]
    simp [chart, tree, regions, attachmentRegion, inputRegion, messageListRegion, debounced,
      dragRegion, alertRegion, compound, leaf, final, on, after, StateTree.entries,
      StateTree.allEntries, calm_guards, calm_effects, calm_assignments]
  exact ⟨fun n hn => (hall n hn).1, fun n hn => (hall n hn).2.1, fun n hn => (hall n hn).2.2⟩

theorem assignsInTransitions_chart : chart.AssignsInTransitions := by
  unfold Chart.AssignsInTransitions
  decide

/-! ## Transitions -/

/-- What is said of all transitions of the chart is said of those that are taken. -/
theorem of_declared {P : domain.State → Transition domain → Prop}
    (h : ∀ n ∈ chart.nodes, ∀ tr ∈ n.transitions, P n.id tr) (ht : Declared chart t) :
    P t.source t.transition := by
  obtain ⟨n, hn, htr⟩ := ht
  obtain ⟨hmem, hid⟩ := chart.node?_eq_some.mp hn
  exact hid ▸ h n hmem _ htr

/-- The transitions outside the state in which the widget is set up: out of `boot` when the time has
come, and out of `initializing` when the room is set up or cannot be. -/
theorem early_of_declared (h : Declared chart t) (hout : ¬ chart.isWithin t.source .active) :
    t.transition.reenter = false ∧
      ((t.source = .boot ∧ t.transition.delay?.isSome ∧
          (t.transition.target = some .failed ∨ t.transition.target = some .initializing)) ∨
        (t.source = .initializing ∧
          ((t.transition.trigger = .invokeDone ∧ t.transition.target = some .active) ∨
            (t.transition.trigger = .invokeError ∧ t.transition.target = some .failed)))) := by
  revert hout
  refine of_declared (P := fun s tr => ¬ chart.isWithin s .active → tr.reenter = false ∧
    ((s = .boot ∧ tr.delay?.isSome ∧ (tr.target = some .failed ∨ tr.target = some .initializing)) ∨
      (s = .initializing ∧ ((tr.trigger = .invokeDone ∧ tr.target = some .active) ∨
        (tr.trigger = .invokeError ∧ tr.target = some .failed))))) ?_ h
  decide

/-- The other transitions stay below a region. -/
theorem staysBelow_of_declared (h : Declared chart t) (hin : chart.isWithin t.source .active) :
    ∃ r, chart.isCompound r ∧ chart.isDescendant r .active ∧ t.StaysBelow chart r := by
  have hall : ∀ n ∈ chart.nodes, ∀ tr ∈ n.transitions, chart.isWithin n.id .active →
      ∃ r ∈ chart.substates .active, chart.isCompound r ∧ chart.isDescendant r .active ∧
        (tr.isActionOnly n.id ∨ ∃ g ∈ tr.target, chart.isDescendant g r ∧
          chart.isDescendant n.id r) := by
    decide
  obtain ⟨r, -, hr, hactive, hstay⟩ := of_declared (P := fun s tr => chart.isWithin s .active →
    ∃ r ∈ chart.substates .active, chart.isCompound r ∧ chart.isDescendant r .active ∧
      (tr.isActionOnly s ∨ ∃ g ∈ tr.target, chart.isDescendant g r ∧ chart.isDescendant s r))
    hall h hin
  refine ⟨r, hr, hactive, hstay.imp_right fun hstay => ?_⟩
  obtain ⟨g, hg, hgr, hsr⟩ := hstay
  exact ⟨g, hg, hgr, Or.inl hsr⟩

/-! ## What the early transitions enter -/

theorem mem_initial {set : StateSet domain.State} {history : History domain.State}
    (h : chart.enterInto history chart.root .empty = some set)
    (hx : x ∈ chart.inEntryOrder set.elems) : x = .widget ∨ x = .boot := by
  have hset : ∃ set, chart.enterInto history chart.root .empty = some set ∧
      set.elems = [.widget, .boot] := ⟨_, rfl, rfl⟩
  obtain ⟨set', hset', helems⟩ := hset
  obtain rfl := Option.some.inj (h.symm.trans hset')
  rw [Outline.mem_inEntryOrder, helems] at hx
  exact (List.mem_cons.mp hx).imp_right List.mem_singleton.mp

section

variable {entered : List domain.State} (hm : m.chart = chart)
  (hreenter : t.transition.reenter = false) (htarget : t.transition.target = some g)
  (h : m.entering [t] = some entered)

include hm hreenter htarget h

/-- A transition that ends the widget, or begins to set it up, enters no more than its target. -/
theorem eq_of_mem_entering (hsource : t.source = .boot ∨ t.source = .initializing)
    (hg : g = .failed ∨ g = .initializing) (hne : t.source ≠ g) (hx : x ∈ entered) : x = g := by
  have hset : ∃ set, [t].foldlM m.addEntries .empty = some set ∧ set.elems = [g] := by
    obtain ⟨source, index, trigger, target, guard, actions, reenter⟩ := t
    obtain ⟨c⟩ := m
    dsimp only at *
    subst hm hreenter htarget
    rcases hsource with rfl | rfl <;> rcases hg with rfl | rfl
    · exact ⟨_, rfl, rfl⟩
    · exact ⟨_, rfl, rfl⟩
    · exact ⟨_, rfl, rfl⟩
    · exact absurd rfl hne
  obtain ⟨set, hset, helems⟩ := hset
  rw [mem_entering_of_eq_some hset h, helems] at hx
  exact List.mem_singleton.mp hx

/-- The transition that sets the widget up does not enter the state that it leaves. -/
theorem not_mem_entering (hsource : t.source = .initializing) (hg : g = .active) :
    t.source ∉ entered := by
  have hset : ∃ set, [t].foldlM m.addEntries .empty = some set ∧
      set.elems.all (fun s => !decide (s = .initializing)) := by
    obtain ⟨source, index, trigger, target, guard, actions, reenter⟩ := t
    obtain ⟨c⟩ := m
    dsimp only at *
    subst hm hreenter htarget hsource hg
    exact ⟨_, rfl, rfl⟩
  obtain ⟨set, hset, helems⟩ := hset
  rw [mem_entering_of_eq_some hset h]
  intro hmem
  have hne := List.all_eq_true.mp helems _ hmem
  exact absurd hsource (by simpa using hne)

end

end Statechart.Chat
