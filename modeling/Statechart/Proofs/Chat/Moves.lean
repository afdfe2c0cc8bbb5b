import Statechart.Proofs.Exchange
import Statechart.Proofs.Finishing
import Statechart.Proofs.Machine.Carrying
import Statechart.Proofs.Machine.Taking
import Statechart.Proofs.Chat.Messages

/-!
# How a chat widget moves

Text to be sent may be taken up by two regions at once; every other event is taken up by one
transition at most (`takes_event_cases`), and by one if an active atomic state waits for it
(`takes_of_waiting`). What that makes of the context depends on the event only (`Event.update`). No
other signal changes the context of a widget that is set up, and on the way there no more changes
than the messages and the error (`context_of_moment`).

Most states are entered for one reason: `Opened` by an event, because all transitions that lead to
them wait for it (`event_of_entered`).
-/

namespace Statechart.Chat

open Machine

variable {m m' m₀ : Machine domain} {t u : Selected domain} {signal : Signal domain}
  {x g : domain.State} {context : Context} {name : String} {event : Event}
  {step : Settled domain} {e : Statechart.Event domain} {log : List (Statechart.Event domain)}

/-! ## The chart -/

theorem history_chart (h : chart.isHistory g) : g = .inputHistory := by
  have hall : ∀ n ∈ chart.nodes, chart.isHistory n.id → n.id = .inputHistory := by decide
  obtain ⟨n, hn⟩ := Chart.contains_iff.mp (contains_chart g)
  obtain ⟨hmem, rfl⟩ := chart.node?_eq_some.mp hn
  exact hall n hmem h

theorem plainFallbacks_chart : chart.PlainFallbacks := by
  have hall : ∀ n ∈ chart.nodes, n.fallback.isNone := by decide
  intro n hn t ht
  exact absurd (hall n hn) (by simp [ht])

/-- Processing a signal goes well once the widget is set up. -/
theorem exists_process (hm : Sound m) (hactive : .active ∈ m.configuration) :
    ∃ p, m.process signal = .ok p := by
  cases hproc : m.process signal with
  | ok p => exact ⟨p, rfl⟩
  | error halt =>
    cases halt with
    | defect => exact absurd hproc (process_ne_defect hm hactive)
    | endless => exact absurd hproc (process_ne_endless plainFallbacks_chart hm.clean)

private theorem mild_assignEvent {name : String} {patches : Context → Event → List Patch} :
    (assignEvent name patches).Mild := Action.mild_assignMany

private theorem mild_actions : storeMessages.Mild ∧ recordInitError.Mild ∧ failMissingRoom.Mild ∧
    persistLastMessage.Mild ∧ persistAttachment.Mild ∧ notifyAlert.Mild ∧ clearAlert.Mild ∧
    appendSent.Mild ∧ appendReceived.Mild ∧ assignScroll.Mild ∧ assignInputSize.Mild ∧
    assignAppSize.Mild ∧ beginDrag.Mild ∧ trackDrag.Mild ∧ finishDrag.Mild ∧ showAlert.Mild :=
  ⟨Action.mild_assign, Action.mild_assign, Action.mild_assign, Action.mild_effect,
    Action.mild_effect, Action.mild_effect, Action.mild_assign, mild_assignEvent, mild_assignEvent,
    mild_assignEvent, mild_assignEvent, mild_assignEvent, mild_assignEvent, mild_assignEvent,
    mild_assignEvent, mild_assignEvent⟩

theorem mild_chart : chart.Mild := by
  have hquiet : ∀ n ∈ chart.nodes, n.entry.isEmpty ∧ (n.id ≠ chart.root → n.exit.isEmpty) := by
    decide
  refine ⟨fun n hn => List.isEmpty_iff.mp (hquiet n hn).1,
    fun n hn hne => List.isEmpty_iff.mp ((hquiet n hn).2 hne), ?_⟩
  rw [chart.nodes_eq]
  simp [chart, tree, regions, attachmentRegion, inputRegion, messageListRegion, debounced,
    dragRegion, alertRegion, compound, leaf, final, on, after, StateTree.entries,
    StateTree.allEntries, mild_actions]

/-! ## What is taken on an event -/

/-- Transitions that wait for the same event belong to one state, or to two that are not active at
once, unless the event is a text to be sent. -/
theorem source_of_declared (ht : Declared chart t) (hu : Declared chart u)
    (hname : t.transition.trigger = .event name) (hsame : u.transition.trigger = .event name)
    (hne : name ≠ "SEND_MESSAGE") : t.source = u.source ∨
      ∃ p, chart.isCompound p ∧ chart.parent? t.source = some p ∧ chart.parent? u.source = some p := by
  have hall : ∀ n ∈ chart.nodes, ∀ tr ∈ n.transitions, ∀ n' ∈ chart.nodes, ∀ tr' ∈ n'.transitions,
      tr.trigger = tr'.trigger → tr.trigger.delay?.isSome ∨ tr.trigger = .done ∨
        tr.trigger = .invokeDone ∨ tr.trigger = .invokeError ∨ tr.trigger = .event "SEND_MESSAGE" ∨
        n.id = n'.id ∨ ∃ p ∈ chart.parent? n.id, chart.isCompound p ∧ chart.parent? n'.id = some p := by
    decide
  obtain ⟨n, hn, htr⟩ := ht
  obtain ⟨n', hn', htr'⟩ := hu
  obtain ⟨hmem, hid⟩ := chart.node?_eq_some.mp hn
  obtain ⟨hmem', hid'⟩ := chart.node?_eq_some.mp hn'
  have hcases := hall n hmem _ htr n' hmem' _ htr' (hname.trans hsame.symm)
  rw [hname, hid, hid'] at hcases
  simpa [Trigger.delay?, hne, and_left_comm] using hcases

section

variable (hm : Sound m)

include hm

/-- What is taken belongs to an active state. -/
theorem active_of_takes (ht : t ∈ m.takes signal) : Declared chart t ∧ t.Answers signal ∧
    t.source ∈ m.configuration := by
  obtain ⟨hdecl, hanswers, x, hx, hwithin⟩ := answers_of_takes ht
  rw [hm.clean.chart] at hdecl hwithin
  exact ⟨hdecl, hanswers, Chart.active_of_isWithin (wellFormed_of_mem hm hx) hx hwithin⟩

/-- A state of a widget that is set up is only active then. -/
theorem active_of_below (hx : x ∈ m.configuration) (hin : chart.isWithin x .active) :
    .active ∈ m.configuration :=
  Chart.active_of_isWithin (wellFormed_of_mem hm hx) hx hin

/-- An event that is no text to be sent is taken up by one transition at most; and by one, if an
active atomic state waits for it, or a state around that. -/
theorem takes_event_cases (hne : domain.eventName event ≠ "SEND_MESSAGE") :
    (m.takes (.event event) = [] ∧ ∀ x ∈ m.configuration, chart.isAtomic x → ∀ t,
        m.firstEnabledOf (.event event) (x :: m.chart.ancestors x) ≠ .ok (some t)) ∨
      ∃ t, m.takes (.event event) = [t] := by
  obtain ⟨l, -, htakes, hnodup, hl⟩ := takes_event (e := event) calm_chart hm.clean
  -- declared on different states they lie in children of one compound state, of which one is active
  have hsame : ∀ t ∈ l, ∀ u ∈ l, t = u := by
    intro t ht u hu
    obtain ⟨x, hx, -, hfound⟩ := (hl t).mp ht
    obtain ⟨y, hy, -, hfound'⟩ := (hl u).mp hu
    obtain ⟨hdecl, htrigger, hwithin, -⟩ := spec_of_offered hfound
    obtain ⟨hdecl', htrigger', hwithin', -⟩ := spec_of_offered hfound'
    rw [hm.clean.chart] at hdecl hwithin hdecl' hwithin'
    have hwf := wellFormed_of_mem hm hx
    refine eq_of_source hfound hfound' ?_
    rcases source_of_declared hdecl hdecl' htrigger htrigger' hne with hs | ⟨p, hp, hpt, hpu⟩
    · exact hs
    · exact Chart.eq_of_siblings hwf hp (Chart.active_of_isWithin hwf hx hwithin)
        (Chart.active_of_isWithin hwf hy hwithin') hpt hpu
  match l, htakes, hnodup, hl, hsame with
  | [], htakes, _, hl, _ =>
    refine Or.inl ⟨by rw [htakes]; rfl, fun x hx hatomic t hfound => ?_⟩
    exact absurd ((hl t).mpr ⟨x, hx, hm.clean.chart.symm ▸ hatomic, hfound⟩) List.not_mem_nil
  | [t], htakes, _, _, _ => exact Or.inr ⟨t, by rw [htakes, withoutConflicts_singleton]⟩
  | t :: u :: _, _, hnodup, _, hsame =>
    have he := hsame t (by simp) u (by simp)
    exact absurd hnodup (by simp [he])

end

/-- A widget that is set up is not completed. -/
theorem not_done_of_active (h : Course chart log m) (hactive : .active ∈ m.configuration) :
    m.status ≠ .done := by
  induction h with
  | fresh _ hfresh => exact absurd hactive (not_mem_of_nil hfresh.configuration)
  | next hcourse hdoes ih =>
    intro hdone
    have hsound := sound_of_active (hcourse.next hdoes) hactive
    rcases rests_or_steps hdoes (not_ended_of_active (hcourse.next hdoes) hactive) with
      hrests | ⟨m₀, step, hsteps⟩
    · rw [hrests.configuration] at hactive
      rcases hrests.status with hsame | hstarted
      · exact ih hactive (hsame ▸ hdone)
      · exact not_mem_of_nil (inactive_of_notStarted hcourse hstarted) hactive
    · obtain ⟨later, hturn⟩ := hsteps.turn
      obtain ⟨p, hsettles⟩ := hsteps.settles
      obtain ⟨hon, -⟩ := straight_of_settling root_chart historyFromOutside_chart hcourse
        (settling_of_does hdoes hsteps.settled) hturn hsettles
      have hroot := root_of_done hon (turn_passes hturn).2.1 hsettles (hsteps.status ▸ hdone)
      obtain ⟨f, hf, hfinal, hfinished⟩ := (Chart.inFinalState_compound isCompound_widget).mp hroot
      -- of the children of the root only `active` is active, which is not final
      obtain rfl := Chart.eq_of_siblings (wellFormed_of_mem hsound hactive) isCompound_widget
        (hsteps.configuration ▸ of_decide_eq_true hfinished) hactive hf parent_active
      exact absurd hfinal (by decide)

/-- As long as a state within `active` is active the widget is running. -/
theorem running_of_within (h : Course chart log m) (hin : chart.isWithin x .active)
    (hx : x ∈ m.configuration) : m.status = .running := by
  have hup := not_ended_of_within h hin hx
  cases hs : m.status with
  | running => rfl
  | notStarted => exact absurd hx (not_mem_of_nil (inactive_of_notStarted h hs))
  | done => exact absurd hs (not_done_of_active h (active_of_below (sound_of_course h hup) hx hin))
  | stopped => exact absurd (Or.inl hs) hup
  | faulted => exact absurd (Or.inr hs) hup

/-- It processes whatever signal it turns to. -/
theorem processed_of_turn {later : List (Work domain)} (h : Course chart log m)
    (hturn : m.nextTurn = .process m₀ signal later) (hin : chart.isWithin x .active)
    (hx : x ∈ m.configuration) :
    Sound m₀ ∧ x ∈ m₀.configuration ∧ ∃ p, m₀.process signal = .ok p := by
  obtain ⟨hm, hm₀⟩ := sound_of_turning h hturn
  have hactive := active_of_below hm hx hin
  rw [← (sameStage_of_process hturn).configuration] at hx hactive
  exact ⟨hm₀, hx, exists_process hm₀ hactive⟩

/-- Whether an atomic state waits for an event whatever the context, or a state around it does. -/
def Waits (x : domain.State) (name : String) : Prop :=
  chart.isAtomic x ∧ ∃ n ∈ chart.nodes, ∃ tr ∈ n.transitions,
    tr.trigger = .event name ∧ tr.guard.isNone ∧ chart.isWithin x n.id

instance (x : State) : Decidable (Waits x name) := inferInstanceAs (Decidable (_ ∧ _))

/-- Such an event is taken up. -/
theorem takes_of_waiting (hm : Sound m) (hne : domain.eventName event ≠ "SEND_MESSAGE")
    (hx : x ∈ m.configuration) (hwaits : Waits x (domain.eventName event)) :
    ∃ t, m.takes (.event event) = [t] ∧ Declared chart t ∧
      t.transition.trigger = .event (domain.eventName event) ∧ t.source ∈ m.configuration := by
  obtain ⟨hatomic, n, hn, tr, htr, htrigger, hguard, hwithin⟩ := hwaits
  have hdecl : Declared chart ⟨n.id, 0, tr⟩ := ⟨n, chart.node?_eq_some.mpr ⟨hn, rfl⟩, htr⟩
  obtain ⟨u, hfound⟩ := exists_offered calm_chart hm.clean (contains_chart x) hdecl htrigger hwithin
    (by rw [guardHolds, Option.isNone_iff_eq_none.mp hguard])
  rcases takes_event_cases hm hne with ⟨-, hnone⟩ | ⟨t, htakes⟩
  · exact absurd hfound (hnone x hx hatomic u)
  · obtain ⟨hdecl, hanswers, hactive⟩ := active_of_takes hm (htakes ▸ List.mem_singleton_self t)
    exact ⟨t, htakes, hdecl, hanswers, hactive⟩

/-- So it is if two states wait for it of which one is active. -/
theorem takes_of_twins {p a b : domain.State} (hm : Sound m) (htwins : Twins p a b)
    (hp : p ∈ m.configuration) (hne : domain.eventName event ≠ "SEND_MESSAGE")
    (ha : Waits a (domain.eventName event)) (hb : Waits b (domain.eventName event)) :
    m.takes (.event event) ≠ [] := by
  obtain ⟨x, hx, hwaits⟩ : ∃ x ∈ m.configuration, Waits x (domain.eventName event) := by
    rcases one_of_twins (wellFormed_of_mem hm hp) htwins hp with ⟨h, -⟩ | ⟨-, h⟩
    · exact ⟨a, h, ha⟩
    · exact ⟨b, h, hb⟩
  obtain ⟨t, htakes, -⟩ := takes_of_waiting hm hne hx hwaits
  simp [htakes]

/-- The regions of a widget that is set up are active. -/
theorem active_of_region (hm : Sound m) (hactive : .active ∈ m.configuration)
    (hp : chart.parent? x = some .active) (hplain : ¬ chart.isHistory x) : x ∈ m.configuration :=
  (wellFormed_of_mem hm hactive).parallel .active hactive (by decide) x
    (Chart.mem_substates.mpr ⟨hp, hplain⟩)

/-! ## What becomes of the context -/

/-- What an event does to the context of a widget that takes it up, unless it is a text to be
sent. -/
def Event.update (e : Event) (c : Context) : Context :=
  match e with
  | .messageReceived message => { c with messages := c.messages ++ [message] }
  | .scroll offset => { c with scrollOffset := offset }
  | .resizeInput size => { c with inputSize := some size }
  | .resizeApp size => { c with appSize := some size }
  | .dragStart p => { c with drag := c.drag.begin p }
  | .dragMove p => { c with drag := c.drag.track p }
  | .dragEnd p => { c with drag := c.drag.finish p }
  | .showError message => { c with alert := some message }
  | .dismissError => { c with alert := none }
  | _ => c

/-- The actions of the transitions that wait for an event, unless that is a text to be sent. -/
def actionsFor : String → List (Action domain)
  | "SEND_ATTACHMENT" => [persistAttachment]
  | "MESSAGE_RECEIVED" => [appendReceived]
  | "SCROLL" => [assignScroll]
  | "RESIZE_INPUT" => [assignInputSize]
  | "RESIZE_APP" => [assignAppSize]
  | "DRAG_START" => [beginDrag]
  | "DRAG_MOVE" => [trackDrag]
  | "DRAG_END" => [finishDrag]
  | "SHOW_ERROR" => [showAlert, notifyAlert]
  | "DISMISS_ERROR" => [clearAlert]
  | _ => []

/-- The actions of a transition, by what it waits for and where it leads. -/
@[mk_iff]
structure ActsFor (s : domain.State) (tr : Transition domain) : Prop where
  event : ∀ name, tr.trigger = .event name → name ≠ "SEND_MESSAGE" → tr.actions = actionsFor name
  early : s = .boot ∨ s = .initializing → (tr.target = some .failed ∧
      (tr.actions = [failMissingRoom] ∨ tr.actions = [recordInitError])) ∨
    (tr.target = some .initializing ∧ tr.actions = []) ∨
    (tr.target = some .active ∧ tr.actions = [storeMessages])

theorem actsFor_of_declared (h : Declared chart t) : ActsFor t.source t.transition := by
  refine of_declared ?_ h
  rw [chart.nodes_eq]
  simp [actsFor_iff, chart, tree, regions, attachmentRegion, inputRegion, messageListRegion,
    debounced, dragRegion, alertRegion, compound, leaf, final, on, after, StateTree.entries,
    StateTree.allEntries, actionsFor]

/-- On the signals that the machine raises itself the transitions of a widget that is set up do
nothing. -/
theorem actions_of_internal (h : Declared chart t) (hin : chart.isWithin t.source .active)
    (htrigger : ∀ name, t.transition.trigger ≠ .event name) : t.transition.actions = [] := by
  have hall : ∀ n ∈ chart.nodes, ∀ tr ∈ n.transitions, chart.isWithin n.id .active →
      tr.actions.isEmpty ∨ (tr.trigger.delay?.isNone ∧ tr.trigger ≠ .done ∧
        tr.trigger ≠ .invokeDone ∧ tr.trigger ≠ .invokeError) := by
    decide
  have hor := of_declared (P := fun s tr => chart.isWithin s .active → tr.actions.isEmpty ∨
    (tr.trigger.delay?.isNone ∧ tr.trigger ≠ .done ∧ tr.trigger ≠ .invokeDone ∧
      tr.trigger ≠ .invokeError)) hall h hin
  refine List.isEmpty_iff.mp (hor.resolve_right fun hother => ?_)
  obtain ⟨hdelay, hdone, hinvoke, herror⟩ := hother
  cases htr : t.transition.trigger with
  | event name => exact htrigger name htr
  | after => simp [htr, Trigger.delay?] at hdelay
  | invokeDone => exact hinvoke htr
  | invokeError => exact herror htr
  | done => exact hdone htr

/-- They do not end it either. -/
theorem target_of_declared_active (h : Declared chart t) (hin : chart.isWithin t.source .active) :
    t.transition.target ≠ some .failed := by
  revert hin
  refine of_declared (P := fun s tr => chart.isWithin s .active → tr.target ≠ some .failed) ?_ h
  decide

theorem update_of_actionsFor (hne : domain.eventName event ≠ "SEND_MESSAGE") :
    Action.assignedAll (.event event) (actionsFor (domain.eventName event)) context =
      Event.update event context := by
  cases event with
  | sendMessage => exact absurd rfl hne
  | _ => rfl

/-- What becomes of the context on a signal, but for the messages and the error. -/
def updated (m : Machine domain) (signal : Signal domain) (c : Context) : Context :=
  match (signal.event? : Option Event) with
  | some e => if (m.takes signal).isEmpty then c else e.update c
  | none => c

theorem updated_of_untaken (h : m.takes signal = []) : updated m signal context = context := by
  unfold updated
  rw [h]
  split <;> rfl

theorem updated_of_taken (h : m.takes (.event event) ≠ []) :
    updated m (.event event) context = event.update context := by
  change (if (m.takes (.event event)).isEmpty then context else event.update context) = _
  exact if_neg fun hempty => h (List.isEmpty_iff.mp hempty)

theorem updated_of_internal (h : signal.event? = none) : updated m signal context = context := by
  unfold updated
  split
  · next he => exact absurd (h.symm.trans he) (by simp)
  · rfl

/-- No event changes the room, the mode or the error. -/
theorem update_frame (event : Event) (context : Context) :
    (event.update context).roomId = context.roomId ∧ (event.update context).mode = context.mode ∧
      (event.update context).error = context.error := by
  cases event <;> exact ⟨rfl, rfl, rfl⟩

theorem updated_frame (m : Machine domain) (signal : Signal domain) (context : Context) :
    (updated m signal context).roomId = context.roomId ∧
      (updated m signal context).mode = context.mode ∧
      (updated m signal context).error = context.error := by
  unfold updated
  split
  · split
    · exact ⟨rfl, rfl, rfl⟩
    · exact update_frame _ context
  · exact ⟨rfl, rfl, rfl⟩

/-- A text that is sent changes no more than the messages. -/
theorem context_of_sent (text : String) : ∃ messages, Action.assignedAll
    (.event (Event.sendMessage text)) [appendSent, persistLastMessage] context =
      { context with messages } := by
  change ∃ messages, List.foldl Patch.apply context ((Event.sendMessage text).text?.map fun text =>
    Patch.append (Context.write context text)).toList = _
  cases (Event.sendMessage text).text? with
  | none => exact ⟨_, rfl⟩
  | some text => exact ⟨_, rfl⟩

section

variable (hm : Sound m)

include hm

/-- The actions on an event that is taken up are those that wait for it. -/
theorem actionsOn_event (hne : domain.eventName event ≠ "SEND_MESSAGE")
    (h : m.takes (.event event) ≠ []) :
    m.actionsOn (.event event) = actionsFor (domain.eventName event) := by
  obtain ⟨t, htakes⟩ := (takes_event_cases hm hne).resolve_left fun hnone => h hnone.1
  obtain ⟨hdecl, hanswers, -⟩ := active_of_takes hm (htakes ▸ List.mem_singleton_self t)
  rw [actionsOn, htakes, List.flatMap_singleton, (actsFor_of_declared hdecl).event _ hanswers hne]

/-- What the actions on an event make of the context. -/
theorem context_of_event (hne : domain.eventName event ≠ "SEND_MESSAGE") :
    Action.assignedAll (.event event) (m.actionsOn (.event event)) context =
      updated m (.event event) context := by
  by_cases htakes : m.takes (.event event) = []
  · rw [updated_of_untaken htakes, actionsOn, htakes]
    rfl
  · rw [updated_of_taken htakes, actionsOn_event hm hne htakes, update_of_actionsFor hne]

/-- On the signals that it raises itself a widget that is set up does nothing. -/
theorem actionsOn_of_internal (hactive : .active ∈ m.configuration)
    (hsignal : signal.event? = none) : m.actionsOn signal = [] := by
  refine List.flatMap_eq_nil_iff.mpr fun t ht => ?_
  obtain ⟨hdecl, hanswers, -⟩ := active_of_takes hm ht
  refine actions_of_internal hdecl (isWithin_of_takes hm hactive ht) fun name hname => ?_
  obtain ⟨e, rfl, -⟩ := event_of_answers hanswers hname
  exact absurd hsignal (by simp [Signal.event?])

/-- What the actions on a signal make of the context of a widget that is set up. -/
theorem context_of_active (hactive : .active ∈ m.configuration) :
    ∃ messages, Action.assignedAll signal (m.actionsOn signal) context =
      { updated m signal context with messages } := by
  have hinternal : signal.event? = none → Action.assignedAll signal (m.actionsOn signal) context =
      updated m signal context := by
    intro hsignal
    rw [actionsOn_of_internal hm hactive hsignal, updated_of_internal hsignal]
    rfl
  cases signal with
  | event event =>
    by_cases hne : domain.eventName event = "SEND_MESSAGE"
    · cases event with
      | sendMessage text =>
        have hsame : updated m (.event (Event.sendMessage text)) context = context := by
          change (if _ then context else context) = context
          exact ite_self context
        rw [actionsOn_sent hm, hsame]
        split
        · exact context_of_sent text
        · exact ⟨_, rfl⟩
      | _ => exact absurd hne (by simp [domain, Event.name])
    · exact ⟨_, context_of_event hm hne⟩
  | start | stop | timer | invokeDone | invokeError | done => exact ⟨_, hinternal rfl⟩

/-- On the way there no more than the messages and the error change, and the error is set by the
transitions that end the widget. -/
theorem context_of_inactive (hinactive : .active ∉ m.configuration) :
    ∃ messages error, Action.assignedAll signal (m.actionsOn signal) context =
        { updated m signal context with messages, error } ∧
      (error = context.error ∧ (∀ t ∈ m.takes signal, t.transition.target ≠ some .failed) ∨
        error.isSome ∧ ∃ t, m.takes signal = [t] ∧ t.transition.target = some .failed) := by
  rcases early_of_takes hm hinactive with htakes | ⟨t, htakes, -, hdecl, hout⟩
  · rw [updated_of_untaken htakes, actionsOn, htakes]
    exact ⟨_, _, rfl, Or.inl ⟨rfl, fun t ht => absurd ht List.not_mem_nil⟩⟩
  · obtain ⟨-, hearly⟩ := early_of_declared hdecl hout
    have hinternal : signal.event? = none := by
      cases signal with
      | event e => exact absurd htakes (by simp [takes_event_inactive hm hinactive e])
      | _ => rfl
    rw [updated_of_internal hinternal, actionsOn, htakes, List.flatMap_singleton]
    have hacts := (actsFor_of_declared hdecl).early (hearly.imp And.left And.left)
    have hothers : ∀ g, t.transition.target = some g → g ≠ .failed →
        ∀ u ∈ [t], u.transition.target ≠ some .failed := by
      intro g hg hne u hu hfailed
      rw [List.mem_singleton.mp hu, hg] at hfailed
      exact hne (Option.some.inj hfailed)
    rcases hacts with ⟨htarget, h | h⟩ | ⟨htarget, h⟩ | ⟨htarget, h⟩
    · exact ⟨_, _, by rw [h]; rfl, Or.inr ⟨rfl, t, rfl, htarget⟩⟩
    · exact ⟨_, _, by rw [h]; rfl, Or.inr ⟨rfl, t, rfl, htarget⟩⟩
    · exact ⟨_, _, by rw [h]; rfl, Or.inl ⟨rfl, hothers _ htarget State.noConfusion⟩⟩
    · exact ⟨_, _, by rw [h]; rfl, Or.inl ⟨rfl, hothers _ htarget State.noConfusion⟩⟩

/-- What the actions on a signal make of the context. -/
theorem context_of_signal (signal : Signal domain) (context : Context) : ∃ messages error,
    Action.assignedAll signal (m.actionsOn signal) context =
        { updated m signal context with messages, error } ∧
      (error = context.error ∧ (∀ t ∈ m.takes signal, t.transition.target ≠ some .failed) ∨
        error.isSome ∧ ∃ t, m.takes signal = [t] ∧ t.transition.target = some .failed) := by
  by_cases hactive : .active ∈ m.configuration
  · obtain ⟨messages, hsame⟩ := context_of_active hm hactive
    refine ⟨messages, _, hsame, Or.inl ⟨(updated_frame m signal context).2.2, fun t ht => ?_⟩⟩
    exact target_of_declared_active (active_of_takes hm ht).1 (isWithin_of_takes hm hactive ht)
  · exact context_of_inactive hm hactive

/-- On the signals that it raises itself a widget leaves alone what it calls out to. -/
theorem host_of_internal (hsignal : signal.event? = none) (world : Context × Host) :
    (Action.carriedAll signal (m.actionsOn signal) world).2 = world.2 := by
  by_cases hactive : .active ∈ m.configuration
  · rw [actionsOn_of_internal hm hactive hsignal]
    rfl
  · rcases early_of_takes hm hactive with htakes | ⟨t, htakes, -, hdecl, hout⟩
    · rw [actionsOn, htakes]
      rfl
    · rw [actionsOn, htakes, List.flatMap_singleton]
      have hearly := (early_of_declared hdecl hout).2
      rcases (actsFor_of_declared hdecl).early (hearly.imp And.left And.left) with
        ⟨-, h | h⟩ | ⟨-, h⟩ | ⟨-, h⟩ <;> rw [h] <;> rfl

end

/-! ## Along a run -/

/-- A signal is processed by a sound machine that is in the states it was in. -/
theorem sound_of_processed (h : Course chart log m) (hdoes : m.Does e m')
    (he : e.processed = some (m₀, signal)) : Sound m₀ ∧ m₀.SameStage m ∧
      ∃ later, m.nextTurn = .process m₀ signal later := by
  obtain ⟨later, hturn⟩ := process_of_does hdoes he
  exact ⟨(sound_of_turning h hturn).2, sameStage_of_process hturn, later, hturn⟩

/-- What becomes of the context at one moment, whatever comes of the machine. -/
theorem context_of_moment (h : Course chart log m) (hdoes : m.Does e m') :
    (e.processed = none ∧ m'.context = m.context) ∨ ∃ m₀ signal messages error,
      e.processed = some (m₀, signal) ∧ Sound m₀ ∧ m₀.SameStage m ∧
      m'.context = { updated m₀ signal m.context with messages, error } ∧
      (error = Context.error m.context ∧
          (∀ t ∈ m₀.takes signal, t.transition.target ≠ some .failed) ∨
        error.isSome ∧ ∃ t, m₀.takes signal = [t] ∧ t.transition.target = some .failed) := by
  have hcontext := context_of_does mild_chart calm_chart (clean_of_run (run_of_course h))
    assignsInTransitions_chart hdoes
  cases he : e.processed with
  | none =>
    rw [he] at hcontext
    exact Or.inl ⟨rfl, hcontext⟩
  | some x =>
    obtain ⟨m₀, signal⟩ := x
    rw [he] at hcontext
    obtain ⟨hm₀, hstage, -⟩ := sound_of_processed h hdoes he
    obtain ⟨messages, error, hsame, hor⟩ := context_of_signal hm₀ signal m.context
    exact Or.inr ⟨m₀, signal, messages, error, rfl, hm₀, hstage, hcontext.trans hsame, hor⟩

/-! ## What a step enters and leaves -/

theorem exchanges_of_course (h : Course chart log m) (hdoes : m.Does e m')
    (hsteps : m.Steps e m₀ step m') : step.Exchanges chart m₀ :=
  Settled.exchanges_of_steps root_chart historyFromOutside_chart h hdoes hsteps

/-- A state other than an initial one is entered because a transition leads to it or below it, or to
what was recorded below `inputReady`. -/
theorem goal_of_enters (hx : step.Exchanges chart m₀) (haside : chart.isAside x)
    (hentered : x ∈ step.entered) : ∃ t ∈ m₀.takes step.signal, chart.crosses t x ∧
      ∃ g, t.transition.target = some g ∧ (chart.isWithin g x ∨ g = .inputHistory ∧
        ∃ y, chart.StandsFor step.between.history .inputHistory y ∧
          chart.isDescendant y .inputReady ∧ chart.isWithin y x) := by
  obtain ⟨t, ht, hcross, g, y, hg, hy, hyx⟩ := hx.entered x hentered haside
  refine ⟨t, ht, hcross, g, hg, ?_⟩
  by_cases hh : chart.isHistory g
  · have hhistory := history_chart hh
    have hbelow : chart.isDescendant g .inputReady := by
      rw [hhistory]
      decide
    have hyr := Chart.below_of_scope hbelow (Chart.scope_of_standsFor hx.bounded hy)
    exact Or.inr ⟨hhistory, y, hhistory ▸ hy, hyr, hyx⟩
  · exact Or.inl ((Chart.standsFor_plain_iff (contains_chart g) hh).mp hy ▸ hyx)

/-- Unless it has to do with the history of the input, it is entered because a transition leads to it
or below it. -/
theorem target_of_enters (hx : step.Exchanges chart m₀) (haside : chart.isAside x)
    (hout : ¬ chart.isWithin x .inputReady) (hnot : ¬ chart.isWithin .inputReady x)
    (hentered : x ∈ step.entered) : ∃ t ∈ m₀.takes step.signal, chart.crosses t x ∧
      ∃ g, t.transition.target = some g ∧ chart.isWithin g x := by
  obtain ⟨t, ht, hcross, g, hg, hgoal⟩ := goal_of_enters hx haside hentered
  refine ⟨t, ht, hcross, g, hg, hgoal.resolve_right fun hrecord => ?_⟩
  obtain ⟨-, y, -, hy, hyx⟩ := hrecord
  rcases Chart.isWithin_or_of_common (Chart.isWithin_of_isDescendant hy) hyx with h | h
  · exact hnot h
  · exact hout (Chart.isWithin_of_isDescendant h)

/-- Whether all transitions that lead to a state wait for one event, or lead to it by its history. -/
def Opened (x : domain.State) (name : String) : Prop :=
  chart.isAside x ∧ ¬ chart.isWithin x .inputReady ∧ ¬ chart.isWithin .inputReady x ∧
    ∀ n ∈ chart.nodes, ∀ tr ∈ n.transitions, chart.crosses ⟨n.id, 0, tr⟩ x →
      (∃ g ∈ tr.target, chart.isWithin g x) → tr.trigger = .event name

instance (x : State) : Decidable (Opened x name) := inferInstanceAs (Decidable (_ ∧ _))

/-- Such a state is only entered on that event. -/
theorem event_of_entered (hopened : Opened x name) (hm : Sound m₀) (hx : step.Exchanges chart m₀)
    (hentered : x ∈ step.entered) : ∃ event, step.signal = .event event ∧
      domain.eventName event = name ∧ m₀.takes (.event event) ≠ [] := by
  obtain ⟨haside, hout, hnot, hall⟩ := hopened
  obtain ⟨t, ht, hcross, g, hg, hwithin⟩ := target_of_enters hx haside hout hnot hentered
  obtain ⟨hdecl, hanswers, -⟩ := active_of_takes hm ht
  have htrigger := of_declared (P := fun s tr => chart.crosses ⟨s, 0, tr⟩ x →
    (∃ g ∈ tr.target, chart.isWithin g x) → tr.trigger = .event name) hall hdecl hcross
    ⟨g, hg, hwithin⟩
  obtain ⟨event, hsignal, hname⟩ := event_of_answers hanswers htrigger
  exact ⟨event, hsignal, hname, hsignal ▸ List.ne_nil_of_mem ht⟩

end Statechart.Chat
