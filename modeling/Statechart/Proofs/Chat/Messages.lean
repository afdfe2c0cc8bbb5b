import Statechart.Proofs.Chat.Life

/-!
# The messages of a chat widget

In a widget that is set up the messages are those that were loaded, followed by those received and
those sent since, in the order they were processed (`messages_of_course`). Only transitions of the
message list and of the input append anything (`Posts`), and each signal is taken up by at most one
of them.

Events are offered to atomic states that are active, and to those around them. Once bubbles and
scroll position are both painted there is no such state left in the message list (`Painted`), until
the signal that `listPainting` is done has been processed. A message received before that is lost
(`loses`); it takes a listener to send one in time, as in the lobby at the end of this file.
-/

namespace Statechart.Chat

open Machine

variable {m m' m₀ m₁ : Machine domain} {t : Selected domain} {signal : Signal domain}
  {x : domain.State} {context : domain.Context}
  {e : Statechart.Event domain} {log : List (Statechart.Event domain)}
  {stored : List Message}

theorem isActive_iff : m.isActive x ↔ x ∈ m.configuration := decide_eq_true_iff

/-! ## Actions -/

/-- Whether an action leaves the messages alone. -/
def KeepsMessages (a : Action domain) : Prop :=
  ∀ signal context, Context.messages (a.assigned signal context) = Context.messages context

theorem messages_of_keeps {actions : List (Action domain)} (h : ∀ a ∈ actions, KeepsMessages a) :
    Context.messages (Action.assignedAll signal actions context) = Context.messages context :=
  List.foldlRecOn (motive := fun c => Context.messages c = Context.messages context) actions
    (Action.assigned signal) rfl fun _ hc a ha => (h a ha signal _).trans hc

theorem keeps_effect {name : String} {change : Context → Signal domain → Host → Host} :
    KeepsMessages (.effect name change) := fun _ _ => rfl

theorem keeps_assign {name : String} {patch : Context → Signal domain → Patch}
    (h : ∀ c c' signal, (Patch.apply c' (patch c signal)).messages = c'.messages) :
    KeepsMessages (.assign name patch) := fun signal c => h c c signal

theorem keeps_assignEvent {name : String} {patches : Context → Event → List Patch}
    (h : ∀ c e, ∀ p ∈ patches c e, ∀ c', (Patch.apply c' p).messages = c'.messages) :
    KeepsMessages (assignEvent name patches) := by
  intro signal c
  cases signal with
  | event e =>
    exact List.foldlRecOn (motive := fun c' => Context.messages c' = Context.messages c)
      (patches c e) _ rfl fun c' hc p hp => (h c e p hp c').trans hc
  | start | stop | timer | invokeDone | invokeError | done => rfl

/-- All actions but three leave the messages alone. -/
private theorem keeps_others : KeepsMessages recordInitError ∧ KeepsMessages failMissingRoom ∧
    KeepsMessages persistAttachment ∧ KeepsMessages persistLastMessage ∧
    KeepsMessages assignScroll ∧ KeepsMessages assignInputSize ∧ KeepsMessages assignAppSize ∧
    KeepsMessages beginDrag ∧ KeepsMessages trackDrag ∧ KeepsMessages finishDrag ∧
    KeepsMessages showAlert ∧ KeepsMessages notifyAlert ∧ KeepsMessages clearAlert := by
  refine ⟨keeps_assign fun _ _ _ => rfl, keeps_assign fun _ _ _ => rfl, keeps_effect, keeps_effect,
    keeps_assignEvent ?_, keeps_assignEvent ?_, keeps_assignEvent ?_, keeps_assignEvent ?_,
    keeps_assignEvent ?_, keeps_assignEvent ?_, keeps_assignEvent ?_, keeps_effect,
    keeps_assign fun _ _ _ => rfl⟩ <;>
  · intro c e p hp c'
    cases e <;> simp at hp
    subst hp
    rfl

theorem messages_of_storeMessages {id : InvocationId} :
    Context.messages (Action.assignedAll (.invokeDone x id stored) [storeMessages] context) =
      stored := rfl

theorem messages_of_appendSent {text : String} (h : Text.allBlank text = false) :
    Context.messages (Action.assignedAll (.event (Event.sendMessage text))
      [appendSent, persistLastMessage] context) =
        Context.messages context ++ [Context.write context text] := by
  have htext : (Event.sendMessage text).text? = some text := by simp [Event.text?, h]
  change (List.foldl Patch.apply (context : Context) ((Event.sendMessage text).text?.map fun text =>
    Patch.append (Context.write context text)).toList).messages = _
  rw [htext]
  rfl

/-! ## Transitions -/

/-- What a transition of a state does to the messages, by what it waits for. -/
@[mk_iff]
structure Posts (s : domain.State) (tr : Transition domain) : Prop where
  received : tr.trigger = .event "MESSAGE_RECEIVED" →
    (s = .listIdle ∨ s = .listPainting) ∧ tr.actions = [appendReceived]
  sent : tr.trigger = .event "SEND_MESSAGE" →
    (s = .inputTypeMode ∧ tr.target = none ∧ tr.guard = some hasText ∧
        tr.actions = [appendSent, persistLastMessage]) ∨
      ((s = .inputAudioPlayerMode ∨ s = .listIdle) ∧ tr.actions = [])
  loaded : tr.trigger = .invokeDone → s = .initializing ∧ tr.actions = [storeMessages]
  other : tr.trigger ≠ .event "MESSAGE_RECEIVED" → tr.trigger ≠ .event "SEND_MESSAGE" →
    tr.trigger ≠ .invokeDone → ∀ a ∈ tr.actions, KeepsMessages a

theorem posts_of_declared (h : Declared chart t) : Posts t.source t.transition := by
  refine of_declared ?_ h
  rw [chart.nodes_eq]
  simp [posts_iff, chart, tree, regions, attachmentRegion, inputRegion, messageListRegion,
    debounced, dragRegion, alertRegion, compound, leaf, final, on, after, StateTree.entries,
    StateTree.allEntries, keeps_others]
  exact ⟨rfl, rfl, rfl, rfl, rfl⟩

/-! ## The message list -/

/-- A compound state with two states in it. -/
structure Twins (p a b : domain.State) : Prop where
  compound : chart.isCompound p
  substates : chart.substates p = [a, b]
  ne : a ≠ b

theorem twins_messageList : Twins .messageList .listIdle .listPainting :=
  ⟨by decide, by decide, State.noConfusion⟩

theorem twins_paintBubbles : Twins .paintBubbles .bubblesRendering .bubblesRendered :=
  ⟨by decide, by decide, State.noConfusion⟩

theorem twins_paintScroll : Twins .paintScroll .scrollPending .scrollSettled :=
  ⟨by decide, by decide, State.noConfusion⟩

section

variable {p a b : domain.State} {active : StateSet domain.State} (hwf : chart.WellFormed active)

include hwf

theorem mem_of_twin (h : Twins p a b) (hx : x = a ∨ x = b) (hactive : x ∈ active) : p ∈ active := by
  refine hwf.parent x hactive p (Chart.mem_substates.mp ?_).1
  rw [h.substates]
  rcases hx with rfl | rfl <;> simp

theorem one_of_twins (h : Twins p a b) (hp : p ∈ active) :
    (a ∈ active ∧ b ∉ active) ∨ (a ∉ active ∧ b ∈ active) := by
  obtain ⟨u, ⟨hu, huactive⟩, hunique⟩ := hwf.compound p hp h.compound
  rw [h.substates] at hu hunique
  rcases List.mem_pair.mp hu with rfl | rfl
  · exact Or.inl ⟨huactive, fun hb => h.ne (hunique b ⟨by simp, hb⟩).symm⟩
  · exact Or.inr ⟨fun ha => h.ne (hunique a ⟨by simp, ha⟩), huactive⟩

theorem eq_of_twins {y : domain.State} (h : Twins p a b) (hx : x = a ∨ x = b) (hy : y = a ∨ y = b)
    (hxactive : x ∈ active) (hyactive : y ∈ active) : x = y := by
  rcases one_of_twins hwf h (mem_of_twin hwf h hx hxactive) with ⟨-, hb⟩ | ⟨ha, -⟩
  · rw [hx.resolve_right fun hx => hb (hx ▸ hxactive),
      hy.resolve_right fun hy => hb (hy ▸ hyactive)]
  · rw [hx.resolve_left fun hx => ha (hx ▸ hxactive),
      hy.resolve_left fun hy => ha (hy ▸ hyactive)]

/-- Whether bubbles and scroll position are both done while `listPainting` is still active. -/
def Painted (active : StateSet domain.State) : Prop :=
  .bubblesRendered ∈ active ∧ .scrollSettled ∈ active

/-- As long as something remains to be painted there is an active atomic state within the message
list; it is idle, or paints. -/
theorem not_painted_iff (hlist : .messageList ∈ active) : ¬ Painted active ↔
    .listIdle ∈ active ∨ .bubblesRendering ∈ active ∨ .scrollPending ∈ active := by
  have hregions : chart.substates .listPainting = [.paintBubbles, .paintScroll] := by
    decide
  rcases one_of_twins hwf twins_messageList hlist with ⟨hidle, hbusy⟩ | ⟨hidle, hbusy⟩
  · refine ⟨fun _ => Or.inl hidle, fun _ hpainted => hbusy ?_⟩
    have hbubbles := mem_of_twin hwf twins_paintBubbles (Or.inr rfl) hpainted.1
    exact hwf.parent .paintBubbles hbubbles .listPainting (by decide)
  · have hall := hwf.parallel .listPainting hbusy (by decide)
    rw [hregions] at hall
    obtain ⟨hbubbles, hscroll⟩ := List.forall_mem_cons.mp hall
    have hbubbles := one_of_twins hwf twins_paintBubbles hbubbles
    have hscroll := one_of_twins hwf twins_paintScroll (hscroll _ (List.mem_singleton_self _))
    unfold Painted
    tauto

end

instance (active : StateSet domain.State) : Decidable (Painted active) :=
  have hmem : ∀ s : domain.State, Decidable (s ∈ active) := fun _ => inferInstance
  have := hmem .bubblesRendered
  have := hmem .scrollSettled
  inferInstanceAs (Decidable (_ ∧ _))

/-! ## What an event does to the messages -/

private theorem eq_singleton {α : Type} {l : List α} {a : α} (hl : l.Nodup) (ha : a ∈ l)
    (h : ∀ b ∈ l, b = a) : l = [a] := by
  refine List.perm_singleton.mp ((List.perm_ext_iff_of_nodup hl (List.nodup_singleton a)).mpr ?_)
  intro b
  exact ⟨fun hb => List.mem_singleton.mpr (h b hb), fun hb => List.mem_singleton.mp hb ▸ ha⟩

private theorem flatMap_of_unique {α β : Type} {l : List α} {f : α → List β} {a : α} (hl : l.Nodup)
    (ha : a ∈ l) (h : ∀ b ∈ l, b ≠ a → f b = []) : l.flatMap f = f a := by
  obtain ⟨front, back, rfl⟩ := List.append_of_mem ha
  have hne : ∀ b ∈ front ++ back, b ≠ a := by
    rintro b hb rfl
    exact (List.nodup_cons.mp (List.nodup_middle.mp hl)).1 hb
  have hfront : front.flatMap f = [] := List.flatMap_eq_nil_iff.mpr fun b hb =>
    h b (List.mem_append_left _ hb) (hne b (List.mem_append_left _ hb))
  have hback : back.flatMap f = [] := List.flatMap_eq_nil_iff.mpr fun b hb =>
    h b (List.mem_append_right _ (List.mem_cons_of_mem _ hb)) (hne b (List.mem_append_right _ hb))
  rw [List.flatMap_append, List.flatMap_cons, hfront, hback, List.nil_append, List.append_nil]

/-- Whether there is text to be sent. -/
theorem guardHolds_hasText {text : String} (h : t.transition.guard = some hasText) :
    m.guardHolds (.event (Event.sendMessage text)) t = .ok (!Text.allBlank text) := by
  have hanswer : hasText.holds m.context (.event (Event.sendMessage text)) =
      .ok (Event.sendMessage text).text?.isSome := rfl
  rw [guardHolds, h]
  dsimp only
  rw [hanswer, Event.text?]
  cases Text.allBlank text <;> rfl

theorem event_of_answers {name : String} (h : t.Answers signal)
    (htrigger : t.transition.trigger = .event name) :
    ∃ e, signal = .event e ∧ domain.eventName e = name := by
  cases signal with
  | start | stop => exact h.elim
  | event e => exact ⟨e, rfl, Trigger.event.inj (h.symm.trans htrigger)⟩
  | timer =>
    obtain ⟨-, delay, h⟩ := h
    exact absurd (htrigger.symm.trans h) (by simp)
  | invokeDone | invokeError | done => exact absurd (htrigger.symm.trans h.2) (by simp)

section

variable (message : Message) {text : String} (hm : Sound m)

include hm

/-- A received message is offered to the message list, as long as something remains to be
painted. -/
theorem received_of_offered (hx : x ∈ m.configuration) (hatomic : m.chart.isAtomic x)
    (h : m.firstEnabledOf (.event (Event.messageReceived message)) (x :: m.chart.ancestors x) =
      .ok (some t)) :
    (t.source = .listIdle ∨ t.source = .listPainting) ∧ t.source ∈ m.configuration ∧
      t.transition.actions = [appendReceived] ∧ ¬ Painted m.configuration := by
  obtain ⟨hdecl, htrigger, hwithin, -⟩ := spec_of_offered h
  rw [hm.clean.chart] at hdecl hwithin hatomic
  have hwf := wellFormed_of_mem hm hx
  have hsource := Chart.active_of_isWithin hwf hx hwithin
  obtain ⟨hs, hactions⟩ := (posts_of_declared hdecl).received htrigger
  have hlist := mem_of_twin hwf twins_messageList hs hsource
  refine ⟨hs, hsource, hactions, (not_painted_iff hwf hlist).mpr ?_⟩
  rcases hs with hs | hs
  · exact Or.inl (hs ▸ hsource)
  · have hatomics : ∀ n ∈ chart.nodes, chart.isAtomic n.id → chart.isWithin n.id .listPainting →
        n.id = .bubblesRendering ∨ n.id = .scrollPending := by decide
    obtain ⟨n, hn⟩ := Chart.contains_iff.mp (contains_chart x)
    obtain ⟨hmem, rfl⟩ := chart.node?_eq_some.mp hn
    rcases hatomics n hmem hatomic (hs ▸ hwithin) with he | he
    · exact Or.inr (Or.inl (he ▸ hx))
    · exact Or.inr (Or.inr (he ▸ hx))

/-- When everything is painted a received message is passed over. -/
theorem process_received (hpainted : Painted m.configuration) :
    m.process (.event (Event.messageReceived message)) = .ok { machine := m } := by
  obtain ⟨l, hselect, -, -, hl⟩ :=
    takes_event (e := Event.messageReceived message) calm_chart hm.clean
  have hnone : l = [] := List.eq_nil_iff_forall_not_mem.mpr fun t ht => by
    obtain ⟨x, hx, hatomic, hfound⟩ := (hl t).mp ht
    exact (received_of_offered message hm hx hatomic hfound).2.2.2 hpainted
  unfold process react
  rw [hselect, hnone]
  rfl

/-- It is taken up then. -/
theorem exists_received (hx : x = .listIdle ∨ x = .bubblesRendering ∨ x = .scrollPending) :
    m.chart.isAtomic x ∧ ∃ u, m.firstEnabledOf (.event (Event.messageReceived message))
      (x :: m.chart.ancestors x) = .ok (some u) := by
  have hall : ∀ n ∈ chart.nodes,
      n.id = .listIdle ∨ n.id = .bubblesRendering ∨ n.id = .scrollPending →
      chart.isAtomic n.id ∧ ∃ n' ∈ chart.nodes, ∃ tr ∈ n'.transitions,
        tr.trigger = .event "MESSAGE_RECEIVED" ∧ tr.guard.isNone ∧ chart.isWithin n.id n'.id := by
    decide
  obtain ⟨n, hn⟩ := Chart.contains_iff.mp (contains_chart x)
  obtain ⟨hmem, rfl⟩ := chart.node?_eq_some.mp hn
  obtain ⟨hatomic, n', hn', tr, htr, htrigger, hguard, hwithin⟩ := hall n hmem hx
  refine ⟨hm.clean.chart ▸ hatomic, exists_offered (t := ⟨n'.id, 0, tr⟩) calm_chart hm.clean
    (contains_chart _) ⟨n', chart.node?_eq_some.mpr ⟨hn', rfl⟩, htr⟩ htrigger hwithin ?_⟩
  rw [guardHolds, Option.isNone_iff_eq_none.mp hguard]

/-- A received message is appended, unless everything is painted. -/
theorem actionsOn_received (hactive : .active ∈ m.configuration) :
    m.actionsOn (.event (Event.messageReceived message)) =
      if Painted m.configuration then [] else [appendReceived] := by
  unfold actionsOn
  split
  · next hpainted =>
    rw [takes_of_unsettled (process_received message hm hpainted) rfl, List.flatMap_nil]
  · next hpainted =>
    have hwf := wellFormed_of_mem hm hactive
    obtain ⟨l, -, htakes, hnodup, hl⟩ :=
      takes_event (e := Event.messageReceived message) calm_chart hm.clean
    have hlist : .messageList ∈ m.configuration :=
      hwf.parallel .active hactive (by decide) .messageList
        (Chart.mem_substates.mpr ⟨by decide, by decide⟩)
    have hwho : ∃ x ∈ m.configuration,
        x = .listIdle ∨ x = .bubblesRendering ∨ x = .scrollPending := by
      rcases (not_painted_iff hwf hlist).mp hpainted with hx | hx | hx
      · exact ⟨_, hx, Or.inl rfl⟩
      · exact ⟨_, hx, Or.inr (Or.inl rfl)⟩
      · exact ⟨_, hx, Or.inr (Or.inr rfl)⟩
    obtain ⟨x, hx, hwho⟩ := hwho
    obtain ⟨hatomic, t, hfound⟩ := exists_received message hm hwho
    obtain ⟨hs, hsource, hactions, -⟩ := received_of_offered message hm hx hatomic hfound
    -- `listIdle` and `listPainting` are not active at once, so that nothing else is offered
    have honly : l = [t] := by
      refine eq_singleton hnodup ((hl t).mpr ⟨x, hx, hatomic, hfound⟩) fun u hu => ?_
      obtain ⟨y, hy, hatomic', hfound'⟩ := (hl u).mp hu
      obtain ⟨hs', hsource', -⟩ := received_of_offered message hm hy hatomic' hfound'
      exact eq_of_source hfound' hfound (eq_of_twins hwf twins_messageList hs' hs hsource' hsource)
    rw [htakes, honly, withoutConflicts_singleton, List.flatMap_singleton, hactions]

/-- What a text to be sent is offered to in `inputTypeMode` appends it, unless it is blank; nobody
else appends anything. -/
theorem sent_of_offered (hx : x ∈ m.configuration)
    (h : m.firstEnabledOf (.event (Event.sendMessage text)) (x :: m.chart.ancestors x) =
      .ok (some t)) :
    (t.source = .inputTypeMode ∧ m.exitSet t = [] ∧ .inputTypeMode ∈ m.configuration ∧
        Text.allBlank text = false ∧ t.transition.actions = [appendSent, persistLastMessage]) ∨
      (¬ chart.isWithin .inputTypeMode t.source ∧ t.transition.actions = []) := by
  obtain ⟨hdecl, htrigger, hwithin, hholds⟩ := spec_of_offered h
  rw [hm.clean.chart] at hdecl hwithin
  refine ((posts_of_declared hdecl).sent htrigger).imp ?_ ?_
  · rintro ⟨hs, htarget, hguard, hactions⟩
    have hexit : m.exitSet t = [] := by
      simp [exitSet, domain?, Transition.isActionOnly, htarget]
    rw [guardHolds_hasText hguard] at hholds
    have hsource := Chart.active_of_isWithin (wellFormed_of_mem hm hx) hx hwithin
    exact ⟨hs, hexit, hs ▸ hsource, by simpa using hholds, hactions⟩
  · rintro ⟨hs, hactions⟩
    refine ⟨?_, hactions⟩
    rcases hs with hs | hs <;> rw [hs] <;> decide

/-- It is taken up there. -/
theorem exists_sent (h : Text.allBlank text = false) : m.chart.isAtomic .inputTypeMode ∧
    ∃ u, m.firstEnabledOf (.event (Event.sendMessage text))
      (.inputTypeMode :: m.chart.ancestors .inputTypeMode) = .ok (some u) := by
  have hdeclared : ∃ n ∈ chart.nodes, n.id = .inputTypeMode ∧ chart.isAtomic n.id ∧
      ∃ tr ∈ n.transitions, tr.trigger = .event "SEND_MESSAGE" := by decide
  obtain ⟨n, hn, hid, hatomic, tr, htr, htrigger⟩ := hdeclared
  have hdecl : Declared chart ⟨n.id, 0, tr⟩ := ⟨n, chart.node?_eq_some.mpr ⟨hn, rfl⟩, htr⟩
  have hguard : tr.guard = some hasText := by
    rcases (posts_of_declared hdecl).sent htrigger with ⟨-, -, hguard, -⟩ | ⟨hs | hs, -⟩
    · exact hguard
    · exact State.noConfusion (hid.symm.trans hs)
    · exact State.noConfusion (hid.symm.trans hs)
  refine ⟨hm.clean.chart ▸ hid ▸ hatomic, hid ▸ exists_offered calm_chart hm.clean
    (contains_chart _) hdecl htrigger (Chart.isWithin_refl _) ?_⟩
  rw [guardHolds_hasText hguard, h]
  rfl

/-- A text to be sent is appended if it is being typed and is not blank. -/
theorem actionsOn_sent : m.actionsOn (.event (Event.sendMessage text)) =
    if m.isActive .inputTypeMode && !Text.allBlank text then [appendSent, persistLastMessage]
    else [] := by
  obtain ⟨l, -, htakes, hnodup, hl⟩ := takes_event (e := Event.sendMessage text) calm_chart hm.clean
  have hsub := sublist_withoutConflicts (m := m) l
  have hoffered : ∀ t ∈ m.withoutConflicts l, ∃ x ∈ m.configuration, m.chart.isAtomic x ∧
      m.firstEnabledOf (.event (Event.sendMessage text)) (x :: m.chart.ancestors x) =
        .ok (some t) :=
    fun t ht => (hl t).mp (hsub.subset ht)
  unfold actionsOn
  rw [htakes]
  split
  · next hsent =>
    obtain ⟨htyping, htext⟩ := (Bool.and_eq_true ..).mp hsent
    obtain ⟨hatomic, t, hfound⟩ := exists_sent hm (by simpa using htext)
    have hx := isActive_iff.mp htyping
    obtain ⟨-, -, hwithin, -⟩ := spec_of_offered hfound
    rw [hm.clean.chart] at hwithin
    obtain ⟨hs, hexit, -, -, hactions⟩ :=
      (sent_of_offered hm hx hfound).resolve_right fun hother => hother.1 hwithin
    -- it leaves nothing, so it conflicts with none
    have ht := mem_withoutConflicts_of_free (m := m) hnodup ((hl t).mpr ⟨_, hx, hatomic, hfound⟩)
      fun u _ _ => by simp [conflicts, hexit]
    -- the other transitions that are taken run no actions
    rw [flatMap_of_unique (hnodup.sublist hsub) ht fun u hu hne => ?_, hactions]
    obtain ⟨y, hy, -, hfound'⟩ := hoffered u hu
    rcases sent_of_offered hm hy hfound' with ⟨hs', -⟩ | ⟨-, hnone⟩
    · exact absurd (eq_of_source hfound' hfound (hs'.trans hs.symm)) hne
    · exact hnone
  · next hunsent =>
    refine List.flatMap_eq_nil_iff.mpr fun t ht => ?_
    obtain ⟨x, hx, -, hfound⟩ := hoffered t ht
    rcases sent_of_offered hm hx hfound with ⟨-, -, htyping, htext, -⟩ | ⟨-, hnone⟩
    · exact absurd ((Bool.and_eq_true ..).mpr ⟨isActive_iff.mpr htyping, by simp [htext]⟩) hunsent
    · exact hnone

/-- All other signals leave the messages of a widget that is set up alone. -/
theorem keeps_of_other (hactive : .active ∈ m.configuration)
    (hother : ∀ e, signal = .event e →
      domain.eventName e ≠ "MESSAGE_RECEIVED" ∧ domain.eventName e ≠ "SEND_MESSAGE") :
    ∀ a ∈ m.actionsOn signal, KeepsMessages a := by
  intro a ha
  obtain ⟨t, ht, ha⟩ := List.mem_flatMap.mp ha
  obtain ⟨hdecl, hanswers, -⟩ := answers_of_takes ht
  have hposts := posts_of_declared (hm.clean.chart ▸ hdecl)
  have hname : ∀ name, t.transition.trigger = .event name →
      name ≠ "MESSAGE_RECEIVED" ∧ name ≠ "SEND_MESSAGE" := by
    intro name htrigger
    obtain ⟨e, he, rfl⟩ := event_of_answers hanswers htrigger
    exact hother e he
  refine hposts.other (fun h => (hname _ h).1 rfl) (fun h => (hname _ h).2 rfl) (fun h => ?_) a ha
  have hwithin := isWithin_of_takes hm hactive ht
  rw [(hposts.loaded h).1] at hwithin
  exact absurd hwithin (by decide)

end

/-! ## What becomes of the messages -/

/-- The messages that are to be appended as a signal is processed: one that is received, or a text
that is sent while it is being typed and that is not blank. -/
def posts (m : Machine domain) (signal : Signal domain) : List Message :=
  match (signal.event? : Option Event) with
  | some (.messageReceived message) => [message]
  | some (.sendMessage text) =>
    if m.isActive .inputTypeMode && !Text.allBlank text then [Context.write m.context text] else []
  | _ => []

/-- Whether a message is received when nobody takes it up: bubbles and scroll position are painted,
and the message list has not yet gone back to idle. -/
def loses (m : Machine domain) (signal : Signal domain) : Bool :=
  match (signal.event? : Option Event) with
  | some (.messageReceived _) => decide (Painted m.configuration)
  | _ => false

/-- The messages that are appended. -/
def appends (m : Machine domain) (signal : Signal domain) : List Message :=
  if loses m signal then [] else posts m signal

theorem length_posts (h : loses m signal) : (posts m signal).length = 1 := by
  unfold loses at h
  unfold posts
  split at h
  · next he => simp [he]
  · exact absurd h (by simp)

/-- A widget that is set up appends what is to be appended, and does nothing else to the messages,
unless it loses a message. -/
theorem messages_of_signal (hm : Sound m) (hactive : .active ∈ m.configuration) :
    Context.messages (Action.assignedAll signal (m.actionsOn signal) m.context) =
      Context.messages m.context ++ appends m signal := by
  -- signals on which nothing is posted
  have hother : (∀ e, signal = .event e →
      domain.eventName e ≠ "MESSAGE_RECEIVED" ∧ domain.eventName e ≠ "SEND_MESSAGE") →
      appends m signal = [] →
      Context.messages (Action.assignedAll signal (m.actionsOn signal) m.context) =
        Context.messages m.context ++ appends m signal := by
    intro hother hnone
    rw [messages_of_keeps (keeps_of_other hm hactive hother), hnone, List.append_nil]
  cases signal with
  | event e =>
    cases e with
    | messageReceived message =>
      rw [actionsOn_received message hm hactive]
      by_cases hpainted : Painted m.configuration
      · simp [appends, loses, Signal.event?, hpainted, Action.assignedAll]
      · simp [appends, loses, posts, Signal.event?, hpainted]
        rfl
    | sendMessage text =>
      rw [actionsOn_sent hm]
      cases hsent : m.isActive .inputTypeMode && !Text.allBlank text with
      | false => simp [appends, loses, posts, Signal.event?, hsent, Action.assignedAll]
      | true =>
        have htext : Text.allBlank text = false := by simpa using ((Bool.and_eq_true ..).mp hsent).2
        simp [appends, loses, posts, Signal.event?, hsent, messages_of_appendSent htext]
    | _ =>
      exact hother (fun e he => Signal.event.inj he ▸ by simp [domain, Event.name]) rfl
  | start | stop | timer | invokeDone | invokeError | done =>
    exact hother (fun e he => absurd he (by simp)) rfl

/-! ## Along a run -/

/-- What the signals processed so far come to, in the order of processing. -/
def gathered (f : Machine domain → Signal domain → List Message)
    (log : List (Statechart.Event domain)) : List Message :=
  (log.reverse.filterMap (·.processed)).flatMap fun p => f p.1 p.2

theorem gathered_cons {f : Machine domain → Signal domain → List Message} :
    gathered f (e :: log) = gathered f log ++ e.processed.elim [] fun p => f p.1 p.2 := by
  rw [gathered, List.reverse_cons, List.filterMap_append, List.flatMap_append]
  cases he : e.processed <;> simp [gathered, he]

/-- As many messages are missing as are lost. -/
theorem length_gathered (log : List (Statechart.Event domain)) : (gathered appends log).length +
    (log.reverse.filterMap (·.processed)).countP (fun p => loses p.1 p.2) =
      (gathered posts log).length := by
  unfold gathered
  induction log.reverse.filterMap (·.processed) with
  | nil => rfl
  | cons p l ih =>
    have hone : (appends p.1 p.2).length + (if loses p.1 p.2 then 1 else 0) =
        (posts p.1 p.2).length := by
      unfold appends
      split
      · next h => rw [length_posts h, List.length_nil]
      · rfl
    rw [List.flatMap_cons, List.flatMap_cons, List.length_append, List.length_append,
      List.countP_cons, ← hone]
    omega

theorem gathered_eq_iff : gathered appends log = gathered posts log ↔
    ∀ e ∈ log, ∀ m₀ signal, e.processed = some (m₀, signal) → loses m₀ signal = false := by
  have hall : (∀ p ∈ log.reverse.filterMap (·.processed), ¬ loses p.1 p.2) ↔
      ∀ e ∈ log, ∀ m₀ signal, e.processed = some (m₀, signal) → loses m₀ signal = false := by
    simp only [List.mem_filterMap, List.mem_reverse, Bool.not_eq_true]
    constructor
    · exact fun h e he m₀ signal hp => h (m₀, signal) ⟨e, he, hp⟩
    · rintro h ⟨m₀, signal⟩ ⟨e, he, hp⟩
      exact h e he m₀ signal hp
  rw [← hall]
  constructor
  · intro h
    have hlength := length_gathered log
    rw [h, Nat.add_eq_left] at hlength
    exact List.countP_eq_zero.mp hlength
  · intro h
    refine List.flatMap_congr fun p hp => ?_
    rw [appends, if_neg (h p hp)]

/-- What becomes of the messages at one moment. -/
theorem messages_of_does (h : Course chart log m) (hdoes : m.Does e m')
    (hbefore : .active ∈ m.configuration) (hafter : .active ∈ m'.configuration) :
    Context.messages m'.context =
      Context.messages m.context ++ e.processed.elim [] fun p => appends p.1 p.2 := by
  have hm := sound_of_active h hbefore
  have hup : m'.status ≠ .faulted := fun hs => not_ended_of_active (h.next hdoes) hafter (Or.inr hs)
  cases he : e.processed with
  | none =>
    rw [context_of_unprocessed assignsInTransitions_chart hm.clean.chart hdoes he hup]
    exact (List.append_nil _).symm
  | some p =>
    obtain ⟨m₀, signal⟩ := p
    obtain ⟨later, hturn⟩ := process_of_does hdoes he
    have hstage := sameStage_of_process hturn
    rw [context_of_processed assignsInTransitions_chart hm.clean.chart hdoes he hup,
      ← hstage.context]
    exact messages_of_signal (sound_of_turn hm hturn) (hstage.configuration ▸ hbefore)

/-- Setting the widget up stores the messages that were loaded. -/
theorem messages_of_initializes (h : Course chart log m) (hdoes : m.Does e m')
    (hbefore : .active ∉ m.configuration) (hafter : .active ∈ m'.configuration)
    (hinit : Initializes e stored) : Context.messages m'.context = stored := by
  obtain ⟨step, id, he, hsignal, hentered⟩ := hinit
  have hup := not_ended_of_active (h.next hdoes) hafter
  have hsettling := settling_of_does hdoes he
  have hm := sound_of_course h (not_ended_of_up (settling_status hsettling))
  obtain ⟨_, _, _, -, -, heffects, -⟩ :=
    (settling_work hsettling).resolve_left fun hdead => hup hdead.2.1
  obtain ⟨hopen, hturn, hprocessed, hstep, -⟩ := turning_of_does hdoes he heffects.status
  have hm₀ := sound_of_turn hm hturn
  have hconf := (sameStage_of_process hturn).configuration
  obtain ⟨-, -, -, t, -, htakes⟩ :=
    setup_of_enters hm₀ (hconf ▸ hbefore) (enters_of_settles hstep) hentered (Chart.isWithin_refl _)
  obtain ⟨hdecl, hanswers, -⟩ := answers_of_takes (htakes ▸ List.mem_singleton_self t)
  rw [hsignal] at hanswers
  have hactions := ((posts_of_declared (hm₀.clean.chart ▸ hdecl)).loaded hanswers.2).2
  rw [context_of_processed assignsInTransitions_chart hm.clean.chart hdoes hprocessed
    fun hs => hup (Or.inr hs), actionsOn, htakes, hsignal, List.flatMap_singleton, hactions]
  exact messages_of_storeMessages

/-- The messages of a widget that is set up are those that were loaded, and those appended since. -/
theorem messages_of_active (h : Course chart log m) (hactive : .active ∈ m.configuration) :
    ∃ newer e older stored, log = newer ++ e :: older ∧ Initializes e stored ∧
      (∀ e' ∈ newer, ∀ stored', ¬ Initializes e' stored') ∧
      Context.messages m.context = stored ++ gathered appends newer := by
  induction h with
  | fresh _ hfresh => exact absurd hactive (not_mem_of_nil hfresh.configuration)
  | @next log e m m' hcourse hdoes ih =>
    rcases active_of_does hcourse hdoes hactive with hbefore | ⟨hbefore, stored, hinit⟩
    · obtain ⟨newer, e₀, older, stored, rfl, hinit, hsince, hmessages⟩ := ih hbefore
      refine ⟨e :: newer, e₀, older, stored, rfl, hinit, fun e' he' stored' => ?_, ?_⟩
      · rcases List.mem_cons.mp he' with rfl | he'
        · exact not_initializes_of_active hcourse hdoes hbefore
        · exact hsince e' he' stored'
      · rw [messages_of_does hcourse hdoes hbefore hactive, hmessages, gathered_cons,
          List.append_assoc]
    · refine ⟨[], e, log, stored, rfl, hinit, fun e' he' => absurd he' List.not_mem_nil, ?_⟩
      rw [messages_of_initializes hcourse hdoes hbefore hactive hinit]
      exact (List.append_nil _).symm

/-- A message that is to be processed when everything is painted is lost. -/
theorem lost_of_painted {message : Message} (hm : Sound m) (hpainted : Painted m.configuration)
    (hserves : m.Serves false) (hstatus : m.status = .running)
    (hqueue : m.shell.queue.head? = some (.signal (.event (Event.messageReceived message)))) :
    ∃ e m₀ m', m.Does e m' ∧
      e.processed = some (m₀, .event (Event.messageReceived message)) ∧
      loses m₀ (.event (Event.messageReceived message)) ∧
      m'.configuration = m.configuration ∧ m'.context = m.context := by
  obtain ⟨rest, hrest⟩ := List.head?_eq_some_iff.mp hqueue
  have hturn : m.nextTurn = .process { m with shell := { m.shell with queue := rest } }
      (.event (Event.messageReceived message)) [] := by
    rw [nextTurn, hrest]
    exact if_neg (not_not_intro hstatus)
  have hproc := process_received message (sound_of_turn hm hturn) hpainted
  exact ⟨_, _, _, .pass hserves hturn hproc rfl, rfl, decide_eq_true hpainted, rfl, rfl⟩

/-- In a widget that is set up the messages are those that were loaded as it was set up, followed by
one message for every signal processed since that was to append one, in that order, but for those
received while everything is painted. The widget is set up once. -/
theorem messages_of_course (h : Course chart log m) (hactive : .active ∈ m.configuration) :
    ∃ newer e older stored, log = newer ++ e :: older ∧ Initializes e stored ∧
      (∀ e' ∈ newer ++ older, ∀ stored', ¬ Initializes e' stored') ∧
      Context.messages m.context = stored ++ gathered appends newer ∧
      (Context.messages m.context = stored ++ gathered posts newer ↔
        ∀ e' ∈ newer, ∀ m₀ signal, e'.processed = some (m₀, signal) → loses m₀ signal = false) := by
  obtain ⟨newer, e, older, stored, rfl, hinit, hsince, hmessages⟩ := messages_of_active h hactive
  refine ⟨newer, e, older, stored, rfl, hinit, fun e' he' stored' => ?_, hmessages, ?_⟩
  · rcases List.mem_append.mp he' with he' | he'
    · exact hsince e' he' stored'
    · obtain ⟨_, _, -, -, hcourse⟩ := course_split h newer e older rfl
      exact not_initializes_earlier hcourse hinit he'
  · rw [hmessages, List.append_cancel_left_eq, gathered_eq_iff]

/-! ## A lobby -/

def welcome : Message := { author := "host", body := .text "welcome", stamp := default }

def hello : Message := { author := "guest", body := .text "hello", stamp := default }

def anybody : Message :=
  { author := "guest", body := .text "anybody here?", stamp := default }

/-- A widget nobody has started yet. -/
def lobby : Machine domain :=
  (Session.ofConfig { roomId := some "lobby" } false true default default).machine

theorem course_lobby : Course chart [] lobby := course_ofConfig ..

/-- Somebody who, told of a first step, has everything painted at once, and sends on a message. -/
def hurry : Reaction domain := fun n _ =>
  if n = 0 then
    [.tick fun _ h => h, .tick fun _ h => h, .send (Event.messageReceived anybody) fun _ h => h]
  else []

/-- The lobby, set up with one message. -/
def openLobby? : Option (Machine domain) :=
  ((lobby.after 9 [.start, .tick]).deliver 9 .initializing 0 (.ok [welcome])).map
    (·.after 9 [.tick])

/-- What it keeps track of. -/
def lobbyContext : Context := { roomId := some "lobby", messages := [welcome] }

/-- The states it is in. -/
def openStates : List domain.State :=
  [.widget, .active, .attachment, .input, .messageList, .scroll, .inputResize, .appResize, .drag,
    .alert, .inputReady, .listIdle, .scrollIdle, .inputResizeStop, .appResizeStop, .dragIdle,
    .alertHidden, .inputTypeMode, .attachmentClosed]

theorem openLobby_open : openLobby?.map (fun m => (m.shell, m.context, m.configuration.elems,
    m.timers.pending, m.timers.nextEpoch, m.blocked)) =
      some ({ host := ({} : Host), status := .running }, lobbyContext, openStates, [], 4, false) := by
  cbv

/-- A machine that is in given states, with nothing to do and nobody listening. -/
def idleIn (states : List domain.State) (hnodup : states.Nodup) (m : Machine domain) :
    Machine domain :=
  { m with
    chart
    shell := { host := ({} : Host), status := .running }
    configuration := { elems := states, nodup := hnodup }
    timers := { nextEpoch := 4, ordered := .nil, fresh := by simp }
    blocked := false }

theorem idleIn_eq {states : List domain.State} {hnodup : states.Nodup} (hchart : m.chart = chart)
    (hshell : m.shell = { host := ({} : Host), status := .running })
    (hconf : m.configuration.elems = states) (htimers : m.timers.pending = [])
    (hepoch : m.timers.nextEpoch = 4) (hfree : m.blocked = false) :
    idleIn states hnodup m = m := by
  obtain ⟨c, context, shell, canInvoke, ⟨elems, nodup⟩, history, ⟨epoch, pending, ordered, fresh⟩,
    invocations, journal, settledAt, step, launched, awaiting, worked, blocked⟩ := m
  dsimp only at hchart hshell hconf htimers hepoch hfree
  subst hchart hshell hconf htimers hepoch hfree
  rfl

/-- The lobby may get to be such a machine by a call. -/
theorem goes_idleIn {states : List domain.State} (hnodup : states.Nodup) {call : Call domain}
    (h : lobby.Goes log m) (hcalled : (m.called? call).map (fun last => (last.2.shell,
      last.2.configuration.elems, last.2.timers.pending, last.2.timers.nextEpoch, last.2.blocked)) =
        some ({ host := ({} : Host), status := .running }, states, [], 4, false)) :
    ∃ log m, lobby.Goes log (idleIn states hnodup m) := by
  obtain ⟨⟨step, m'⟩, hcalled, hfields⟩ := Option.map_eq_some_iff.mp hcalled
  obtain ⟨log', hgoes⟩ := goes_called? h hcalled
  obtain ⟨hshell, hfields⟩ := Prod.mk.inj hfields
  obtain ⟨hconf, hfields⟩ := Prod.mk.inj hfields
  obtain ⟨htimers, hfields⟩ := Prod.mk.inj hfields
  obtain ⟨hepoch, hfree⟩ := Prod.mk.inj hfields
  have hchart := (clean_of_run (run_of_course (course_goes course_lobby hgoes))).chart
  exact ⟨log', m', (idleIn_eq hchart hshell hconf htimers hepoch hfree).symm ▸ hgoes⟩

/-- What comes of an event that is sent to such a machine. -/
theorem called_idleIn {states : List domain.State} {hnodup : states.Nodup} (event : Event) :
    (idleIn states hnodup m).called? (.send event) =
      ((idleIn states hnodup m).reacted? (.event event)).map fun last =>
        (last.1, (absorb last.2).notify.machine) := by
  let sent : Machine domain := { idleIn states hnodup m with
    shell := (idleIn states hnodup m).shell.enqueue (.signal (.event event)) }
  have hcalled : (idleIn states hnodup m).called? (.send event) = sent.turned? := rfl
  have hserves : (sent.blocked || sent.shell.stopRequested) = false := rfl
  have hturn : sent.nextTurn = .process (idleIn states hnodup m) (.event event) [] := rfl
  rw [hcalled, turned?, hserves, hturn]
  refine Option.map_congr fun last _ => ?_
  dsimp only
  split
  · simp [enqueueAll]
  · rfl

/-- The lobby, set up and with nothing to do. -/
def quiet (m : Machine domain) : Machine domain := idleIn openStates (by decide) m

theorem leaves_quiet : (quiet m).active.filter (quiet m).chart.isAtomic =
    [.attachmentClosed, .inputTypeMode, .listIdle, .scrollIdle, .inputResizeStop, .appResizeStop,
      .dragIdle, .alertHidden] := by
  cbv

/-- The lobby gets there. -/
theorem lobby_quiet : ∃ log m, lobby.Goes log (quiet m) ∧ m.context = lobbyContext := by
  obtain ⟨m, hm, hopen⟩ := Option.map_eq_some_iff.mp openLobby_open
  obtain ⟨m₁, hdeliver, rfl⟩ := Option.map_eq_some_iff.mp hm
  obtain ⟨log₀, hstarted⟩ := goes_after lobby 9 [.start, .tick]
  obtain ⟨log₁, hloaded⟩ := goes_deliver hstarted hdeliver
  obtain ⟨log₂, hopened⟩ := goes_after m₁ 9 [.tick]
  have hgoes := goes_trans hloaded hopened
  have hchart := (clean_of_run (run_of_course (course_goes course_lobby hgoes))).chart
  obtain ⟨hshell, hopen⟩ := Prod.mk.inj hopen
  obtain ⟨hcontext, hopen⟩ := Prod.mk.inj hopen
  obtain ⟨hconf, hopen⟩ := Prod.mk.inj hopen
  obtain ⟨htimers, hopen⟩ := Prod.mk.inj hopen
  obtain ⟨hepoch, hfree⟩ := Prod.mk.inj hopen
  have hquiet : quiet (m₁.after 9 [.tick]) = m₁.after 9 [.tick] :=
    idleIn_eq hchart hshell hconf htimers hepoch hfree
  exact ⟨log₂ ++ log₁, m₁.after 9 [.tick], hquiet.symm ▸ hgoes, hcontext⟩

/-- A machine that is in these states, with somebody in a hurry listening. -/
def hurried (m : Machine domain) : Machine domain :=
  { m with
    chart
    shell :=
      { host := ({} : Host), status := .running, listeners := [{ id := 0, react := hurry }]
        nextListener := 1 }
    configuration := { elems := openStates, nodup := by decide }
    timers := { nextEpoch := 4, ordered := .nil, fresh := by simp }
    blocked := false }

/-- The same machine as a message comes in. -/
def greeted (m : Machine domain) : Machine domain :=
  { hurried m with
    shell := (hurried m).shell.enqueue (.signal (.event (Event.messageReceived hello))) }

theorem goes_greeted (m : Machine domain) : ∃ log, (quiet m).Goes log (greeted m) := by
  have hhurried : ((quiet m).subscribe hurry).1 = hurried m := rfl
  have hadmitted : (hurried m).shell.receive (hurried m).timers.nextEpoch
      (.send (Event.messageReceived hello)) = .admitted (greeted m).shell := rfl
  have hcall : (hurried m).Does _ (greeted m) := .call hadmitted
  have hlisten : (quiet m).Goes _ ((quiet m).subscribe hurry).1 := Goes.rest.next .outside
  exact ⟨_, (hhurried ▸ hlisten).next hcall⟩

/-- On a message the list begins to paint. -/
theorem select_hurried : (hurried m).select (.event (Event.messageReceived hello)) =
    .ok [⟨.listIdle, 0, on "MESSAGE_RECEIVED" .listPainting [appendReceived]⟩] := by
  have hsame : (hurried m).active.filter (hurried m).chart.isAtomic =
      (quiet m).active.filter (quiet m).chart.isAtomic := rfl
  unfold select
  dsimp only
  rw [hsame, leaves_quiet]
  rfl

/-- What it comes to in three turns, which take up the message, the bubbles and the scroll
position. -/
def paints? (m : Machine domain) : Option (Settled domain × Machine domain) :=
  (greeted m).turned?.bind fun first => first.2.turned?.bind fun second => second.2.turned?

/-- Everything is painted then, and another message waits to be processed. -/
theorem paints_greeted : (paints? m).map (fun last => (last.2.status, last.2.blocked,
    last.2.shell.stopRequested, last.2.shell.queue.head?,
    [State.active, .bubblesRendered, .scrollSettled].all last.2.isActive,
    Context.messages last.2.context)) =
      some (.running, false, false, some (.signal (.event (Event.messageReceived anybody))), true,
        Context.messages m.context ++ [hello]) := by
  have hserves : ((greeted m).blocked || (greeted m).shell.stopRequested) = false := rfl
  have hturn : (greeted m).nextTurn =
      .process (hurried m) (.event (Event.messageReceived hello)) [] := rfl
  have hsettled : (hurried m).settled? (.event (Event.messageReceived hello)) =
      (hurried m).reacted? (.event (Event.messageReceived hello)) := rfl
  have hreact : (hurried m).reacting? (.event (Event.messageReceived hello)) =
      some (hurried m) := rfl
  -- selecting the transition is slow to evaluate, and has been done
  rw [paints?, turned?, hserves, hturn]
  simp only [hsettled, reacted?, hreact, bind, Option.bind, select_hurried]
  cbv

/-- The lobby gets to where everything is painted and another message waits to be processed. -/
theorem lobby_painted : ∃ log m, Course chart log m ∧ m.Serves false ∧ m.status = .running ∧
    m.shell.queue.head? = some (.signal (.event (Event.messageReceived anybody))) ∧
    .active ∈ m.configuration ∧ Painted m.configuration ∧
    Context.messages m.context = [welcome, hello] := by
  obtain ⟨log, m, hquiet, hcontext⟩ := lobby_quiet
  obtain ⟨log', hgreeted⟩ := goes_greeted m
  have hcourse := course_goes (course_goes course_lobby hquiet) hgreeted
  obtain ⟨last, hlast, hpainted⟩ := Option.map_eq_some_iff.mp (paints_greeted (m := m))
  obtain ⟨first, hfirst, hlast⟩ := Option.bind_eq_some_iff.mp hlast
  obtain ⟨second, hsecond, hlast⟩ := Option.bind_eq_some_iff.mp hlast
  obtain ⟨e₁, hdoes₁, -⟩ := does_of_settling (settling_of_turned? hfirst)
  obtain ⟨e₂, hdoes₂, -⟩ := does_of_settling (settling_of_turned? hsecond)
  obtain ⟨e₃, hdoes₃, -⟩ := does_of_settling (settling_of_turned? hlast)
  obtain ⟨hstatus, hpainted⟩ := Prod.mk.inj hpainted
  obtain ⟨hfree, hpainted⟩ := Prod.mk.inj hpainted
  obtain ⟨hstop, hpainted⟩ := Prod.mk.inj hpainted
  obtain ⟨hqueue, hpainted⟩ := Prod.mk.inj hpainted
  obtain ⟨hactive, hmessages⟩ := Prod.mk.inj hpainted
  rw [hcontext] at hmessages
  change Context.messages last.2.context = [welcome, hello] at hmessages
  have hactive (s : State) (hs : s ∈ [State.active, .bubblesRendered, .scrollSettled]) :
      (s : domain.State) ∈ last.2.configuration :=
    isActive_iff.mp (List.all_eq_true.mp hactive s hs)
  exact ⟨_, last.2, ((hcourse.next hdoes₁).next hdoes₂).next hdoes₃, ⟨hfree, hstop⟩,
    hstatus, hqueue, hactive _ (by simp), ⟨hactive _ (by simp), hactive _ (by simp)⟩, hmessages⟩

/-- So far no message is missing. -/
theorem lobby_messages : ∃ newer e older stored m, Course chart (newer ++ e :: older) m ∧
    .active ∈ m.configuration ∧ Initializes e stored ∧
    Context.messages m.context = [welcome, hello] ∧
    [welcome, hello] = stored ++ gathered appends newer := by
  obtain ⟨log, m, hcourse, -, -, -, hactive, -, hmessages⟩ := lobby_painted
  obtain ⟨newer, e, older, stored, rfl, hinit, -, hall, -⟩ := messages_of_course hcourse hactive
  exact ⟨newer, e, older, stored, m, hcourse, hactive, hinit, hmessages, hmessages ▸ hall⟩

/-- The message that comes in when everything is painted is lost. -/
theorem lobby_loses : ∃ newer e older stored m, Course chart (newer ++ e :: older) m ∧
    .active ∈ m.configuration ∧ Initializes e stored ∧
    (∀ e' ∈ newer, ∀ stored', ¬ Initializes e' stored') ∧
    Context.messages m.context = [welcome, hello] ∧
    Context.messages m.context ≠ stored ++ gathered posts newer := by
  obtain ⟨log, m, hcourse, hserves, hstatus, hqueue, hactive, hpainted, hmessages⟩ := lobby_painted
  obtain ⟨lost, m₀, m', hdoes, hprocessed, hloses, hconf, hcontext⟩ :=
    lost_of_painted (sound_of_active hcourse hactive) hpainted hserves hstatus hqueue
  have hafter : .active ∈ m'.configuration := hconf ▸ hactive
  obtain ⟨newer, e, older, stored, hlog, hinit, hsince, hall⟩ :=
    messages_of_active (hcourse.next hdoes) hafter
  -- the widget has been set up before the message was lost
  have hmem : lost ∈ newer := by
    cases newer with
    | nil =>
      obtain ⟨rfl, -⟩ := List.cons.inj hlog
      exact absurd hinit (not_initializes_of_active hcourse hdoes hactive)
    | cons _ newer => exact (List.cons.inj hlog).1 ▸ List.mem_cons_self
  refine ⟨newer, e, older, stored, m', hlog ▸ hcourse.next hdoes, hafter, hinit, hsince,
    hcontext ▸ hmessages, fun h => ?_⟩
  rw [hall, List.append_cancel_left_eq, gathered_eq_iff] at h
  exact Bool.noConfusion (hloses.symm.trans (h lost hmem _ _ hprocessed))

end Statechart.Chat
