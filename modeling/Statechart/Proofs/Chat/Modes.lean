import Statechart.Proofs.Listeners
import Statechart.Proofs.Pending
import Statechart.Proofs.Chat.Moves

/-!
# What the display mode keeps a chat widget from

A mode bars states (`Mode.barred`): as text only the widget has no attachments and no recordings, and
normally no attachments that are disabled. The configuration of a widget, its mode included, never
changes (`frame_of_goes`), so that the guards of the chart come out the same all along. What they do
not guard is a matter of time: attachments are opened by the second of two timers, both of which are
due at once, but the first is fired before it, and whatever it sets off cancels the second
(`InTurn`). Nor does the history of the input lead to what was never active (`Displays.records`).

A widget that is displayed as text only sends no files (`SendsNoFile`).
-/

namespace Statechart.Chat

open Machine

variable {m m' m₀ : Machine domain} {t : Selected domain} {signal : Signal domain}
  {x y : domain.State} {step : Settled domain} {e : Statechart.Event domain}
  {log : List (Statechart.Event domain)} {config : Config} {drives canInvoke : Bool}
  {texts attached : Nat → Stamp} {mode : Mode}

/-- The states that a widget never gets into in a mode. -/
def Mode.barred : Mode → List State
  | .normal => [.attachmentDisabled]
  | .textOnly => [.attachmentClosed, .attachmentOpen, .inputAudioRecordMode, .inputAudioPlayerMode]

/-! ## The configuration -/

/-- The room and the mode of a widget never change. -/
theorem frame_of_does (h : Course chart log m) (hdoes : m.Does e m') :
    Context.roomId m'.context = Context.roomId m.context ∧
      Context.mode m'.context = Context.mode m.context := by
  obtain ⟨-, hsame⟩ | ⟨m₀, signal, messages, error, -, -, -, hcontext, -⟩ :=
    context_of_moment h hdoes
  · exact ⟨congrArg Context.roomId hsame, congrArg Context.mode hsame⟩
  · obtain ⟨hroom, hmode, -⟩ := updated_frame m₀ signal m.context
    rw [hcontext]
    exact ⟨hroom, hmode⟩

theorem frame_of_goes (hcourse : Course chart log m) {newer : List (Statechart.Event domain)}
    (h : m.Goes newer m') : Context.roomId m'.context = Context.roomId m.context ∧
      Context.mode m'.context = Context.mode m.context := by
  induction h with
  | rest => exact ⟨rfl, rfl⟩
  | next hgoes hdoes ih =>
    obtain ⟨hroom, hmode⟩ := frame_of_does (course_goes hcourse hgoes) hdoes
    exact ⟨hroom.trans ih.1, hmode.trans ih.2⟩

theorem guardHolds_textOnly (h : t.transition.guard = some textOnly) :
    m.guardHolds signal t = .ok (decide (Context.mode m.context = .textOnly)) := by
  rw [guardHolds, h]
  rfl

theorem guardHolds_audioAllowed (h : t.transition.guard = some audioAllowed) :
    m.guardHolds signal t = .ok (decide (Context.mode m.context ≠ .textOnly)) := by
  rw [guardHolds, h]
  rfl

/-! ## Transitions -/

/-- How the transitions lead to what a mode bars. -/
@[mk_iff]
structure LeadsTo (s : domain.State) (tr : Transition domain) : Prop where
  disabled : tr.target = some .attachmentDisabled → s = .attachmentInit ∧ tr.guard.isSome
  closed : tr.target = some .attachmentClosed →
    s = .attachmentOpen ∨ (s = .attachmentInit ∧ tr.delay?.isSome)
  opened : tr.target = some .attachmentOpen → s = .attachmentClosed
  recording : tr.target = some .inputAudioRecordMode → tr.trigger = .event "START_RECORDING"
  playing : tr.target = some .inputAudioPlayerMode →
    s = .inputAudioRecordMode ∨ s = .inputAudioPlayerMode

theorem leadsTo_of_declared (h : Declared chart t) : LeadsTo t.source t.transition := by
  refine of_declared ?_ h
  simp only [leadsTo_iff]
  decide

/-- What the guards ask for that the mode decides. -/
@[mk_iff]
structure AsksMode (s : domain.State) (tr : Transition domain) : Prop where
  attachments : s = .attachmentInit → tr.guard.isSome → tr.guard = some textOnly
  recording : tr.trigger = .event "START_RECORDING" → tr.guard = some audioAllowed

theorem asksMode_of_declared (h : Declared chart t) : AsksMode t.source t.transition := by
  refine of_declared ?_ h
  rw [chart.nodes_eq]
  simp [asksMode_iff, chart, tree, regions, attachmentRegion, inputRegion, messageListRegion,
    debounced, dragRegion, alertRegion, compound, leaf, final, on, after, StateTree.entries,
    StateTree.allEntries]

theorem isWithin_of_barred (h : x ∈ mode.barred) : chart.isWithin x .active := by
  have hall : ∀ mode ∈ [Mode.normal, .textOnly], ∀ s ∈ mode.barred, chart.isWithin s .active := by
    decide
  exact hall mode (by cases mode <;> decide) x h

theorem isAside_of_barred (h : x ∈ mode.barred) : chart.isAside x := by
  have hall : ∀ mode ∈ [Mode.normal, .textOnly], mode.barred.all fun s => chart.isAside s := by
    decide
  exact List.all_eq_true.mp (hall mode (by cases mode <;> decide)) x h

/-- There is nothing below a state that is barred. -/
theorem eq_of_within_barred (h : x ∈ mode.barred) (hy : chart.isWithin y x) : y = x := by
  have hall : ∀ mode ∈ [Mode.normal, .textOnly], ∀ s ∈ mode.barred, ∀ y ∈ State.all,
      chart.isWithin y s → y = s := by
    decide
  exact hall mode (by cases mode <;> decide) x h y (by cases y <;> decide) hy

theorem cases_of_textOnly (h : x ∈ Mode.textOnly.barred) : x = .attachmentClosed ∨
    x = .attachmentOpen ∨ x = .inputAudioRecordMode ∨ x = .inputAudioPlayerMode := by
  have hall : ∀ s ∈ Mode.textOnly.barred, s = .attachmentClosed ∨ s = .attachmentOpen ∨
      s = .inputAudioRecordMode ∨ s = .inputAudioPlayerMode := by
    decide
  exact hall x h

/-! ## The history of the input -/

/-- The history of the input stands for what is on record, or for typing. -/
theorem recorded_of_standsFor {h : History domain.State} (hb : chart.BoundedHistory h)
    (hy : chart.StandsFor h .inputHistory y) :
    y = .inputTypeMode ∨ ∃ l, h.get? .inputHistory = some l ∧ y ∈ l := by
  obtain ⟨n, hn, hk, hfallbacks⟩ : ∃ n, chart.node? .inputHistory = some n ∧ n.kind.isHistory ∧
      chart.fallbacks n = [.inputTypeMode] := ⟨_, rfl, rfl, rfl⟩
  obtain ⟨s, hs, hsy⟩ := (Chart.standsFor_history_iff hn hk).mp hy
  have hplain : ¬ chart.isHistory s → y = s :=
    fun h => (Chart.standsFor_plain_iff (contains_chart s) h).mp hsy
  cases hl : h.get? .inputHistory with
  | none =>
    rw [Chart.restored_of_none hn hl, hfallbacks] at hs
    obtain rfl := List.mem_singleton.mp hs
    exact Or.inl (hplain (by decide))
  | some l =>
    rw [Chart.restored_of_record hn hl] at hs
    have hbelow := hb .inputHistory l .inputReady hl (by decide) s hs
    exact Or.inr ⟨l, rfl, hplain hbelow.2 ▸ hs⟩

/-! ## Two timers at once -/

/-- Whether a state has two timers that are due at once, the first of which makes the widget leave
it for another one, if a guard holds. -/
structure Rushes (x g : domain.State) (guard : Guard domain) : Prop where
  timers : ∃ n first second, chart.node? x = some n ∧ n.delayed = [first, second] ∧
    first.target = some g ∧ first.guard = some guard ∧ first.delay? = some .zero ∧
    second.delay? = some .zero
  crosses : ∀ n ∈ chart.nodes, ∀ tr ∈ n.transitions, n.id = x → tr.target = some g →
    chart.crosses ⟨n.id, 0, tr⟩ x
  plain : ¬ chart.isHistory g

theorem rushes_attachmentInit : Rushes .attachmentInit .attachmentDisabled textOnly :=
  ⟨⟨_, _, _, rfl, rfl, rfl, rfl, rfl, rfl⟩, by decide, by decide⟩

section

variable {g : domain.State} {guard : Guard domain} (hrushes : Rushes x g guard)

include hrushes

/-- As long as the guard holds, the second timer waits for the first one. -/
theorem inTurn_of_rushes (hcourse : Course chart log m) (hdoes : m.Does e m')
    (hholds : ∀ (m₀ : Machine domain) signal t, m₀.context = m.context →
      t.transition.guard = some guard → m₀.guardHolds signal t = .ok true)
    (hbefore : InTurn x m.timers) : InTurn x m'.timers := by
  obtain ⟨n, first, second, hn, hd, htarget, hguard, hfirst, hsecond⟩ := hrushes.timers
  have hdecl : Declared chart ⟨x, 0, first⟩ :=
    ⟨n, hn, (List.mem_filter.mp (hd ▸ List.mem_cons_self ..)).1⟩
  have hshortest : FirstIsShortest n := by
    intro tr htr tr' htr'
    rw [hd] at htr htr'
    obtain rfl := Option.some.inj htr
    rcases List.mem_pair.mp htr' with rfl | rfl
    · exact Nat.le_refl _
    · rw [hfirst, hsecond]
      exact Nat.le_refl _
  exact inTurn_of_does root_chart historyFromOutside_chart hcourse hdoes hn hshortest
    (by rw [hd]; rfl) htarget hrushes.plain (of_declared (P := fun s tr => s = x →
      tr.target = some g → chart.crosses ⟨s, 0, tr⟩ x) hrushes.crosses hdecl rfl htarget)
    (fun m₀ delay hcontext => hholds m₀ _ _ hcontext hguard) hbefore

/-- Then it never gets its turn. -/
theorem target_of_rushes {later : List (Work domain)} (hcourse : Course chart log m)
    (hturns : InTurn x m.timers) (hm : Sound m₀) (hturn : m.nextTurn = .process m₀ signal later)
    (ht : t ∈ m₀.takes signal) (hs : t.source = x) (hdelay : t.transition.delay?.isSome) :
    t.transition.target = some g := by
  obtain ⟨-, hanswers, -⟩ := active_of_takes hm ht
  obtain ⟨i, delay, rfl⟩ := timer_of_answers hanswers hdelay
  rw [hs] at hturn ht
  obtain rfl := first_of_turn hcourse hturns hturn
  obtain ⟨n, first, second, hn, hd, htarget, -⟩ := hrushes.timers
  obtain ⟨-, -, -, hget, -⟩ := (mem_takes_timer (hm.clean.chart ▸ hn)).mp ht
  rw [hd] at hget
  exact Option.some.inj hget ▸ htarget

end

/-- As text only, the timer that closes the attachments waits for the one that disables them. -/
theorem inTurn_of_textOnly (hcourse : Course chart log m) (hdoes : m.Does e m')
    (hmode : Context.mode m.context = .textOnly) (hbefore : InTurn .attachmentInit m.timers) :
    InTurn .attachmentInit m'.timers := by
  refine inTurn_of_rushes rushes_attachmentInit hcourse hdoes (fun m₀ signal t hcontext hguard => ?_)
    hbefore
  rw [guardHolds_textOnly hguard, hcontext, hmode]
  rfl

/-- Then the attachments are not closed. -/
theorem closed_of_turn {later : List (Work domain)} (hcourse : Course chart log m)
    (hturns : InTurn .attachmentInit m.timers) (hm : Sound m₀)
    (hturn : m.nextTurn = .process m₀ signal later) (ht : t ∈ m₀.takes signal)
    (hs : t.source = .attachmentInit) : t.transition.target ≠ some .attachmentClosed := by
  intro htarget
  obtain ⟨-, hdelay⟩ := ((leadsTo_of_declared (active_of_takes hm ht).1).closed htarget).resolve_left
    fun h => State.noConfusion (hs.symm.trans h)
  rw [target_of_rushes rushes_attachmentInit hcourse hturns hm hturn ht hs hdelay] at htarget
  exact State.noConfusion (Option.some.inj htarget)

section

variable (hm : Sound m₀) (hmode : Context.mode m₀.context = mode) (hx : step.Exchanges chart m₀)
  (hstates : ∀ x ∈ mode.barred, x ∉ m₀.configuration)
  (hrecords : ∀ l, m₀.history.get? .inputHistory = some l → ∀ x ∈ mode.barred, x ∉ l)
  (hclosed : mode = .textOnly → ∀ t ∈ m₀.takes step.signal, t.source = .attachmentInit →
    t.transition.target ≠ some .attachmentClosed)

include hm hmode hx hstates hrecords hclosed

/-- No step enters what the mode bars. -/
theorem not_entered_of_barred (hbarred : x ∈ mode.barred) : x ∉ step.entered := by
  intro hentered
  obtain ⟨t, ht, -, g, hg, hgoal⟩ := goal_of_enters hx (isAside_of_barred hbarred) hentered
  obtain ⟨hdecl, -, hsource⟩ := active_of_takes hm ht
  have hleads := leadsTo_of_declared hdecl
  have hholds := holds_of_takes ht
  -- what is barred is the goal of the transition, or remembered by the history state that is
  rcases hgoal with hwithin | ⟨-, y, hy, -, hyx⟩
  · obtain rfl := eq_of_within_barred hbarred hwithin
    cases mode with
    | normal =>
      obtain rfl := List.mem_singleton.mp hbarred
      obtain ⟨hs, hguard⟩ := hleads.disabled hg
      rw [guardHolds_textOnly ((asksMode_of_declared hdecl).attachments hs hguard), hmode] at hholds
      exact absurd hholds (by simp)
    | textOnly =>
      -- each of the four is led to from another one that is barred, or past a guard
      rcases cases_of_textOnly hbarred with rfl | rfl | rfl | rfl
      · rcases hleads.closed hg with hs | ⟨hs, -⟩
        · exact hstates .attachmentOpen (by decide) (hs ▸ hsource)
        · exact hclosed rfl t ht hs hg
      · exact hstates .attachmentClosed (by decide) (hleads.opened hg ▸ hsource)
      · rw [guardHolds_audioAllowed ((asksMode_of_declared hdecl).recording (hleads.recording hg)),
          hmode] at hholds
        exact absurd hholds (by simp)
      · rcases hleads.playing hg with hs | hs
        · exact hstates .inputAudioRecordMode (by decide) (hs ▸ hsource)
        · exact hstates .inputAudioPlayerMode (by decide) (hs ▸ hsource)
  · obtain rfl := eq_of_within_barred hbarred hyx
    rcases recorded_of_standsFor hx.bounded hy with rfl | ⟨l, hl, hyl⟩
    · cases mode <;> exact absurd hbarred (by decide)
    · rcases hx.recorded _ _ hl with hold | hactive
      · exact hrecords l hold y hbarred hyl
      · exact hstates y hbarred (hactive y hyl)

end

/-! ## States -/

/-- What a mode keeps a widget from, as long as it lives. -/
structure Displays (mode : Mode) (m : Machine domain) : Prop where
  context : Context.mode m.context = mode
  states : ∀ x ∈ mode.barred, x ∉ m.configuration
  /-- What the history of the input brings back has been active. -/
  records : ∀ l, m.history.get? .inputHistory = some l → ∀ x ∈ mode.barred, x ∉ l
  inTurn : mode = .textOnly → InTurn .attachmentInit m.timers

section

variable (hcourse : Course chart log m) (hbefore : Displays mode m) (hdoes : m.Does e m')

include hcourse hbefore hdoes

theorem displays_of_rests (h : m.Rests e m') : Displays mode m' where
  context := h.context ▸ hbefore.context
  states := by
    rw [h.configuration]
    exact hbefore.states
  records := by
    rw [h.history]
    exact hbefore.records
  inTurn := fun hmode => inTurn_of_textOnly hcourse hdoes (hbefore.context.trans hmode)
    (hbefore.inTurn hmode)

theorem displays_of_steps (h : m.Steps e m₀ step m') : Displays mode m' := by
  obtain ⟨hm₀, hstage, later, hturn⟩ := sound_of_processed hcourse hdoes h.processed
  have hx := exchanges_of_course hcourse hdoes h
  have hstates : ∀ x ∈ mode.barred, x ∉ m₀.configuration := hstage.configuration ▸ hbefore.states
  have hrecords : ∀ l, m₀.history.get? .inputHistory = some l → ∀ x ∈ mode.barred, x ∉ l :=
    hstage.history ▸ hbefore.records
  have hentered : ∀ x ∈ mode.barred, x ∉ step.entered := fun x =>
    not_entered_of_barred hm₀ (hstage.context ▸ hbefore.context) hx hstates hrecords
      (fun hmode t => closed_of_turn hcourse (hbefore.inTurn hmode) hm₀ hturn)
  constructor
  case context => exact (frame_of_does hcourse hdoes).2.trans hbefore.context
  case states =>
    rw [h.configuration]
    intro x hx' hactive
    exact ((hx.after x).mp hactive).elim (fun h => hstates x hx' h.1) (hentered x hx')
  case records =>
    rw [h.history, hx.history]
    intro l hl x hx' hmem
    rcases hx.recorded _ l hl with hold | hactive
    · exact hrecords l hold x hx' hmem
    · exact hstates x hx' (hactive x hmem)
  case inTurn =>
    exact fun hmode => inTurn_of_textOnly hcourse hdoes (hbefore.context.trans hmode)
      (hbefore.inTurn hmode)

end

theorem displays_ofConfig :
    Displays config.mode (Session.ofConfig config drives canInvoke texts attached).machine := by
  have hnone :
      (Session.ofConfig config drives canInvoke texts attached).machine.history.get? .inputHistory =
      none := rfl
  refine ⟨rfl, fun _ _ => List.not_mem_nil, fun l hl => ?_, fun _ t ht => ?_⟩
  · exact absurd (hnone.symm.trans hl) (by simp)
  · exact absurd ht List.not_mem_nil

/-- As long as it lives, its mode keeps a widget from what it bars. -/
theorem displays_of_goes
    (h : (Session.ofConfig config drives canInvoke texts attached).machine.Goes log m)
    (hup : ¬ m.Ended) : Displays config.mode m :=
  live_of_goes (P := fun _ m => Displays config.mode m)
    (course_ofConfig config drives canInvoke texts attached)
    displays_ofConfig (fun hcourse hbefore hdoes h => displays_of_rests hcourse hbefore hdoes h)
    (fun hcourse hbefore hdoes _ h => displays_of_steps hcourse hbefore hdoes h) h hup

/-! ## Files -/

/-- The file that a message is, if it is one. -/
def Message.fileName? (message : Message) : Option String :=
  match message.body with
  | .attachment fileName => some fileName
  | .text _ => none

/-- The files in the rooms of a registry. -/
def Registry.files (r : Registry) : List String :=
  r.rooms.flatMap fun room => room.2.filterMap Message.fileName?

/-- The files in the rooms of the registry that a machine has. -/
def files (m : Machine domain) : List String := (Host.registry m.shell.host).files

theorem files_send {r r' : Registry} {room : String} {message : Message}
    (h : r.send room message = .ok r') (hmessage : message.fileName? = none) :
    r'.files = r.files := by
  unfold Registry.send Registry.online at h
  split at h
  · exact absurd h (by simp [bind, Except.bind])
  · dsimp only [bind, Except.bind] at h
    split at h
    · obtain rfl := Except.ok.inj h
      unfold Registry.files
      rw [List.flatMap_map]
      congr 1
      funext entry
      split
      · simp [List.filterMap_append, hmessage]
      · rfl
    · exact absurd h (by simp [throw, throwThe, MonadExceptOf.throw])

theorem files_persist {h : Host} {room : String} {message : Message}
    (hmessage : message.fileName? = none) : (persist h room message).registry.files =
      h.registry.files := by
  unfold persist
  split
  · next hsent => exact files_send hsent hmessage
  · rfl

theorem files_createRoom {r r' : Registry} {room : String} (h : r.createRoom room = .ok r') :
    r'.files = r.files := by
  unfold Registry.createRoom Registry.online at h
  split at h
  · exact absurd h (by simp [bind, Except.bind])
  · dsimp only [bind, Except.bind, pure, Except.pure] at h
    obtain rfl := Except.ok.inj h
    split
    · rfl
    · simp [Registry.files]

theorem files_removeRoom (r : Registry) (room : String) :
    (r.removeRoom room).files.Sublist r.files := List.filter_sublist.flatMap _

/-! ## What the actions do -/

theorem assigned_appendSent {text : String} (h : Text.allBlank text = false) (context : Context) :
    Action.assigned (D := domain) (.event (Event.sendMessage text)) context appendSent =
      { context with messages := context.messages ++ [context.write text] } := by
  have htext : (Event.sendMessage text).text? = some text := by simp [Event.text?, h]
  change List.foldl Patch.apply context ((Event.sendMessage text).text?.map fun text =>
    Patch.append (context.write text)).toList = _
  rw [htext]
  rfl

section

variable {signal : Signal domain} {context : Context} {host : Host} {room : String}

theorem changed_persistLastMessage {messages : List Message} {message : Message}
    (hroom : context.room? = some room) :
    persistLastMessage.changed signal { context with messages := messages ++ [message] } host =
      persist host room message := by
  let sent : Context := { context with messages := messages ++ [message] }
  have hroom' : sent.room? = some room := hroom
  have hlast : sent.messages.getLast? = some message := List.getLast?_concat
  change persistLastMessage.changed signal sent host = _
  simp only [Action.changed, persistLastMessage, Action.effect, List.foldl, Command.changed,
    hroom', hlast]
  rfl

theorem changed_persistLastMessage_of_none (hroom : context.room? = none) :
    persistLastMessage.changed signal context host = host := by
  simp only [Action.changed, persistLastMessage, Action.effect, List.foldl, Command.changed, hroom]
  rfl

theorem changed_deregisterRoom (hroom : context.room? = some room) :
    deregisterRoom.changed signal context host =
      { host with registry := host.registry.removeRoom room } := by
  simp only [Action.changed, deregisterRoom, Action.effect, List.foldl, Command.changed, hroom]
  rfl

theorem changed_deregisterRoom_of_none (hroom : context.room? = none) :
    deregisterRoom.changed signal context host = host := by
  simp only [Action.changed, deregisterRoom, Action.effect, List.foldl, Command.changed, hroom]
  rfl

end

/-- Sending a text sends no file. -/
theorem files_of_sent {text : String} (h : Text.allBlank text = false)
    (world : Context × Host) : (Action.carriedAll (D := domain) (.event (Event.sendMessage text))
      [appendSent, persistLastMessage] world).2.registry.files = world.2.registry.files := by
  obtain ⟨context, host⟩ := world
  let signal : Signal domain := .event (Event.sendMessage text)
  change (persistLastMessage.changed signal (appendSent.assigned signal context)
    host).registry.files = _
  rw [assigned_appendSent h]
  cases hroom : context.room? with
  | none =>
    rw [changed_persistLastMessage_of_none]
    exact hroom
  | some room =>
    rw [changed_persistLastMessage hroom]
    exact files_persist rfl

/-- Files are sent from where the attachments are open. -/
theorem source_of_sendAttachment (h : Declared chart t)
    (htrigger : t.transition.trigger = .event "SEND_ATTACHMENT") : t.source = .attachmentOpen := by
  revert htrigger
  refine of_declared (P := fun s tr => tr.trigger = .event "SEND_ATTACHMENT" →
    s = .attachmentOpen) ?_ h
  decide

section

variable (hm : Sound m₀) (hopen : .attachmentOpen ∉ m₀.configuration)

include hm hopen

theorem takes_sendAttachment (fileName : String) :
    m₀.takes (.event (Event.sendAttachment fileName)) = [] := by
  refine List.eq_nil_iff_forall_not_mem.mpr fun t ht => ?_
  obtain ⟨hdecl, hanswers, hsource⟩ := active_of_takes hm ht
  exact hopen (source_of_sendAttachment hdecl hanswers ▸ hsource)

/-- Nothing that is done on a signal sends a file. -/
theorem files_of_signal (signal : Signal domain) (world : Context × Host) :
    (Action.carriedAll signal (m₀.actionsOn signal) world).2.registry.files =
      world.2.registry.files := by
  cases signal with
  | start | stop | timer | invokeDone | invokeError | done =>
    rw [host_of_internal hm rfl]
  | event event =>
    -- only a text to be sent may set off two transitions at once
    by_cases hne : domain.eventName event = "SEND_MESSAGE"
    · cases event with
      | sendMessage text =>
        rw [actionsOn_sent hm]
        split
        · next hsent => exact files_of_sent (by simpa using ((Bool.and_eq_true ..).mp hsent).2) world
        · rfl
      | _ => exact absurd hne (by simp [domain, Event.name])
    · rcases takes_event_cases hm hne with ⟨htakes, -⟩ | ⟨t, htakes⟩
      · rw [actionsOn, htakes]
        rfl
      · obtain ⟨hdecl, hanswers, -⟩ := active_of_takes hm (htakes ▸ List.mem_singleton_self t)
        rw [actionsOn, htakes, List.flatMap_singleton,
          (actsFor_of_declared hdecl).event _ hanswers hne]
        cases event with
        | sendMessage => exact absurd rfl hne
        | sendAttachment fileName =>
          exact absurd htakes (by simp [takes_sendAttachment hm hopen fileName])
        | _ => rfl

end

/-- As it is left, a state at most removes the room. -/
theorem exit_chart {n : Node domain} (hn : n ∈ chart.nodes) :
    n.exit = [] ∨ n.exit = [deregisterRoom] := by
  by_cases hroot : n.id = chart.root
  · obtain ⟨n', hn', hexit⟩ : ∃ n', chart.node? chart.root = some n' ∧
        n'.exit = [deregisterRoom] := ⟨_, rfl, rfl⟩
    obtain rfl := Option.some.inj (hn'.symm.trans (chart.node?_eq_some.mpr ⟨hn, hroot⟩))
    exact Or.inr hexit
  · exact Or.inl (mild_chart.exit n hn hroot)

/-- What a machine calls out to. -/
def host (m : Machine domain) : Host := m.shell.host

/-- Leaving states on the way to the end at most removes the room. -/
theorem host_of_abandons {R : Host → Host → Prop} (hrefl : ∀ h, R h h)
    (htrans : ∀ {h h' h''}, R h h' → R h' h'' → R h h'')
    (hremove : ∀ (h : Host) room, R h { h with registry := h.registry.removeRoom room })
    {l : List domain.State} (hchart : m.chart = chart) (h : m.Abandons l m') :
    R (host m) (host m') := by
  induction h with
  | rest => exact hrefl _
  | @next m m₁ m' s n l hn hrun _ ih =>
    -- a state runs no action as it is left, or takes the room out of the registry
    have hexit := exit_chart (chart.node?_eq_some.mp (hchart ▸ hn)).1
    have hmild : ∀ a ∈ n.exit, a.Mild := by
      rcases hexit with h | h <;> rw [h]
      · exact fun a ha => absurd ha List.not_mem_nil
      · exact fun a ha => List.mem_singleton.mp ha ▸ Action.mild_effect
    obtain rfl := Except.ok.inj ((runActions_mild hmild).symm.trans hrun)
    refine htrans ?_ (ih hchart)
    rcases hexit with h | h
    · rw [h]
      exact hrefl _
    · rw [h]
      change R (host m) (deregisterRoom.changed .stop m.context (host m))
      cases hroom : Context.room? m.context with
      | none =>
        rw [changed_deregisterRoom_of_none hroom]
        exact hrefl _
      | some room =>
        rw [changed_deregisterRoom hroom]
        exact hremove _ room

/-- What is launched creates the room, if anything. -/
theorem host_of_started {l : Launch domain} {context : Context} (h : Started chart context l)
    {run : Host → Host × Except InvokeError (List Message)} (hrun : l.operation = .run run)
    (host : Host) : (run host).1 = host ∨ ∃ room registry,
      host.registry.createRoom room = .ok registry ∧ (run host).1 = { host with registry } := by
  obtain ⟨n, hn, invocation, hinvocation, hstart⟩ := h
  have hinvokes : chart.Invokes n.id :=
    ⟨n, chart.node?_eq_some.mpr ⟨hn, rfl⟩, by simp [hinvocation]⟩
  obtain ⟨n', hn', hinit⟩ : ∃ n', chart.node? .initializing = some n' ∧
      n'.invocation = some initRoom := ⟨_, rfl, rfl⟩
  obtain rfl := Option.some.inj
    (hn'.symm.trans (chart.node?_eq_some.mpr ⟨hn, eq_of_invokes hinvokes⟩))
  obtain rfl := Option.some.inj (hinit.symm.trans hinvocation)
  rw [hrun] at hstart
  obtain rfl := Operation.run.inj (Except.ok.inj hstart)
  dsimp only
  split
  · exact Or.inl rfl
  · split
    · exact Or.inl rfl
    · next hcreated => exact Or.inr ⟨_, _, hcreated, rfl⟩

/-- A machine as it would be with another host. -/
def withHost (m : Machine domain) (host : Host) : Machine domain :=
  { m with shell := { m.shell with host } }

/-- Whether what a widget does at a moment sends no file to a room. The request to send one is not
taken up, and neither what is done on a signal nor what is launched then puts a file into the registry,
whatever comes of the signal and whatever the registry is like; and as little does the end of the
widget. -/
structure SendsNoFile (e : Statechart.Event domain) : Prop where
  untaken : ∀ m₀ fileName, e.processed = some (m₀, .event (Event.sendAttachment fileName)) →
    m₀.takes (.event (Event.sendAttachment fileName)) = []
  processing : ∀ m₀ signal, e.processed = some (m₀, signal) → ∀ host : Host,
    ((withHost m₀ host).process signal).Ends
      (fun p => files p.machine = host.registry.files ∧ ∀ l ∈ p.launches, ∀ run,
        l.operation = .run run → ∀ host, (Host.registry (run host).1).files = host.registry.files)
      (fun m₁ _ => files m₁ = host.registry.files) True
  stopping : ∀ step, e.step = some step → step.signal = .stop →
    (files step.after).Sublist (files step.before)

theorem sendsNoFile_of_does (hcourse : Course chart log m)
    (hopen : .attachmentOpen ∉ m.configuration) (hdoes : m.Does e m') : SendsNoFile e := by
  constructor
  case untaken =>
    intro m₀ fileName hprocessed
    obtain ⟨hm₀, hstage, -⟩ := sound_of_processed hcourse hdoes hprocessed
    exact takes_sendAttachment hm₀ (hstage.configuration ▸ hopen) fileName
  case processing =>
    intro m₀ signal hprocessed host
    obtain ⟨⟨hclean, hwhole⟩, hstage, -⟩ := sound_of_processed hcourse hdoes hprocessed
    -- the widget is as sound with another host
    have hhosted : Sound (withHost m₀ host) :=
      ⟨⟨hclean.chart, hclean.contains, hclean.plain, hclean.history⟩, hwhole⟩
    have hclosed : .attachmentOpen ∉ (withHost m₀ host).configuration := hstage.configuration ▸ hopen
    have hsame : ∀ m₁ : Machine domain, ((withHost m₀ host).carry signal
        ((withHost m₀ host).actionsOn signal)).SameWorld m₁ → files m₁ = host.registry.files := by
      rintro m₁ ⟨-, hshell⟩
      rw [files, hshell]
      exact files_of_signal hhosted hclosed signal (m₀.context, host)
    refine Attempt.ends_mono (process_underway mild_chart calm_chart hhosted.clean)
      (fun p hp => ⟨hsame _ hp.world, fun l hl run hrun host => ?_⟩) (fun m₁ _ h => hsame m₁ h) id
    rcases host_of_started (hp.started l hl) hrun host with h | ⟨room, registry, hcreated, h⟩
    · rw [h]
    · rw [h]
      exact files_createRoom hcreated
  case stopping =>
    intro step hstep hsignal
    cases hdoes with
    | call | result | discard | idle | pass | fault | faultStopping | outside =>
      exact absurd hstep (by simp)
    | turn _ _ hsettles | turnPanicked _ _ hsettles =>
      obtain rfl := Option.some.inj hstep
      exact absurd hsignal (signal_of_settles hsettles)
    | stop _ _ hdown _ =>
      obtain rfl := Option.some.inj hstep
      obtain ⟨left, habandons, rfl⟩ := settled_of_teardown hdown
      have hleft := host_of_abandons (m := m.cleared)
        (R := fun h h' => h'.registry.files.Sublist h.registry.files)
        (fun _ => List.Sublist.refl _) (fun h h' => h'.trans h) (fun h => files_removeRoom h.registry)
        (clean_of_run (run_of_course hcourse)).chart habandons
      exact hleft

/-- What becomes of a widget: it keeps the configuration that it was given, never gets into what its
mode bars, and as text only never sends a file. -/
structure Displayed (config : Config) (log : List (Statechart.Event domain)) (m : Machine domain) :
    Prop where
  roomId : Context.roomId m.context = config.roomId
  mode : Context.mode m.context = config.mode
  barred : ∀ x ∈ config.mode.barred, x ∉ m.configuration
  sends : config.mode = .textOnly → ∀ e ∈ log, SendsNoFile e

/-- In every run of a session its mode keeps the widget from what it bars, also beyond its end. -/
theorem displayed_of_goes
    (h : (Session.ofConfig config drives canInvoke texts attached).machine.Goes log m) :
    Displayed config log m := by
  have hcourse := course_ofConfig config drives canInvoke texts attached
  have hnever : ∀ {log m}, (Session.ofConfig config drives canInvoke texts attached).machine.Goes log m →
      ∀ x ∈ config.mode.barred, x ∉ m.configuration := by
    intro log m h x hx hactive
    have hup := not_ended_of_within (course_goes hcourse h) (isWithin_of_barred hx)
      hactive
    exact (displays_of_goes h hup).states x hx hactive
  obtain ⟨hroom, hmode⟩ := frame_of_goes hcourse h
  refine ⟨hroom, hmode, hnever h, fun htext => ?_⟩
  clear hroom hmode
  induction h with
  | rest => exact fun e he => absurd he List.not_mem_nil
  | next hgoes hdoes ih =>
    intro e he
    rcases List.mem_cons.mp he with rfl | he
    · exact sendsNoFile_of_does (course_goes hcourse hgoes)
        (hnever hgoes .attachmentOpen (by rw [htext]; decide)) hdoes
    · exact ih e he

/-! ## A library -/

/-- How a widget is displayed where nobody is to be disturbed. -/
def silence : Config := { roomId := some "library", mode := .textOnly }

def library : Machine domain := (Session.ofConfig silence false true default default).machine

/-- The library, set up. -/
def openLibrary? : Option (Machine domain) :=
  ((library.after 9 [.start, .tick]).deliver 9 .initializing 0 (.ok [])).map (·.after 9 [.tick])

theorem openLibrary_open : openLibrary?.map (fun m => (m.status, m.configuration.elems.filter
    (chart.isDescendant · .attachment))) = some (.running, [.attachmentDisabled]) := by
  cbv

/-- In the library there are no files. -/
theorem library_displayed : ∃ log m, library.Goes log m ∧ m.status = .running ∧
    .attachmentDisabled ∈ m.configuration ∧ Displayed silence log m := by
  obtain ⟨m, hm, hopen⟩ := Option.map_eq_some_iff.mp openLibrary_open
  obtain ⟨m₁, hdeliver, rfl⟩ := Option.map_eq_some_iff.mp hm
  obtain ⟨log₀, hstarted⟩ := goes_after library 9 [.start, .tick]
  obtain ⟨log₁, hloaded⟩ := goes_deliver hstarted hdeliver
  obtain ⟨log₂, hopened⟩ := goes_after m₁ 9 [.tick]
  have hgoes := goes_trans hloaded hopened
  obtain ⟨hstatus, hconf⟩ := Prod.mk.inj hopen
  have hactive : .attachmentDisabled ∈ (m₁.after 9 [.tick]).configuration :=
    (List.mem_filter.mp (hconf ▸ List.mem_singleton_self _)).1
  exact ⟨_, _, hgoes, hstatus, hactive, displayed_of_goes hgoes⟩

end Statechart.Chat
