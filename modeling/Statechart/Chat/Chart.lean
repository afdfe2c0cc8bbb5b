import Statechart.Chart
import Statechart.Chat.State
import Statechart.Chat.Event
import Statechart.Chat.Registry

/-!
# The chart of the chat widget

The widget first looks whether it was given a room, then creates the room and loads
its messages; either may fail, which ends the widget. From then on eight regions run
side by side: attachments (closed or open, or disabled in the text-only mode), input
(typing, recording, playing back; blocked while the page loads), the message list
(idle, or painting bubbles and scroll position at once), three that follow scrolling
and resizing, the drag of a pointer, and an alert.

Four of the busy states are left after a time without further events of their kind:
every such event enters the state anew and starts its timer over.
-/

namespace Statechart.Chat

/-- The types of the chat widget. -/
def domain : Domain where
  State := State
  Event := Event
  Context := Context
  Patch := Patch
  Output := List Message
  Host := Host
  decEqState := inferInstance
  stateName := State.name
  eventName := Event.name
  apply p c := p.apply c

/-- How long scrolling has to rest. -/
def scrollSettle : Duration := .ofMillis 300

/-- How long the size of the input field has to rest. -/
def inputResizeSettle : Duration := .ofMillis 150

/-- How long the size of the application has to rest. -/
def appResizeSettle : Duration := .ofMillis 500

/-- How long a dragged pointer has to rest. -/
def dragMoveSettle : Duration := .ofMillis 10

/-! ## Guards -/

/-- There is no room to join. -/
def roomMissing : Guard domain :=
  .ofContext "room id missing" fun (c : Context) => .ok c.room?.isNone

/-- The widget is displayed as text only. -/
def textOnly : Guard domain :=
  .ofContext "text-only mode" fun (c : Context) => .ok (c.mode = .textOnly)

/-- The widget is displayed with sound. -/
def audioAllowed : Guard domain :=
  .ofContext "audio allowed" fun (c : Context) => .ok (c.mode ≠ .textOnly)

/-- There is text to be sent. -/
def hasText : Guard domain :=
  .ofEvent "message has text" fun (e : Event) => .ok e.text?.isSome

/-! ## Actions -/

/-- An assignment of what the external event says. -/
def assignEvent (name : String) (patches : Context → Event → List Patch) : Action domain :=
  .assignMany name fun (c : Context) signal =>
    match signal.event? with
    | some (e : Event) => patches c e
    | none => []

/-- Creates the room and loads its messages. -/
def initRoom : Invocation domain where
  name := "init room"
  start := fun (c : Context) => .ok <| .run fun (h : Host) =>
    match c.room? with
    | none => (h, .error { message := "Missing room id" })
    | some room =>
      match h.registry.createRoom room with
      | .error e => (h, .error e.toInvokeError)
      | .ok registry =>
        ({ h with registry }, (registry.messages room).mapError RegistryError.toInvokeError)

/-- Stores the messages that were loaded. -/
def storeMessages : Action domain :=
  .assign "store messages" fun _ signal => .messages (signal.output?.getD [])

/-- Stores why the room could not be set up. -/
def recordInitError : Action domain :=
  .assign "record init error" fun _ signal =>
    .error (signal.error?.elim "Initialization failed" (·.message))

/-- Stores that there is no room to join. -/
def failMissingRoom : Action domain :=
  .assign "missing room error" fun _ _ => .error "Missing room id"

/-- Removes the room. -/
def deregisterRoom : Action domain :=
  .effect "deregister room" fun (c : Context) _ (h : Host) =>
    match c.room? with
    | some room => { h with registry := h.registry.removeRoom room }
    | none => h

/-- Appends the text that is sent. -/
def appendSent : Action domain :=
  assignEvent "append sent message" fun c e =>
    (e.text?.map fun text => Patch.append (c.write text)).toList

/-- Appends the message that was received. -/
def appendReceived : Action domain :=
  assignEvent "append received message" fun _ e =>
    match e with
    | .messageReceived m => [.append m]
    | _ => []

/-- Sends a message to a room, and notifies the page if that fails. -/
def persist (h : Host) (room : String) (m : Message) : Host :=
  match h.registry.send room m with
  | .ok registry => { h with registry }
  | .error e => h.notify ("Message not sent: " ++ e.message)

/-- Sends the message appended last. -/
def persistLastMessage : Action domain :=
  .effect "persist message" fun (c : Context) _ (h : Host) =>
    match c.room?, c.messages.getLast? with
    | some room, some m => persist h room m
    | _, _ => h

/-- Sends a file. -/
def persistAttachment : Action domain :=
  .effect "persist attachment" fun (c : Context) signal (h : Host) =>
    match c.room?, signal.event? with
    | some room, some (Event.sendAttachment fileName) =>
      persist { h with filesSent := h.filesSent + 1 } room (h.attach fileName)
    | _, _ => h

/-- Stores how far the list is scrolled. -/
def assignScroll : Action domain :=
  assignEvent "assign scroll offset" fun _ e =>
    match e with
    | .scroll offset => [.scrollOffset offset]
    | _ => []

/-- Stores the size of the input field. -/
def assignInputSize : Action domain :=
  assignEvent "assign input size" fun _ e =>
    match e with
    | .resizeInput size => [.inputSize size]
    | _ => []

/-- Stores the size of the application. -/
def assignAppSize : Action domain :=
  assignEvent "assign app size" fun _ e =>
    match e with
    | .resizeApp size => [.appSize size]
    | _ => []

/-- A drag begins. -/
def beginDrag : Action domain :=
  assignEvent "begin drag" fun c e =>
    match e with
    | .dragStart p => [.drag (c.drag.begin p)]
    | _ => []

/-- A drag goes on. -/
def trackDrag : Action domain :=
  assignEvent "track drag" fun c e =>
    match e with
    | .dragMove p => [.drag (c.drag.track p)]
    | _ => []

/-- A drag ends. -/
def finishDrag : Action domain :=
  assignEvent "finish drag" fun c e =>
    match e with
    | .dragEnd p => [.drag (c.drag.finish p)]
    | _ => []

/-- Stores the message of the alert. -/
def showAlert : Action domain :=
  assignEvent "show alert" fun _ e =>
    match e with
    | .showError message => [.alert (some message)]
    | _ => []

/-- Notifies the page of the error shown. -/
def notifyAlert : Action domain :=
  .effect "notify host" fun _ signal (h : Host) =>
    match signal.event? with
    | some (Event.showError message) => h.notify message
    | _ => h

/-- Takes the alert away. -/
def clearAlert : Action domain := .assign "clear alert" fun _ _ => .alert none

/-! ## The tree -/

/-- A transition on an event. -/
def on (event : String) (target : State) (actions : List (Action domain) := []) :
    Transition domain :=
  { trigger := .event event, target := some target, actions }

/-- A transition that waits for time to pass. -/
def after (delay : Duration) (target : State) : Transition domain :=
  { trigger := .after delay, target := some target }

/-- An atomic state. -/
def leaf (id : State) (transitions : List (Transition domain) := []) : StateTree domain :=
  .node { id, kind := .atomic, transitions } []

/-- A final state. -/
def final (id : State) : StateTree domain := .node { id, kind := .final } []

/-- A compound state. -/
def compound (id initial : State) (transitions : List (Transition domain))
    (children : List (StateTree domain)) : StateTree domain :=
  .node { id, kind := .compound initial, transitions } children

/-- Files to be sent. -/
def attachmentRegion : StateTree domain :=
  compound .attachment .attachmentInit []
    [leaf .attachmentInit
      [{ after .zero .attachmentDisabled with guard := some textOnly },
       after .zero .attachmentClosed],
     final .attachmentDisabled,
     leaf .attachmentClosed [on "OPEN_ATTACHMENT" .attachmentOpen],
     leaf .attachmentOpen
      [on "CLOSE_ATTACHMENT" .attachmentClosed,
       on "SEND_ATTACHMENT" .attachmentClosed [persistAttachment]]]

/-- Text and sound to be sent. While a recording is held, sending text changes nothing. -/
def inputRegion : StateTree domain :=
  compound .input .inputReady []
    [compound .inputReady .inputTypeMode [on "LOADING_START" .inputBlocked]
      [leaf .inputTypeMode
        [{ trigger := .event "SEND_MESSAGE", guard := some hasText,
           actions := [appendSent, persistLastMessage] },
         { on "START_RECORDING" .inputAudioRecordMode with guard := some audioAllowed }],
       leaf .inputAudioRecordMode
        [on "STOP_RECORDING" .inputAudioPlayerMode, on "CANCEL_RECORDING" .inputTypeMode],
       leaf .inputAudioPlayerMode
        [on "SEND_MESSAGE" .inputAudioPlayerMode, on "DISCARD_AUDIO" .inputTypeMode],
       .node { id := .inputHistory, kind := .history .deep } []],
     leaf .inputBlocked [on "LOADING_END" .inputHistory]]

/-- The messages shown. -/
def messageListRegion : StateTree domain :=
  compound .messageList .listIdle []
    [leaf .listIdle
      [on "MESSAGE_RECEIVED" .listPainting [appendReceived],
       { on "SEND_MESSAGE" .listPainting with guard := some hasText }],
     .node
      { id := .listPainting
        kind := .parallel
        transitions :=
          [{ trigger := .event "MESSAGE_RECEIVED", actions := [appendReceived] },
           { trigger := .done, target := some .listIdle }] }
      [compound .paintBubbles .bubblesRendering []
        [leaf .bubblesRendering [after .zero .bubblesRendered], final .bubblesRendered],
       compound .paintScroll .scrollPending []
        [leaf .scrollPending [after .zero .scrollSettled], final .scrollSettled]]]

/-- A region that becomes busy on an event, starts its timer over while such events keep coming,
and is idle again once there was none for a time. -/
def debounced (region idle busy : State) (event : String) (settle : Duration)
    (store : Action domain) : StateTree domain :=
  compound region idle []
    [leaf idle [on event busy [store]],
     leaf busy [{ on event busy [store] with reenter := true }, after settle idle]]

/-- A pointer dragged over the widget. -/
def dragRegion : StateTree domain :=
  compound .drag .dragIdle []
    [leaf .dragIdle [on "DRAG_START" .dragActive [beginDrag]],
     compound .dragActive .dragging [on "DRAG_END" .dragIdle [finishDrag]]
      [leaf .dragging [on "DRAG_MOVE" .dragMoving [trackDrag]],
       leaf .dragMoving
        [{ on "DRAG_MOVE" .dragMoving [trackDrag] with reenter := true },
         after dragMoveSettle .dragging]]]

/-- An error shown to the user. -/
def alertRegion : StateTree domain :=
  compound .alert .alertHidden []
    [leaf .alertHidden [on "SHOW_ERROR" .alertShown [showAlert, notifyAlert]],
     leaf .alertShown
      [{ trigger := .event "SHOW_ERROR", actions := [showAlert, notifyAlert] },
       on "DISMISS_ERROR" .alertHidden [clearAlert]]]

/-- The regions of a widget that is set up. -/
def regions : List (StateTree domain) :=
  [attachmentRegion, inputRegion, messageListRegion,
   debounced .scroll .scrollIdle .scrolling "SCROLL" scrollSettle assignScroll,
   debounced .inputResize .inputResizeStop .inputResizing "RESIZE_INPUT" inputResizeSettle
    assignInputSize,
   debounced .appResize .appResizeStop .appResizing "RESIZE_APP" appResizeSettle assignAppSize,
   dragRegion, alertRegion]

/-- The whole widget. -/
def tree : StateTree domain :=
  .node { id := .widget, kind := .compound .boot, exit := [deregisterRoom] }
    [leaf .boot
      [{ after .zero .failed with guard := some roomMissing, actions := [failMissingRoom] },
       after .zero .initializing],
     .node
      { id := .initializing
        kind := .atomic
        transitions :=
          [{ trigger := .invokeDone, target := some .active, actions := [storeMessages] },
           { trigger := .invokeError, target := some .failed, actions := [recordInitError] }]
        invocation := some initRoom } [],
     final .failed,
     .node { id := .active, kind := .parallel } regions]

/-- The tree has no flaws. -/
theorem flaws_tree : tree.outline.flaws = [] := by
  rw [Outline.flaws_eq_nil_iff]
  decide +kernel

/-- The chart of the widget. -/
def chart : Chart domain := { tree.outline with tree, outline_eq := rfl, flawless := flaws_tree }

end Statechart.Chat
