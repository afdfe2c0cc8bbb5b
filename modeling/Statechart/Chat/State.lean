/-!
# The states of the chat widget

One state for each thing the widget can be in the middle of. `State.all` lists them
in the document order of the widget's chart.
-/

namespace Statechart.Chat

/-- The states of the chat widget. -/
inductive State where
  | widget | boot | initializing | failed | active
  | attachment | attachmentInit | attachmentDisabled | attachmentClosed | attachmentOpen
  | input | inputReady | inputTypeMode | inputAudioRecordMode | inputAudioPlayerMode
  | inputHistory | inputBlocked
  | messageList | listIdle | listPainting
  | paintBubbles | bubblesRendering | bubblesRendered
  | paintScroll | scrollPending | scrollSettled
  | scroll | scrollIdle | scrolling
  | inputResize | inputResizeStop | inputResizing
  | appResize | appResizeStop | appResizing
  | drag | dragIdle | dragActive | dragging | dragMoving
  | alert | alertHidden | alertShown
deriving DecidableEq, Repr

namespace State

/-- All states, in document order. -/
def all : List State :=
  [.widget, .boot, .initializing, .failed, .active,
   .attachment, .attachmentInit, .attachmentDisabled, .attachmentClosed, .attachmentOpen,
   .input, .inputReady, .inputTypeMode, .inputAudioRecordMode, .inputAudioPlayerMode,
   .inputHistory, .inputBlocked,
   .messageList, .listIdle, .listPainting,
   .paintBubbles, .bubblesRendering, .bubblesRendered,
   .paintScroll, .scrollPending, .scrollSettled,
   .scroll, .scrollIdle, .scrolling,
   .inputResize, .inputResizeStop, .inputResizing,
   .appResize, .appResizeStop, .appResizing,
   .drag, .dragIdle, .dragActive, .dragging, .dragMoving,
   .alert, .alertHidden, .alertShown]

/-- The name of a state. -/
def name : State → String
  | .widget => "Widget"
  | .boot => "Boot"
  | .initializing => "Initializing"
  | .failed => "Failed"
  | .active => "Active"
  | .attachment => "Attachment"
  | .attachmentInit => "AttachmentInit"
  | .attachmentDisabled => "AttachmentDisabled"
  | .attachmentClosed => "AttachmentClosed"
  | .attachmentOpen => "AttachmentOpen"
  | .input => "Input"
  | .inputReady => "InputReady"
  | .inputTypeMode => "InputTypeMode"
  | .inputAudioRecordMode => "InputAudioRecordMode"
  | .inputAudioPlayerMode => "InputAudioPlayerMode"
  | .inputHistory => "InputHistory"
  | .inputBlocked => "InputBlocked"
  | .messageList => "MessageList"
  | .listIdle => "ListIdle"
  | .listPainting => "ListPainting"
  | .paintBubbles => "PaintBubbles"
  | .bubblesRendering => "BubblesRendering"
  | .bubblesRendered => "BubblesRendered"
  | .paintScroll => "PaintScroll"
  | .scrollPending => "ScrollPending"
  | .scrollSettled => "ScrollSettled"
  | .scroll => "Scroll"
  | .scrollIdle => "ScrollIdle"
  | .scrolling => "Scrolling"
  | .inputResize => "InputResize"
  | .inputResizeStop => "InputResizeStop"
  | .inputResizing => "InputResizing"
  | .appResize => "AppResize"
  | .appResizeStop => "AppResizeStop"
  | .appResizing => "AppResizing"
  | .drag => "Drag"
  | .dragIdle => "DragIdle"
  | .dragActive => "DragActive"
  | .dragging => "Dragging"
  | .dragMoving => "DragMoving"
  | .alert => "Alert"
  | .alertHidden => "AlertHidden"
  | .alertShown => "AlertShown"

/-- The state of a name. -/
def ofName? (s : String) : Option State := all.find? (·.name = s)

end State

end Statechart.Chat
