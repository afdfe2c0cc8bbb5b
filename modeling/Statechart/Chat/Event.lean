import Statechart.Chat.Context

/-!
# What the widget reacts to
-/

namespace Statechart.Chat

/-- The events a page sends to the widget. -/
inductive Event where
  | openAttachment
  | closeAttachment
  | sendAttachment (fileName : String)
  | sendMessage (text : String)
  | startRecording
  | stopRecording
  | cancelRecording
  | discardAudio
  | loadingStart
  | loadingEnd
  | messageReceived (message : Message)
  | scroll (offset : Float)
  | resizeInput (size : Size)
  | resizeApp (size : Size)
  | dragStart (p : Point)
  | dragMove (p : Point)
  | dragEnd (p : Point)
  | showError (message : String)
  | dismissError

namespace Event

/-- The type of an event. -/
def name : Event → String
  | .openAttachment => "OPEN_ATTACHMENT"
  | .closeAttachment => "CLOSE_ATTACHMENT"
  | .sendAttachment _ => "SEND_ATTACHMENT"
  | .sendMessage _ => "SEND_MESSAGE"
  | .startRecording => "START_RECORDING"
  | .stopRecording => "STOP_RECORDING"
  | .cancelRecording => "CANCEL_RECORDING"
  | .discardAudio => "DISCARD_AUDIO"
  | .loadingStart => "LOADING_START"
  | .loadingEnd => "LOADING_END"
  | .messageReceived _ => "MESSAGE_RECEIVED"
  | .scroll _ => "SCROLL"
  | .resizeInput _ => "RESIZE_INPUT"
  | .resizeApp _ => "RESIZE_APP"
  | .dragStart _ => "DRAG_START"
  | .dragMove _ => "DRAG_MOVE"
  | .dragEnd _ => "DRAG_END"
  | .showError _ => "SHOW_ERROR"
  | .dismissError => "DISMISS_ERROR"

/-- The text of a message to be sent, unless it is blank. -/
def text? : Event → Option String
  | .sendMessage text => if Text.allBlank text then none else some text
  | _ => none

end Event

end Statechart.Chat
