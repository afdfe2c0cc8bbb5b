import Statechart.Domain
import Statechart.Duration

/-!
# Signals

A machine processes one signal at a time. Besides events from outside there are
the signals a machine raises itself: that it starts or stops, that a timer ran
out, that an invocation ended well or badly, that a state completed. The last four
are addressed to the state they come from, their `origin`.

A signal has two texts. `name` is its type, which guards may ask for; `describe`
is the longer one that the journal records.
-/

namespace Statechart

/-- Identity of one start of an invocation. Nothing is done with it but to compare it. -/
abbrev InvocationId := Nat

/-- Why an invocation failed. -/
structure InvokeError where
  message : String
deriving DecidableEq

/-- What a machine reacts to. -/
inductive Signal (D : Domain) where
  /-- The machine enters its initial configuration. -/
  | start
  /-- The machine leaves every active state. -/
  | stop
  /-- An event sent from outside. -/
  | event (e : D.Event)
  /-- The timer of the delayed transition number `index` of `state` ran out. -/
  | timer (state : D.State) (index : Nat) (delay : Duration)
  /-- The invocation of `state` succeeded. -/
  | invokeDone (state : D.State) (id : InvocationId) (output : D.Output)
  /-- The invocation of `state` failed. -/
  | invokeError (state : D.State) (id : InvocationId) (error : InvokeError)
  /-- The state completed: a final child was entered, or every region became final. -/
  | done (state : D.State)

namespace Signal

variable {D : Domain}

/-- The type of a signal. -/
def name : Signal D → String
  | .start => "start"
  | .stop => "stop"
  | .event e => D.eventName e
  | .timer .. => "timer"
  | .invokeDone .. => "invoke.done"
  | .invokeError .. => "invoke.error"
  | .done _ => "done"

/-- The external event, if the signal is one. -/
def event? : Signal D → Option D.Event
  | .event e => some e
  | _ => none

/-- The value an invocation produced, if the signal brings one. -/
def output? : Signal D → Option D.Output
  | .invokeDone _ _ output => some output
  | _ => none

/-- The failure of an invocation, if the signal brings one. -/
def error? : Signal D → Option InvokeError
  | .invokeError _ _ error => some error
  | _ => none

/-- The state an internal signal is addressed to. -/
def origin? : Signal D → Option D.State
  | .start | .stop | .event _ => none
  | .timer state _ _ | .invokeDone state _ _ | .invokeError state _ _ | .done state => some state

/-- The signal as the journal records it. -/
def describe : Signal D → String
  | .start => "start"
  | .stop => "stop"
  | .event e => D.eventName e
  | .timer state _ delay => s!"after({delay.toMillis}ms)#" ++ D.stateName state
  | .invokeDone state _ _ => "done.invoke#" ++ D.stateName state
  | .invokeError state _ _ => "error.invoke#" ++ D.stateName state
  | .done state => "done.state#" ++ D.stateName state

end Signal

end Statechart
