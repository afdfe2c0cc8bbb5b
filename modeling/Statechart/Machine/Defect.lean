import Statechart.Action

/-!
# Defects

A defect is a mistake in the code supplied with a chart, or in the way a machine was
set up, that comes to light while a signal is processed. Defects are never passed
over: the call that hit one returns it, and the machine is faulted from then on.
-/

namespace Statechart

/-- A mistake found while processing a signal. -/
inductive Defect (S : Type) where
  | guardPanicked (state : S) (guard message : String)
  /-- An action, or the start of an invocation, gave up. -/
  | actionPanicked (state : S) (action message : String)
  /-- An invocation was to be started, and there is nowhere to run it. -/
  | nowhereToInvoke (state : S) (invocation : String)
  /-- A timer driver was to be started, and there is nowhere to run it. -/
  | nowhereToDrive
  | unknownState (state : S)
deriving DecidableEq

/-- A defect as text. -/
def Defect.message {S : Type} (name : S → String) : Defect S → String
  | .guardPanicked s guard message =>
    "Guard '" ++ guard ++ "' on " ++ name s ++ " panicked: " ++ message
  | .actionPanicked s action message =>
    "Action '" ++ action ++ "' on " ++ name s ++ " panicked: " ++ message
  | .nowhereToInvoke s invocation =>
    "Invocation '" ++ invocation ++ "' on " ++ name s
      ++ " needs a tokio runtime, but none is available"
  | .nowhereToDrive => "Timer driver needs a tokio runtime, but none is available"
  | .unknownState s => "State " ++ name s ++ " is not part of the chart"

/-- Why a call fails. -/
inductive CallError (S : Type) where
  /-- The machine's life stage does not allow the call. -/
  | refused (r : Refusal)
  /-- The call hit a defect. -/
  | defect (d : Defect S)
  /-- A listener gave up. -/
  | listenerPanicked (message : String)
deriving DecidableEq

end Statechart
