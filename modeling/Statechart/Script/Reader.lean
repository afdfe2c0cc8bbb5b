import Statechart.Json.Value
import Statechart.Script.Language

/-!
# Reading scripted charts

Scripted charts and the terms in them are written as JSON. Each reader answers
nothing for a value that is not of its form. Fields that a form does not have are
passed over, a field that is null counts as absent.

Terms and states are nested; the depth of the value bounds the recursion.
-/

namespace Statechart.Script

/-- Reads a list. -/
def list? {α : Type} (item : Json → Option α) (j : Json) : Option (List α) := do
  (← j.asArray?).mapM item

/-- Reads a 64-bit integer. -/
def int64? (j : Json) : Option Int64 := do
  let i ← j.asInt?
  guard (Int64.minValue.toInt ≤ i ∧ i ≤ Int64.maxValue.toInt)
  return Int64.ofInt i

/-- Reads a 64-bit natural number. -/
def word? (j : Json) : Option Nat := j.asNat?.filter (· < UInt64.size)

/-- Reads a span of time: milliseconds, or seconds and nanoseconds. -/
def duration? : Json → Option Duration
  | .array [seconds, nanos] => do return .ofParts (← word? seconds) (← nanos.asNat?)
  | j => (word? j).map .ofMillis

/-- Reads the message of a panic. -/
def panic? (j : Json) : Option String := do
  let message ← (← j.present? "panic").asString?
  match ← j.readOr "str" Json.asString? "as" with
  | "str" => return message
  | "other" => return "unknown panic"
  | _ => none

/-- Reads a comparison. -/
def comparison? : Json → Option Comparison
  | .string "eq" => some .eq
  | .string "ne" => some .ne
  | .string "lt" => some .lt
  | .string "le" => some .le
  | .string "gt" => some .gt
  | .string "ge" => some .ge
  | _ => none

/-- Reads a comparison with a number. -/
def compared? : Json → Option (Comparison × Int64)
  | .array [c, n] => do return (← comparison? c, ← int64? n)
  | _ => none

/-- Reads a condition of at most `fuel` levels. -/
def conditionWithin : Nat → Json → Option Condition
  | 0, _ => none
  | fuel + 1, j =>
    match j with
    | .bool b => some (.const b)
    | .object [(key, arg)] =>
      match key with
      | "var" =>
        match arg with
        | .array [name, c, n] => do
          return .var (← name.asString?) (← comparison? c) (← int64? n)
        | _ => none
      | "payload" => (compared? arg).map fun p => .payload p.1 p.2
      | "output" => (compared? arg).map fun p => .output p.1 p.2
      | "error" => arg.asString?.map .error
      | "signal" => arg.asString?.map .signal
      | "event" => arg.asString?.map .event
      | "origin" => arg.asString?.map .origin
      | "all" => (list? (conditionWithin fuel) arg).map .all
      | "panic" => arg.asString?.map .panic
      | _ => none
    | j => (panic? j).map .panic

/-- Reads a condition. -/
def condition? (j : Json) : Option Condition := conditionWithin j.depth j

/-- Reads a number term of at most `fuel` levels. -/
def termWithin : Nat → Json → Option Term
  | 0, _ => none
  | fuel + 1, j =>
    match j with
    | .object [("var", name)] => name.asString?.map .var
    | .object [("payload", _)] => some .payload
    | .object [("output", _)] => some .output
    | .object [("add", .array [a, b])] => do
      return .add (← termWithin fuel a) (← termWithin fuel b)
    | j => (int64? j).map .const

/-- Reads a number term. -/
def term? (j : Json) : Option Term := termWithin j.depth j

/-- Reads an assignment. -/
def assignment? : Json → Option Assignment
  | .string line => some (.push line)
  | .object [("set", .array [name, value])] => do return .set (← name.asString?) (← term? value)
  | .object [("push_var", name)] => name.asString?.map .pushVar
  | .object [("push_signal", _)] => some .pushSignal
  | .object [("push_error", _)] => some .pushError
  | j => (panic? j).map .panic

/-- Reads an event, its name in the field `key`. -/
def event? (key : String) (j : Json) : Option Event := do
  return { name := ← (← j.present? key).asString?, payload := ← j.readMaybe int64? "p" }

/-- Reads an effect. -/
def effect? (j : Json) : Option Effect :=
  match j with
  | .string line => some (.note line)
  | .object ((key, arg) :: _) =>
    match key with
    | "emit_var" => arg.asString?.map .noteVar
    | "emit_signal" => some .noteSignal
    | "advance" => (word? arg).map fun ms => .advance (.ofMillis ms)
    | "send" | "p" => (event? "send" j).map .send
    | "stop" => some .stop
    | "start" => some .start
    | "tick" => some .tick
    | "status" => some .noteStatus
    | "unsubscribe" => arg.asString?.map .unsubscribe
    | _ => (panic? j).map .panic
  | _ => none

/-- Reads an action. -/
def action? : Json → Option (Action domain)
  | .string line => some (assignAction line [.push line])
  | j => do
    let name ← (← j.present? "name").asString?
    if let some one := j.present? "assign" then return assignAction name [← assignment? one]
    if let some many := j.present? "assign_many" then
      return assignAction name (← list? assignment? many)
    return effectAction name (← list? effect? (← j.present? "effect"))

/-- Reads a guard. -/
def guard? (j : Json) : Option (Guard domain) := do
  let name ← (← j.present? "name").asString?
  let condition ← j.readOr (.const true) condition? "if"
  let g ← match ← j.readOr "new" Json.asString? "kind" with
    | "new" => some (guardOf name condition)
    | "context" => some (contextGuard name condition)
    | "event" => some (eventGuard name condition)
    | _ => none
  return if ← j.readOr false Json.asBool? "negate" then g.negate else g

/-- Reads a trigger. -/
def trigger? (j : Json) : Option Trigger := do
  if let some name := j.present? "event" then return .event (← name.asString?)
  if let some delay := j.present? "after" then return .after (← duration? delay)
  if ← j.readOr false Json.asBool? "done" then return .done
  if ← j.readOr false Json.asBool? "invoke_done" then return .invokeDone
  if ← j.readOr false Json.asBool? "invoke_error" then return .invokeError
  none

/-- Reads a transition. -/
def transition? (j : Json) : Option (Transition domain) := do
  return {
    trigger := ← trigger? j
    target := ← j.readMaybe Json.asString? "to"
    guard := ← j.readMaybe guard? "when"
    actions := ← j.readOr [] (list? action?) "do"
    reenter := ← j.readOr false Json.asBool? "reenter" }

/-- Reads an invocation. Of several courses the first counts, in the order panic, failure, look
up, wait, success. -/
def invocation? (j : Json) : Option (Invocation domain) := do
  let name ← (← j.present? "name").asString?
  let course ←
    if (j.present? "panic").isSome then (panic? j).map Course.panic
    else if let some text := j.present? "err" then text.asString?.map .fail
    else if let some key := j.present? "host" then key.asString?.map .lookUp
    else if ← j.readOr false Json.asBool? "gate" then some .await
    else (j.present? "ok").bind fun value => (term? value).map .succeed
  return invocationOf name course

/-- Reads the kind of a state. -/
def kind? (j : Json) : Option (NodeKind String) := do
  match ← (← j.present? "kind").asString? with
  | "atomic" => return .atomic
  | "compound" => return .compound (← (← j.present? "initial").asString?)
  | "parallel" => return .parallel
  | "final" => return .final
  | "shallow" => return .history .shallow
  | "deep" => return .history .deep
  | _ => none

/-- Reads what is declared of a state. -/
def decl? (j : Json) : Option (StateDecl domain) := do
  return {
    id := ← (← j.present? "id").asString?
    kind := ← kind? j
    fallback := ← j.readMaybe Json.asString? "default"
    entry := ← j.readOr [] (list? action?) "entry"
    exit := ← j.readOr [] (list? action?) "exit"
    transitions := ← j.readOr [] (list? transition?) "on"
    invocation := ← j.readMaybe invocation? "invoke" }

/-- Reads a tree of states of at most `fuel` levels. -/
def treeWithin : Nat → Json → Option (StateTree domain)
  | 0, _ => none
  | fuel + 1, j => do
    return .node (← decl? j) (← j.readOr [] (list? (treeWithin fuel)) "children")

/-- Reads a tree of states. -/
def tree? (j : Json) : Option (StateTree domain) := treeWithin j.depth j

/-- Reads variables. -/
def vars? : Json → Option (List (String × Int64))
  | .object fields => fields.reverse.mapM fun f => (int64? f.2).map (f.1, ·)
  | _ => none

/-- Reads a signal. -/
def signal? (j : Json) : Option (Signal domain) := do
  let state := (j.present? "state").bind Json.asString?
  match ← (← j.present? "kind").asString? with
  | "start" => return .start
  | "stop" => return .stop
  | "event" => return .event (← event? "ev" j)
  | "timer" =>
    return .timer (← state) (← (← j.present? "index").asNat?) (← duration? (← j.present? "delay"))
  | "invoke_done" => return .invokeDone (← state) 0 (← int64? (← j.present? "output"))
  | "invoke_error" =>
    return .invokeError (← state) 0 { message := ← (← j.present? "message").asString? }
  | "done" => return .done (← state)
  | _ => none

end Statechart.Script
