import Statechart.Machine.Shell
import Statechart.Chart.Tree

/-!
# A small language for guards, actions and listeners

Scripted charts have strings for states and a context of integer variables and a log
of lines. Their guards, assignments and effects are terms of a small language, given
a meaning here: conditions may hold or give up, patches set a variable or push a
line, effects note something in the host or call the machine and note its reply.

Integers are 64 bits wide, and addition wraps. A variable that was never set is 0.
-/

namespace Statechart.Script

/-- An event with an optional number. -/
structure Event where
  name : String
  payload : Option Int64 := none
deriving DecidableEq

/-- Variables and a log. -/
structure Context where
  vars : List (String × Int64) := []
  log : List String := []
deriving DecidableEq

/-- The value of a variable. -/
def Context.get (c : Context) (name : String) : Int64 := (c.vars.lookup name).getD 0

/-- One assignment. -/
inductive Patch where
  | set (name : String) (value : Int64)
  | push (line : String)
deriving DecidableEq

/-- The context after an assignment. -/
def Patch.apply (c : Context) : Patch → Context
  | .set name value => { c with vars := (name, value) :: c.vars.filter (·.1 ≠ name) }
  | .push line => { c with log := c.log ++ [line] }

/-- What effects act on: notes, a table for invocations to look into, and the numbers of the
listeners by their labels. -/
structure Host where
  notes : List String := []
  table : List (String × Int64) := []
  listeners : List (String × Nat) := []
deriving DecidableEq

/-- The host with one more note. -/
def Host.note (h : Host) (line : String) : Host := { h with notes := h.notes ++ [line] }

/-- The types of scripted charts. -/
def domain : Domain where
  State := String
  Event := Event
  Context := Context
  Patch := Patch
  Output := Int64
  Host := Host
  decEqState := inferInstance
  stateName := id
  eventName := Event.name
  apply p c := p.apply c

/-! ## Terms -/

/-- Comparisons. -/
inductive Comparison where
  | eq | ne | lt | le | gt | ge
deriving DecidableEq

/-- Whether a comparison holds of two numbers. -/
def Comparison.holds (a b : Int64) : Comparison → Bool
  | .eq => a = b
  | .ne => a ≠ b
  | .lt => a < b
  | .le => a ≤ b
  | .gt => b < a
  | .ge => b ≤ a

/-- Conditions. -/
inductive Condition where
  | const (value : Bool)
  | var (name : String) (c : Comparison) (n : Int64)
  /-- The number that an external event brings. -/
  | payload (c : Comparison) (n : Int64)
  /-- The value that an invocation ended with. -/
  | output (c : Comparison) (n : Int64)
  /-- The text that an invocation failed with. -/
  | error (text : String)
  /-- The type of the signal. -/
  | signal (name : String)
  /-- The name of the external event. -/
  | event (name : String)
  /-- The state that the signal is addressed to. -/
  | origin (state : String)
  | all (conditions : List Condition)
  | panic (message : String)

/-- Numbers. -/
inductive Term where
  | const (n : Int64)
  | var (name : String)
  | payload
  | output
  | add (a b : Term)

/-- Assignments. -/
inductive Assignment where
  | push (line : String)
  | set (name : String) (value : Term)
  /-- Push a variable with its value. -/
  | pushVar (name : String)
  | pushSignal
  | pushError
  | panic (message : String)

/-- Effects. -/
inductive Effect where
  | note (line : String)
  /-- Note a variable with its value. -/
  | noteVar (name : String)
  | noteSignal
  | advance (span : Duration)
  | send (event : Event)
  | stop
  | start
  | tick
  | noteStatus
  | unsubscribe (label : String)
  | panic (message : String)

/-! ## Meaning -/

/-- What a term is read against: the variables, and a signal if there is one. -/
structure View where
  get : String → Int64
  signal : Option (Signal domain) := none

namespace View

/-- The context, with a signal if there is one. -/
def ofContext (c : Context) (signal : Option (Signal domain) := none) : View :=
  { get := c.get, signal }

/-- An external event alone; every variable is 0. -/
def ofEvent (e : Event) : View := { get := fun _ => 0, signal := some (.event e) }

/-- The external event. -/
def event? (v : View) : Option Event := v.signal.bind (·.event?)

/-- The number that an external event brings. -/
def payload? (v : View) : Option Int64 := v.event?.bind (·.payload)

/-- The value that an invocation ended with. -/
def output? (v : View) : Option Int64 := v.signal.bind (·.output?)

/-- The failure of an invocation. -/
def error? (v : View) : Option InvokeError := v.signal.bind (·.error?)

end View

mutual

/-- Whether a condition holds, or the message of a panic. -/
def Condition.holds (v : View) : Condition → Except String Bool
  | .const b => .ok b
  | .var name c n => .ok (c.holds (v.get name) n)
  | .payload c n => .ok (v.payload?.any (c.holds · n))
  | .output c n => .ok (v.output?.any (c.holds · n))
  | .error text => .ok (v.error?.any (·.message = text))
  | .signal name => .ok (v.signal.any (·.name = name))
  | .event name => .ok (v.event?.any (·.name = name))
  | .origin state => .ok ((v.signal.bind (·.origin?)).any fun s => decide ((s : String) = state))
  | .all cs => Condition.allHold v cs
  | .panic message => .error message

/-- Whether all conditions hold; those after the first that does not are not looked at. -/
def Condition.allHold (v : View) : List Condition → Except String Bool
  | [] => .ok true
  | c :: cs => do if ← c.holds v then Condition.allHold v cs else return false

end

/-- The value of a number term. -/
def Term.value (v : View) : Term → Int64
  | .const n => n
  | .var name => v.get name
  | .payload => v.payload?.getD 0
  | .output => v.output?.getD 0
  | .add a b => a.value v + b.value v

/-- A variable with its value. -/
def View.showVar (v : View) (name : String) : String := s!"{name}={(v.get name).toInt}"

/-- The text of the signal. -/
def View.showSignal (v : View) : String := v.signal.elim "none" (·.describe)

/-- The patch that an assignment makes, or the message of a panic. -/
def Assignment.patch (v : View) : Assignment → Except String Patch
  | .push line => .ok (.push line)
  | .set name value => .ok (.set name (value.value v))
  | .pushVar name => .ok (.push (v.showVar name))
  | .pushSignal => .ok (.push v.showSignal)
  | .pushError => .ok (.push (v.error?.elim "none" (·.message)))
  | .panic message => .error message

/-- The word for a refusal. -/
def refusalWord : Refusal → String
  | .notStarted => "NotStarted"
  | .alreadyStarted => "AlreadyStarted"
  | .stopped => "Stopped"
  | .faulted => "Faulted"

/-- Notes the reply to a call. -/
def tellReply (call : String) (reply : Reply) (h : Host) : Host :=
  match reply with
  | .ok => h.note (call ++ ": ok")
  | .refused r => h.note (call ++ ": " ++ refusalWord r)
  | .unlinked => h.note "unlinked"

/-- Notes a machine's life stage. -/
def tellStatus (status : Option Status) (h : Host) : Host :=
  h.note (status.elim "unlinked" fun s => "status: " ++ s.name)

/-- The command that an effect is. -/
def Effect.command (v : View) : Effect → Command domain
  | .note line => .act fun (h : Host) => h.note line
  | .noteVar name => .act fun (h : Host) => h.note (v.showVar name)
  | .noteSignal => .act fun (h : Host) => h.note v.showSignal
  | .advance span => .advance span
  | .send e => .send e (tellReply ("send " ++ e.name))
  | .stop => .stop (tellReply "stop")
  | .start => .start (tellReply "start")
  | .tick => .tick (tellReply "tick")
  | .noteStatus => .status tellStatus
  | .unsubscribe label => .unsubscribe fun (h : Host) => h.listeners.lookup label
  | .panic message => .panic message

/-! ## Guards, actions, listeners -/

/-- A guard that sees the context and the signal. -/
def guardOf (name : String) (c : Condition) : Guard domain :=
  { name, holds := fun context signal => c.holds (View.ofContext context (some signal)) }

/-- A guard that sees the context only. -/
def contextGuard (name : String) (c : Condition) : Guard domain :=
  .ofContext name fun context => c.holds (View.ofContext context)

/-- A guard that sees the external event only. -/
def eventGuard (name : String) (c : Condition) : Guard domain :=
  .ofEvent name fun e => c.holds (View.ofEvent e)

/-- An action that makes assignments, all computed before the first is made. -/
def assignAction (name : String) (assignments : List Assignment) : Action domain :=
  { name
    deed := .assign fun context signal =>
      assignments.mapM (·.patch (View.ofContext context (some signal))) }

/-- An action that has effects. -/
def effectAction (name : String) (effects : List Effect) : Action domain :=
  { name
    deed := .effect fun context signal _ =>
      effects.map (·.command (View.ofContext context (some signal))) }

/-- A listener that notes every snapshot, and has effects on its first `times` calls. -/
def listener (label : String) (effects : List Effect) (times : Nat) : Reaction domain :=
  fun calls snapshot =>
    let value := snapshot.value.elim "-" (·.render domain.stateName)
    let line := s!"{label}: {snapshot.step} " ++ snapshot.status.name ++ " " ++ value
    let commands := effects.map (·.command (View.ofContext snapshot.context))
    .act (fun (h : Host) => h.note line) :: if calls < times then commands else []

/-! ## Invocations -/

/-- What an invocation does. -/
inductive Course where
  /-- Succeed with a number computed when the state is entered. -/
  | succeed (value : Term)
  | fail (text : String)
  /-- Succeed with what the host's table has for a key when the invocation is run. -/
  | lookUp (key : String)
  /-- End when somebody outside says so. -/
  | await
  | panic (message : String)

/-- The operation that a course is, for an entry with that context. -/
def Course.operation (c : Context) : Course → Except String (Operation domain)
  | .succeed value => .ok (.run fun h => (h, .ok (value.value (View.ofContext c))))
  | .fail text => .ok (.run fun h => (h, .error { message := text }))
  | .lookUp key => .ok (.run fun (h : Host) =>
      (h, match h.table.lookup key with
        | some n => .ok n
        | none => .error { message := "no " ++ key }))
  | .await => .ok .await
  | .panic message => .error message

/-- An invocation that takes a course. -/
def invocationOf (name : String) (course : Course) : Invocation domain :=
  { name, start := fun context => course.operation context }

end Statechart.Script
