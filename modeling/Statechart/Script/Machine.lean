import Statechart.Machine.Queue
import Statechart.Script.Language

/-!
# Machines of scripted charts

A machine on a scripted chart starts with variables and an empty log. Its listeners
go by labels, which the host keeps, so that effects can name them; its host has a
table that invocations look into.
-/

namespace Statechart.Script

/-- A machine that has not been started. -/
def newMachine (chart : Chart domain) (vars : List (String × Int64)) (capacity : Nat)
    (clock : Clock) (canInvoke : Bool) : Machine domain :=
  let context : Context := { vars }
  let host : Host := {}
  { chart, context, shell := { host, clock }, canInvoke, journal := { capacity } }

/-- The machine's host. -/
def hostOf (m : Machine domain) : Host := m.shell.host

/-- The machine with another host. -/
def withHost (m : Machine domain) (host : Host) : Machine domain :=
  { m with shell := { m.shell with host } }

/-- The machine with a table entry set, or removed. -/
def setTable (m : Machine domain) (key : String) (value : Option Int64) : Machine domain :=
  let host := hostOf m
  let others := host.table.filter (·.1 ≠ key)
  withHost m { host with table := value.elim others fun n => (key, n) :: others }

/-- The machine with a listener of that label. -/
def subscribe (m : Machine domain) (label : String) (effects : List Effect) (times : Nat) :
    Machine domain :=
  let (m, id) := m.subscribe (listener label effects times)
  let host := hostOf m
  withHost m { host with listeners := (label, id) :: host.listeners.filter (·.1 ≠ label) }

/-- The machine without the listener of that label, if there is one. -/
def unsubscribe (m : Machine domain) (label : String) : Machine domain :=
  match (hostOf m).listeners.lookup label with
  | some id => m.unsubscribe id
  | none => m

end Statechart.Script
