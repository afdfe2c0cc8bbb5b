import Statechart.Signal

/-!
# Running invocations

A state has at most one running invocation. Every invocation that is started has an
identity of its own, which comes from a supply. Starting another one, or leaving the
state, takes the invocation it had off the table, and the task that carries it out
is aborted. What an invocation ends with is let in twice: `settle` accepts the
result when it arrives, `consume` retires the invocation when the result's turn
comes. Either answers no for an invocation that is not on the table any more, and
so a late result does nothing.
-/

namespace Statechart

/-- Where the identities of invocations come from, one after another. No two are the same. -/
structure Supply where
  id : Nat → InvocationId
  distinct : ∀ m n, id m = id n → m = n
  /-- The number of identities drawn so far. -/
  drawn : Nat := 0

namespace Supply

instance : Inhabited Supply := ⟨{ id := fun n => n, distinct := fun _ _ h => h }⟩

/-- The identity that is drawn next. -/
def next (s : Supply) : InvocationId := s.id s.drawn

/-- The supply when one identity more has been drawn. -/
def draw (s : Supply) : Supply := { s with drawn := s.drawn + 1 }

end Supply

/-- The task that carries an invocation out. -/
abbrev TaskId := Nat

/-- An invocation that was started and not taken off the table. -/
structure Running where
  id : InvocationId
  /-- Whether its result has arrived. -/
  settled : Bool := false
  task : Option TaskId := none
deriving DecidableEq

/-- The running invocations by state, and the tasks aborted so far, latest first. -/
structure Invocations (S : Type) where
  running : List (S × Running) := []
  supply : Supply := default
  aborted : List TaskId := []

namespace Invocations

variable {S : Type}

instance : Inhabited (Invocations S) := ⟨{}⟩

/-- The running invocation of a state. -/
def get? [DecidableEq S] (t : Invocations S) (state : S) : Option Running :=
  t.running.lookup state

/-- The number of running invocations. -/
def size (t : Invocations S) : Nat := t.running.length

/-- Whether nothing is running. -/
def isEmpty (t : Invocations S) : Bool := t.running.isEmpty

/-- The table without the invocation of a state; its task goes on. -/
def remove [DecidableEq S] (t : Invocations S) (state : S) : Invocations S :=
  { t with running := t.running.filter (·.1 ≠ state) }

/-- The table without the invocation of a state, its task aborted. -/
def cancel [DecidableEq S] (t : Invocations S) (state : S) : Invocations S :=
  { t.remove state with aborted := ((t.get? state).bind (·.task)).toList ++ t.aborted }

/-- The table with nothing running, all tasks aborted. -/
def cancelAll (t : Invocations S) : Invocations S :=
  { t with running := [], aborted := t.running.filterMap (·.2.task) ++ t.aborted }

/-- The table with a new invocation of a state in place of the one before. Its identity is the next
one of the supply. -/
def register [DecidableEq S] (t : Invocations S) (state : S) : Invocations S :=
  let rest := t.cancel state
  { rest with running := (state, { id := t.supply.next }) :: rest.running, supply := t.supply.draw }

/-- Whether invocation `id` is the running one of a state. -/
def isCurrent [DecidableEq S] (t : Invocations S) (state : S) (id : InvocationId) : Bool :=
  (t.get? state).any (·.id = id)

/-- The table with the running invocation of a state changed. -/
def modify [DecidableEq S] (t : Invocations S) (state : S) (f : Running → Running) :
    Invocations S :=
  { t with running := t.running.map fun e => if e.1 = state then (e.1, f e.2) else e }

/-- The table with a task given to invocation `id`, or aborted if the invocation is not running. -/
def attach [DecidableEq S] (t : Invocations S) (state : S) (id : InvocationId) (task : TaskId) :
    Invocations S :=
  if t.isCurrent state id then t.modify state ({ · with task := some task })
  else { t with aborted := task :: t.aborted }

/-- Accepts the result of invocation `id`, if it is running and has no result yet. -/
def settle? [DecidableEq S] (t : Invocations S) (state : S) (id : InvocationId) :
    Option (Invocations S) :=
  if (t.get? state).any fun r => r.id = id && !r.settled then
    some (t.modify state ({ · with settled := true }))
  else none

/-- Retires invocation `id`, if it is running and its result has arrived. -/
def consume? [DecidableEq S] (t : Invocations S) (state : S) (id : InvocationId) :
    Option (Invocations S) :=
  if (t.get? state).any fun r => r.id = id && r.settled then some (t.remove state) else none

end Invocations

end Statechart
