import Statechart.Json.Value
import Statechart.Snapshot

/-!
# State values and snapshots as JSON

A state value is an object with one field, named for the kind of node, that has the
state and what is below it. A snapshot is an object of five fields; its state value
is null where it has none.
-/

namespace Statechart

namespace StateValue

variable {S : Type}

mutual

/-- A state value as JSON, states by their names. -/
def toJson (name : S → String) : StateValue S → Json
  | .leaf s => .object [("leaf", .string (name s))]
  | .compound s active =>
    .object [("compound", .object [("state", .string (name s)), ("active", active.toJson name)])]
  | .parallel s regions =>
    .object [("parallel",
      .object [("state", .string (name s)), ("regions", .array (listToJson name regions))])]

/-- Several state values as JSON. -/
def listToJson (name : S → String) : List (StateValue S) → List Json
  | [] => []
  | v :: vs => v.toJson name :: listToJson name vs

end

/-- Reads a state value of at most `fuel` levels. -/
def ofJsonWithin (state? : String → Option S) : Nat → Json → Option (StateValue S)
  | 0, _ => none
  | fuel + 1, j =>
    match j with
    | .object fields => do
      let (key, _) ← fields.head?
      guard (fields.all (·.1 = key))
      let body ← j.get? key
      let named (j : Json) : Option S := j.asString?.bind state?
      match key with
      | "leaf" => (named body).map .leaf
      | "compound" =>
        return .compound (← named (← body.get? "state"))
          (← ofJsonWithin state? fuel (← body.get? "active"))
      | "parallel" =>
        return .parallel (← named (← body.get? "state"))
          (← (← (← body.get? "regions").asArray?).mapM (ofJsonWithin state? fuel))
      | _ => none
    | _ => none

/-- Reads a state value. -/
def ofJson? (state? : String → Option S) (j : Json) : Option (StateValue S) :=
  ofJsonWithin state? j.depth j

end StateValue

/-- A snapshot as JSON, given how its context is written. -/
def Snapshot.toJson {D : Domain} (context : D.Context → Json) (s : Snapshot D) : Json :=
  .object
    [("status", .string s.status.name),
     ("step", .nat s.step),
     ("value", s.value.elim .null (·.toJson D.stateName)),
     ("configuration", .array (s.configuration.map fun x => .string (D.stateName x))),
     ("context", context s.context)]

end Statechart
