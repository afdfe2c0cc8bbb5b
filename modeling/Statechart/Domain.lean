/-!
# What a statechart is about

A chart, and a machine running it, are built over six types: the states, the
events sent from outside, the context carried along, the patches that assign parts
of it, the values that invocations produce, and the host that effects act on. A
`Domain` bundles them with the few operations the library needs of them. Everything
else is generic in the bundle, so a chart whose states are an enumeration and one
whose states are strings run on the same machine.
-/

namespace Statechart

/-- The types a chart is built over. -/
structure Domain where
  State : Type
  Event : Type
  Context : Type
  Patch : Type
  Output : Type
  Host : Type
  decEqState : DecidableEq State
  /-- The name a state goes by in texts. -/
  stateName : State → String
  /-- The type of an event, which transitions are declared for. -/
  eventName : Event → String
  /-- One assignment to the context. -/
  apply : Patch → Context → Context

instance (D : Domain) : DecidableEq D.State := D.decEqState

instance (D : Domain) : LawfulBEq D.State := inferInstance

/-- Assignments made one after another. -/
def Domain.applyAll (D : Domain) (patches : List D.Patch) (context : D.Context) : D.Context :=
  patches.foldl (fun context patch => D.apply patch context) context

end Statechart
