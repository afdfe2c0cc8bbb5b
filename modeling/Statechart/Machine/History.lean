/-!
# What history states remember

Every history state may have a record: the states that were active below its parent
when the parent was last left. A later record replaces an earlier one.
-/

namespace Statechart

/-- The records of history states. -/
structure History (S : Type) where
  records : List (S × List S) := []

namespace History

variable {S : Type}

instance : Inhabited (History S) := ⟨{}⟩

/-- The record of a history state, if its parent was ever left. -/
def get? [DecidableEq S] (h : History S) (state : S) : Option (List S) := h.records.lookup state

/-- The records with that of one history state replaced. -/
def record [DecidableEq S] (h : History S) (state : S) (remembered : List S) : History S :=
  { records := (state, remembered) :: h.records.filter (·.1 ≠ state) }

/-- The number of records. -/
def size (h : History S) : Nat := h.records.length

/-- Whether there are no records. -/
def isEmpty (h : History S) : Bool := h.records.isEmpty

theorem get?_record_self [DecidableEq S] (h : History S) (state : S) (remembered : List S) :
    (h.record state remembered).get? state = some remembered := by
  simp [get?, record]

theorem get?_record_of_ne [DecidableEq S] (h : History S) {state other : S} (hne : other ≠ state)
    (remembered : List S) : (h.record state remembered).get? other = h.get? other := by
  simp only [get?, record, List.lookup_cons, beq_eq_false_iff_ne.2 hne]
  induction h.records with
  | nil => rfl
  | cons r rs ih =>
    obtain ⟨k, v⟩ := r
    by_cases hk : k = state
    · subst hk
      simpa [List.lookup_cons, beq_eq_false_iff_ne.2 hne] using ih
    · by_cases ho : other = k
      · simp [hk, ho]
      · simpa [hk, List.lookup_cons, beq_eq_false_iff_ne.2 ho] using ih

end History

end Statechart
