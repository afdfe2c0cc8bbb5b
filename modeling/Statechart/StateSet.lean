/-!
# Sets of states

The active configuration and the set of states about to be entered are finite
sets. They are kept as lists without repetition, in the order in which the states
were put in. Nothing may depend on that order: whoever needs the states in a
definite order sorts them by the chart's.
-/

namespace Statechart

/-- A finite set, listed without repetition. -/
structure StateSet (α : Type) where
  elems : List α
  nodup : elems.Nodup := by simp

namespace StateSet

variable {α : Type} [DecidableEq α]

/-- The set with nothing in it. -/
def empty : StateSet α := { elems := [], nodup := List.nodup_nil }

instance : Inhabited (StateSet α) := ⟨empty⟩

instance : Membership α (StateSet α) := ⟨fun s a => a ∈ s.elems⟩

instance (a : α) (s : StateSet α) : Decidable (a ∈ s) := inferInstanceAs (Decidable (a ∈ s.elems))

/-- The number of members. -/
def size (s : StateSet α) : Nat := s.elems.length

/-- Whether the set has no members. -/
def isEmpty (s : StateSet α) : Bool := s.elems.isEmpty

omit [DecidableEq α] in
theorem mem_def {a : α} {s : StateSet α} : a ∈ s ↔ a ∈ s.elems := Iff.rfl

/-- The set with `a` put in. -/
def insert (s : StateSet α) (a : α) : StateSet α :=
  if h : a ∈ s.elems then s
  else
    { elems := s.elems ++ [a]
      nodup := by
        rw [List.nodup_append]
        refine ⟨s.nodup, by simp, ?_⟩
        intro x hx y hy hxy
        cases List.mem_singleton.1 hy
        exact h (hxy ▸ hx) }

/-- The set with `a` taken out. -/
def erase (s : StateSet α) (a : α) : StateSet α :=
  { elems := s.elems.filter (· ≠ a), nodup := s.nodup.filter _ }

/-- The members of a list, each once. -/
def ofList (l : List α) : StateSet α := l.foldl insert empty

omit [DecidableEq α] in
@[simp] theorem not_mem_empty (a : α) : a ∉ (empty : StateSet α) := by simp [mem_def, empty]

@[simp] theorem mem_insert {a b : α} {s : StateSet α} : b ∈ s.insert a ↔ b ∈ s ∨ b = a := by
  unfold insert
  split
  · rename_i h
    exact ⟨Or.inl, fun hb => hb.elim id fun e => e ▸ h⟩
  · simp [mem_def]

@[simp] theorem mem_erase {a b : α} {s : StateSet α} : b ∈ s.erase a ↔ b ∈ s ∧ b ≠ a := by
  simp [mem_def, erase]

private theorem mem_foldl_insert {b : α} (l : List α) (s : StateSet α) :
    b ∈ l.foldl insert s ↔ b ∈ s ∨ b ∈ l := by
  induction l generalizing s with
  | nil => simp
  | cons a l ih => simp [ih, or_assoc]

@[simp] theorem mem_ofList {b : α} {l : List α} : b ∈ ofList l ↔ b ∈ l := by
  simp [ofList, mem_foldl_insert]

end StateSet

end Statechart
