import Mathlib.Data.List.Nodup
import Statechart.Machine.Invocations

/-!
# What a log says about invocations

Whatever becomes of invocations is written into a log, the latest event first. An invocation is
held from its start until another one of its state is started, it is cancelled, or its result is
consumed (`HeldSince`). A task is taken on by an invocation that is held when the task is attached
(`TakenOn`), and it is dropped if there is none, or if the invocation is superseded before its
result was consumed (`Dropped`).

These are said of a log as a whole, by where in it an event stands. What a further event changes
is said by one lemma each (`heldSince_cons`, `takenOn_cons`, `dropped_cons`). A task that was
attached and whose result was not consumed has been dropped or is held (`dropped_or_held`): there
is no third way, in which it would get lost.
-/

namespace Statechart.Invocations

variable {S : Type}

/-- What a call came to. -/
inductive Event (S : Type) where
  | registered (state : S) (id : InvocationId)
  | attached (state : S) (id : InvocationId) (task : TaskId)
  | settled (state : S) (id : InvocationId)
  | consumed (state : S) (id : InvocationId)
  | cancelled (state : S)
  | cancelledAll

namespace Event

def registered? : Event S → Option InvocationId
  | .registered _ id => some id
  | _ => none

def attached? : Event S → Option InvocationId
  | .attached _ id _ => some id
  | _ => none

def settled? : Event S → Option InvocationId
  | .settled _ id => some id
  | _ => none

def consumed? : Event S → Option InvocationId
  | .consumed _ id => some id
  | _ => none

/-- Whether an event takes the invocation of a state off the table with its task. -/
def Supersedes (state : S) : Event S → Prop
  | .registered x _ | .cancelled x => x = state
  | .cancelledAll => True
  | .attached .. | .settled .. | .consumed .. => False

end Event

/-- Whether an invocation was started and neither superseded nor consumed since. The latest event
of a log comes first. -/
def HeldSince (log : List (Event S)) (s : S) (id : InvocationId) : Prop :=
  ∃ later earlier, log = later ++ .registered s id :: earlier ∧
    ∀ e ∈ later, ¬ e.Supersedes s ∧ e ≠ .consumed s id

/-- Whether a task was attached to an invocation that was held then. -/
def TakenOn (log : List (Event S)) (s : S) (id : InvocationId) (task : TaskId) : Prop :=
  ∃ later earlier, log = later ++ .attached s id task :: earlier ∧ HeldSince earlier s id

/-- Whether a task was attached to an invocation that was not held then, or that was superseded
later without having been consumed before. -/
def Dropped (log : List (Event S)) (s : S) (id : InvocationId) (task : TaskId) : Prop :=
  ∃ later earlier, log = later ++ .attached s id task :: earlier ∧
    (¬ HeldSince earlier s id ∨
      ∃ after e before, later = after ++ e :: before ∧ e.Supersedes s ∧ .consumed s id ∉ before)

/-! ## Reading the log -/

variable {l later earlier : List (Event S)} {e : Event S} {s x : S} {id id' : InvocationId}
  {task : TaskId}

/-- An element of a list that has one in front is the front one, or further on. -/
private theorem cons_eq_split {a e : Event S} {P : List (Event S) → List (Event S) → Prop} :
    (∃ later earlier, e :: l = later ++ a :: earlier ∧ P later earlier) ↔
      (e = a ∧ P [] l) ∨ ∃ later earlier, l = later ++ a :: earlier ∧ P (e :: later) earlier := by
  constructor
  · rintro ⟨later, earlier, hl, hP⟩
    cases later with
    | nil =>
      obtain ⟨rfl, rfl⟩ := List.cons.inj hl
      exact Or.inl ⟨rfl, hP⟩
    | cons e' later =>
      obtain ⟨rfl, rfl⟩ := List.cons.inj hl
      exact Or.inr ⟨later, earlier, rfl, hP⟩
  · rintro (⟨rfl, hP⟩ | ⟨later, earlier, rfl, hP⟩)
    · exact ⟨[], l, rfl, hP⟩
    · exact ⟨e :: later, earlier, rfl, hP⟩

theorem heldSince_cons : HeldSince (e :: l) s id ↔
    e = .registered s id ∨ (HeldSince l s id ∧ ¬ e.Supersedes s ∧ e ≠ .consumed s id) := by
  unfold HeldSince
  rw [cons_eq_split]
  refine or_congr (and_iff_left fun _ h => absurd h List.not_mem_nil) ?_
  simp only [List.forall_mem_cons]
  constructor
  · rintro ⟨later, earlier, hl, he, hlater⟩
    exact ⟨⟨later, earlier, hl, hlater⟩, he⟩
  · rintro ⟨⟨later, earlier, hl, hlater⟩, he⟩
    exact ⟨later, earlier, hl, he, hlater⟩

theorem takenOn_cons : TakenOn (e :: l) s id task ↔
    (e = .attached s id task ∧ HeldSince l s id) ∨ TakenOn l s id task := cons_eq_split

/-- What is held stays held while nothing supersedes it and its result is not consumed. -/
theorem heldSince_append (hlater : ∀ e ∈ later, ¬ e.Supersedes s ∧ e ≠ .consumed s id)
    (h : HeldSince earlier s id) : HeldSince (later ++ earlier) s id := by
  obtain ⟨mid, first, rfl, hmid⟩ := h
  refine ⟨later ++ mid, first, (List.append_assoc ..).symm, fun e he => ?_⟩
  exact (List.mem_append.mp he).elim (hlater e) (hmid e)

theorem mem_of_heldSince (h : HeldSince l s id) : .registered s id ∈ l := by
  obtain ⟨later, earlier, rfl, -⟩ := h
  exact List.mem_append_right _ (List.mem_cons_self ..)

theorem mem_of_takenOn (h : TakenOn l s id task) :
    .attached s id task ∈ l ∧ .registered s id ∈ l := by
  obtain ⟨later, earlier, rfl, hheld⟩ := h
  exact ⟨List.mem_append_right _ (List.mem_cons_self ..),
    List.mem_append_right _ (List.mem_cons_of_mem _ (mem_of_heldSince hheld))⟩

/-- A number that is given out once is not held again once it was superseded. -/
theorem not_heldSince (hdistinct : (l.filterMap Event.registered?).Nodup)
    (hl : l = later ++ .registered s id :: earlier) (he : e ∈ later) (hsup : e.Supersedes s) :
    ¬ HeldSince l s id := by
  induction later generalizing l with
  | nil => exact absurd he List.not_mem_nil
  | cons e' later ih =>
    subst hl
    rw [List.cons_append, heldSince_cons]
    rintro (rfl | ⟨hheld, hsup', -⟩)
    · -- the number would be given out a second time
      have hfresh := (List.nodup_cons.mp hdistinct).1
      exact hfresh (List.mem_filterMap.mpr ⟨.registered s id, by simp, rfl⟩)
    · rcases List.mem_cons.mp he with rfl | he
      · exact hsup' hsup
      · refine ih ?_ rfl he hheld
        exact hdistinct.sublist ((List.sublist_cons_self ..).filterMap _)

/-- A task that was not left alone with a consumed result has been dropped, or its invocation is
held and has taken it on. -/
theorem dropped_or_held (hl : l = later ++ .attached s id task :: earlier)
    (hlater : .consumed s id ∉ later) :
    Dropped l s id task ∨ (HeldSince l s id ∧ TakenOn l s id task) := by
  by_cases hheld : HeldSince earlier s id
  · by_cases hsup : ∃ e ∈ later, e.Supersedes s
    · obtain ⟨e, he, hsup⟩ := hsup
      obtain ⟨after, before, rfl⟩ := List.append_of_mem he
      refine Or.inl ⟨_, earlier, hl, Or.inr ⟨after, e, before, rfl, hsup, fun h => ?_⟩⟩
      exact hlater (List.mem_append_right _ (List.mem_cons_of_mem _ h))
    · refine Or.inr ⟨?_, later, earlier, hl, hheld⟩
      have hattached : HeldSince (.attached s id task :: earlier) s id :=
        heldSince_cons.mpr (Or.inr ⟨hheld, fun h => h, by simp⟩)
      rw [hl]
      exact heldSince_append (fun e he => ⟨fun h => hsup ⟨e, he, h⟩, fun h => hlater (h ▸ he)⟩)
        hattached
  · exact Or.inl ⟨later, earlier, hl, Or.inl hheld⟩

/-- What an event drops is the task that it attaches for nothing, or the one that goes with the
invocation that it supersedes. -/
theorem dropped_cons (hconsumed : ∀ s id, .consumed s id ∈ l → ¬ HeldSince l s id) :
    Dropped (e :: l) s id task ↔ Dropped l s id task ∨
      (e = .attached s id task ∧ ¬ HeldSince l s id) ∨
      (e.Supersedes s ∧ HeldSince l s id ∧ TakenOn l s id task) := by
  unfold Dropped
  rw [cons_eq_split, ← Dropped]
  constructor
  · rintro (⟨rfl, hheld | ⟨after, e, before, hnil, -⟩⟩ | ⟨later, earlier, hl, hdrop⟩)
    · exact Or.inr (Or.inl ⟨rfl, hheld⟩)
    · simp at hnil
    · rcases hdrop with hheld | ⟨after, e', before, hlater, hsup, hbefore⟩
      · exact Or.inl ⟨later, earlier, hl, Or.inl hheld⟩
      · cases after with
        | cons a after =>
          obtain ⟨rfl, rfl⟩ := List.cons.inj hlater
          exact Or.inl ⟨_, earlier, hl, Or.inr ⟨after, e', before, rfl, hsup, hbefore⟩⟩
        | nil =>
          obtain ⟨rfl, rfl⟩ := List.cons.inj hlater
          exact (dropped_or_held hl hbefore).imp_right fun h => Or.inr ⟨hsup, h⟩
  · rintro (⟨later, earlier, hl, hdrop⟩ | ⟨rfl, hheld⟩ | ⟨hsup, hheld, later, earlier, rfl, -⟩)
    · refine Or.inr ⟨later, earlier, hl, hdrop.imp_right ?_⟩
      rintro ⟨after, a, before, rfl, h⟩
      exact ⟨e :: after, a, before, rfl, h⟩
    · exact Or.inl ⟨rfl, Or.inl hheld⟩
    · -- a consumed result would have ended the hold
      refine Or.inr ⟨later, earlier, rfl, Or.inr ⟨[], e, later, rfl, hsup, fun h => ?_⟩⟩
      exact hconsumed s id (List.mem_append_left _ h) hheld

/-- A number that was given out once belongs to one state. -/
theorem state_unique (hdistinct : (l.filterMap Event.registered?).Nodup)
    (hs : .registered s id ∈ l) (hx : .registered x id ∈ l) : s = x := by
  obtain ⟨later, earlier, rfl⟩ := List.append_of_mem hs
  have hcons : (Event.registered s id :: earlier).filterMap Event.registered? =
      id :: earlier.filterMap Event.registered? := rfl
  rw [List.filterMap_append, hcons, List.nodup_middle, ← List.filterMap_append,
    List.nodup_cons] at hdistinct
  by_contra hne
  have hrest : .registered x id ∈ later ++ earlier := by
    rcases List.mem_append.mp hx with hx | hx
    · exact List.mem_append_left _ hx
    · refine List.mem_append_right _ ((List.mem_cons.mp hx).resolve_left fun he => hne ?_)
      exact (Event.registered.inj he).1.symm
  exact hdistinct.1 (List.mem_filterMap.mpr ⟨_, hrest, rfl⟩)

end Statechart.Invocations
