import Statechart.Proofs.Machine.Invocations
import Statechart.Proofs.Machine.Holding

/-!
# The table of invocations call by call

Invocations are started, given tasks, settled, consumed and cancelled, in any order: a result may
come before the task is attached, or after the invocation was replaced, and an identity may be
mentioned that was not drawn yet. What each call comes to is written into a log, and the log
alone says what the table answers next: the invocation that is held is the current one of its
state, and the only one that can be settled or consumed.

The table agrees with its log whatever the calls (`agrees_of_calls`, `tasked_of_calls`). What
follows from it is that each result counts once, and that no task gets lost
(`accounted_of_calls`): a task goes on as long as its invocation is held, is left alone once the
result was consumed, and is aborted otherwise.
-/

namespace Statechart.Invocations

variable {S : Type}

/-- A call on a table of invocations. -/
inductive Call (S : Type) where
  | register (state : S)
  | attach (state : S) (id : InvocationId) (task : TaskId)
  | settle (state : S) (id : InvocationId)
  | consume (state : S) (id : InvocationId)
  | cancel (state : S)
  | cancelAll

/-- The invocation that a call gives a task to. -/
def Call.attached? : Call S → Option InvocationId
  | .attach _ id _ => some id
  | _ => none

variable [DecidableEq S]

/-- The table after a call. -/
def after (t : Invocations S) : Call S → Invocations S
  | .register s => t.register s
  | .attach s id task => t.attach s id task
  | .settle s id => (t.settle? s id).getD t
  | .consume s id => (t.consume? s id).getD t
  | .cancel s => t.cancel s
  | .cancelAll => t.cancelAll

/-- What a call comes to. A result that is turned down comes to nothing. -/
def event? (t : Invocations S) : Call S → Option (Event S)
  | .register s => some (.registered s t.supply.next)
  | .attach s id task => some (.attached s id task)
  | .settle s id => (t.settle? s id).map fun _ => .settled s id
  | .consume s id => (t.consume? s id).map fun _ => .consumed s id
  | .cancel s => some (.cancelled s)
  | .cancelAll => some .cancelledAll

/-- The table after calls on an empty one with a supply, the latest first. -/
def afterAll (supply : Supply) : List (Call S) → Invocations S
  | [] => { supply }
  | call :: earlier => (afterAll supply earlier).after call

/-- What calls on an empty table came to, the latest first. -/
def log (supply : Supply) : List (Call S) → List (Event S)
  | [] => []
  | call :: earlier => ((afterAll supply earlier).event? call).toList ++ log supply earlier

/-- What is known of the table after calls on an empty one. -/
structure Accounted (supply : Supply) (calls : List (Call S)) : Prop where
  /-- No identity is given out twice. -/
  distinct : ((log supply calls).filterMap Event.registered?).Nodup
  one : (afterAll supply calls).states.Nodup
  /-- The current invocation of a state is the one that is held. -/
  current : ∀ s id, (afterAll supply calls).isCurrent s id ↔ HeldSince (log supply calls) s id
  unique : ∀ s id id', HeldSince (log supply calls) s id → HeldSince (log supply calls) s id' → id = id'
  /-- A result is accepted if its invocation is held and none was accepted before. -/
  settles : ∀ s id, ((afterAll supply calls).settle? s id).isSome ↔
    HeldSince (log supply calls) s id ∧ .settled s id ∉ log supply calls
  /-- A result retires its invocation if that is held and the result was accepted before. -/
  consumes : ∀ s id, ((afterAll supply calls).consume? s id).isSome ↔
    HeldSince (log supply calls) s id ∧ .settled s id ∈ log supply calls
  settledOnce : ((log supply calls).filterMap Event.settled?).Nodup
  consumedOnce : ((log supply calls).filterMap Event.consumed?).Nodup
  /-- Nothing comes of an invocation any more that was superseded. -/
  superseded : ∀ later s id earlier e, log supply calls = later ++ .registered s id :: earlier →
    e ∈ later → e.Supersedes s →
      (afterAll supply calls).settle? s id = none ∧ (afterAll supply calls).consume? s id = none
  /-- The tasks aborted are those that were dropped. -/
  aborted : ∀ task, task ∈ (afterAll supply calls).aborted ↔
    ∃ s id, Dropped (log supply calls) s id task
  /-- A task that is not aborted is known as its invocation's, unless that was consumed. -/
  kept : ∀ later s id task earlier, log supply calls = later ++ .attached s id task :: earlier →
    task ∈ (afterAll supply calls).aborted ∨ .consumed s id ∈ later ∨
      ∃ r, (afterAll supply calls).get? s = some r ∧ r.id = id ∧ r.task = some task

/-! ## The table and the log -/

variable {t t' : Invocations S} {s x : S} {id : InvocationId} {task : TaskId}
  {l : List (Event S)} {call : Call S} {calls : List (Call S)} {supply : Supply}

theorem states_remove (t : Invocations S) (s : S) :
    (t.remove s).states = t.states.filter (· ≠ s) := by
  unfold states remove
  rw [List.filter_map]
  rfl

theorem pending?_register (t : Invocations S) (s x : S) :
    (t.register s).pending? x = if x = s then some (t.supply.next, false) else t.pending? x := by
  unfold pending?
  rw [get?_register]
  split <;> rfl

/-- The table and a log agree on which invocation is running for a state and whether its result was
accepted. -/
structure Agrees (l : List (Event S)) (t : Invocations S) : Prop where
  states : t.states.Nodup
  drawn : ∀ s id, .registered s id ∈ l → t.supply.Drawn id
  distinct : (l.filterMap Event.registered?).Nodup
  known : ∀ s id, .settled s id ∈ l → .registered s id ∈ l
  pending : ∀ s id b, t.pending? s = some (id, b) ↔
    HeldSince l s id ∧ (b = true ↔ .settled s id ∈ l)
  consumed : ∀ s id, .consumed s id ∈ l → .registered s id ∈ l ∧ ¬ HeldSince l s id
  settledOnce : (l.filterMap Event.settled?).Nodup
  consumedOnce : (l.filterMap Event.consumed?).Nodup

theorem agrees_nil (supply : Supply) : Agrees ([] : List (Event S)) { supply } where
  states := List.nodup_nil
  drawn := fun _ _ h => absurd h List.not_mem_nil
  distinct := List.nodup_nil
  known := fun _ _ h => absurd h List.not_mem_nil
  pending := by
    intro s id b
    constructor
    · intro h
      exact absurd h (by simp [pending?, get?])
    · rintro ⟨⟨later, earlier, h, -⟩, -⟩
      exact absurd h (by simp)
  consumed := fun _ _ h => absurd h List.not_mem_nil
  settledOnce := List.nodup_nil
  consumedOnce := List.nodup_nil

/-- The invocation of a state that is held is the one that the table has. -/
theorem heldSince_iff (h : Agrees l t) : HeldSince l s id ↔ ∃ b, t.pending? s = some (id, b) := by
  constructor
  · intro hheld
    by_cases hsettled : .settled s id ∈ l
    · exact ⟨true, (h.pending s id true).mpr ⟨hheld, iff_of_true rfl hsettled⟩⟩
    · exact ⟨false, (h.pending s id false).mpr ⟨hheld, iff_of_false (by simp) hsettled⟩⟩
  · rintro ⟨b, hb⟩
    exact ((h.pending s id b).mp hb).1

theorem heldSince_unique (h : Agrees l t) {id' : InvocationId} (hid : HeldSince l s id)
    (hid' : HeldSince l s id') : id = id' := by
  obtain ⟨b, hb⟩ := (heldSince_iff h).mp hid
  obtain ⟨b', hb'⟩ := (heldSince_iff h).mp hid'
  rw [hb, Option.some.injEq, Prod.mk.injEq] at hb'
  exact hb'.1

/-! ### One call -/

theorem agrees_register (h : Agrees l t) (s : S) :
    Agrees (.registered s t.supply.next :: l) (t.register s) where
  states := by
    show (s :: (t.remove s).states).Nodup
    rw [states_remove]
    exact List.nodup_cons.mpr ⟨by simp, h.states.filter _⟩
  drawn := by
    intro x id hx
    refine Supply.drawn_draw.mpr ?_
    rcases List.mem_cons.mp hx with he | hx
    · exact Or.inr (Event.registered.inj he).2
    · exact Or.inl (h.drawn x id hx)
  distinct := by
    refine List.nodup_cons.mpr ⟨fun hmem => ?_, h.distinct⟩
    obtain ⟨e, he, hid⟩ := List.mem_filterMap.mp hmem
    cases e with
    | registered x id =>
      rw [Event.registered?, Option.some.injEq] at hid
      exact absurd (h.drawn x id he) (hid ▸ Supply.not_drawn_next _)
    | attached | settled | consumed | cancelled | cancelledAll => simp [Event.registered?] at hid
  known := fun x id hx => List.mem_cons_of_mem _ (h.known x id (by simpa using hx))
  pending := by
    intro x id b
    have hsettled : Event.settled x id ∈ Event.registered s t.supply.next :: l ↔ .settled x id ∈ l := by
      simp
    rw [pending?_register, heldSince_cons, hsettled]
    by_cases hx : x = s
    · subst hx
      rw [if_pos rfl, Option.some.injEq, Prod.mk.injEq]
      -- nothing is known of the new invocation yet
      have hnew : Event.settled x t.supply.next ∉ l := fun hmem =>
        absurd (h.drawn x _ (h.known x _ hmem)) (Supply.not_drawn_next _)
      constructor
      · rintro ⟨rfl, rfl⟩
        exact ⟨Or.inl rfl, iff_of_false (by simp) hnew⟩
      · rintro ⟨he | hold, hb⟩
        · obtain ⟨-, rfl⟩ := Event.registered.inj he
          exact ⟨rfl, by simpa [hnew] using hb⟩
        · exact absurd rfl hold.2.1
    · rw [if_neg hx, h.pending]
      have hne : ¬ s = x := fun he => hx he.symm
      simp [Event.Supersedes, hne]
  consumed := by
    intro x id hx
    obtain ⟨hreg, hheld⟩ := h.consumed x id (by simpa using hx)
    refine ⟨List.mem_cons_of_mem _ hreg, fun hheld' => ?_⟩
    rcases heldSince_cons.mp hheld' with he | hold
    · obtain ⟨-, rfl⟩ := Event.registered.inj he
      exact absurd (h.drawn x _ hreg) (Supply.not_drawn_next _)
    · exact hheld hold.1
  settledOnce := h.settledOnce
  consumedOnce := h.consumedOnce

theorem agrees_settle (h : Agrees l t) (hs : t.settle? s id = some t') :
    Agrees (.settled s id :: l) t' := by
  obtain ⟨hid, hsupply, hpending⟩ := pending?_settle hs
  obtain ⟨hheld, hnew⟩ := (h.pending s id false).mp hid
  have hreg := mem_of_heldSince hheld
  constructor
  case states => exact states_settle hs ▸ h.states
  case drawn =>
    intro x id' hx
    rw [hsupply]
    exact h.drawn x id' (by simpa using hx)
  case distinct => exact h.distinct
  case known =>
    intro x id' hx
    rcases List.mem_cons.mp hx with he | hx
    · obtain ⟨rfl, rfl⟩ := Event.settled.inj he
      exact List.mem_cons_of_mem _ hreg
    · exact List.mem_cons_of_mem _ (h.known x id' hx)
  case pending =>
    intro x id' b
    rw [hpending, heldSince_cons]
    by_cases hx : x = s
    · subst hx
      rw [if_pos rfl, Option.some.injEq, Prod.mk.injEq]
      constructor
      · rintro ⟨rfl, rfl⟩
        exact ⟨Or.inr ⟨hheld, fun h => h, by simp⟩, iff_of_true rfl (List.mem_cons_self ..)⟩
      · rintro ⟨he | hold, hb⟩
        · exact absurd he (by simp)
        · obtain rfl := heldSince_unique h hheld hold.1
          exact ⟨rfl, (hb.mpr (List.mem_cons_self ..)).symm⟩
    · rw [if_neg hx, h.pending]
      simp [Event.Supersedes, hx]
  case consumed =>
    intro x id' hx
    obtain ⟨hreg, hheld⟩ := h.consumed x id' (by simpa using hx)
    refine ⟨List.mem_cons_of_mem _ hreg, fun hheld' => hheld ?_⟩
    simpa [heldSince_cons, Event.Supersedes] using hheld'
  case settledOnce =>
    refine List.nodup_cons.mpr ⟨fun hmem => ?_, h.settledOnce⟩
    obtain ⟨e, he, hid'⟩ := List.mem_filterMap.mp hmem
    cases e with
    | settled x id' =>
      rw [Event.settled?, Option.some.injEq] at hid'
      subst hid'
      -- the number belongs to one state, whose result was not accepted before
      obtain rfl := state_unique h.distinct hreg (h.known x _ he)
      exact absurd (hnew.mpr he) (by simp)
    | attached | registered | consumed | cancelled | cancelledAll => simp [Event.settled?] at hid'
  case consumedOnce => exact h.consumedOnce

theorem agrees_consume (h : Agrees l t) (hs : t.consume? s id = some t') :
    Agrees (.consumed s id :: l) t' := by
  rw [consume?_eq] at hs
  split at hs
  case isFalse => exact absurd hs (by simp)
  case isTrue hid =>
    rw [Option.some.injEq] at hs
    subst hs
    have hheld : HeldSince l s id := ((h.pending s id true).mp hid).1
    constructor
    case states => exact states_remove t s ▸ h.states.filter _
    case drawn => exact fun x id' hx => h.drawn x id' (by simpa using hx)
    case distinct => exact h.distinct
    case known => exact fun x id' hx => List.mem_cons_of_mem _ (h.known x id' (by simpa using hx))
    case pending =>
      intro x id' b
      have hsettled : Event.settled x id' ∈ Event.consumed s id :: l ↔ .settled x id' ∈ l := by simp
      rw [pending?_remove, heldSince_cons, hsettled]
      by_cases hx : x = s
      · subst hx
        rw [if_pos rfl]
        -- one id was held by the state, and it is gone
        refine iff_of_false (by simp) fun hold => ?_
        obtain ⟨he | ⟨hheld', -, hne⟩, -⟩ := hold
        · exact absurd he (by simp)
        · exact hne (heldSince_unique h hheld hheld' ▸ rfl)
      · rw [if_neg hx, h.pending]
        have hne : ¬ s = x := fun he => hx he.symm
        simp [Event.Supersedes, hne]
    case consumed =>
      intro x id' hx
      rcases List.mem_cons.mp hx with he | hx
      · obtain ⟨rfl, rfl⟩ := Event.consumed.inj he
        exact ⟨List.mem_cons_of_mem _ (mem_of_heldSince hheld), by simp [heldSince_cons]⟩
      · obtain ⟨hreg, hheld'⟩ := h.consumed x id' hx
        exact ⟨List.mem_cons_of_mem _ hreg, by simp [heldSince_cons, hheld']⟩
    case settledOnce => exact h.settledOnce
    case consumedOnce =>
      refine List.nodup_cons.mpr ⟨fun hmem => ?_, h.consumedOnce⟩
      obtain ⟨e, he, hid'⟩ := List.mem_filterMap.mp hmem
      cases e with
      | consumed x id' =>
        rw [Event.consumed?, Option.some.injEq] at hid'
        subst hid'
        obtain ⟨hreg, hheld'⟩ := h.consumed x _ he
        obtain rfl := state_unique h.distinct (mem_of_heldSince hheld) hreg
        exact hheld' hheld
      | attached | registered | settled | cancelled | cancelledAll =>
        simp [Event.consumed?] at hid'

/-- An event that neither starts an invocation nor is about a result may supersede some. -/
theorem agrees_cons {e : Event S} (h : Agrees l t) (hregistered : e.registered? = none)
    (hsettled : e.settled? = none) (hconsumed : e.consumed? = none) (hstates : t'.states.Nodup)
    (hsupply : t'.supply = t.supply) (hgone : ∀ x, e.Supersedes x → t'.pending? x = none)
    (hkept : ∀ x, ¬ e.Supersedes x → t'.pending? x = t.pending? x) : Agrees (e :: l) t' := by
  have hreg : ∀ x id, e ≠ .registered x id := by
    rintro x id rfl
    simp [Event.registered?] at hregistered
  have hset : ∀ x id, Event.settled x id ∈ e :: l ↔ .settled x id ∈ l := by
    intro x id
    refine List.mem_cons.trans (or_iff_right ?_)
    rintro rfl
    simp [Event.settled?] at hsettled
  have hcon : ∀ x id, e ≠ .consumed x id := by
    rintro x id rfl
    simp [Event.consumed?] at hconsumed
  -- an event of another kind can only end what is held
  have hheld : ∀ x id, HeldSince (e :: l) x id ↔ HeldSince l x id ∧ ¬ e.Supersedes x := by
    intro x id
    rw [heldSince_cons, or_iff_right (hreg x id), and_iff_left (hcon x id)]
  constructor
  case states => exact hstates
  case drawn =>
    intro x id hx
    rw [hsupply]
    exact h.drawn x id ((List.mem_cons.mp hx).resolve_left fun he => hreg x id he.symm)
  case distinct => rw [List.filterMap_cons_none hregistered]; exact h.distinct
  case known => exact fun x id hx => List.mem_cons_of_mem _ (h.known x id ((hset x id).mp hx))
  case pending =>
    intro x id b
    rw [hheld, hset]
    by_cases hsup : e.Supersedes x
    · rw [hgone x hsup]
      exact iff_of_false (by simp) fun hold => hold.1.2 hsup
    · rw [hkept x hsup, and_iff_left hsup, h.pending]
  case consumed =>
    intro x id hx
    obtain ⟨hreg', hheld'⟩ :=
      h.consumed x id ((List.mem_cons.mp hx).resolve_left fun he => hcon x id he.symm)
    exact ⟨List.mem_cons_of_mem _ hreg', fun hold => hheld' ((hheld x id).mp hold).1⟩
  case settledOnce => rw [List.filterMap_cons_none hsettled]; exact h.settledOnce
  case consumedOnce => rw [List.filterMap_cons_none hconsumed]; exact h.consumedOnce

/-- Whatever the call, the table agrees with what it came to. -/
theorem agrees_after (h : Agrees l t) (call : Call S) :
    Agrees ((t.event? call).toList ++ l) (t.after call) := by
  cases call with
  | register s => exact agrees_register h s
  | attach s id task =>
    refine agrees_cons h rfl rfl rfl ?_ (supply_attach ..) (fun _ hsup => hsup.elim)
      fun x _ => pending?_attach ..
    show (t.attach s id task).states.Nodup
    rw [states_attach]
    exact h.states
  | settle s id =>
    show Agrees (((t.settle? s id).map fun _ => Event.settled s id).toList ++ l)
      ((t.settle? s id).getD t)
    cases hs : t.settle? s id with
    | none => exact h
    | some t' => exact agrees_settle h hs
  | consume s id =>
    show Agrees (((t.consume? s id).map fun _ => Event.consumed s id).toList ++ l)
      ((t.consume? s id).getD t)
    cases hs : t.consume? s id with
    | none => exact h
    | some t' => exact agrees_consume h hs
  | cancel s =>
    have hpending : ∀ x, (t.cancel s).pending? x = if x = s then none else t.pending? x :=
      pending?_remove t s
    refine agrees_cons h rfl rfl rfl ?_ rfl (fun x hx => ?_) fun x hx => ?_
    · exact states_remove t s ▸ h.states.filter _
    · exact (hpending x).trans (if_pos hx.symm)
    · exact (hpending x).trans (if_neg fun he => hx he.symm)
  | cancelAll =>
    exact agrees_cons h rfl rfl rfl List.nodup_nil rfl (fun _ _ => rfl) fun _ hx => absurd trivial hx

/-! ### Tasks -/

theorem get?_eq_some (hstates : t.states.Nodup) {r : Running} :
    t.get? s = some r ↔ (s, r) ∈ t.running := by
  unfold states at hstates
  unfold get?
  generalize t.running = running at hstates ⊢
  induction running with
  | nil => simp
  | cons e rest ih =>
    obtain ⟨y, r'⟩ := e
    obtain ⟨hy, hrest⟩ := List.nodup_cons.mp hstates
    rw [List.lookup_cons, List.mem_cons]
    by_cases hs : s = y
    · subst hs
      have hnone : (s, r) ∉ rest := fun hmem => hy (List.mem_map.mpr ⟨_, hmem, rfl⟩)
      simp [hnone, eq_comm]
    · rw [beq_eq_false_iff_ne.mpr hs]
      simp [hs, ih hrest]

theorem aborted_settle (h : t.settle? s id = some t') : t'.aborted = t.aborted := by
  rw [settle?_eq] at h
  split at h
  · rw [← Option.some.inj h]
    rfl
  · exact absurd h (by simp)

theorem aborted_consume (h : t.consume? s id = some t') : t'.aborted = t.aborted := by
  rw [consume?_eq] at h
  split at h
  · rw [← Option.some.inj h]
    rfl
  · exact absurd h (by simp)

/-- Whether an event aborts a task: it attaches the task for nothing, or supersedes the invocation
that has the task. -/
def Aborts (t : Invocations S) (e : Event S) (s : S) (id : InvocationId) (task : TaskId) : Prop :=
  (e = .attached s id task ∧ ¬ t.isCurrent s id) ∨
    (e.Supersedes s ∧ ∃ r, t.get? s = some r ∧ r.id = id ∧ r.task = some task)

/-- A call aborts the tasks that its event aborts. -/
theorem mem_aborted_after (hstates : t.states.Nodup) (call : Call S) :
    task ∈ (t.after call).aborted ↔
      task ∈ t.aborted ∨ ∃ e ∈ t.event? call, ∃ s id, t.Aborts e s id task := by
  have hcancel : ∀ s, task ∈ (t.cancel s).aborted ↔
      task ∈ t.aborted ∨ ∃ r, t.get? s = some r ∧ r.task = some task := by
    intro s
    show task ∈ ((t.get? s).bind (·.task)).toList ++ t.aborted ↔ _
    rw [List.mem_append, Option.mem_toList, Option.bind_eq_some_iff, or_comm]
  cases call with
  | register s =>
    refine (hcancel s).trans (or_congr_right ?_)
    simp [event?, Aborts, Event.Supersedes]
  | attach s id task' =>
    have hsup : ∀ x id', ¬ ((Event.attached s id task').Supersedes x ∧
        ∃ r, t.get? x = some r ∧ r.id = id' ∧ r.task = some task) := fun _ _ h => h.1
    show task ∈ (t.attach s id task').aborted ↔
      _ ∨ ∃ e ∈ some (Event.attached s id task'), ∃ x id', t.Aborts e x id' task
    unfold attach
    -- a task that comes too late is aborted at once
    by_cases hcur : t.isCurrent s id
    · rw [if_pos hcur]
      refine (or_iff_left ?_).symm
      rintro ⟨_, ⟨⟩, x, id', ⟨he, hnot⟩ | hother⟩
      · obtain ⟨rfl, rfl, -⟩ := Event.attached.inj he
        exact hnot hcur
      · exact hsup x id' hother
    · rw [if_neg hcur, List.mem_cons, or_comm]
      refine or_congr_right ⟨?_, ?_⟩
      · rintro rfl
        exact ⟨_, rfl, s, id, Or.inl ⟨rfl, hcur⟩⟩
      · rintro ⟨_, ⟨⟩, x, id', ⟨he, -⟩ | hother⟩
        · exact (Event.attached.inj he).2.2.symm
        · exact absurd hother (hsup x id')
  | settle s id =>
    show task ∈ ((t.settle? s id).getD t).aborted ↔ _
    cases hs : t.settle? s id with
    | none => simp [event?, hs]
    | some t' => simp [event?, hs, aborted_settle hs, Aborts, Event.Supersedes]
  | consume s id =>
    show task ∈ ((t.consume? s id).getD t).aborted ↔ _
    cases hs : t.consume? s id with
    | none => simp [event?, hs]
    | some t' => simp [event?, hs, aborted_consume hs, Aborts, Event.Supersedes]
  | cancel s =>
    refine (hcancel s).trans (or_congr_right ?_)
    simp [event?, Aborts, Event.Supersedes]
  | cancelAll =>
    show task ∈ t.running.filterMap (·.2.task) ++ t.aborted ↔ _
    rw [List.mem_append, or_comm, List.mem_filterMap]
    refine or_congr_right ?_
    simp [event?, Aborts, Event.Supersedes, get?_eq_some hstates]

/-- The table and a log agree on the tasks, too: on which task each running invocation has, and on
which tasks were aborted. -/
structure Tasked (l : List (Event S)) (t : Invocations S) : Prop where
  tasks : ∀ s r, t.get? s = some r → ∀ task, r.task = some task ↔ TakenOn l s r.id task
  aborted : ∀ task, task ∈ t.aborted ↔ ∃ s id, Dropped l s id task

theorem isCurrent_eq : t.isCurrent s id ↔ ∃ r, t.get? s = some r ∧ r.id = id := by
  unfold isCurrent
  cases t.get? s <;> simp

theorem isCurrent_iff (h : Agrees l t) : t.isCurrent s id ↔ HeldSince l s id := by
  rw [heldSince_iff h, isCurrent_eq]
  unfold pending?
  cases t.get? s <;> simp

/-- The task that a running invocation has is one that it has taken on. -/
theorem taken_iff (h : Agrees l t) (ht : Tasked l t) :
    (∃ r, t.get? s = some r ∧ r.id = id ∧ r.task = some task) ↔
      HeldSince l s id ∧ TakenOn l s id task := by
  rw [← isCurrent_iff h, isCurrent_eq]
  constructor
  · rintro ⟨r, hr, rfl, htask⟩
    exact ⟨⟨r, hr, rfl⟩, (ht.tasks s r hr task).mp htask⟩
  · rintro ⟨⟨r, hr, rfl⟩, htaken⟩
    exact ⟨r, hr, rfl, (ht.tasks s r hr task).mpr htaken⟩

/-- What the calls abort is what the log says was dropped. -/
theorem aborted_after (h : Agrees l t) (ht : Tasked l t) (call : Call S) (task : TaskId) :
    task ∈ (t.after call).aborted ↔
      ∃ s id, Dropped ((t.event? call).toList ++ l) s id task := by
  rw [mem_aborted_after h.states, ht.aborted]
  cases t.event? call with
  | none => simp
  | some e =>
    have hcons : ∀ s id, Dropped (e :: l) s id task ↔
        Dropped l s id task ∨ t.Aborts e s id task := by
      intro s id
      rw [dropped_cons fun s id hx => (h.consumed s id hx).2, Aborts, taken_iff h ht,
        isCurrent_iff h]
    simp [hcons, exists_or]

/-- A call that does not attach a task leaves an invocation that goes on its task. -/
theorem get?_after (hcall : call.attached? = none) {r : Running}
    (hr : (t.after call).get? s = some r) :
    r = { id := t.supply.next } ∨ ∃ r₀, t.get? s = some r₀ ∧ r₀.id = r.id ∧ r₀.task = r.task := by
  have hremove : ∀ x, (t.remove x).get? s = some r → t.get? s = some r := by
    intro x hget
    rw [get?_remove] at hget
    split at hget
    · exact absurd hget (by simp)
    · exact hget
  cases call with
  | register x =>
    have hget : (t.register x).get? s = some r := hr
    rw [get?_register] at hget
    split at hget
    · exact Or.inl (Option.some.inj hget).symm
    · exact Or.inr ⟨r, hget, rfl, rfl⟩
  | attach => exact absurd hcall (by simp [Call.attached?])
  | settle x id =>
    have hget : ((t.settle? x id).getD t).get? s = some r := hr
    rw [settle?_eq] at hget
    split at hget
    · rw [Option.getD_some, get?_modify, Option.map_eq_some_iff] at hget
      obtain ⟨r₀, hr₀, rfl⟩ := hget
      exact Or.inr ⟨r₀, hr₀, by split <;> rfl, by split <;> rfl⟩
    · exact Or.inr ⟨r, hget, rfl, rfl⟩
  | consume x id =>
    have hget : ((t.consume? x id).getD t).get? s = some r := hr
    rw [consume?_eq] at hget
    split at hget
    · exact Or.inr ⟨r, hremove x hget, rfl, rfl⟩
    · exact Or.inr ⟨r, hget, rfl, rfl⟩
  | cancel x => exact Or.inr ⟨r, hremove x hr, rfl, rfl⟩
  | cancelAll => exact absurd hr (by simp [after, cancelAll, get?])

theorem attached_event? (t : Invocations S) (call : Call S) :
    (t.event? call).toList.filterMap Event.attached? = call.attached?.toList := by
  cases call with
  | settle s id =>
    show ((t.settle? s id).map fun _ => Event.settled s id).toList.filterMap Event.attached? = []
    cases t.settle? s id <;> rfl
  | consume s id =>
    show ((t.consume? s id).map fun _ => Event.consumed s id).toList.filterMap Event.attached? = []
    cases t.consume? s id <;> rfl
  | register | attach | cancel | cancelAll => rfl

/-- An invocation that is given one task at most has the task that it took on. -/
theorem tasks_after (h : Agrees l t) (ht : Tasked l t) (call : Call S)
    (honce : ∀ id ∈ call.attached?, id ∉ l.filterMap Event.attached?) {r : Running}
    (hr : (t.after call).get? s = some r) (task : TaskId) :
    r.task = some task ↔ TakenOn ((t.event? call).toList ++ l) s r.id task := by
  cases hcall : call.attached? with
  | none =>
    have hcons : TakenOn ((t.event? call).toList ++ l) s r.id task ↔ TakenOn l s r.id task := by
      have hattached := attached_event? t call
      rw [hcall] at hattached
      cases hevent : t.event? call with
      | none => rfl
      | some e =>
        rw [Option.toList_some, List.singleton_append, takenOn_cons]
        refine or_iff_right fun htaken => ?_
        rw [hevent, htaken.1] at hattached
        exact absurd hattached (by simp [Event.attached?])
    rw [hcons]
    rcases get?_after hcall hr with rfl | ⟨r₀, hr₀, hid, htask⟩
    · -- a new invocation has no task, and the log does not know of it
      refine iff_of_false (by simp) fun htaken => ?_
      exact absurd (h.drawn s _ (mem_of_takenOn htaken).2) (Supply.not_drawn_next _)
    · rw [← hid, ← htask]
      exact ht.tasks s r₀ hr₀ task
  | some id =>
    cases call with
    | register | settle | consume | cancel | cancelAll => simp [Call.attached?] at hcall
    | attach x id' task' =>
      obtain rfl := Option.some.inj hcall
      have hget : (t.attach x id' task').get? s = some r := hr
      rw [get?_attach, Option.map_eq_some_iff] at hget
      obtain ⟨r₀, hr₀, rfl⟩ := hget
      show _ ↔ TakenOn (.attached x id' task' :: l) s _ task
      rw [takenOn_cons]
      by_cases hx : s = x ∧ r₀.id = id'
      · obtain ⟨rfl, rfl⟩ := hx
        rw [if_pos ⟨rfl, rfl⟩]
        have hheld : HeldSince l s r₀.id := (isCurrent_iff h).mp (isCurrent_eq.mpr ⟨r₀, hr₀, rfl⟩)
        constructor
        · intro he
          rw [Option.some.inj he]
          exact Or.inl ⟨rfl, hheld⟩
        · rintro (⟨he, -⟩ | htaken)
          · rw [(Event.attached.inj he).2.2]
          · -- it would have been given a task before
            have hbefore : r₀.id ∈ l.filterMap Event.attached? :=
              List.mem_filterMap.mpr ⟨_, (mem_of_takenOn htaken).1, rfl⟩
            exact absurd hbefore (honce _ rfl)
      · rw [if_neg hx, ht.tasks s r₀ hr₀ task]
        refine (or_iff_right ?_).symm
        rintro ⟨he, -⟩
        obtain ⟨rfl, rfl, -⟩ := Event.attached.inj he
        exact hx ⟨rfl, rfl⟩

/-! ### Call after call -/

theorem agrees_of_calls (supply : Supply) :
    ∀ calls : List (Call S), Agrees (log supply calls) (afterAll supply calls)
  | [] => agrees_nil supply
  | call :: earlier => agrees_after (agrees_of_calls supply earlier) call

theorem attached_log (supply : Supply) : ∀ calls : List (Call S),
    (log supply calls).filterMap Event.attached? = calls.filterMap Call.attached?
  | [] => rfl
  | call :: earlier => by
    have ih := attached_log supply earlier
    rw [log, List.filterMap_append, attached_event?, ih, List.filterMap_cons]
    cases call.attached? <;> rfl

theorem tasked_of_calls (supply : Supply) : ∀ {calls : List (Call S)},
    (calls.filterMap Call.attached?).Nodup → Tasked (log supply calls) (afterAll supply calls)
  | [], _ => by
    refine ⟨fun s r hr => absurd hr (by simp [afterAll, get?]), fun task => ?_⟩
    refine iff_of_false List.not_mem_nil ?_
    rintro ⟨s, id, later, earlier, hl, -⟩
    exact absurd hl (by simp [log])
  | call :: earlier, honce => by
    rw [List.filterMap_cons] at honce
    have hearlier : (earlier.filterMap Call.attached?).Nodup := by
      split at honce
      · exact honce
      · exact honce.of_cons
    have ih := tasked_of_calls supply hearlier
    have hagrees := agrees_of_calls supply earlier
    refine ⟨fun s r hr task => tasks_after hagrees ih call ?_ hr task, aborted_after hagrees ih call⟩
    intro id hid
    rw [attached_log]
    rw [Option.mem_def] at hid
    rw [hid] at honce
    exact (List.nodup_cons.mp honce).1

theorem settle?_isSome (h : Agrees l t) :
    (t.settle? s id).isSome ↔ HeldSince l s id ∧ .settled s id ∉ l := by
  have hpending := h.pending s id false
  rw [Bool.false_eq_true, false_iff] at hpending
  rw [settle?_eq, ← hpending]
  split <;> simp_all

theorem consume?_isSome (h : Agrees l t) :
    (t.consume? s id).isSome ↔ HeldSince l s id ∧ .settled s id ∈ l := by
  have hpending := h.pending s id true
  rw [eq_self, true_iff] at hpending
  rw [consume?_eq, ← hpending]
  split <;> simp_all

/-- Whatever the supply and the calls on an empty table, no result counts twice or for an invocation that was
superseded; and if no invocation is given two tasks, none of the tasks gets lost. -/
theorem accounted_of_calls (supply : Supply) (calls : List (Call S))
    (honce : (calls.filterMap Call.attached?).Nodup) : Accounted supply calls := by
  have hagrees := agrees_of_calls supply calls
  have htasked := tasked_of_calls supply honce
  constructor
  case distinct => exact hagrees.distinct
  case one => exact hagrees.states
  case current => exact fun _ _ => isCurrent_iff hagrees
  case unique => exact fun _ _ _ => heldSince_unique hagrees
  case settles => exact fun _ _ => settle?_isSome hagrees
  case consumes => exact fun _ _ => consume?_isSome hagrees
  case settledOnce => exact hagrees.settledOnce
  case consumedOnce => exact hagrees.consumedOnce
  case superseded =>
    intro later s id earlier e hl he hsup
    have hheld := not_heldSince hagrees.distinct hl he hsup
    constructor
    · exact Option.not_isSome_iff_eq_none.mp fun h => hheld ((settle?_isSome hagrees).mp h).1
    · exact Option.not_isSome_iff_eq_none.mp fun h => hheld ((consume?_isSome hagrees).mp h).1
  case aborted => exact htasked.aborted
  case kept =>
    intro later s id task earlier hl
    by_cases hconsumed : .consumed s id ∈ later
    · exact Or.inr (Or.inl hconsumed)
    · rcases dropped_or_held hl hconsumed with hdropped | htaken
      · exact Or.inl ((htasked.aborted task).mpr ⟨s, id, hdropped⟩)
      · exact Or.inr (Or.inr ((taken_iff hagrees htasked).mpr htaken))

/-- The first invocation of a state is replaced, and the result of the second one counts. -/
def replacing : List (Call Bool) :=
  [.consume true 1, .settle true 1, .settle true 0, .attach true 1 8, .register true,
    .attach true 0 7, .register true]

theorem accounted_replacing : (replacing.filterMap Call.attached?).Nodup ∧
    Accounted default replacing ∧ (afterAll default replacing).aborted = [7] :=
  ⟨by decide, accounted_of_calls default replacing (by decide), by decide⟩

end Statechart.Invocations
