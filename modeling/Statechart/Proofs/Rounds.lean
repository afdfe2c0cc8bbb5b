import Mathlib.Logic.Relation
import Statechart.Proofs.Queue

/-!
# Round after round

A call that is admitted works the queue off in rounds: one leads to the next (`Round`) until one
is the last (`Closes`). The number of rounds is not known beforehand, which is what the fuel is
for; but there is only one way for it to go. If the rounds of a call come to a machine (`Comes`)
with which they close, then the call has a result, and always the same one, from some amount of
fuel on (`call_of_comes`). The turns of a call are the rounds in which a signal is processed, in their
order (`turnsOf_of_call`), and the last of them leads to what the call returns.

What a machine goes through later (`Goes`) may be any number of calls, results and changes made
from outside. A machine whose life is over is not moved by any of them (`unmoved_of_goes`).
-/

namespace Statechart

variable {D : Domain}

/-- An event in which no work is asked for, accepted or done. -/
structure Event.Silent (e : Event D) : Prop where
  took : e.took = none
  processed : e.processed = none
  accepted : e.accepted = none
  put : e.put = []

namespace Machine

variable {c : Chart D} {m m' m₀ : Machine D} {signal : Signal D} {o : Outcome D}
  {e : Event D} {log : List (Event D)} {later : List (Work D)} {fuel : Nat} {call : Call D}
  {s : D.State} {id : InvocationId} {result : Except InvokeError D.Output}

/-! ## Rounds -/

/-- A round of working the queue off, with another one to follow. -/
inductive Round (m : Machine D) : Machine D → Prop
  | skip {m' : Machine D} :
      m.Serves false → m.nextTurn = .skip m' → Round m m'
  | turn {m₀ : Machine D} {signal : Signal D} {later : List (Work D)} {o : Outcome D} :
      m.Serves false → m.nextTurn = .process m₀ signal later →
      m₀.advance signal = some o → o.error = none → Round m (o.machine.enqueueAll later)

/-- The last round of working the queue off: there is nothing left, something went wrong, or the
machine is stopped. -/
inductive Closes (m : Machine D) : Outcome D → Prop
  | idle : m.Serves false → m.nextTurn = .idle → Closes m { machine := m }
  | turn {m₀ : Machine D} {signal : Signal D} {later : List (Work D)} {o : Outcome D} :
      m.Serves false → m.nextTurn = .process m₀ signal later →
      m₀.advance signal = some o → o.error ≠ none → Closes m o
  | stop {o : Outcome D} : m.Serves true → m.finish = some o → Closes m o

/-- The rounds of a machine come to another. -/
abbrev Reaches : Machine D → Machine D → Prop := Relation.ReflTransGen Round

/-- So they do, and some machines process a signal on the way, one after another. -/
inductive TurnsTo : Machine D → List (Machine D) → Machine D → Prop
  | rest {m : Machine D} : TurnsTo m [] m
  | skip {m m₁ m' : Machine D} {l : List (Machine D)} :
      m.Serves false → m.nextTurn = .skip m₁ → TurnsTo m₁ l m' → TurnsTo m l m'
  | turn {m m₀ m' : Machine D} {signal : Signal D} {later : List (Work D)} {o : Outcome D}
      {l : List (Machine D)} :
      m.Serves false → m.nextTurn = .process m₀ signal later → m₀.advance signal = some o →
      o.error = none → TurnsTo (o.machine.enqueueAll later) l m' → TurnsTo m (m :: l) m'

/-- The machine of a last round, if it processes a signal in it. -/
def lastTurn (m : Machine D) : List (Machine D) :=
  if m.shell.stopRequested then []
  else
    match m.nextTurn with
    | .process .. => [m]
    | .idle | .skip _ => []

/-- The rounds of a call come to a machine. -/
def Comes (m : Machine D) (call : Call D) (m' : Machine D) : Prop :=
  ∃ shell, m.shell.receive m.timers.nextEpoch call = .admitted shell ∧ { m with shell }.Reaches m'

/-- So do the rounds that the result of an invocation sets off. -/
def ComesOfResult (m : Machine D) (s : D.State) (id : InvocationId)
    (result : Except InvokeError D.Output) (m' : Machine D) : Prop :=
  m.isLive ∧ ∃ invocations, m.invocations.settle? s id = some invocations ∧
    ({ m with invocations }.enqueueAll [.signal (resultSignal s id result)]).Reaches m'

theorem workOff_of_round (h : m.Round m') (fuel : Nat) :
    m.workOff (fuel + 1) = m'.workOff fuel := by
  cases h with
  | skip hserves hturn => simp [workOff, hserves.stopRequested, hturn]
  | turn hserves hturn ho hgood => simp [workOff, hserves.stopRequested, hturn, ho, hgood]

theorem workOff_of_closes (h : m.Closes o) (fuel : Nat) : m.workOff (fuel + 1) = some o := by
  cases h with
  | idle hserves hturn => simp [workOff, hserves.stopRequested, hturn]
  | turn hserves hturn ho hbad =>
    obtain ⟨error, he⟩ := Option.ne_none_iff_exists'.mp hbad
    simp [workOff, hserves.stopRequested, hturn, ho, he]
  | stop hserves hfin => simp [workOff, hserves.stopRequested, hfin]

/-- Only a free queue is worked off. -/
theorem free_of_reaches (h : m.Reaches m') (hclose : m'.Closes o) : m.blocked = false := by
  rcases h.cases_head with rfl | ⟨m₁, hround, -⟩
  · cases hclose with
    | idle hserves | turn hserves | stop hserves => exact hserves.free
  · cases hround with
    | skip hserves | turn hserves => exact hserves.free

theorem free_of_turn (hserves : m.Serves false) (hturn : m.nextTurn = .process m₀ signal later)
    (ho : m₀.advance signal = some o) (hgood : o.error = none) : o.machine.blocked = false := by
  refine (blocked_of_advance ho hgood).trans ?_
  rw [(nextTurn_process hturn).2]
  exact hserves.free

/-- If the rounds come to an end, fuel that is enough leads there, and less leads nowhere. -/
theorem workOff_of_reaches (h : m.Reaches m') (hclose : m'.Closes o) :
    ∃ n, ∀ fuel, m.workOff fuel = if n ≤ fuel then some o else none := by
  induction h using Relation.ReflTransGen.head_induction_on with
  | refl =>
    refine ⟨1, fun fuel => ?_⟩
    cases fuel with
    | zero => rfl
    | succ fuel => rw [workOff_of_closes hclose, if_pos (Nat.le_add_left ..)]
  | head hround _ ih =>
    obtain ⟨n, hn⟩ := ih
    refine ⟨n + 1, fun fuel => ?_⟩
    cases fuel with
    | zero => rfl
    | succ fuel => simp only [workOff_of_round hround, hn, Nat.add_le_add_iff_right]

/-- Whatever comes of a queue that is worked off, the rounds come to an end with it, and the turns
are the rounds in which a signal is processed. -/
theorem turnsTo_of_workOff : ∀ {fuel : Nat} {m : Machine D}, m.blocked = false →
    m.workOff fuel = some o →
      ∃ l m', m.TurnsTo l m' ∧ m'.Closes o ∧ m.turns fuel = l ++ m'.lastTurn
  | 0, _, _, h => absurd h (by simp [workOff])
  | fuel + 1, m, hfree, h => by
    unfold workOff at h
    split at h
    · next hstop => exact ⟨[], m, .rest, .stop ⟨hfree, hstop⟩ h, by simp [turns, lastTurn, hstop]⟩
    · next hstop =>
      rw [Bool.not_eq_true] at hstop
      have hserves : m.Serves false := ⟨hfree, hstop⟩
      split at h
      · next hturn =>
        obtain rfl := Option.some.inj h
        exact ⟨[], m, .rest, .idle hserves hturn, by simp [turns, lastTurn, hturn]⟩
      · next m₁ hturn =>
        have hfree₁ : m₁.blocked = false := by rw [nextTurn_skip hturn]; exact hfree
        obtain ⟨l, m', hturned, hclose, hturns⟩ := turnsTo_of_workOff hfree₁ h
        exact ⟨l, m', .skip hserves hturn hturned, hclose, (turns_skip hstop hturn).trans hturns⟩
      · next m₀ signal later hturn =>
        obtain ⟨o', ho', h⟩ := Option.bind_eq_some_iff.mp h
        split at h
        · next e he =>
          obtain rfl := Option.some.inj h
          have hlast : m.turns (fuel + 1) = [m] := by
            refine (turns_process fuel hstop hturn).resolve_right fun hgoesOn => ?_
            obtain ⟨o'', ho'', hgood, -⟩ := hgoesOn
            obtain rfl := Option.some.inj (ho'.symm.trans ho'')
            exact absurd (he.symm.trans hgood) (by simp)
          exact ⟨[], m, .rest, .turn hserves hturn ho' (by simp [he]), by
            simp [hlast, lastTurn, hstop, hturn]⟩
        · next he =>
          have hfree' : (o'.machine.enqueueAll later).blocked = false :=
            free_of_turn hserves hturn ho' he
          obtain ⟨l, m', hturned, hclose, hturns⟩ := turnsTo_of_workOff hfree' h
          exact ⟨m :: l, m', .turn hserves hturn ho' he hturned, hclose,
            (turns_of_advance hstop hturn ho' he).trans (congrArg (m :: ·) hturns)⟩

theorem reaches_of_turnsTo {l : List (Machine D)} (h : m.TurnsTo l m') : m.Reaches m' := by
  induction h with
  | rest => exact .refl
  | skip hserves hturn _ ih => exact .head (.skip hserves hturn) ih
  | turn hserves hturn ho hgood _ ih => exact .head (.turn hserves hturn ho hgood) ih

theorem drain_of_reaches (h : m.Reaches m') (hclose : m'.Closes o) :
    ∃ n, ∀ fuel, m.drain fuel = if n ≤ fuel then some (noted o) else none := by
  obtain ⟨n, hn⟩ := workOff_of_reaches h hclose
  refine ⟨n, fun fuel => ?_⟩
  rw [drain_of_free (free_of_reaches h hclose), hn]
  split <;> rfl

/-- A call comes to an end with the outcome with which its rounds close. -/
theorem call_of_comes (h : m.Comes call m') (hclose : m'.Closes o) :
    ∃ n, ∀ fuel, m.call fuel call = if n ≤ fuel then some (noted o) else none := by
  obtain ⟨shell, hr, hreaches⟩ := h
  obtain ⟨n, hn⟩ := drain_of_reaches hreaches hclose
  exact ⟨n, fun fuel => by rw [Machine.call, hr]; exact hn fuel⟩

/-- So does the result of an invocation that comes in, but there is nobody to return to. -/
theorem deliver_of_comes (h : m.ComesOfResult s id result m') (hclose : m'.Closes o) :
    ∃ n, ∀ fuel, m.deliver fuel s id result =
      if n ≤ fuel then some (noted o).machine else none := by
  obtain ⟨hlive, invocations, hsettle, hreaches⟩ := h
  obtain ⟨n, hn⟩ := drain_of_reaches hreaches hclose
  refine ⟨n, fun fuel => ?_⟩
  simp only [deliver, if_pos hlive, hsettle, hn]
  split <;> rfl

/-- A queue that is free is worked off in rounds, with its turns among them. -/
theorem turnsTo_of_drain (h : m.drain fuel = some o) :
    (m.blocked = true ∧ o = { machine := m } ∧ m.turnsOfDrain fuel = []) ∨
      ∃ l m' o', m.TurnsTo l m' ∧ m'.Closes o' ∧ o = noted o' ∧
        m.turnsOfDrain fuel = l ++ m'.lastTurn := by
  unfold drain at h
  unfold turnsOfDrain
  split at h
  · next hblocked => exact Or.inl ⟨hblocked, (Option.some.inj h).symm, if_pos hblocked⟩
  · next hfree =>
    obtain ⟨o', ho', rfl⟩ := Option.map_eq_some_iff.mp h
    obtain ⟨l, m', hturned, hclose, hturns⟩ := turnsTo_of_workOff (by simpa using hfree) ho'
    exact Or.inr ⟨l, m', o', hturned, hclose, rfl, (if_neg hfree).trans hturns⟩

theorem reaches_of_drain (h : m.drain fuel = some o) : (m.blocked = true ∧ o = { machine := m }) ∨
    ∃ m' o', m.Reaches m' ∧ m'.Closes o' ∧ o = noted o' := by
  rcases turnsTo_of_drain h with ⟨hblocked, he, -⟩ | ⟨l, m', o', hturned, hclose, he, -⟩
  · exact Or.inl ⟨hblocked, he⟩
  · exact Or.inr ⟨m', o', reaches_of_turnsTo hturned, hclose, he⟩

/-- A call is turned away at once, or finds the queue blocked, or it makes the machine take turns
that lead to what it returns. -/
theorem turnsOf_of_call (h : m.call fuel call = some o) :
    (o.machine = m ∧ m.turnsOf fuel call = []) ∨
    (m.blocked = true ∧ ∃ shell, m.shell.receive m.timers.nextEpoch call = .admitted shell ∧
      o = { machine := { m with shell } } ∧ m.turnsOf fuel call = []) ∨
    ∃ shell l m' o', m.shell.receive m.timers.nextEpoch call = .admitted shell ∧
      { m with shell }.TurnsTo l m' ∧ m'.Closes o' ∧ o = noted o' ∧
      m.turnsOf fuel call = l ++ m'.lastTurn := by
  unfold Machine.call at h
  unfold turnsOf
  cases hr : m.shell.receive m.timers.nextEpoch call with
  | refused | ignored =>
    rw [hr] at h
    exact Or.inl ⟨Option.some.inj h ▸ rfl, rfl⟩
  | admitted shell =>
    rw [hr] at h
    rcases turnsTo_of_drain h with ⟨hblocked, he, hnone⟩ | ⟨l, m', o', hturned, hclose, he, hturns⟩
    · exact Or.inr (Or.inl ⟨hblocked, shell, rfl, he, hnone⟩)
    · exact Or.inr (Or.inr ⟨shell, l, m', o', rfl, hturned, hclose, he, hturns⟩)

/-- So does the result of an invocation, unless it is of no interest. -/
theorem turnsOfResult_of_deliver (h : m.deliver fuel s id result = some m') :
    (m' = m ∧ m.turnsOfResult fuel s id result = []) ∨
    ∃ invocations, m.invocations.settle? s id = some invocations ∧
      let admitted := { m with invocations }.enqueueAll [.signal (resultSignal s id result)]
      (m.blocked = true ∧ m' = admitted ∧ m.turnsOfResult fuel s id result = []) ∨
      ∃ l m₁ o, admitted.TurnsTo l m₁ ∧ m₁.Closes o ∧ m' = (noted o).machine ∧
        m.turnsOfResult fuel s id result = l ++ m₁.lastTurn := by
  unfold deliver at h
  unfold turnsOfResult
  split at h
  · next hlive =>
    rw [if_pos hlive]
    cases hsettle : m.invocations.settle? s id with
    | none =>
      rw [hsettle] at h
      exact Or.inl ⟨(Option.some.inj h).symm, rfl⟩
    | some invocations =>
      rw [hsettle] at h
      obtain ⟨o, ho, rfl⟩ := Option.map_eq_some_iff.mp h
      refine Or.inr ⟨invocations, rfl, ?_⟩
      rcases turnsTo_of_drain ho with ⟨hblocked, rfl, hnone⟩ |
        ⟨l, m₁, o', hturned, hclose, rfl, hturns⟩
      · exact Or.inl ⟨hblocked, rfl, hnone⟩
      · exact Or.inr ⟨l, m₁, o', hturned, hclose, rfl, hturns⟩
  · next hlive =>
    rw [if_neg hlive]
    exact Or.inl ⟨(Option.some.inj h).symm, rfl⟩

/-- A call is turned away at once, or finds the queue blocked, or its rounds come to an end with
what it returns. -/
theorem comes_of_call (h : m.call fuel call = some o) : o.machine = m ∨
    (m.blocked = true ∧ ∃ shell, m.shell.receive m.timers.nextEpoch call = .admitted shell ∧
      o = { machine := { m with shell } }) ∨
    ∃ m' o', m.Comes call m' ∧ m'.Closes o' ∧ o = noted o' := by
  rcases turnsOf_of_call h with ⟨he, -⟩ | ⟨hblocked, shell, hr, he, -⟩ |
    ⟨shell, l, m', o', hr, hturned, hclose, he, -⟩
  · exact Or.inl he
  · exact Or.inr (Or.inl ⟨hblocked, shell, hr, he⟩)
  · exact Or.inr (Or.inr ⟨m', o', ⟨shell, hr, reaches_of_turnsTo hturned⟩, hclose, he⟩)

/-- A machine that is up stays so until the last round. -/
theorem up_of_reaches (h : m.Reaches m') (hup : m.Up) : m'.Up := by
  induction h with
  | refl => exact hup
  | tail _ hround ih =>
    cases hround with
    | skip _ hturn =>
      rw [nextTurn_skip hturn]
      exact ih
    | turn _ hturn ho hgood => exact up_of_advance (turn_passes hturn).2.1 ho hgood

/-! ## Later on -/

/-- What a machine goes through from some moment on, the latest first. -/
inductive Goes (m : Machine D) : List (Event D) → Machine D → Prop
  | rest : Goes m [] m
  | next {log : List (Event D)} {e : Event D} {m' m'' : Machine D} :
      Goes m log m' → m'.Does e m'' → Goes m (e :: log) m''

theorem run_goes {steps : List (Settled D)} (hrun : Run c steps m) (h : m.Goes log m') :
    Run c (Event.steps log ++ steps) m' := by
  induction h with
  | rest => exact hrun
  | next _ hdoes ih =>
    rw [Event.steps_cons, List.append_assoc]
    exact run_does ih hdoes

theorem course_goes {older : List (Event D)} (hcourse : Course c older m) (h : m.Goes log m') :
    Course c (log ++ older) m' := by
  induction h with
  | rest => exact hcourse
  | next _ hdoes ih => exact ih.next hdoes

theorem goes_trans {newer : List (Event D)} {m'' : Machine D} (h : m.Goes log m')
    (h' : m'.Goes newer m'') : m.Goes (newer ++ log) m'' := by
  induction h' with
  | rest => exact h
  | next _ hdoes ih => exact ih.next hdoes

/-- Moves and settled steps are among the things that a machine goes through. -/
theorem closed_goes (m : Machine D) : Closed fun steps m' => ∃ log, m.Goes log m' ∧
    Event.steps log = steps where
  move := by
    intro steps m₁ m₂ h hmove
    obtain ⟨log, hgoes, rfl⟩ := h
    obtain ⟨e, hdoes, he⟩ := does_of_move hmove
    exact ⟨e :: log, hgoes.next hdoes, by rw [Event.steps_cons, he]; rfl⟩
  settle := by
    intro steps m₁ m₂ step h hsettling
    obtain ⟨log, hgoes, rfl⟩ := h
    obtain ⟨e, hdoes, he⟩ := does_of_settling hsettling
    exact ⟨e :: log, hgoes.next hdoes, by rw [Event.steps_cons, he]; rfl⟩

/-- So is a call from outside. -/
theorem goes_call {fuel : Nat} {call : Call D} {o : Outcome D} (h : m.Goes log m')
    (hcall : m'.call fuel call = some o) : ∃ log, m.Goes log o.machine := by
  obtain ⟨-, log', hgoes, -⟩ := closed_call (closed_goes m) ⟨log, h, rfl⟩ hcall
  exact ⟨log', hgoes⟩

/-- So is the result of an invocation that comes in. -/
theorem goes_deliver {fuel : Nat} {m'' : Machine D} (h : m.Goes log m')
    (hdeliver : m'.deliver fuel s id result = some m'') : ∃ log, m.Goes log m'' := by
  obtain ⟨-, log', hgoes, -⟩ := closed_deliver (closed_goes m) ⟨log, h, rfl⟩ hdeliver
  exact ⟨log', hgoes⟩

theorem goes_after (m : Machine D) (fuel : Nat) (calls : List (Call D)) :
    ∃ log, m.Goes log (m.after fuel calls) := by
  refine List.foldlRecOn (motive := fun m' => ∃ log, m.Goes log m') calls _ ⟨[], .rest⟩
    fun m' h call _ => ?_
  obtain ⟨log, hgoes⟩ := h
  split
  · next hcall => exact goes_call hgoes hcall
  · exact ⟨log, hgoes⟩

theorem goes_called? {step : Settled D} {m'' : Machine D} (h : m.Goes log m')
    (hcalled : m'.called? call = some (step, m'')) : ∃ log, m.Goes log m'' := by
  unfold called? at hcalled
  split at hcalled
  · next shell hr =>
    obtain ⟨e, hdoes, -⟩ := does_of_settling (settling_of_turned? hcalled)
    exact ⟨_, (h.next (.call hr)).next hdoes⟩
  · exact absurd hcalled (by simp)
  · exact absurd hcalled (by simp)

/-- Nothing of a machine has changed but what belongs to the outside. -/
structure Unmoved (m m' : Machine D) : Prop where
  chart : m'.chart = m.chart
  stage : m'.SameStage m
  timers : m'.timers = m.timers
  invocations : m'.invocations = m.invocations
  status : m'.status = m.status
  stopRequested : m'.shell.stopRequested = m.shell.stopRequested
  blocked : m'.blocked = m.blocked
  queue : m'.shell.queue ⊆ m.shell.queue

theorem unmoved_refl : m.Unmoved m :=
  ⟨rfl, ⟨rfl, rfl, rfl, rfl, rfl⟩, rfl, rfl, rfl, rfl, rfl, List.Subset.refl _⟩

theorem unmoved_trans {m'' : Machine D} (h : m.Unmoved m') (h' : m'.Unmoved m'') : m.Unmoved m'' where
  chart := h'.chart.trans h.chart
  stage := sameStage_trans h'.stage h.stage
  timers := h'.timers.trans h.timers
  invocations := h'.invocations.trans h.invocations
  status := h'.status.trans h.status
  stopRequested := h'.stopRequested.trans h.stopRequested
  blocked := h'.blocked.trans h.blocked
  queue := List.Subset.trans h'.queue h.queue

/-- Whatever happens to a machine whose life is over, nothing is done. -/
theorem unmoved_of_does (hend : m.Ended) (h : m.Does e m') :
    m.Unmoved m' ∧ e.Silent ∧ e.step = none := by
  have hturn : ∀ {m₀ signal later}, m.nextTurn ≠ .process m₀ signal later :=
    fun hturn => not_ended_of_up (Or.inl (nextTurn_process hturn).1) hend
  cases h with
  | call hr => exact absurd hr (not_admitted_of_ended hend)
  | result hlive _ => exact absurd hend (not_ended_of_up (up_of_isLive hlive))
  | discard _ _ hskip =>
    obtain ⟨work, hqueue, -⟩ := nextTurn_skip_cases hskip
    rw [nextTurn_skip hskip]
    exact ⟨⟨rfl, ⟨rfl, rfl, rfl, rfl, rfl⟩, rfl, rfl, rfl, rfl, rfl,
      hqueue ▸ List.subset_cons_self ..⟩, ⟨rfl, rfl, rfl, rfl⟩, rfl⟩
  | idle _ hrunning _ => exact absurd hend (not_ended_of_up (Or.inl hrunning))
  | pass _ hp => exact absurd hp hturn
  | fault _ hp => exact absurd hp hturn
  | turn _ hp => exact absurd hp hturn
  | turnPanicked _ hp => exact absurd hp hturn
  | stop hup => exact absurd hend (not_ended_of_up hup)
  | faultStopping hup => exact absurd hend (not_ended_of_up hup)
  | outside =>
    exact ⟨⟨rfl, ⟨rfl, rfl, rfl, rfl, rfl⟩, rfl, rfl, rfl, rfl, rfl, List.Subset.refl _⟩,
      ⟨rfl, rfl, rfl, rfl⟩, rfl⟩

/-- A machine whose life is over stays as it is for good. -/
theorem unmoved_of_goes (hend : m.Ended) (h : m.Goes log m') :
    m.Unmoved m' ∧ ∀ e ∈ log, e.Silent ∧ e.step = none := by
  induction h with
  | rest => exact ⟨unmoved_refl, fun e he => absurd he List.not_mem_nil⟩
  | @next _ _ m₁ _ _ hdoes ih =>
    obtain ⟨hmoved, hsilent⟩ := ih
    have hend' : m₁.Ended := by rwa [Ended, hmoved.status]
    obtain ⟨hmoved', hsilent'⟩ := unmoved_of_does hend' hdoes
    refine ⟨unmoved_trans hmoved hmoved', fun e he => ?_⟩
    rcases List.mem_cons.mp he with rfl | he
    · exact hsilent'
    · exact hsilent e he

/-- It turns away every call and every result. -/
theorem call_of_ended (hend : m.Ended) (fuel : Nat) (call : Call D) :
    ∃ error, m.call fuel call = some { machine := m, error } := by
  unfold Machine.call
  split
  · exact ⟨_, rfl⟩
  · exact ⟨_, rfl⟩
  · next hr => exact absurd hr (not_admitted_of_ended hend)

theorem deliver_of_ended (hend : m.Ended) (fuel : Nat) : m.deliver fuel s id result = some m := by
  unfold deliver
  exact if_neg fun hlive => not_ended_of_up (up_of_isLive hlive) hend

end Machine

end Statechart
