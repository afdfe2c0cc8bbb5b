import Statechart.Proofs.Listeners
import Statechart.Proofs.Pending
import Statechart.Proofs.Chat.Coupling

/-!
# How a chat widget waits for quiet

Four states of the widget are busy with events of one kind (`Busy`). Each such event enters the
state anew and arms its timer anew, so that as long as the state is active it has exactly one timer,
which is due once there was quiet for a time since the latest such event (`Waiting`).

No tick with a reading before that leaves the state (`left_of_exited`), and the first one with a
later reading does. It takes finitely many rounds to get there, whatever else is in the queue or is
put into it (`leaves_of_tick`), and when the tick is over the state is not active, unless it was
entered anew (`stirs_of_tick`).

What the latest such event said is kept in the context (`field_of_goes`).
-/

namespace Statechart.Chat

open Machine

variable {m m' m₀ : Machine domain} {t u : Timer domain.State} {x : domain.State}
  {step : Settled domain} {e : Statechart.Event domain} {signal : Signal domain}
  {log newer older : List (Statechart.Event domain)} {config : Config} {drives canInvoke : Bool}
  {texts files : Nat → Stamp}

/-! ## Busy states -/

/-- The states that are left when there is quiet for a time. -/
inductive Busy | scrolling | inputResizing | appResizing | dragMoving

namespace Busy

def state : Busy → State
  | .scrolling => .scrolling
  | .inputResizing => .inputResizing
  | .appResizing => .appResizing
  | .dragMoving => .dragMoving

/-- What it is left for. -/
def idle : Busy → State
  | .scrolling => .scrollIdle
  | .inputResizing => .inputResizeStop
  | .appResizing => .appResizeStop
  | .dragMoving => .dragging

/-- The name of the events that keep it busy. -/
def event : Busy → String
  | .scrolling => "SCROLL"
  | .inputResizing => "RESIZE_INPUT"
  | .appResizing => "RESIZE_APP"
  | .dragMoving => "DRAG_MOVE"

/-- How long there has to be quiet. -/
def settle : Busy → Duration
  | .scrolling => scrollSettle
  | .inputResizing => inputResizeSettle
  | .appResizing => appResizeSettle
  | .dragMoving => dragMoveSettle

variable {b : Busy}

theorem opened (b : Busy) : Opened b.state b.event := by cases b <;> decide

theorem waits (b : Busy) : Waits b.state b.event := by cases b <;> decide

theorem isWithin_active (b : Busy) : chart.isWithin b.state .active := by
  cases b <;> decide

theorem not_isHistory (b : Busy) : ¬ chart.isHistory b.state ∧ ¬ chart.isHistory b.idle := by
  cases b <;> decide

theorem event_ne (b : Busy) : b.event ≠ "SEND_MESSAGE" := by cases b <;> simp [event]

/-- Its only timer is never held back. -/
theorem delayed (b : Busy) : ∃ n, chart.node? b.state = some n ∧
    n.delayed.map (fun tr => (tr.target, tr.delay?, tr.guard.isNone)) =
      [(some b.idle, some b.settle, true)] := by
  cases b <;> exact ⟨_, rfl, rfl⟩

/-- Its event leads to it and its timer out of it, and nothing else does that waits for no event. -/
@[mk_iff]
structure Governs (b : Busy) (s : domain.State) (tr : Transition domain) : Prop where
  enters : tr.trigger = .event b.event →
    tr.target = some b.state ∧ chart.crosses ⟨s, 0, tr⟩ b.state
  leaves : s = b.state → tr.delay?.isSome → chart.crosses ⟨s, 0, tr⟩ b.state
  alone : chart.isWithin s .active → chart.crosses ⟨s, 0, tr⟩ b.state →
    (tr.delay?.isSome → s = b.state) ∧ tr.trigger ≠ .done ∧ tr.trigger ≠ .invokeDone ∧
      tr.trigger ≠ .invokeError

theorem governs_of_declared {t : Selected domain} (b : Busy) (h : Declared chart t) :
    Governs b t.source t.transition := by
  refine of_declared ?_ h
  simp only [governs_iff]
  cases b <;> decide

/-- The timer that is armed for it. -/
def timerAt (b : Busy) (now : Duration) (epoch : Nat) : Timer domain.State :=
  ⟨b.state, 0, b.settle, now.add b.settle, epoch⟩

theorem timersAt {n : Node domain} (hn : chart.node? b.state = some n) (now : Duration)
    (base : Nat) : n.timersAt now base = [b.timerAt now base] := by
  obtain ⟨n', hn', hdelayed⟩ := b.delayed
  obtain rfl := Option.some.inj (hn.symm.trans hn')
  obtain ⟨tr, l, hd, htr, hl⟩ := List.map_eq_cons_iff.mp hdelayed
  obtain rfl := List.map_eq_nil_iff.mp hl
  rw [Node.timersAt, hd, (chart.node?_eq_some.mp hn).2]
  simp [(Prod.mk.inj (Prod.mk.inj htr).2).1, timerAt]

/-- Whether a moment is one at which such an event is processed. -/
def Stirs (b : Busy) (e : Statechart.Event domain) : Prop :=
  ∃ event, handled e = some event ∧ domain.eventName event = b.event

end Busy

variable {b : Busy}

/-! ## What is taken -/

section

variable (hm : Sound m₀) (hactive : b.state ∈ m₀.configuration)

include hm hactive

/-- Every such event is taken up, and enters the state anew. -/
theorem takes_stirring {event : Event} (hname : domain.eventName event = b.event) :
    ∃ t, m₀.takes (.event event) = [t] ∧ t.transition.target = some b.state ∧
      chart.crosses t b.state := by
  obtain ⟨t, htakes, hdecl, htrigger, -⟩ :=
    takes_of_waiting hm (hname.symm ▸ b.event_ne) hactive (hname.symm ▸ b.waits)
  obtain ⟨htarget, hcross⟩ := (b.governs_of_declared hdecl).enters (hname ▸ htrigger)
  exact ⟨t, htakes, htarget, hcross⟩

/-- So is the signal of its timer, by which it is left. -/
theorem takes_timer_of_busy (delay : Duration) : ∃ t ∈ m₀.takes (.timer b.state 0 delay),
    t.transition.target = some b.idle ∧ chart.crosses t b.state := by
  obtain ⟨n, hn, hdelayed⟩ := b.delayed
  obtain ⟨tr, l, hd, htr, -⟩ := List.map_eq_cons_iff.mp hdelayed
  obtain ⟨htarget, htr⟩ := Prod.mk.inj htr
  obtain ⟨hdelay, hguard⟩ := Prod.mk.inj htr
  have hdecl : Declared chart ⟨b.state, 0, tr⟩ :=
    ⟨n, hn, (List.mem_filter.mp (hd ▸ List.mem_cons_self ..)).1⟩
  have hholds : m₀.guardHolds (.timer b.state 0 delay) ⟨b.state, 0, tr⟩ = .ok true := by
    rw [guardHolds, Option.isNone_iff_eq_none.mp hguard]
  refine ⟨_, (mem_takes_timer (hm.clean.chart ▸ hn)).mpr
    ⟨hactive, rfl, rfl, by rw [hd]; rfl, hholds⟩, htarget, ?_⟩
  exact (b.governs_of_declared hdecl).leaves rfl (by simp [hdelay])

end

/-! ## Waiting -/

/-- Whether a log tells of the latest of the events that keep a state busy, which was processed at a
clock reading. -/
def Busy.Stirred (b : Busy) (log : List (Statechart.Event domain)) (now : Duration) : Prop :=
  ∃ newer e older m₀ event, log = newer ++ e :: older ∧
    e.processed = some (m₀, .event event) ∧ domain.eventName event = b.event ∧
    (∀ e' ∈ newer, ¬ b.Stirs e') ∧ m₀.shell.clock.now = now

/-- Whether a busy state that is active has one timer, armed at the latest of its events. -/
def Waiting (b : Busy) (log : List (Statechart.Event domain)) (m : Machine domain) : Prop :=
  m.status = .running → b.state ∈ m.configuration → ∃ now epoch, b.Stirred log now ∧
    ∀ u, u.state = b.state → (u ∈ m.timers.pending ↔ u = b.timerAt now epoch)

section

variable (hcourse : Course chart log m) (hdoes : m.Does e m')

include hcourse hdoes

/-- A busy state is entered by its event only. -/
theorem stirs_of_joins (h : m.Joins chart e m₀ step m' b.state) : Sound m₀ ∧
    ∃ event, e.processed = some (m₀, .event event) ∧ domain.eventName event = b.event := by
  obtain ⟨hm₀, -⟩ := sound_of_processed hcourse hdoes h.steps.processed
  obtain ⟨event, hsignal, hname, -⟩ :=
    event_of_entered b.opened hm₀ (exchanges_of_course hcourse hdoes h.steps) h.entered
  exact ⟨hm₀, event, hsignal ▸ h.steps.processed, hname⟩

/-- While it remains active there are no such events. -/
theorem not_stirs_of_remains (h : m.Remains chart e m' b.state) : ¬ b.Stirs e := by
  rintro ⟨event, hhandled, hname⟩
  obtain ⟨m₀, hprocessed⟩ := handled_eq_some_iff.mp hhandled
  obtain ⟨hm₀, hstage, -⟩ := sound_of_processed hcourse hdoes hprocessed
  obtain ⟨t, htakes, htarget, hcross⟩ :=
    takes_stirring hm₀ (hstage.configuration ▸ h.active) hname
  exact h.uncrossed _ _ hprocessed t (htakes ▸ List.mem_singleton_self t) _ htarget
    b.not_isHistory.1 hcross

/-- Its timer does not fire then. -/
theorem kept_of_remains (h : m.Remains chart e m' b.state) (hu : u ∈ m.timers.pending)
    (hstate : u.state = b.state) (hindex : u.index = 0) : u ∈ m'.timers.pending := by
  by_contra hgone
  obtain ⟨m₀, hprocessed⟩ := h.fires u hu hstate hgone
  obtain ⟨hm₀, hstage, -⟩ := sound_of_processed hcourse hdoes hprocessed
  obtain ⟨t, ht, htarget, hcross⟩ :=
    takes_timer_of_busy hm₀ (hstage.configuration ▸ h.active) u.delay
  rw [hindex] at hprocessed
  exact h.uncrossed _ _ hprocessed t ht _ htarget b.not_isHistory.2 hcross

theorem waiting_of_does (hbefore : Waiting b log m) : Waiting b (e :: log) m' := by
  intro hs hx
  rcases joins_or_remains root_chart historyFromOutside_chart hcourse hdoes hx hs with
    ⟨m₀, step, hjoins⟩ | hremains
  · obtain ⟨hm₀, event, hprocessed, hname⟩ := stirs_of_joins hcourse hdoes hjoins
    obtain ⟨n, hn⟩ := Chart.contains_iff.mp (contains_chart b.state)
    obtain ⟨base, hall⟩ := hjoins.timers n hn
    obtain ⟨p, hsettles⟩ := hjoins.steps.settles
    have hclock : step.between.shell.clock.now = m₀.shell.clock.now := by
      rw [(sameWorld_between mild_chart hm₀.clean.chart hsettles).2]
      rfl
    refine ⟨m₀.shell.clock.now, base,
      ⟨[], e, log, m₀, event, rfl, hprocessed, hname, by simp, rfl⟩, fun u hu => ?_⟩
    rw [hall u hu, Busy.timersAt hn, hclock, List.mem_singleton]
  · obtain ⟨now, epoch, ⟨newer, e', older, m₀, event, rfl, hprocessed, hname, hquiet, hnow⟩, hall⟩ :=
      hbefore hremains.running hremains.active
    refine ⟨now, epoch, ⟨e :: newer, e', older, m₀, event, rfl, hprocessed, hname, ?_, hnow⟩,
      fun u hu => ?_⟩
    · exact List.forall_mem_cons.mpr ⟨not_stirs_of_remains hcourse hdoes hremains, hquiet⟩
    · rw [← hall u hu]
      refine ⟨fun h => hremains.pending u h hu, fun h => ?_⟩
      exact kept_of_remains hcourse hdoes hremains h hu ((hall u hu).mp h ▸ rfl)

end

theorem waiting_of_course (h : Course chart log m) : Waiting b log m := by
  induction h with
  | fresh _ hfresh => exact fun hs _ => absurd (hs.symm.trans hfresh.status) (by simp)
  | next hcourse hdoes ih => exact waiting_of_does hcourse hdoes ih

/-! ## Ticks -/

/-- Unless it is left on an event from outside or as the widget is stopped, a busy state is left on a
tick by its own timer, which was due at the reading of the tick. -/
theorem left_of_exited (hcourse : Course chart log m) (hdoes : m.Does e m')
    (hstep : e.step = some step) (hexited : b.state ∈ step.exited) :
    step.signal = .stop ∨ (∃ event, step.signal = .event event) ∨
      ∃ now horizon, e.took = some (.timers now horizon) ∧
        ∃ u ∈ m.timers.pending, u.state = b.state ∧ u.isDue now horizon := by
  refine or_iff_not_imp_left.mpr fun hstop => ?_
  obtain ⟨m₀, later, hturn, htook, hx⟩ : ∃ m₀ later,
      m.nextTurn = .process m₀ step.signal later ∧ e.took = m.shell.queue.head? ∧
        step.Exchanges chart m₀ := by
    have hsettling := settling_of_does hdoes hstep
    cases hdoes with
    | turn _ hturn hsettles | turnPanicked _ hturn hsettles =>
      obtain rfl := Option.some.inj hstep
      exact ⟨_, _, hturn, rfl, Settled.exchanges_of_settling root_chart historyFromOutside_chart
        hcourse hsettling hturn hsettles⟩
    | stop =>
      obtain rfl := Option.some.inj hstep
      exact absurd rfl hstop
    | _ => exact absurd hstep (by simp)
  obtain ⟨-, hm₀⟩ := sound_of_turning hcourse hturn
  obtain ⟨hactive, t, ht, hcross⟩ := hx.exited _ hexited
  obtain ⟨hdecl, hanswers, -⟩ := active_of_takes hm₀ ht
  obtain ⟨hdelayed, hdone, hinvoked, hfailed⟩ := (b.governs_of_declared hdecl).alone
    (isWithin_of_takes hm₀ (active_of_below hm₀ hactive b.isWithin_active) ht) hcross
  -- of what leads out of a busy state only its timer is no event from outside
  cases htrigger : t.transition.trigger with
  | event name =>
    obtain ⟨event, hsignal, -⟩ := event_of_answers hanswers htrigger
    exact Or.inl ⟨event, hsignal⟩
  | after delay =>
    have hdelay : t.transition.delay?.isSome := by
      simp [Transition.delay?, Trigger.delay?, htrigger]
    obtain ⟨i, delay, hsignal⟩ := timer_of_answers hanswers hdelay
    rw [hsignal, hdelayed hdelay] at hturn
    obtain ⟨u, hu, ⟨hstate, -⟩, -, now, horizon, hhead, hdue, -⟩ :=
      fires_of_turn (run_of_course hcourse) hturn
    exact Or.inr ⟨now, horizon, htook.trans hhead, u, hu, hstate, hdue⟩
  | done => exact absurd htrigger hdone
  | invokeDone => exact absurd htrigger hinvoked
  | invokeError => exact absurd htrigger hfailed

/-- A busy state is left in a turn in which its timer fires. -/
theorem leaves_of_fires {delay : Duration} {later : List (Work domain)}
    (hcourse : Course chart log m) (hserves : m.Serves false)
    (hturn : m.nextTurn = .process m₀ (.timer b.state 0 delay) later)
    (hactive : b.state ∈ m.configuration) : m.Leaves b.state := by
  obtain ⟨hm₀, hactive₀, p, hp⟩ := processed_of_turn hcourse hturn b.isWithin_active hactive
  obtain ⟨t, ht, htarget, hcross⟩ := takes_timer_of_busy hm₀ hactive₀ delay
  rcases process_cases hp with ⟨_, -, rfl⟩ | ⟨step, hsettles, hsignal⟩
  · rw [takes_of_unsettled hp rfl] at ht
    exact absurd ht List.not_mem_nil
  · rw [← hsignal] at hturn ht
    obtain ⟨m', hsettling, -⟩ := continues_of_settles hserves hturn hsettles
    have hx := Settled.exchanges_of_settling root_chart historyFromOutside_chart hcourse hsettling
      hturn hsettles
    exact ⟨step, m', hsettling, hx.leaves t ht _ htarget b.not_isHistory.2 _ hactive₀ hcross⟩

/-- As the widget is stopped all that is active is left. -/
theorem leaves_of_stopping (hcourse : Course chart log m) (hup : m.Up) (hserves : m.Serves true)
    (hx : x ∈ m.configuration) : m.Leaves x := by
  have hm := sound_of_course hcourse (not_ended_of_up hup)
  have hcalm : { m with shell := { m.shell with queue := [] } }.teardown.Calm :=
    teardown_calm calm_chart hm.clean.chart hm.clean.contains
  obtain ⟨m₁, hdown⟩ := Attempt.exists_ok teardown_ends hcalm
  exact ⟨_, _, .stop hup hserves hdown (finish_eq hdown), (Outline.mem_inExitOrder ..).mpr hx⟩

/-- A widget breaks off by leaving a busy state, in this turn or as it is stopped after that, or by
the panic of a listener. -/
theorem leaves_of_breaks (hcourse : Course chart log m) (hserves : m.Serves false)
    (hactive : b.state ∈ m.configuration) (h : m.Breaks) :
    ∃ m', m.Reaches m' ∧ (m'.Leaves b.state ∨ m'.Panics) := by
  obtain ⟨m₀, signal, later, hturn, hbreaks⟩ := h
  obtain ⟨-, hactive₀, p, hp⟩ := processed_of_turn hcourse hturn b.isWithin_active hactive
  rcases process_cases hp with ⟨invocations, -, rfl⟩ | ⟨step, hsettles, rfl⟩
  · -- a signal that is passed over breaks nothing off
    have hadvance : m₀.advance signal = some { machine := { m₀ with invocations } } := by
      simp [advance, hp, absorb_same]
    have hstop := hbreaks _ hadvance rfl (turn_passes hturn).2.1
    rw [(nextTurn_process hturn).2] at hstop
    exact absurd (hserves.stopRequested.symm.trans hstop) (by simp)
  · have hadvance : m₀.advance step.signal = some (absorb p).notify := by
      simp [advance, hp, (settled_of_settles hsettles).1]
    cases hcalm : (absorb p).notify.error with
    | some e =>
      obtain ⟨message, -, rfl⟩ := Option.map_eq_some_iff.mp hcalm
      exact ⟨m, .refl, Or.inr ⟨_, message, .turn hserves hturn hadvance (by simp [hcalm]), hcalm⟩⟩
    | none =>
      have hsettling := Settling.turn hserves hturn hsettles hcalm
      by_cases hexited : b.state ∈ step.exited
      · exact ⟨m, .refl, Or.inl ⟨step, _, hsettling, hexited⟩⟩
      -- the widget goes on, but only to be stopped
      obtain ⟨e, hdoes, -⟩ := does_of_settling hsettling
      have hstays : b.state ∈ (absorb p).configuration := by
        have hafter := ((configuration_of_settles hsettles).2 b.state).mpr
          (Or.inl ⟨hactive₀, hexited⟩)
        exact (settled_of_settles hsettles).2 ▸ hafter
      have hcourse' := hcourse.next hdoes
      have hrunning := running_of_within hcourse' b.isWithin_active hstays
      have hstop := hbreaks _ hadvance hcalm hrunning
      have hround := Round.turn hserves hturn hadvance hcalm
      exact ⟨_, .single hround, Or.inl (leaves_of_stopping hcourse' (Or.inl hrunning)
        ⟨free_of_turn hserves hturn hadvance hcalm, hstop⟩ hstays)⟩

/-- Within finitely many rounds of a tick a busy state is left whose timer is due, unless a listener
panics before. -/
theorem leaves_of_tick {now : Duration} {epoch : Nat} (hcourse : Course chart log m)
    (hserves : m.Serves false) (hactive : b.state ∈ m.configuration)
    (hpending : b.timerAt now epoch ∈ m.timers.pending)
    (hdue : now.add b.settle ≤ m.shell.clock.now) :
    ∃ m', m.Comes .tick m' ∧ (m'.Leaves b.state ∨ m'.Panics) := by
  have hs := running_of_within hcourse b.isWithin_active hactive
  obtain ⟨m', ⟨shell, hr, hreaches⟩, hserves', hpending', hresolves⟩ :=
    resolves_of_tick hserves hs hpending hdue
  obtain ⟨log', hgoes⟩ := goes_reaches (Goes.rest.next (.call hr)) hreaches
  have hcourse' := course_goes hcourse hgoes
  obtain ⟨hs', hactive'⟩ := running_of_pending hcourse' hpending'
  rcases hresolves with hfires | ⟨-, hleaves⟩ | hbreaks
  · obtain ⟨m₀, later, hturn⟩ := turn_of_fires hs' hfires
    exact ⟨m', ⟨shell, hr, hreaches⟩, Or.inl (leaves_of_fires hcourse' hserves' hturn hactive')⟩
  · exact ⟨m', ⟨shell, hr, hreaches⟩, Or.inl hleaves⟩
  · obtain ⟨m'', hreaches', hleaves⟩ := leaves_of_breaks hcourse' hserves' hactive' hbreaks
    exact ⟨m'', ⟨shell, hr, hreaches.trans hreaches'⟩, hleaves⟩

/-- When a tick is over a busy state whose timer was due is not active any more, unless one of its
events was processed meanwhile. -/
theorem stirs_of_tick {now : Duration} {epoch fuel : Nat} {o : Outcome domain}
    (hcourse : Course chart log m) (hfree : m.blocked = false)
    (hall : ∀ u, u.state = b.state → (u ∈ m.timers.pending ↔ u = b.timerAt now epoch))
    (hdue : now.add b.settle ≤ m.shell.clock.now) (hcall : m.call fuel .tick = some o)
    (hgood : o.error = none) (hs : o.machine.status = .running) (h : m.Goes newer o.machine)
    (hactive : b.state ∈ o.machine.configuration) : ∃ e ∈ newer, b.Stirs e := by
  have hcourse' := course_goes hcourse h
  obtain ⟨now', epoch', -, hall'⟩ := waiting_of_course hcourse' hs hactive
  have hpending := (hall' (b.timerAt now' epoch') rfl).mpr rfl
  rcases pending_of_goes root_chart historyFromOutside_chart hcourse h hpending with
    hbefore | ⟨e, he, older, m₁, m₂, m₀, step, hcourse₁, hdoes, hjoins⟩
  · -- the timer that was due would be pending still
    have hnone := List.filter_eq_nil_iff.mp (due_eq_nil_of_tick hfree hcall hgood hs) _ hpending
    have hdeadline : (b.timerAt now' epoch').deadline = now.add b.settle := by
      rw [(hall _ rfl).mp hbefore]
      rfl
    refine absurd ?_ hnone
    rw [Timer.isDue, hdeadline]
    simp [hdue, m.timers.fresh _ hbefore]
  · obtain ⟨-, event, hprocessed, hname⟩ := stirs_of_joins hcourse₁ hdoes hjoins
    exact ⟨e, he, event, handled_eq_some_iff.mpr ⟨m₀, hprocessed⟩, hname⟩

/-! ## What was said last -/

theorem twins_scroll : Twins .scroll .scrollIdle .scrolling :=
  ⟨by decide, by decide, State.noConfusion⟩

theorem twins_inputResize : Twins .inputResize .inputResizeStop .inputResizing :=
  ⟨by decide, by decide, State.noConfusion⟩

theorem twins_appResize : Twins .appResize .appResizeStop .appResizing :=
  ⟨by decide, by decide, State.noConfusion⟩

/-- Unless it belongs to a drag, a busy state makes up a region with what it is left for. -/
theorem twins_of_regional (h : b ≠ .dragMoving) : ∃ p, Twins p b.idle b.state ∧
    chart.parent? p = some .active ∧ ¬ chart.isHistory p ∧ Waits b.idle b.event := by
  cases b with
  | scrolling =>
    exact ⟨_, twins_scroll, by decide, by decide, by decide⟩
  | inputResizing =>
    exact ⟨_, twins_inputResize, by decide, by decide, by decide⟩
  | appResizing =>
    exact ⟨_, twins_appResize, by decide, by decide, by decide⟩
  | dragMoving => exact absurd rfl h

/-- Such a region takes up all of its events. -/
theorem takes_of_regional (h : b ≠ .dragMoving) (hm : Sound m₀)
    (hactive : .active ∈ m₀.configuration) {event : Event}
    (hname : domain.eventName event = b.event) : m₀.takes (.event event) ≠ [] := by
  obtain ⟨p, htwins, hp, hplain, hwaits⟩ := twins_of_regional h
  exact takes_of_twins hm htwins (active_of_region hm hactive hp hplain)
    (hname.symm ▸ b.event_ne) (hname.symm ▸ hwaits) (hname.symm ▸ b.waits)

/-- What an event from outside said, if it was processed while the widget was set up. -/
def heard? {α : Type} (said? : Event → Option α) (m₀ : Machine domain) (signal : Signal domain) :
    Option α :=
  if m₀.isActive .active then (signal.event? : Option Event).bind said? else none

/-- What the latest event of a kind said that was processed while the widget was set up. -/
def latest? {α : Type} (said? : Event → Option α) (log : List (Statechart.Event domain)) :
    Option α :=
  log.findSome? fun e => e.processed.bind fun p => heard? said? p.1 p.2

/-- Whether a part of the context follows what the events of a region say. -/
structure Follows {α β : Type} (b : Busy) (said? : Event → Option α) (field : Context → β)
    (value : Option α → β) : Prop where
  regional : b ≠ .dragMoving
  named : ∀ event a, said? event = some a → domain.eventName event = b.event
  sets : ∀ event a c, said? event = some a → field (event.update c) = value (some a)
  keeps : ∀ event c, said? event = none → field (event.update c) = field c
  frame : ∀ c messages error, field { c with messages, error } = field c

section

variable {α β : Type} {said? : Event → Option α} {field : Context → β} {value : Option α → β}
  (hfollows : Follows b said? field value)

include hfollows

theorem field_of_updated (hm : Sound m) (signal : Signal domain) (c : Context) :
    field (updated m signal c) = (heard? said? m signal).elim (field c) (value ∘ some) := by
  have hinternal : signal.event? = none → field (updated m signal c) =
      (heard? said? m signal).elim (field c) (value ∘ some) := by
    intro h
    rw [updated_of_internal h, heard?, h]
    split <;> rfl
  cases signal with
  | event event =>
    -- events are passed over before the widget is set up
    by_cases hactive : .active ∈ m.configuration
    · have hheard : heard? said? m (.event event) = said? event := by
        rw [heard?, if_pos (isActive_iff.mpr hactive)]
        rfl
      rw [hheard]
      cases hsaid : said? event with
      | some a =>
        have htaken := takes_of_regional hfollows.regional hm hactive (hfollows.named event a hsaid)
        rw [updated_of_taken htaken, hfollows.sets event a c hsaid]
        rfl
      | none =>
        by_cases htaken : m.takes (.event event) = []
        · rw [updated_of_untaken htaken]
          rfl
        · rw [updated_of_taken htaken, hfollows.keeps event c hsaid]
          rfl
    · rw [updated_of_untaken (takes_event_inactive hm hactive event), heard?,
        if_neg fun h => hactive (isActive_iff.mp h)]
      rfl
  | start | stop | timer | invokeDone | invokeError | done => exact hinternal rfl

theorem field_of_does (hcourse : Course chart log m) (hdoes : m.Does e m')
    (hbefore : field m.context = value (latest? said? log)) :
    field m'.context = value (latest? said? (e :: log)) := by
  rw [latest?, List.findSome?_cons]
  obtain ⟨hunprocessed, hsame⟩ | ⟨m₀, signal, messages, error, hprocessed, hm₀, -, hcontext, -⟩ :=
    context_of_moment hcourse hdoes
  · rw [hunprocessed, hsame]
    exact hbefore
  · rw [hprocessed, hcontext, hfollows.frame]
    refine (field_of_updated hfollows hm₀ signal m.context).trans ?_
    rw [Option.bind_some]
    cases heard? said? m₀ signal with
    | none => exact hbefore
    | some => rfl

/-- The context keeps what the latest event said. -/
theorem field_of_goes (hinit : field { Context.ofConfig config with stamps := texts } = value none)
    (h : (Session.ofConfig config drives canInvoke texts files).machine.Goes log m) :
    field m.context = value (latest? said? log) := by
  induction h with
  | rest => exact hinit
  | next hgoes hdoes ih =>
    have hcourse := course_goes (course_ofConfig config drives canInvoke texts files) hgoes
    rw [List.append_nil] at hcourse
    exact field_of_does hfollows hcourse hdoes ih

end

def Event.offset? : Event → Option Float
  | .scroll offset => some offset
  | _ => none

def Event.inputSize? : Event → Option Size
  | .resizeInput size => some size
  | _ => none

def Event.appSize? : Event → Option Size
  | .resizeApp size => some size
  | _ => none

theorem follows_offset : Follows .scrolling Event.offset? Context.scrollOffset (·.getD 0) where
  regional := Busy.noConfusion
  named := by rintro ⟨⟩ _ ⟨⟩; rfl
  sets := by rintro ⟨⟩ _ _ ⟨⟩; rfl
  keeps := by rintro ⟨⟩ _ ⟨⟩ <;> rfl
  frame := fun _ _ _ => rfl

theorem follows_inputSize : Follows .inputResizing Event.inputSize? Context.inputSize id where
  regional := Busy.noConfusion
  named := by rintro ⟨⟩ _ ⟨⟩; rfl
  sets := by rintro ⟨⟩ _ _ ⟨⟩; rfl
  keeps := by rintro ⟨⟩ _ ⟨⟩ <;> rfl
  frame := fun _ _ _ => rfl

theorem follows_appSize : Follows .appResizing Event.appSize? Context.appSize id where
  regional := Busy.noConfusion
  named := by rintro ⟨⟩ _ ⟨⟩; rfl
  sets := by rintro ⟨⟩ _ _ ⟨⟩; rfl
  keeps := by rintro ⟨⟩ _ ⟨⟩ <;> rfl
  frame := fun _ _ _ => rfl

/-! ## Along a run -/

/-- What goes for a busy state while it is active, where the latest of its events was processed at a
clock reading. -/
structure Debounced (b : Busy) (log : List (Statechart.Event domain)) (m : Machine domain)
    (now : Duration) : Prop where
  latest : b.Stirred log now
  /-- It has one timer, armed as the latest of its events was processed. -/
  timer : ∃ epoch, m.timers.pending.filter (fun t => t.state = b.state) = [b.timerAt now epoch]
  /-- It is not left before the timer is due, but on an event from outside or as the widget is
  stopped. -/
  early : ∀ e m' step, m.Does e m' → e.step = some step → b.state ∈ step.exited →
    step.signal = .stop ∨ (∃ event, step.signal = .event event) ∨
      ∃ reading horizon, e.took = some (.timers reading horizon) ∧ now.add b.settle ≤ reading
  /-- Unless a listener has panicked or somebody asked to stop, it is left on the first tick with a
  reading at which the timer is due, within finitely many rounds; or a listener panics before. -/
  due : m.Serves false → now.add b.settle ≤ m.shell.clock.now →
    ∃ m', m.Comes .tick m' ∧ (m'.Leaves b.state ∨ m'.Panics)
  /-- When the tick is over it is not active any more, unless one of its events was processed
  meanwhile. -/
  afterwards : ∀ fuel o, m.blocked = false → now.add b.settle ≤ m.shell.clock.now →
    m.call fuel .tick = some o → o.error = none → o.machine.status = .running →
      (∃ newer, m.Goes newer o.machine) ∧ ∀ newer, m.Goes newer o.machine →
        b.state ∈ o.machine.configuration → ∃ e ∈ newer, b.Stirs e

/-- What the context keeps of the latest events that were processed while the widget was set up. -/
structure Keeps (log : List (Statechart.Event domain)) (c : Context) : Prop where
  scrollOffset : c.scrollOffset = (latest? Event.offset? log).getD 0
  inputSize : c.inputSize = latest? Event.inputSize? log
  appSize : c.appSize = latest? Event.appSize? log

theorem debounced_of_course (h : Course chart log m) (hs : m.status = .running)
    (hactive : b.state ∈ m.configuration) : ∃ now, Debounced b log m now := by
  obtain ⟨now, epoch, hstirred, hall⟩ := waiting_of_course h hs hactive
  have hpending := (hall (b.timerAt now epoch) rfl).mpr rfl
  refine ⟨now, hstirred, ⟨epoch, ?_⟩, fun e m' step hdoes hstep hexited => ?_,
    fun hserves hdue => leaves_of_tick h hserves hactive hpending hdue,
    fun fuel o hfree hdue hcall hgood hrunning => ?_⟩
  · refine List.perm_singleton.mp ((List.perm_ext_iff_of_nodup
      (m.timers.nodup_pending.filter _) (List.nodup_singleton _)).mpr fun u => ?_)
    simp only [List.mem_filter, List.mem_singleton, decide_eq_true_eq]
    exact ⟨fun hu => (hall u hu.2).mp hu.1, fun hu => ⟨(hall u (hu ▸ rfl)).mpr hu, hu ▸ rfl⟩⟩
  · rcases left_of_exited h hdoes hstep hexited with hstop | hevent | ⟨reading, horizon, htook, u, hu,
      hstate, hdue⟩
    · exact Or.inl hstop
    · exact Or.inr (Or.inl hevent)
    · obtain rfl := (hall u hstate).mp hu
      simp only [Timer.isDue, Bool.and_eq_true, decide_eq_true_eq] at hdue
      exact Or.inr (Or.inr ⟨reading, horizon, htook, hdue.1⟩)
  · exact ⟨goes_call .rest hcall, fun newer hgoes hafter =>
      stirs_of_tick h hfree hall hdue hcall hgood hrunning hgoes hafter⟩

/-- While a session is running each of its busy states that is active has one timer, which is due
when there was quiet for its time since the latest of its events; it is left on the first tick with
such a reading and on none before. What these events say is kept in the context. -/
theorem debounced_of_goes
    (h : (Session.ofConfig config drives canInvoke texts files).machine.Goes log m) :
    (∀ b : Busy, m.snapshot.status = .running → b.state ∈ m.snapshot.configuration →
      ∃ now, Debounced b log m now) ∧ Keeps log m.snapshot.context := by
  have hcourse := course_goes (course_ofConfig config drives canInvoke texts files) h
  rw [List.append_nil] at hcourse
  refine ⟨fun b hs hactive => ?_, field_of_goes follows_offset rfl h,
    field_of_goes follows_inputSize rfl h, field_of_goes follows_appSize rfl h⟩
  exact debounced_of_course hcourse hs ((Outline.mem_inDocumentOrder ..).mp hactive)

/-! ## Scrolling in the lobby -/

/-- Somebody scrolls when there is nothing else to do, and when the timer is due there is a tick. -/
theorem called_quiet_scroll (offset : Float) :
    (((quiet m).called? (.send (Event.scroll offset))).bind fun scrolled =>
      let late := scrolled.2.setClock scrollSettle
      (late.call 9 .tick).map fun o =>
        ((late.status, late.isActive .scrolling, late.timers.pending.map (·.deadline.nanos),
          late.shell.clock.now.nanos, late.blocked, late.shell.stopRequested),
        o.error.isNone, o.machine.status, o.machine.isActive .scrolling,
          o.machine.isActive .scrollIdle)) =
      some ((.running, true, [scrollSettle.nanos], scrollSettle.nanos, false, false),
        true, .running, false, true) := by
  have hselect : (quiet m).select (.event (Event.scroll offset)) =
      .ok [⟨.scrollIdle, 0, on "SCROLL" .scrolling [assignScroll]⟩] := by
    unfold select
    dsimp only
    rw [leaves_quiet]
    rfl
  have hreact : (quiet m).reacting? (.event (Event.scroll offset)) = some (quiet m) := rfl
  rw [quiet, called_idleIn, ← quiet, reacted?]
  simp only [hreact, bind, Option.bind, hselect]
  cbv

/-- In the lobby somebody scrolls, and a timer waits for quiet. A tick when that is due leaves the
state. -/
theorem lobby_debounced : ∃ log m now, lobby.Goes log m ∧ m.snapshot.status = .running ∧
    Busy.scrolling.state ∈ m.snapshot.configuration ∧
    m.timers.pending.map (·.deadline.nanos) = [scrollSettle.nanos] ∧ m.Serves false ∧
    Duration.add now scrollSettle ≤ m.shell.clock.now ∧ Debounced .scrolling log m now ∧
    Keeps log m.snapshot.context ∧
    (∃ m', m.Comes .tick m' ∧ (m'.Leaves .scrolling ∨ m'.Panics)) ∧
    ∃ o, m.call 9 .tick = some o ∧ o.error = none ∧ o.machine.status = .running ∧
      o.machine.isActive .scrolling = false ∧ o.machine.isActive .scrollIdle = true := by
  obtain ⟨log, m, hquiet, -⟩ := lobby_quiet
  obtain ⟨⟨step, m'⟩, hcalled, hticked⟩ := Option.bind_eq_some_iff.mp
    (called_quiet_scroll (m := m) 7)
  obtain ⟨o, hcall, hticked⟩ := Option.map_eq_some_iff.mp hticked
  simp only [Prod.mk.injEq] at hticked
  obtain ⟨⟨hstatus, hactive, htimer, hclock, hfree, hgoing⟩, hgood, hrunning, hleft, hidle⟩ :=
    hticked
  obtain ⟨log', hscrolled⟩ := goes_called? hquiet hcalled
  have hgoes : lobby.Goes _ (m'.setClock scrollSettle) := hscrolled.next .outside
  obtain ⟨hdebounced, hkeeps⟩ := debounced_of_goes hgoes
  have hscrolling : Busy.scrolling.state ∈ (m'.setClock scrollSettle).snapshot.configuration :=
    (Outline.mem_inDocumentOrder ..).mpr (isActive_iff.mp hactive)
  obtain ⟨now, hdebounced⟩ := hdebounced .scrolling hstatus hscrolling
  have hdue : Duration.add now scrollSettle ≤ (m'.setClock scrollSettle).shell.clock.now := by
    obtain ⟨epoch, hpending⟩ := hdebounced.timer
    have hmem := List.mem_of_mem_filter (hpending ▸ List.mem_singleton_self _)
    have hdeadline : (now.add scrollSettle).nanos ∈ [scrollSettle.nanos] :=
      htimer ▸ List.mem_map.mpr ⟨_, hmem, rfl⟩
    rw [Duration.le_def, hclock]
    exact Nat.le_of_eq (List.mem_singleton.mp hdeadline)
  exact ⟨_, _, now, hgoes, hstatus, hscrolling, htimer, ⟨hfree, hgoing⟩, hdue, hdebounced, hkeeps,
    hdebounced.due ⟨hfree, hgoing⟩ hdue, o, hcall, Option.isNone_iff_eq_none.mp hgood, hrunning,
    hleft, hidle⟩

end Statechart.Chat
