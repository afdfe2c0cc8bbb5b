import Statechart.Proofs.Chat.Moves

/-!
# The context of a chat widget and its regions

What a widget keeps of a drag, of an alert and of its failure goes with the states it is in: there is
a drag as long as `dragActive` is active, an alert as long as `alertShown` is, and an error once
`failed` is (`coupled_of_goes`). Of a drag it keeps where it began and how often it moved since, of an
alert the latest message. No more moves are counted than are processed (`moves_le_of_goes`), so that
the count does not run over where numbers are bounded, unless that many are (`moves_lt_of_goes`).
-/

namespace Statechart.Chat

open Machine

variable {m m' m₀ : Machine domain} {t : Selected domain} {x : domain.State} {name : String}
  {step : Settled domain} {e : Statechart.Event domain}
  {log newer older : List (Statechart.Event domain)} {config : Config} {drives canInvoke : Bool}
  {texts files : Nat → Stamp}

/-- The event from outside that is processed at a moment. -/
def handled (e : Statechart.Event domain) : Option Event :=
  e.processed.bind fun p => p.2.event?

theorem handled_eq_some_iff {event : Event} :
    handled e = some event ↔ ∃ m₀, e.processed = some (m₀, .event event) := by
  constructor
  · intro h
    obtain ⟨⟨m₀, signal⟩, hprocessed, hsignal⟩ := Option.bind_eq_some_iff.mp h
    cases signal with
    | event event' =>
      obtain rfl := Option.some.inj hsignal
      exact ⟨m₀, hprocessed⟩
    | _ => exact absurd hsignal (by simp [Signal.event?])
  · rintro ⟨m₀, hprocessed⟩
    exact Option.bind_eq_some_iff.mpr ⟨_, hprocessed, rfl⟩

/-! ## Dragging -/

/-- What the transitions do to a drag. -/
@[mk_iff]
structure Drags (s : domain.State) (tr : Transition domain) : Prop where
  start : tr.trigger = .event "DRAG_START" →
    tr.target = some .dragActive ∧ chart.crosses ⟨s, 0, tr⟩ .dragActive
  move : tr.trigger = .event "DRAG_MOVE" → chart.isWithin s .dragActive
  finish : tr.trigger = .event "DRAG_END" →
    s = .dragActive ∧ tr.target = some .dragIdle ∧ chart.crosses ⟨s, 0, tr⟩ .dragActive
  other : chart.isWithin s .active → chart.crosses ⟨s, 0, tr⟩ .dragActive →
    tr.trigger = .event "DRAG_START" ∨ tr.trigger = .event "DRAG_END"

theorem drags_of_declared (h : Declared chart t) : Drags t.source t.transition := by
  refine of_declared ?_ h
  simp only [drags_iff]
  decide

theorem opened_dragActive : Opened .dragActive "DRAG_START" := by decide

theorem twins_dragActive : Twins .dragActive .dragging .dragMoving :=
  ⟨by decide, by decide, State.noConfusion⟩

/-- What a step makes of a drag: it begins or ends with the state, and goes on with every move in
between. -/
inductive Dragging (m₀ : Machine domain) (step : Settled domain) (d : Drag) : Drag → Prop
  | begins {p : Point} : step.signal = .event (Event.dragStart p) → .dragActive ∈ step.entered →
      Dragging m₀ step d (d.begin p)
  | ends {p : Point} : step.signal = .event (Event.dragEnd p) → .dragActive ∉ step.entered →
      .dragActive ∈ step.exited → Dragging m₀ step d (d.finish p)
  | goesOn {p : Point} : step.signal = .event (Event.dragMove p) → .dragActive ∉ step.entered →
      .dragActive ∉ step.exited → .dragActive ∈ m₀.configuration → Dragging m₀ step d (d.track p)
  | stays : (∀ p, step.signal = .event (Event.dragMove p) → .dragActive ∉ m₀.configuration) →
      .dragActive ∉ step.entered → .dragActive ∉ step.exited → Dragging m₀ step d d

section

variable (hm : Sound m₀)

include hm

/-- Every move of a drag is taken up. -/
theorem takes_dragMove (hactive : .dragActive ∈ m₀.configuration) (p : Point) :
    m₀.takes (.event (Event.dragMove p)) ≠ [] := by
  have hname : domain.eventName (Event.dragMove p) ≠ "SEND_MESSAGE" := by simp [domain, Event.name]
  have hwaits : Waits .dragging "DRAG_MOVE" ∧ Waits .dragMoving "DRAG_MOVE" := by decide
  exact takes_of_twins hm twins_dragActive hactive hname hwaits.1 hwaits.2

theorem dragging_of_exchanges (hx : step.Exchanges chart m₀) (c : Context) :
    Dragging m₀ step c.drag (updated m₀ step.signal c).drag := by
  -- `dragActive` is only entered on DRAG_START
  by_cases hentered : .dragActive ∈ step.entered
  · obtain ⟨event, hsignal, hname, htaken⟩ := event_of_entered opened_dragActive hm hx hentered
    cases event with
    | dragStart p =>
      rw [hsignal, updated_of_taken htaken]
      exact .begins hsignal hentered
    | _ => exact absurd hname (by simp [domain, Event.name])
  -- it is only left for good on DRAG_END
  by_cases hexited : .dragActive ∈ step.exited
  · obtain ⟨hactive, t, ht, hcross⟩ := hx.exited _ hexited
    obtain ⟨hdecl, hanswers, -⟩ := active_of_takes hm ht
    have hin := isWithin_of_takes hm (active_of_below hm hactive (by decide)) ht
    have hdrags := drags_of_declared hdecl
    rcases hdrags.other hin hcross with h | h
    · exact absurd (hx.enters t ht _ (hdrags.start h).1 (by decide) hcross) hentered
    · obtain ⟨event, hsignal, hname⟩ := event_of_answers hanswers h
      have htaken := List.ne_nil_of_mem ht
      rw [hsignal] at htaken
      cases event with
      | dragEnd p =>
        rw [hsignal, updated_of_taken htaken]
        exact .ends hsignal hentered hexited
      | _ => exact absurd hname (by simp [domain, Event.name])
  -- from here on the state stays as it is, active or not
  by_cases htaken : m₀.takes step.signal = []
  · rw [updated_of_untaken htaken]
    refine .stays (fun p hsignal hactive => ?_) hentered hexited
    exact takes_dragMove hm hactive p (hsignal ▸ htaken)
  obtain ⟨t, ht⟩ := List.exists_mem_of_ne_nil _ htaken
  obtain ⟨hdecl, hanswers, hsource⟩ := active_of_takes hm ht
  have hdrags := drags_of_declared hdecl
  cases hsignal : step.signal with
  | event event =>
    rw [hsignal] at htaken hanswers
    rw [updated_of_taken htaken]
    cases event with
    | dragStart p =>
      obtain ⟨htarget, hcross⟩ := hdrags.start hanswers
      exact absurd (hx.enters t ht _ htarget (by decide) hcross) hentered
    | dragEnd p =>
      obtain ⟨hs, htarget, hcross⟩ := hdrags.finish hanswers
      exact absurd (hx.leaves t ht _ htarget (by decide) _ (hs ▸ hsource) hcross) hexited
    | dragMove p =>
      exact .goesOn hsignal hentered hexited (Chart.active_of_isWithin
        (wellFormed_of_mem hm hsource) hsource (hdrags.move hanswers))
    | _ =>
      exact .stays (fun p h => Event.noConfusion (Signal.event.inj (hsignal.symm.trans h))) hentered
        hexited
  | _ =>
    rw [updated_of_internal rfl]
    exact .stays (fun p h => absurd (hsignal.symm.trans h) (by simp)) hentered hexited

end

/-! ## Alerts -/

/-- What the transitions do to an alert. -/
@[mk_iff]
structure Alerts (s : domain.State) (tr : Transition domain) : Prop where
  shown : tr.trigger = .event "SHOW_ERROR" →
    (s = .alertHidden ∧ tr.target = some .alertShown ∧ chart.crosses ⟨s, 0, tr⟩ .alertShown) ∨
      s = .alertShown
  dismissed : tr.trigger = .event "DISMISS_ERROR" →
    s = .alertShown ∧ tr.target = some .alertHidden ∧ chart.crosses ⟨s, 0, tr⟩ .alertShown
  other : chart.isWithin s .active → chart.crosses ⟨s, 0, tr⟩ .alertShown →
    (tr.trigger = .event "SHOW_ERROR" ∧ tr.target = some .alertShown) ∨
      tr.trigger = .event "DISMISS_ERROR"

theorem alerts_of_declared (h : Declared chart t) : Alerts t.source t.transition := by
  refine of_declared ?_ h
  simp only [alerts_iff]
  decide

theorem opened_alertShown : Opened .alertShown "SHOW_ERROR" := by decide

/-- What a step makes of an alert: it is shown with every new message, and taken away with the
state. -/
inductive Alerting (m₀ : Machine domain) (step : Settled domain) (alert : Option String) :
    Option String → Prop
  | shows {message : String} : step.signal = .event (Event.showError message) →
      .alertShown ∈ step.after.configuration → Alerting m₀ step alert (some message)
  | dismisses : .alertShown ∉ step.after.configuration → Alerting m₀ step alert none
  | stays : (∀ message, step.signal = .event (Event.showError message) →
        .alertShown ∉ m₀.configuration) →
      (.alertShown ∈ step.after.configuration ↔ .alertShown ∈ m₀.configuration) →
      Alerting m₀ step alert alert

/-- A new message of an alert that is shown is taken up. -/
theorem takes_showError (hm : Sound m₀) (hactive : .alertShown ∈ m₀.configuration)
    (message : String) : m₀.takes (.event (Event.showError message)) ≠ [] := by
  have hwaits : Waits .alertShown "SHOW_ERROR" := by decide
  have hname : domain.eventName (Event.showError message) ≠ "SEND_MESSAGE" := by
    simp [domain, Event.name]
  obtain ⟨t, htakes, -⟩ := takes_of_waiting hm hname hactive hwaits
  rw [htakes]
  simp

theorem alerting_of_exchanges (hm : Sound m₀) (hx : step.Exchanges chart m₀) (c : Context) :
    Alerting m₀ step c.alert (updated m₀ step.signal c).alert := by
  have hafter := hx.after .alertShown
  -- `alertShown` is only entered on SHOW_ERROR
  by_cases hentered : .alertShown ∈ step.entered
  · obtain ⟨event, hsignal, hname, htaken⟩ := event_of_entered opened_alertShown hm hx hentered
    cases event with
    | showError message =>
      rw [hsignal, updated_of_taken htaken]
      exact .shows hsignal (hafter.mpr (Or.inr hentered))
    | _ => exact absurd hname (by simp [domain, Event.name])
  -- it is only left for good on DISMISS_ERROR
  by_cases hexited : .alertShown ∈ step.exited
  · obtain ⟨hactive, t, ht, hcross⟩ := hx.exited _ hexited
    obtain ⟨hdecl, hanswers, -⟩ := active_of_takes hm ht
    have hin := isWithin_of_takes hm (active_of_below hm hactive (by decide)) ht
    rcases (alerts_of_declared hdecl).other hin hcross with ⟨-, htarget⟩ | h
    · exact absurd (hx.enters t ht _ htarget (by decide) hcross) hentered
    · obtain ⟨event, hsignal, hname⟩ := event_of_answers hanswers h
      have htaken := List.ne_nil_of_mem ht
      rw [hsignal] at htaken
      cases event with
      | dismissError =>
        rw [hsignal, updated_of_taken htaken]
        exact .dismisses fun h => (hafter.mp h).elim (fun h => h.2 hexited) hentered
      | _ => exact absurd hname (by simp [domain, Event.name])
  -- from here on the state stays as it is, active or not
  have hsame : .alertShown ∈ step.after.configuration ↔ .alertShown ∈ m₀.configuration := by
    rw [hafter]
    simp [hentered, hexited]
  by_cases htaken : m₀.takes step.signal = []
  · rw [updated_of_untaken htaken]
    refine .stays (fun message hsignal hactive => ?_) hsame
    exact takes_showError hm hactive message (hsignal ▸ htaken)
  obtain ⟨t, ht⟩ := List.exists_mem_of_ne_nil _ htaken
  obtain ⟨hdecl, hanswers, hsource⟩ := active_of_takes hm ht
  have halerts := alerts_of_declared hdecl
  cases hsignal : step.signal with
  | event event =>
    rw [hsignal] at htaken hanswers
    rw [updated_of_taken htaken]
    cases event with
    | showError message =>
      rcases halerts.shown hanswers with ⟨-, htarget, hcross⟩ | hs
      · exact absurd (hx.enters t ht _ htarget (by decide) hcross) hentered
      · exact .shows hsignal (hsame.mpr (hs ▸ hsource))
    | dismissError =>
      obtain ⟨hs, htarget, hcross⟩ := halerts.dismissed hanswers
      exact absurd (hx.leaves t ht _ htarget (by decide) _ (hs ▸ hsource) hcross) hexited
    | _ =>
      exact .stays (fun m h => Event.noConfusion (Signal.event.inj (hsignal.symm.trans h))) hsame
  | _ =>
    rw [updated_of_internal rfl]
    exact .stays (fun m h => absurd (hsignal.symm.trans h) (by simp)) hsame

/-! ## Failing -/

/-- A transition that ends the widget leads to a state beside the one it leaves. -/
theorem crosses_failed (h : Declared chart t) (htarget : t.transition.target = some .failed) :
    chart.crosses t .failed := by
  revert htarget
  refine of_declared (P := fun s tr => tr.target = some .failed →
    chart.crosses ⟨s, 0, tr⟩ .failed) ?_ h
  decide

/-- A widget that failed takes nothing up. -/
theorem takes_failed (hm : Sound m₀) (hfailed : .failed ∈ m₀.configuration)
    (signal : Signal domain) : m₀.takes signal = [] := by
  have halone : ∀ s ∈ m₀.configuration, chart.parent? s = some .widget → s = .failed :=
    fun s hs hp => Chart.eq_of_siblings (wellFormed_of_mem hm hfailed) isCompound_widget hs hfailed
      hp (by decide)
  have hinactive : .active ∉ m₀.configuration := fun h =>
    State.noConfusion (halone .active h parent_active)
  obtain h | ⟨t, htakes, -, hdecl, hout⟩ : m₀.takes signal = [] ∨ _ := early_of_takes hm hinactive
  · exact h
  · obtain ⟨-, -, hsource⟩ := active_of_takes hm (htakes ▸ List.mem_singleton_self t)
    rcases (early_of_declared hdecl hout).2 with ⟨hs, -⟩ | ⟨hs, -⟩
    · exact State.noConfusion (halone .boot (hs ▸ hsource) (by decide))
    · exact State.noConfusion (halone .initializing (hs ▸ hsource) (by decide))

theorem isAside_failed : chart.isAside .failed := by decide

/-- It is not entered but through a transition to it, and stays. -/
theorem failed_of_exchanges (hm : Sound m₀) (hx : step.Exchanges chart m₀)
    (hnone : ∀ t ∈ m₀.takes step.signal, t.transition.target ≠ some .failed) :
    .failed ∈ step.after.configuration ↔ .failed ∈ m₀.configuration := by
  have hentered : .failed ∉ step.entered := by
    intro h
    obtain ⟨t, ht, -, g, hg, hwithin⟩ :=
      target_of_enters hx isAside_failed (by decide) (by decide) h
    have hall : ∀ s ∈ State.all, chart.isWithin s .failed → s = .failed := by decide
    exact hnone t ht (hall g (by cases g <;> decide) hwithin ▸ hg)
  have hafter := hx.after .failed
  rw [hafter]
  refine ⟨fun h => (h.resolve_right hentered).1, fun h => Or.inl ⟨h, fun hexited => ?_⟩⟩
  obtain ⟨-, t, ht, -⟩ := hx.exited _ hexited
  rw [takes_failed hm h] at ht
  exact absurd ht List.not_mem_nil

/-! ## Along a run -/

/-- Whether an event is a move of the pointer that is processed. -/
def isMove (e : Statechart.Event domain) : Bool :=
  match handled e with
  | some (.dragMove _) => true
  | _ => false

theorem isMove_iff : isMove e ↔ ∃ p, handled e = some (.dragMove p) := by
  unfold isMove
  split
  · next p h => exact ⟨fun _ => ⟨p, h⟩, fun _ => rfl⟩
  · next hnone => exact ⟨fun h => absurd h (by simp), fun ⟨p, h⟩ => absurd h (hnone p)⟩

/-- The message of an error that is processed. -/
def shown? (e : Statechart.Event domain) : Option String :=
  match handled e with
  | some (.showError message) => some message
  | _ => none

theorem shown?_eq_some_iff {message : String} :
    shown? e = some message ↔ handled e = some (.showError message) := by
  unfold shown?
  split
  · next h => simp [h]
  · next hnone => exact ⟨fun h => absurd h (by simp), fun h => absurd h (hnone message)⟩

/-- Whether an event is the step by which a drag begins, at a point. -/
def Begins (e : Statechart.Event domain) (p : Point) : Prop :=
  handled e = some (.dragStart p) ∧ ∃ step, e.step = some step ∧ .dragActive ∈ step.entered

/-- Whether an event neither begins nor ends a drag. -/
def KeepsDrag (e : Statechart.Event domain) : Prop :=
  ∀ step, e.step = some step → .dragActive ∉ step.entered ∧ .dragActive ∉ step.exited

/-- Whether a log tells of a drag: of how it began, and of all its moves since. -/
def Recounts (log : List (Statechart.Event domain)) (d : Drag) : Prop :=
  ∃ newer e older p, log = newer ++ e :: older ∧ Begins e p ∧ (∀ e' ∈ newer, KeepsDrag e') ∧
    d.origin = some p ∧ d.moves = newer.countP isMove

/-- What goes with the states that a widget is in: the drag, the alert and the error of its
context. -/
structure Coupled (log : List (Statechart.Event domain)) (active : domain.State → Prop)
    (c : Context) : Prop where
  origin : c.drag.origin.isSome ↔ active .dragActive
  current : c.drag.current.isSome ↔ active .dragActive
  drag : active .dragActive → Recounts log c.drag
  alert : c.alert.isSome ↔ active .alertShown
  /-- An alert shows the latest message. -/
  latest : active .alertShown → c.alert = log.findSome? shown?
  error : c.error.isSome ↔ active .failed

theorem recounts_of_stays {d : Drag} (h : Recounts log d) (hkeeps : KeepsDrag e)
    (hmove : isMove e = false) : Recounts (e :: log) d := by
  obtain ⟨newer, e', older, p, rfl, hbegins, hkept, horigin, hmoves⟩ := h
  refine ⟨e :: newer, e', older, p, rfl, hbegins, List.forall_mem_cons.mpr ⟨hkeeps, hkept⟩,
    horigin, ?_⟩
  rw [List.countP_cons_of_neg (by simp [hmove]), hmoves]

theorem recounts_of_moves {d : Drag} (h : Recounts log d) (hkeeps : KeepsDrag e)
    (hmove : isMove e) (p : Point) : Recounts (e :: log) (d.track p) := by
  obtain ⟨newer, e', older, p, rfl, hbegins, hkept, horigin, hmoves⟩ := h
  refine ⟨e :: newer, e', older, p, rfl, hbegins, List.forall_mem_cons.mpr ⟨hkeeps, hkept⟩,
    horigin, ?_⟩
  rw [List.countP_cons_of_pos hmove, ← hmoves]
  rfl

section

variable (hx : step.Exchanges chart m₀) (he : e.step = some step)
  (hevent : ∀ event, handled e = some event ↔ step.signal = .event event)

include hx he hevent

theorem drag_of_dragging {d d' : Drag} (h : Dragging m₀ step d d')
    (horigin : d.origin.isSome ↔ .dragActive ∈ m₀.configuration)
    (hcurrent : d.current.isSome ↔ .dragActive ∈ m₀.configuration)
    (hdrag : .dragActive ∈ m₀.configuration → Recounts log d) :
    (d'.origin.isSome ↔ .dragActive ∈ step.after.configuration) ∧
      (d'.current.isSome ↔ .dragActive ∈ step.after.configuration) ∧
      (.dragActive ∈ step.after.configuration → Recounts (e :: log) d') := by
  have hafter := hx.after .dragActive
  have hstep : ∀ step', e.step = some step' → step' = step :=
    fun step' he' => Option.some.inj (he'.symm.trans he)
  -- a step that neither begins nor ends the drag
  have hkept : .dragActive ∉ step.entered → .dragActive ∉ step.exited → KeepsDrag e ∧
      (.dragActive ∈ step.after.configuration ↔ .dragActive ∈ m₀.configuration) := by
    intro hentered hexited
    rw [hafter]
    exact ⟨fun step' he' => hstep step' he' ▸ ⟨hentered, hexited⟩, by simp [hentered, hexited]⟩
  cases h with
  | @begins p hsignal hentered =>
    have hactive := hafter.mpr (Or.inr hentered)
    refine ⟨iff_of_true rfl hactive, iff_of_true rfl hactive, fun _ => ?_⟩
    exact ⟨[], e, log, p, rfl, ⟨(hevent _).mpr hsignal, step, he, hentered⟩, by simp, rfl, rfl⟩
  | ends _ hentered hexited =>
    have hinactive : .dragActive ∉ step.after.configuration :=
      fun h => (hafter.mp h).elim (fun h => h.2 hexited) hentered
    exact ⟨iff_of_false (by simp [Drag.finish]) hinactive,
      iff_of_false (by simp [Drag.finish]) hinactive, fun h => absurd h hinactive⟩
  | @goesOn p hsignal hentered hexited hactive =>
    obtain ⟨hkeeps, hsame⟩ := hkept hentered hexited
    have hmove : isMove e := isMove_iff.mpr ⟨p, (hevent _).mpr hsignal⟩
    rw [hsame]
    exact ⟨horigin, iff_of_true rfl hactive,
      fun hactive => recounts_of_moves (hdrag hactive) hkeeps hmove p⟩
  | stays hno hentered hexited =>
    obtain ⟨hkeeps, hsame⟩ := hkept hentered hexited
    rw [hsame]
    refine ⟨horigin, hcurrent, fun hactive => recounts_of_stays (hdrag hactive) hkeeps ?_⟩
    refine Bool.eq_false_iff.mpr fun hmove => ?_
    obtain ⟨p, hhandled⟩ := isMove_iff.mp hmove
    exact hno p ((hevent _).mp hhandled) hactive

end

theorem alert_of_alerting {alert alert' : Option String}
    (hevent : ∀ event, handled e = some event ↔ step.signal = .event event)
    (h : Alerting m₀ step alert alert')
    (hshown : alert.isSome ↔ .alertShown ∈ m₀.configuration)
    (hlatest : .alertShown ∈ m₀.configuration → alert = log.findSome? shown?) :
    (alert'.isSome ↔ .alertShown ∈ step.after.configuration) ∧
      (.alertShown ∈ step.after.configuration → alert' = (e :: log).findSome? shown?) := by
  cases h with
  | shows hsignal hactive =>
    refine ⟨iff_of_true rfl hactive, fun _ => ?_⟩
    rw [List.findSome?_cons, shown?_eq_some_iff.mpr ((hevent _).mpr hsignal)]
  | dismisses hinactive =>
    exact ⟨iff_of_false (by simp) hinactive, fun h => absurd h hinactive⟩
  | stays hno hsame =>
    rw [hsame]
    refine ⟨hshown, fun hactive => ?_⟩
    have hnone : shown? e = none := Option.eq_none_iff_forall_ne_some.mpr fun message hmessage =>
      hno message ((hevent _).mp (shown?_eq_some_iff.mp hmessage)) hactive
    rw [List.findSome?_cons, hnone]
    exact hlatest hactive

section

variable (hcourse : Course chart log m) (hbefore : Coupled log (· ∈ m.configuration) m.context)
  (hdoes : m.Does e m')

include hcourse hbefore hdoes

/-- What waits for a move or for a message is not passed over. -/
theorem coupled_of_rests (h : m.Rests e m') :
    Coupled (e :: log) (· ∈ m'.configuration) m'.context := by
  rw [h.configuration, h.context]
  have huntaken : ∀ event, handled e = some event → ∃ m₀ : Machine domain, Sound m₀ ∧
      m₀.configuration = m.configuration ∧ m₀.takes (.event event) = [] := by
    intro event hhandled
    obtain ⟨m₀, hprocessed⟩ := handled_eq_some_iff.mp hhandled
    obtain ⟨hm₀, hstage, -⟩ := sound_of_processed hcourse hdoes hprocessed
    exact ⟨m₀, hm₀, hstage.configuration, (h.untaken _ _ hprocessed).1⟩
  have hkeeps : KeepsDrag e := fun step he => absurd (h.unsettled.symm.trans he) (by simp)
  have hmove : .dragActive ∈ m.configuration → isMove e = false := by
    refine fun hactive => Bool.eq_false_iff.mpr fun hmove => ?_
    obtain ⟨p, hhandled⟩ := isMove_iff.mp hmove
    obtain ⟨m₀, hm₀, hsame, hnone⟩ := huntaken _ hhandled
    exact takes_dragMove hm₀ (hsame ▸ hactive) p hnone
  have hshown : .alertShown ∈ m.configuration → shown? e = none := by
    refine fun hactive => Option.eq_none_iff_forall_ne_some.mpr fun message hmessage => ?_
    obtain ⟨m₀, hm₀, hsame, hnone⟩ := huntaken _ (shown?_eq_some_iff.mp hmessage)
    exact takes_showError hm₀ (hsame ▸ hactive) message hnone
  refine ⟨hbefore.origin, hbefore.current,
    fun hactive => recounts_of_stays (hbefore.drag hactive) hkeeps (hmove hactive),
    hbefore.alert, fun hactive => ?_, hbefore.error⟩
  rw [List.findSome?_cons, hshown hactive]
  exact hbefore.latest hactive

theorem coupled_of_steps (h : m.Steps e m₀ step m') :
    Coupled (e :: log) (· ∈ m'.configuration) m'.context := by
  obtain ⟨hm₀, -⟩ := sound_of_processed hcourse hdoes h.processed
  have hx := exchanges_of_course hcourse hdoes h
  have hevent : ∀ event, handled e = some event ↔ step.signal = .event event := by
    refine fun event => ⟨fun hhandled => ?_, fun hsignal =>
      handled_eq_some_iff.mpr ⟨m₀, hsignal ▸ h.processed⟩⟩
    obtain ⟨m₁, hprocessed⟩ := handled_eq_some_iff.mp hhandled
    exact (Prod.mk.inj (Option.some.inj (h.processed.symm.trans hprocessed))).2
  obtain ⟨hunprocessed, -⟩ | ⟨m₁, signal, messages, error, hprocessed, -, -, hcontext, herror⟩ :=
    context_of_moment hcourse hdoes
  · exact absurd (h.processed.symm.trans hunprocessed) (by simp)
  obtain ⟨rfl, rfl⟩ := Prod.mk.inj (Option.some.inj (h.processed.symm.trans hprocessed))
  rw [← h.stage.configuration] at hbefore
  rw [h.configuration, hcontext]
  obtain ⟨horigin, hcurrent, hdrag⟩ := drag_of_dragging hx h.settled hevent
    (dragging_of_exchanges hm₀ hx m.context) hbefore.origin hbefore.current hbefore.drag
  obtain ⟨hshown, hlatest⟩ := alert_of_alerting hevent
    (alerting_of_exchanges hm₀ hx m.context) hbefore.alert hbefore.latest
  refine ⟨horigin, hcurrent, hdrag, hshown, hlatest, ?_⟩
  -- an error is stored only on the way to `failed`
  rcases herror with ⟨hsame, hnone⟩ | ⟨hsome, t, htakes, htarget⟩
  · have hfailed := failed_of_exchanges hm₀ hx hnone
    rw [hfailed]
    exact hsame ▸ hbefore.error
  · have ht : t ∈ m₀.takes step.signal := htakes ▸ List.mem_singleton_self t
    have hentered := hx.enters t ht _ htarget (by decide)
      (crosses_failed (active_of_takes hm₀ ht).1 htarget)
    exact iff_of_true hsome ((hx.after _).mpr (Or.inr hentered))

end

theorem coupled_ofConfig :
    Coupled [] (· ∈ (Session.ofConfig config drives canInvoke texts files).machine.configuration)
      (Session.ofConfig config drives canInvoke texts files).machine.context := by
  have hnone :
      ∀ x, x ∉ (Session.ofConfig config drives canInvoke texts files).machine.configuration :=
    fun _ => List.not_mem_nil
  exact ⟨iff_of_false Bool.false_ne_true (hnone _), iff_of_false Bool.false_ne_true (hnone _),
    fun h => absurd h (hnone _), iff_of_false Bool.false_ne_true (hnone _),
    fun h => absurd h (hnone _), iff_of_false Bool.false_ne_true (hnone _)⟩

/-- As long as a session is neither stopped nor faulted, what an outsider sees of its context goes
with the states that the outsider sees. -/
theorem coupled_of_goes
    (h : (Session.ofConfig config drives canInvoke texts files).machine.Goes log m)
    (hs : m.snapshot.status = .notStarted ∨ m.snapshot.status = .running ∨
      m.snapshot.status = .done) :
    Coupled log (· ∈ m.snapshot.configuration) m.snapshot.context := by
  have hup : ¬ m.Ended := by
    rintro (hend | hend) <;> simp [snapshot, hend] at hs
  have hcoupled := live_of_goes (P := fun log m => Coupled log (· ∈ m.configuration) m.context)
    (course_ofConfig config drives canInvoke texts files) coupled_ofConfig
    (fun hcourse hbefore hdoes h => coupled_of_rests hcourse hbefore hdoes h)
    (fun hcourse hbefore hdoes _ h => coupled_of_steps hcourse hbefore hdoes h) h hup
  have hsame : (· ∈ m.snapshot.configuration) = (· ∈ m.configuration) :=
    funext fun x => propext (Outline.mem_inDocumentOrder ..)
  exact hsame ▸ hcoupled

/-! ## How often a drag moves -/

theorem moves_of_updated (signal : Signal domain) (c : Context)
    (hprocessed : e.processed = some (m₀, signal)) :
    (updated m₀ signal c).drag.moves ≤ c.drag.moves + if isMove e then 1 else 0 := by
  cases signal with
  | event event =>
    by_cases htaken : m₀.takes (.event event) = []
    · rw [updated_of_untaken htaken]
      exact Nat.le_add_right ..
    · rw [updated_of_taken htaken]
      cases event with
      | dragStart => exact Nat.zero_le _
      | dragMove p =>
        have hmove : isMove e := isMove_iff.mpr ⟨p, handled_eq_some_iff.mpr ⟨m₀, hprocessed⟩⟩
        rw [if_pos hmove]
        exact Nat.le_refl _
      | _ => exact Nat.le_add_right ..
  | _ =>
    rw [updated_of_internal rfl]
    exact Nat.le_add_right ..

theorem moves_of_does (hcourse : Course chart log m) (hdoes : m.Does e m')
    (hbefore : (Context.drag m.context).moves ≤ log.countP isMove) :
    (Context.drag m'.context).moves ≤ (e :: log).countP isMove := by
  rw [List.countP_cons]
  obtain ⟨-, hsame⟩ | ⟨m₀, signal, messages, error, hprocessed, -, -, hcontext, -⟩ :=
    context_of_moment hcourse hdoes
  · rw [hsame]
    exact Nat.le_add_right_of_le hbefore
  · rw [hcontext]
    exact Nat.le_trans (moves_of_updated signal m.context hprocessed)
      (Nat.add_le_add_right hbefore _)

/-- However often drags begin and end, no more moves are counted than were processed. -/
theorem moves_le_of_goes
    (h : (Session.ofConfig config drives canInvoke texts files).machine.Goes log m) :
    (Context.drag m.context).moves ≤ log.countP isMove := by
  induction h with
  | rest => exact Nat.zero_le _
  | next hgoes hdoes ih =>
    have hcourse := course_goes (course_ofConfig config drives canInvoke texts files) hgoes
    rw [List.append_nil] at hcourse
    exact moves_of_does hcourse hdoes ih

/-- So the count stays below what 32 bits can hold, unless so many moves were processed. -/
theorem moves_lt_of_goes
    (h : (Session.ofConfig config drives canInvoke texts files).machine.Goes log m)
    (hfew : log.countP isMove < 2 ^ 32) : (Context.drag m.context).moves < 2 ^ 32 :=
  Nat.lt_of_le_of_lt (moves_le_of_goes h) hfew

/-! ## A drag in the lobby -/

/-- A drag that begins when there is nothing else to do. -/
theorem called_quiet_dragStart (p : Point) :
    ((quiet m).called? (.send (Event.dragStart p))).map (fun last =>
      (last.2.status, last.2.isActive .dragActive)) = some (.running, true) := by
  have hselect : (quiet m).select (.event (Event.dragStart p)) =
      .ok [⟨.dragIdle, 0, on "DRAG_START" .dragActive [beginDrag]⟩] := by
    unfold select
    dsimp only
    rw [leaves_quiet]
    rfl
  have hreact : (quiet m).reacting? (.event (Event.dragStart p)) = some (quiet m) := rfl
  rw [quiet, called_idleIn, ← quiet, reacted?]
  simp only [hreact, bind, Option.bind, hselect]
  cbv

/-- In the lobby somebody drags the pointer, and the context tells from where. -/
theorem lobby_coupled : ∃ log m, lobby.Goes log m ∧ m.snapshot.status = .running ∧
    .dragActive ∈ m.snapshot.configuration ∧
    Coupled log (· ∈ m.snapshot.configuration) m.snapshot.context := by
  obtain ⟨log, m, hquiet, -⟩ := lobby_quiet
  obtain ⟨⟨step, m'⟩, hcalled, hdragged⟩ := Option.map_eq_some_iff.mp
    (called_quiet_dragStart (m := m) { x := 1, y := 2 })
  obtain ⟨hstatus, hactive⟩ := Prod.mk.inj hdragged
  obtain ⟨log', hgoes⟩ := goes_called? hquiet hcalled
  refine ⟨log', m', hgoes, hstatus, ?_, coupled_of_goes hgoes (Or.inr (Or.inl hstatus))⟩
  exact (Outline.mem_inDocumentOrder ..).mpr (isActive_iff.mp hactive)

end Statechart.Chat
