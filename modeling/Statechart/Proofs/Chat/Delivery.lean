import Statechart.Proofs.Chat.Modes
import Statechart.Proofs.Chat.Coupling

/-!
# What a chat widget delivers and reports

A text or a file that is sent comes to the room of the session, or it is reported that it did not
(`Delivered`). For that there has to be a room: without one the widget fails before it is set up, since
the timer that ends it comes before the one that sets up the room (`room_of_active`). Else the page is
notified of the errors that are shown to it, and of nothing more; and no other signal, nor anything
launched on one, puts a message into a room (`Delivers`).
-/

namespace Statechart.Chat

open Machine

variable {m m' m₀ : Machine domain} {t : Selected domain} {signal : Signal domain}
  {step : Settled domain} {e : Statechart.Event domain} {context : Context} {h : Host}
  {room text fileName : String} {log : List (Statechart.Event domain)} {config : Config}
  {drives canInvoke : Bool}
  {texts attached : Nat → Stamp}

/-! ## The room -/

theorem rushes_boot : Rushes .boot .failed roomMissing :=
  ⟨⟨_, _, _, rfl, rfl, rfl, rfl, rfl, rfl⟩, by decide, by decide⟩

theorem guardHolds_roomMissing (h : t.transition.guard = some roomMissing) :
    m.guardHolds signal t = .ok (Context.room? m.context).isNone := by
  rw [guardHolds, h]
  rfl

/-- The room is set up when the time has come. -/
theorem boot_of_initializing (hdecl : Declared chart t)
    (htarget : t.transition.target = some .initializing) :
    t.source = .boot ∧ t.transition.delay?.isSome := by
  revert htarget
  refine of_declared (P := fun s tr => tr.target = some .initializing →
    s = .boot ∧ tr.delay?.isSome) ?_ hdecl
  decide

/-- What becomes of a widget without a room: it is not set up, as long as it lives. -/
structure Homeless (m : Machine domain) : Prop where
  room : Context.room? m.context = none
  initializing : .initializing ∉ m.configuration
  active : .active ∉ m.configuration
  inTurn : InTurn .boot m.timers

section

variable (hcourse : Course chart log m) (hbefore : Homeless m) (hdoes : m.Does e m')

include hcourse hbefore hdoes

theorem room_of_does : Context.room? m'.context = none := by
  have hroom := (frame_of_does hcourse hdoes).1
  have hnone := hbefore.room
  unfold Context.room? at hnone ⊢
  rwa [hroom]

theorem inTurn_of_homeless : InTurn .boot m'.timers := by
  refine inTurn_of_rushes rushes_boot hcourse hdoes (fun m₀ signal t hcontext hguard => ?_)
    hbefore.inTurn
  rw [guardHolds_roomMissing hguard, hcontext, hbefore.room]
  rfl

theorem homeless_of_rests (h : m.Rests e m') : Homeless m' where
  room := room_of_does hcourse hbefore hdoes
  initializing := h.configuration ▸ hbefore.initializing
  active := h.configuration ▸ hbefore.active
  inTurn := inTurn_of_homeless hcourse hbefore hdoes

/-- Only the second timer would set the room up, and only the room that is set up the widget. -/
theorem homeless_of_steps (h : m.Steps e m₀ step m') : Homeless m' := by
  obtain ⟨hm₀, hstage, later, hturn⟩ := sound_of_processed hcourse hdoes h.processed
  obtain ⟨p, hsettles⟩ := h.settles
  have hx := exchanges_of_course hcourse hdoes h
  have hinitializing : .initializing ∉ m₀.configuration := hstage.configuration ▸ hbefore.initializing
  have hactive : .active ∉ m₀.configuration := hstage.configuration ▸ hbefore.active
  refine ⟨room_of_does hcourse hbefore hdoes, ?_, ?_, inTurn_of_homeless hcourse hbefore hdoes⟩
  · intro hafter
    rcases (hx.after _).mp (h.configuration ▸ hafter) with ⟨hin, -⟩ | hentered
    · exact hinitializing hin
    · obtain ⟨t, ht, -, g, hg, hwithin⟩ := target_of_enters hx (by decide)
        (by decide) (by decide) hentered
      have hall : ∀ s ∈ State.all, chart.isWithin s .initializing → s = .initializing := by
        decide
      obtain rfl := hall g (by cases g <;> decide) hwithin
      -- only the second timer of `boot` leads to `initializing`, and the first comes before it
      obtain ⟨hs, hdelay⟩ := boot_of_initializing (active_of_takes hm₀ ht).1 hg
      have hfailed := target_of_rushes rushes_boot hcourse hbefore.inTurn hm₀ hturn ht hs hdelay
      exact State.noConfusion (Option.some.inj (hg.symm.trans hfailed))
  · intro hafter
    rcases (hx.after _).mp (h.configuration ▸ hafter) with ⟨hin, -⟩ | hentered
    · exact hactive hin
    · -- the result that sets the widget up comes from `initializing`
      obtain ⟨-, id, stored, t, hsignal, htakes⟩ :=
        setup_of_enters hm₀ hactive (enters_of_settles hsettles) hentered (Chart.isWithin_refl _)
      obtain ⟨-, hanswers, hsource⟩ := active_of_takes hm₀ (htakes ▸ List.mem_singleton_self t)
      rw [hsignal] at hanswers
      exact hinitializing (hanswers.1 ▸ hsource)

end

/-- A widget that is set up has a room. -/
theorem room_of_active
    (h : (Session.ofConfig config drives canInvoke texts attached).machine.Goes log m)
    (hactive : .active ∈ m.configuration) :
    ∃ room, (Context.ofConfig config).room? = some room ∧ Context.room? m.context = some room := by
  have hcourse := course_ofConfig config drives canInvoke texts attached
  have hsame : Context.room? m.context = (Context.ofConfig config).room? := by
    unfold Context.room?
    rw [(frame_of_goes hcourse h).1]
    rfl
  cases hroom : (Context.ofConfig config).room? with
  | some room => exact ⟨room, rfl, hsame.trans hroom⟩
  | none =>
    have hfresh : Homeless (Session.ofConfig config drives canInvoke texts attached).machine :=
      ⟨hroom, List.not_mem_nil, List.not_mem_nil, fun t ht => absurd ht List.not_mem_nil⟩
    have hhomeless := live_of_goes (P := fun _ m => Homeless m) hcourse hfresh
      (fun hcourse hbefore hdoes h => homeless_of_rests hcourse hbefore hdoes h)
      (fun hcourse hbefore hdoes _ h => homeless_of_steps hcourse hbefore hdoes h) h
      (not_ended_of_active (course_goes hcourse h) hactive)
    exact absurd hactive hhomeless.active

/-! ## Messages in rooms -/

/-- Whether a registry is another one in which a message was appended to a room. -/
structure Appended (room : String) (message : Message) (r r' : Registry) : Prop where
  offline : r'.offline = r.offline
  names : r'.rooms.map (·.1) = r.rooms.map (·.1)
  messages : r'.rooms.lookup room = (r.rooms.lookup room).map (· ++ [message])
  others : ∀ other, other ≠ room → r'.rooms.lookup other = r.rooms.lookup other

/-- What has to come of a message that is sent: if the registry can be reached and has the room, the
message is appended there, and nothing is reported; otherwise the registry stays as it is, and one
failure is reported. -/
def Delivered (room : String) (message : Message) (h h' : Host) : Prop :=
  if h.registry.offline = false ∧ h.registry.hasRoom room then
    Appended room message h.registry h'.registry ∧ h'.notified = h.notified
  else
    h'.registry = h.registry ∧
      ∃ reason, h'.notified = h.notified ++ ["Message not sent: " ++ reason]

theorem lookup_appended {name : String} {message : Message} :
    ∀ rooms : List (String × List Message),
      (rooms.map fun e => if e.1 = room then (e.1, e.2 ++ [message]) else e).lookup name =
        if name = room then (rooms.lookup name).map (· ++ [message]) else rooms.lookup name
  | [] => by simp
  | e :: rooms => by
    rw [List.map_cons, List.lookup_cons, List.lookup_cons, lookup_appended rooms]
    by_cases he : e.1 = room <;> by_cases hname : name = e.1 <;> grind

theorem send_eq (r : Registry) (room : String) (message : Message) : r.send room message =
    if r.offline then .error .unavailable
    else if r.hasRoom room then
      .ok { r with rooms := r.rooms.map fun e => if e.1 = room then (e.1, e.2 ++ [message]) else e }
    else .error (.unknownRoom room) := by
  unfold Registry.send Registry.online
  by_cases h : r.offline = true
  · rw [if_pos h, if_pos h]
    rfl
  · rw [if_neg h, if_neg h]
    rfl

/-- Sending a message appends it, unless the registry is offline or lacks the room. -/
theorem appended_of_send {r : Registry} (message : Message) (hoffline : r.offline = false)
    (hroom : r.hasRoom room) : ∃ r', r.send room message = .ok r' ∧ Appended room message r r' := by
  have hsend := (send_eq r room message).trans ((if_neg (by simp [hoffline])).trans (if_pos hroom))
  refine ⟨_, hsend, rfl, ?_, ?_, ?_⟩
  · rw [List.map_map]
    refine List.map_congr_left fun e _ => ?_
    dsimp only [Function.comp_apply]
    split <;> rfl
  · exact (lookup_appended r.rooms).trans (if_pos rfl)
  · exact fun other hne => (lookup_appended r.rooms).trans (if_neg hne)

theorem refused_of_send {r : Registry} (message : Message)
    (h : ¬ (r.offline = false ∧ r.hasRoom room)) :
    ∃ error, r.send room message = .error error := by
  rw [send_eq]
  by_cases hoffline : r.offline = true
  · exact ⟨_, if_pos hoffline⟩
  · rw [if_neg hoffline, if_neg fun hroom => h ⟨by simpa using hoffline, hroom⟩]
    exact ⟨_, rfl⟩

theorem delivered_persist (h : Host) (room : String) (message : Message) :
    Delivered room message h (persist h room message) := by
  unfold Delivered
  split
  · next hcan =>
    obtain ⟨r', hsend, happended⟩ := appended_of_send message hcan.1 hcan.2
    rw [persist, hsend]
    exact ⟨happended, rfl⟩
  · next hcannot =>
    obtain ⟨error, hsend⟩ := refused_of_send message hcannot
    rw [persist, hsend]
    exact ⟨rfl, error.message, rfl⟩

theorem lookup_createRoom {r r' : Registry} (h : r.createRoom room = .ok r') (other : String) :
    r'.rooms.lookup other = r.rooms.lookup other ∨
      (r.rooms.lookup other = none ∧ r'.rooms.lookup other = some []) := by
  unfold Registry.createRoom Registry.online at h
  split at h
  · exact absurd h (by simp [bind, Except.bind])
  · dsimp only [bind, Except.bind, pure, Except.pure] at h
    obtain rfl := Except.ok.inj h
    split
    · exact Or.inl rfl
    · dsimp only
      rw [List.lookup_append]
      cases hold : r.rooms.lookup other with
      | some messages => exact Or.inl rfl
      | none =>
        by_cases hother : other = room
        · exact Or.inr ⟨rfl, by simp [hother]⟩
        · have hne : (other == room) = false := beq_eq_false_iff_ne.mpr hother
          exact Or.inl (by simp [List.lookup_cons, hne])

theorem lookup_removeRoom (r : Registry) (room other : String) :
    (r.removeRoom room).rooms.lookup other = r.rooms.lookup other ∨
      (r.removeRoom room).rooms.lookup other = none := by
  have hfilter : ∀ rooms : List (String × List Message), (rooms.filter (·.1 ≠ room)).lookup other =
      if other = room then none else rooms.lookup other := by
    intro rooms
    induction rooms with
    | nil => simp
    | cons e rooms ih =>
      rw [List.filter_cons, List.lookup_cons]
      by_cases he : e.1 = room <;> by_cases hother : other = e.1 <;> grind
  refine (em (other = room)).elim (fun h => Or.inr ?_) fun h => Or.inl ?_
  · exact (hfilter r.rooms).trans (if_pos h)
  · exact (hfilter r.rooms).trans (if_neg h)

/-! ## What is done on a signal -/

theorem carried_sent (htext : Text.allBlank text = false) (hroom : context.room? = some room) :
    Action.carriedAll (D := domain) (.event (Event.sendMessage text))
        [appendSent, persistLastMessage] (context, h) =
      ({ context with messages := context.messages ++ [context.write text] },
        persist h room (context.write text)) := by
  let signal : Signal domain := .event (Event.sendMessage text)
  let sent : Context := appendSent.assigned signal context
  change (sent, persistLastMessage.changed signal sent h) = _
  have hsent : sent = { context with messages := context.messages ++ [context.write text] } :=
    assigned_appendSent htext context
  rw [hsent, changed_persistLastMessage hroom]
  rfl

theorem carried_attachment (hroom : context.room? = some room) :
    Action.carriedAll (D := domain) (.event (Event.sendAttachment fileName)) [persistAttachment]
        (context, h) =
      (context, persist { h with filesSent := h.filesSent + 1 } room (h.attach fileName)) := by
  simp only [Action.carriedAll, List.foldl, Action.carried, Action.assigned, Action.changed,
    persistAttachment, Action.effect, Command.changed, Signal.event?, hroom]
  rfl

/-- Whether a signal is one on which a message is delivered, or an error shown. -/
def Delivering (m₀ : Machine domain) (signal : Signal domain) : Prop :=
  match (signal.event? : Option Event) with
  | some (.sendMessage text) => .inputTypeMode ∈ m₀.configuration ∧ Text.allBlank text = false
  | some (.sendAttachment _) => .attachmentOpen ∈ m₀.configuration
  | some (.showError _) => .active ∈ m₀.configuration
  | _ => False

theorem twins_alert : Twins .alert .alertHidden .alertShown :=
  ⟨by decide, by decide, State.noConfusion⟩

section

variable (hm : Sound m₀)

include hm

theorem actionsOn_sendAttachment (hopen : .attachmentOpen ∈ m₀.configuration) :
    m₀.actionsOn (.event (Event.sendAttachment fileName)) = [persistAttachment] := by
  have hname : domain.eventName (Event.sendAttachment fileName) ≠ "SEND_MESSAGE" := by
    simp [domain, Event.name]
  have hwaits : Waits .attachmentOpen "SEND_ATTACHMENT" := by decide
  obtain ⟨t, htakes, -⟩ := takes_of_waiting hm hname hopen hwaits
  exact actionsOn_event hm hname (by simp [htakes])

theorem actionsOn_showError (hactive : .active ∈ m₀.configuration) :
    m₀.actionsOn (.event (Event.showError text)) = [showAlert, notifyAlert] := by
  have hname : domain.eventName (Event.showError text) ≠ "SEND_MESSAGE" := by
    simp [domain, Event.name]
  have hwaits : Waits .alertHidden "SHOW_ERROR" ∧ Waits .alertShown "SHOW_ERROR" := by
    decide
  have hregion := active_of_region hm hactive (x := .alert) (by decide) (by decide)
  exact actionsOn_event hm hname
    (takes_of_twins hm twins_alert hregion hname hwaits.1 hwaits.2)

/-- On all other signals a widget leaves alone what it calls out to. -/
theorem host_of_other (hother : ¬ Delivering m₀ signal) (world : Context × Host) :
    (Action.carriedAll signal (m₀.actionsOn signal) world).2 = world.2 := by
  cases signal with
  | start | stop | timer | invokeDone | invokeError | done => exact host_of_internal hm rfl world
  | event event =>
    by_cases htakes : m₀.takes (.event event) = []
    · rw [actionsOn, htakes]
      rfl
    by_cases hname : domain.eventName event = "SEND_MESSAGE"
    · cases event with
      | sendMessage text =>
        rw [actionsOn_sent hm, if_neg]
        · rfl
        · intro hsent
          obtain ⟨htyping, htext⟩ := (Bool.and_eq_true ..).mp hsent
          exact hother ⟨isActive_iff.mp htyping, by simpa using htext⟩
      | _ => exact absurd hname (by simp [domain, Event.name])
    · rw [actionsOn_event hm hname htakes]
      cases event with
      | sendMessage => exact absurd rfl hname
      | sendAttachment fileName => exact absurd (takes_sendAttachment hm hother fileName) htakes
      | showError message => exact absurd (takes_event_inactive hm hother _) htakes
      | _ => rfl

end

/-! ## Along a run -/

/-- How a widget delivers and reports at a moment. -/
structure Delivers (config : Config) (e : Statechart.Event domain) : Prop where
  /-- A text that is typed becomes a message, which is appended to the messages of the widget and
  delivered. -/
  text : ∀ m₀ text, e.processed = some (m₀, .event (Event.sendMessage text)) →
    Text.allBlank text = false → .inputTypeMode ∈ m₀.configuration →
      ∃ room p, (Context.ofConfig config).room? = some room ∧
        m₀.process (.event (Event.sendMessage text)) = .ok p ∧
        Context.messages p.machine.context =
          Context.messages m₀.context ++ [Context.write m₀.context text] ∧
        Delivered room (Context.write m₀.context text) (host m₀) (host p.machine)
  /-- A file is delivered, and the messages of the widget stay as they are. -/
  attachment : ∀ m₀ fileName, e.processed = some (m₀, .event (Event.sendAttachment fileName)) →
    .attachmentOpen ∈ m₀.configuration → ∃ room p, (Context.ofConfig config).room? = some room ∧
      m₀.process (.event (Event.sendAttachment fileName)) = .ok p ∧
      Context.messages p.machine.context = Context.messages m₀.context ∧
      Delivered room ((host m₀).attach fileName) (host m₀) (host p.machine)
  /-- An error that is shown is reported once. -/
  alert : ∀ m₀ message, e.processed = some (m₀, .event (Event.showError message)) →
    .active ∈ m₀.configuration → ∃ p, m₀.process (.event (Event.showError message)) = .ok p ∧
      host p.machine = (host m₀).notify message
  /-- On no other signal is anything delivered or reported. -/
  other : ∀ m₀ signal, e.processed = some (m₀, signal) → ¬ Delivering m₀ signal →
    (m₀.process signal).Ends (fun p => host p.machine = host m₀) (fun m₁ _ => host m₁ = host m₀)
      False
  /-- What is launched at most creates a room with no messages in it. -/
  launched : ∀ m₀ signal p, e.processed = some (m₀, signal) → m₀.process signal = .ok p →
    ∀ l ∈ p.launches, ∀ run, l.operation = .run run → ∀ h : Host,
      Host.notified (run h).1 = h.notified ∧ ∀ room,
        (Host.registry (run h).1).rooms.lookup room = h.registry.rooms.lookup room ∨
          (h.registry.rooms.lookup room = none ∧
            (Host.registry (run h).1).rooms.lookup room = some [])
  /-- The end of the widget at most removes a room. -/
  stopping : ∀ step, e.step = some step → step.signal = .stop →
    (host step.after).notified = (host step.before).notified ∧ ∀ room,
      (host step.after).registry.rooms.lookup room = (host step.before).registry.rooms.lookup room ∨
        (host step.after).registry.rooms.lookup room = none

section

variable (hcourse : Course chart log m) (hdoes : m.Does e m')

include hcourse hdoes

/-- What a signal that is processed makes of the context and of what the widget calls out to. -/
theorem carried_of_process {p : Progress domain} (he : e.processed = some (m₀, signal))
    (hp : m₀.process signal = .ok p) : (p.machine.context, host p.machine) =
      Action.carriedAll signal (m₀.actionsOn signal) (m₀.context, host m₀) := by
  obtain ⟨hm₀, -⟩ := sound_of_processed hcourse hdoes he
  obtain ⟨hcontext, hshell⟩ := ((process_underway mild_chart calm_chart hm₀.clean).ok hp).world
  rw [hcontext, host, hshell]
  rfl

theorem ends_of_other (he : e.processed = some (m₀, signal)) (hother : ¬ Delivering m₀ signal) :
    (m₀.process signal).Ends (fun p => host p.machine = host m₀) (fun m₁ _ => host m₁ = host m₀)
      False := by
  obtain ⟨hm₀, -⟩ := sound_of_processed hcourse hdoes he
  have hsame : ∀ {m₁ : Machine domain},
      (m₀.carry signal (m₀.actionsOn signal)).SameWorld m₁ → host m₁ = host m₀ := by
    rintro m₁ ⟨-, hshell⟩
    rw [host, hshell]
    exact host_of_other hm₀ hother (m₀.context, host m₀)
  have hunderway : (m₀.process signal).Ends _ _ _ :=
    process_underway mild_chart calm_chart hm₀.clean
  exact ⟨fun hp => hsame (hunderway.ok hp).world, fun hp => hsame (hunderway.defect hp),
    process_ne_endless plainFallbacks_chart hm₀.clean⟩

theorem launched_of_process {p : Progress domain} (he : e.processed = some (m₀, signal))
    (hp : m₀.process signal = .ok p) {l : Launch domain} (hl : l ∈ p.launches)
    {run : Host → Host × Except InvokeError (List Message)} (hrun : l.operation = .run run)
    (h : Host) : (run h).1.notified = h.notified ∧ ∀ room,
      (run h).1.registry.rooms.lookup room = h.registry.rooms.lookup room ∨
        (h.registry.rooms.lookup room = none ∧
          (run h).1.registry.rooms.lookup room = some []) := by
  obtain ⟨hm₀, -⟩ := sound_of_processed hcourse hdoes he
  have hstarted := ((process_underway mild_chart calm_chart hm₀.clean).ok hp).started l hl
  rcases host_of_started hstarted hrun h with hsame | ⟨room, registry, hcreated, hsame⟩
  · rw [hsame]
    exact ⟨rfl, fun _ => Or.inl rfl⟩
  · rw [hsame]
    exact ⟨rfl, lookup_createRoom hcreated⟩

theorem host_of_stopping (hstep : e.step = some step) (hsignal : step.signal = .stop) :
    (host step.after).notified = (host step.before).notified ∧ ∀ room,
      (host step.after).registry.rooms.lookup room =
          (host step.before).registry.rooms.lookup room ∨
        (host step.after).registry.rooms.lookup room = none := by
  cases hdoes with
  | call | result | discard | idle | pass | fault | faultStopping | outside =>
    exact absurd hstep (by simp)
  | turn _ _ hsettles | turnPanicked _ _ hsettles =>
    obtain rfl := Option.some.inj hstep
    exact absurd hsignal (signal_of_settles hsettles)
  | stop _ _ hdown _ =>
    obtain rfl := Option.some.inj hstep
    obtain ⟨left, habandons, rfl⟩ := settled_of_teardown hdown
    have hleft := host_of_abandons (m := m.cleared)
      (R := fun h h' => h'.notified = h.notified ∧ ∀ room,
        h'.registry.rooms.lookup room = h.registry.rooms.lookup room ∨
          h'.registry.rooms.lookup room = none)
      (fun _ => ⟨rfl, fun _ => Or.inl rfl⟩)
      (fun h h' => ⟨h'.1.trans h.1, fun room => (h'.2 room).elim
        (fun hsame => (h.2 room).imp hsame.trans hsame.trans) Or.inr⟩)
      (fun h room => ⟨rfl, lookup_removeRoom h.registry room⟩)
      (clean_of_run (run_of_course hcourse)).chart habandons
    exact hleft

end

/-- At every moment of a session, a text that is typed and sent and a file that is sent are delivered
to the room of the session, or one failure is reported; an error that is shown is reported once; and
nothing else is delivered or reported. -/
theorem delivers_of_goes
    (h : (Session.ofConfig config drives canInvoke texts attached).machine.Goes log m) :
    ∀ e ∈ log, Delivers config e := by
  induction h with
  | rest => exact fun e he => absurd he List.not_mem_nil
  | @next log e m m' hgoes hdoes ih =>
    have hcourse := course_goes (course_ofConfig config drives canInvoke texts attached) hgoes
    refine List.forall_mem_cons.mpr ⟨?_, ih⟩
    have hroom : ∀ {m₀ signal}, e.processed = some (m₀, signal) → .active ∈ m₀.configuration →
        ∃ room, (Context.ofConfig config).room? = some room ∧
          Context.room? m₀.context = some room := by
      intro m₀ signal he hactive
      obtain ⟨-, hstage, -⟩ := sound_of_processed hcourse hdoes he
      rw [hstage.context]
      exact room_of_active hgoes (hstage.configuration ▸ hactive)
    constructor
    case text =>
      intro m₀ text he htext htyping
      obtain ⟨hm₀, -⟩ := sound_of_processed hcourse hdoes he
      have hactive := active_of_below hm₀ htyping (by decide)
      obtain ⟨room, hroom, hroom₀⟩ := hroom he hactive
      obtain ⟨p, hp⟩ := exists_process hm₀ hactive
      have hcarried := carried_of_process hcourse hdoes he hp
      rw [actionsOn_sent hm₀, if_pos (by simp [isActive_iff.mpr htyping, htext]),
        carried_sent htext hroom₀] at hcarried
      obtain ⟨hcontext, hhost⟩ := Prod.mk.inj hcarried
      exact ⟨room, p, hroom, hp, congrArg Context.messages hcontext,
        hhost ▸ delivered_persist _ _ _⟩
    case attachment =>
      intro m₀ fileName he hopen
      obtain ⟨hm₀, -⟩ := sound_of_processed hcourse hdoes he
      have hactive := active_of_below hm₀ hopen (by decide)
      obtain ⟨room, hroom, hroom₀⟩ := hroom he hactive
      obtain ⟨p, hp⟩ := exists_process hm₀ hactive
      have hcarried := carried_of_process hcourse hdoes he hp
      rw [actionsOn_sendAttachment hm₀ hopen, carried_attachment hroom₀] at hcarried
      obtain ⟨hcontext, hhost⟩ := Prod.mk.inj hcarried
      refine ⟨room, p, hroom, hp, congrArg Context.messages hcontext, ?_⟩
      rw [hhost]
      exact delivered_persist { host m₀ with filesSent := (host m₀).filesSent + 1 } room _
    case alert =>
      intro m₀ message he hactive
      obtain ⟨hm₀, -⟩ := sound_of_processed hcourse hdoes he
      obtain ⟨p, hp⟩ := exists_process hm₀ hactive
      have hcarried := carried_of_process hcourse hdoes he hp
      rw [actionsOn_showError hm₀ hactive] at hcarried
      exact ⟨p, hp, (Prod.mk.inj hcarried).2⟩
    case other => exact fun m₀ signal he hother => ends_of_other hcourse hdoes he hother
    case launched =>
      exact fun m₀ signal p he hp l hl run hrun h =>
        launched_of_process hcourse hdoes he hp hl hrun h
    case stopping => exact fun step hstep hsignal => host_of_stopping hcourse hdoes hstep hsignal

/-! ## A text in the lobby -/

/-- The lobby with nothing to do, and a room with no messages in it. -/
def furnished (m : Machine domain) : Machine domain :=
  { quiet m with
    shell := { (quiet m).shell with host := { registry := { rooms := [("lobby", [])] } } } }

/-- In the lobby somebody sends a text, and it comes to the room. -/
theorem lobby_delivers : ∃ log m e m₀ p, lobby.Goes log m ∧ e ∈ log ∧
    e.processed = some (m₀, .event (Event.sendMessage "hi")) ∧
    m₀.process (.event (Event.sendMessage "hi")) = .ok p ∧
    (host m₀).registry.rooms.lookup "lobby" = some [] ∧
    Context.messages p.machine.context =
      Context.messages m₀.context ++ [Context.write m₀.context "hi"] ∧
    (host p.machine).registry.rooms.lookup "lobby" = some [Context.write m₀.context "hi"] ∧
    (host p.machine).notified = [] := by
  obtain ⟨log, m, hquiet, -⟩ := lobby_quiet
  let asked : Machine domain := { furnished m with
    shell := (furnished m).shell.enqueue (.signal (.event (Event.sendMessage "hi"))) }
  have hadmitted : (furnished m).shell.receive (furnished m).timers.nextEpoch
      (.send (Event.sendMessage "hi")) = .admitted asked.shell := rfl
  have hfurnished : (quiet m).Does _ (furnished m) := .outside
  have hasked : (furnished m).Does _ asked := .call hadmitted
  have hgoes := (hquiet.next hfurnished).next hasked
  have hturn : asked.nextTurn =
      .process (furnished m) (.event (Event.sendMessage "hi")) [] := rfl
  have hm := clean_of_turn (clean_of_run (run_of_course (course_goes course_lobby hgoes))) hturn
  obtain ⟨e, m', hdoes, he⟩ :=
    exists_does_of_turn ⟨rfl, rfl⟩ hturn (process_ne_endless plainFallbacks_chart hm)
  have hdelivers := delivers_of_goes (hgoes.next hdoes) e (List.mem_cons_self ..)
  obtain ⟨room, p, hroom, hp, hmessages, hdelivered⟩ :=
    hdelivers.text _ "hi" he (by decide) (isActive_iff.mp rfl)
  obtain rfl : "lobby" = room := Option.some.inj hroom
  rw [Delivered, if_pos ⟨rfl, rfl⟩] at hdelivered
  exact ⟨_, m', e, _, p, hgoes.next hdoes, List.mem_cons_self .., he, hp, rfl,
    hmessages, hdelivered.1.messages, hdelivered.2⟩

end Statechart.Chat
