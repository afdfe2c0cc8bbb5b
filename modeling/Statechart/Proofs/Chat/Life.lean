import Statechart.Proofs.Chat.Chart

/-!
# The life of a chat widget

A widget is set up at most once: the room is set up while the widget is in `initializing`, and the
result brings it into `active` (`Initializes`, `not_initializes_earlier`). It stays there until it
is stopped. As long as it is there no defect can come up (`inactive_of_hits`), so that all that
happens to it is that steps within `active` are settled and signals passed over (`active_of_does`).
-/

namespace Statechart.Chat

open Machine

variable {m m' m₀ m₁ : Machine domain} {t : Selected domain} {signal : Signal domain}
  {x : domain.State} {entered : List domain.State} {d : Defect domain.State}
  {step : Settled domain} {e : Statechart.Event domain} {log : List (Statechart.Event domain)}
  {stored : List Message}

/-- Whether an event is the step that brings the widget into `active`, with the messages that were
loaded. -/
def Initializes (e : Statechart.Event domain) (stored : List Message) : Prop :=
  ∃ step id, e.step = some step ∧ step.signal = .invokeDone .initializing id stored ∧
    .active ∈ step.entered

/-! ## Between two steps -/

/-- A machine between two steps: it is clean, and the states it is in make up a whole. -/
structure Sound (m : Machine domain) : Prop where
  clean : Clean chart m
  whole : m.configuration.elems = [] ∨ chart.WellFormed m.configuration

theorem sound_of_course (h : Course chart log m) (hm : ¬ m.Ended) : Sound m :=
  ⟨clean_of_run (run_of_course h),
    (orderly_of_live root_chart historyFromOutside_chart (run_of_course h) hm).configuration⟩

/-- A machine is sound when it turns to a signal. -/
theorem sound_of_turn {later : List (Work domain)} (hm : Sound m)
    (h : m.nextTurn = .process m₀ signal later) : Sound m₀ :=
  ⟨clean_of_turn hm.clean h, (sameStage_of_process h).configuration ▸ hm.whole⟩

theorem sound_of_turning {later : List (Work domain)} (h : Course chart log m)
    (hturn : m.nextTurn = .process m₀ signal later) : Sound m ∧ Sound m₀ := by
  have hm := sound_of_course h (not_ended_of_up (Or.inl (nextTurn_process hturn).1))
  exact ⟨hm, sound_of_turn hm hturn⟩

theorem not_mem_of_nil (h : m.configuration.elems = []) : x ∉ m.configuration := by
  rw [StateSet.mem_def, h]
  exact List.not_mem_nil

/-! ## What is taken and entered -/

section

variable (hm : Sound m)

include hm

theorem wellFormed_of_mem (hx : x ∈ m.configuration) : chart.WellFormed m.configuration :=
  hm.whole.resolve_left fun hempty => not_mem_of_nil hempty hx

/-- A widget that is set up takes transitions within `active` only. -/
theorem isWithin_of_takes (hactive : .active ∈ m.configuration) (ht : t ∈ m.takes signal) :
    chart.isWithin t.source .active := by
  have hwf := wellFormed_of_mem hm hactive
  obtain ⟨hdecl, -, x, hx, hxt⟩ := answers_of_takes ht
  rw [hm.clean.chart] at hdecl hxt
  have hsource := Chart.active_of_isWithin hwf hx hxt
  by_contra hout
  -- of the states below the root only `active` is active
  have halone : ∀ s ∈ m.configuration, chart.parent? s = some .widget → s = .active :=
    fun s hs hp => Chart.eq_of_siblings hwf isCompound_widget hs hactive hp parent_active
  rcases (early_of_declared hdecl hout).2 with ⟨hs, -⟩ | ⟨hs, -⟩
  · exact State.noConfusion (halone .boot (hs ▸ hsource) (by decide))
  · exact State.noConfusion (halone .initializing (hs ▸ hsource) (by decide))

/-- So it enters and leaves nothing else. -/
theorem staysBelow_of_takes (hactive : .active ∈ m.configuration) (ht : t ∈ m.takes signal) :
    Declared chart t ∧
      ∃ r, chart.isCompound r ∧ chart.isDescendant r .active ∧ t.StaysBelow chart r := by
  have hdecl : Declared chart t := hm.clean.chart ▸ (answers_of_takes ht).1
  exact ⟨hdecl, staysBelow_of_declared hdecl (isWithin_of_takes hm hactive ht)⟩

theorem isDescendant_of_enters (hactive : .active ∈ m.configuration) (h : m.Enters signal entered)
    (hx : x ∈ entered) : chart.isDescendant x .active := by
  cases h with
  | initial hempty => exact absurd hactive (not_mem_of_nil (List.isEmpty_iff.mp hempty))
  | @reaction _ between _ hbetween hentered =>
    have hclean := clean_of_alters hm.clean (alters_mono (fun _ => False.elim) hbetween)
    have hchart := hclean.chart
    refine hchart ▸ isDescendant_of_mem_entering (m := between) (hchart.symm ▸ hclean.history)
      (fun t ht => ?_) hentered hx
    rw [hchart]
    exact staysBelow_of_takes hm hactive ht

/-- Before it is set up, a widget takes no transitions but those that set it up. -/
theorem early_of_mem_takes (hinactive : .active ∉ m.configuration) (ht : t ∈ m.takes signal) :
    t.Answers signal ∧ Declared chart t ∧ ¬ chart.isWithin t.source .active := by
  obtain ⟨hdecl, hanswers, x, hx, hxt⟩ := answers_of_takes ht
  rw [hm.clean.chart] at hdecl hxt
  refine ⟨hanswers, hdecl, fun hin => hinactive ?_⟩
  have hwf := wellFormed_of_mem hm hx
  exact Chart.active_of_isWithin hwf (Chart.active_of_isWithin hwf hx hxt) hin

/-- None of them waits for an event. -/
theorem takes_event_inactive (hinactive : .active ∉ m.configuration) (event : Event) :
    m.takes (.event event) = [] := by
  refine List.eq_nil_iff_forall_not_mem.mpr fun t ht => ?_
  obtain ⟨htrigger, hdecl, hout⟩ := early_of_mem_takes hm hinactive ht
  change t.transition.trigger = .event _ at htrigger
  rcases (early_of_declared hdecl hout).2 with ⟨-, hdelay, -⟩ | ⟨-, ⟨h, -⟩ | ⟨h, -⟩⟩
  · simp [Transition.delay?, Trigger.delay?, htrigger] at hdelay
  · simp [htrigger] at h
  · simp [htrigger] at h

/-- It takes one at most, and not on an event. -/
theorem early_of_takes (hinactive : .active ∉ m.configuration) :
    m.takes signal = [] ∨ ∃ t, m.takes signal = [t] ∧ t.Answers signal ∧ Declared chart t ∧
      ¬ chart.isWithin t.source .active := by
  have hone : signal.event? = none → m.takes signal = [] ∨ ∃ t, m.takes signal = [t] ∧
      t.Answers signal ∧ Declared chart t ∧ ¬ chart.isWithin t.source .active := by
    refine fun hsignal => (takes_singleton hsignal).imp_right fun htakes => ?_
    obtain ⟨t, htakes⟩ := htakes
    exact ⟨t, htakes, early_of_mem_takes hm hinactive (by simp [htakes])⟩
  cases signal with
  | event event => exact Or.inl (takes_event_inactive hm hinactive event)
  | start | stop | timer | invokeDone | invokeError | done => exact hone rfl

/-- Only the result of setting the room up brings the widget into `active`, or into a state within
it. -/
theorem setup_of_enters (hinactive : .active ∉ m.configuration) (h : m.Enters signal entered)
    (hx : x ∈ entered) (hin : chart.isWithin x .active) : .initializing ∉ entered ∧
      ∃ id stored t, signal = .invokeDone .initializing id stored ∧ m.takes signal = [t] := by
  cases h with
  | initial _ hset =>
    rw [hm.clean.chart] at hset hx
    rcases mem_initial hset hx with rfl | rfl
    · exact absurd hin (by decide)
    · exact absurd hin (by decide)
  | @reaction _ between _ hbetween hentered =>
    have hchart : between.chart = chart := (unsettled_of_alters hbetween).chart.trans hm.clean.chart
    rcases early_of_takes hm hinactive with htakes | ⟨t, htakes, hanswers, hdecl, hout⟩
    · rw [htakes] at hentered
      exact absurd ((mem_entering_of_eq_some rfl hentered).mp hx) List.not_mem_nil
    · rw [htakes] at hentered
      obtain ⟨hreenter, hearly⟩ := early_of_declared hdecl hout
      -- a transition to `failed` or `initializing` brings nothing else
      have hother : ∀ {g}, t.source = .boot ∨ t.source = .initializing →
          t.transition.target = some g → g = .failed ∨ g = .initializing → t.source ≠ g →
          False := by
        intro g hsource htarget hg hne
        have he := eq_of_mem_entering hchart hreenter htarget hentered hsource hg hne hx
        rw [he] at hin
        rcases hg with rfl | rfl
        · exact absurd hin (by decide)
        · exact absurd hin (by decide)
      rcases hearly with ⟨hs, -, hg | hg⟩ | ⟨hs, ⟨htrigger, hg⟩ | ⟨-, hg⟩⟩
      · exact (hother (.inl hs) hg (.inl rfl) (by rw [hs]; exact State.noConfusion)).elim
      · exact (hother (.inl hs) hg (.inr rfl) (by rw [hs]; exact State.noConfusion)).elim
      · have hleft := not_mem_entering hchart hreenter hg hentered hs rfl
        refine ⟨hs ▸ hleft, ?_⟩
        cases signal with
        | invokeDone s id stored =>
          obtain ⟨rfl, -⟩ := hanswers
          exact ⟨id, stored, t, by rw [hs], htakes⟩
        | start | stop => exact hanswers.elim
        | event => exact absurd (htrigger.symm.trans hanswers) (by simp)
        | timer =>
          obtain ⟨-, delay, h⟩ := hanswers
          exact absurd (htrigger.symm.trans h) (by simp)
        | invokeError | done => exact absurd (htrigger.symm.trans hanswers.2) (by simp)
      · exact (hother (.inr hs) hg (.inl rfl) (by rw [hs]; exact State.noConfusion)).elim

theorem process_ne_defect (hactive : .active ∈ m.configuration) :
    m.process signal ≠ .error (.defect m₁ d) := by
  intro hproc
  obtain ⟨entered, henters, ⟨s, hs, hinvokes⟩, -⟩ := enters_of_halt calm_chart hm.clean hproc
  obtain rfl := eq_of_invokes (hinvokes (contains_chart s))
  exact absurd (isDescendant_of_enters hm hactive henters hs) (by decide)

/-- A defect does not come up once the widget is set up, nor while it gets there. -/
theorem inactive_of_hits (h : m.Hits m₁ d) (hin : chart.isWithin x .active) :
    x ∉ m₁.configuration := by
  cases h with
  | stopping _ _ hdown =>
    exact absurd hdown (teardown_calm (m := { m with shell := { m.shell with queue := [] } })
      calm_chart hm.clean.chart hm.clean.contains _ _)
  | @processing m₀ _ _ _ _ _ hturn hproc =>
    have hm₀ := sound_of_turn hm hturn
    obtain ⟨entered, henters, ⟨s, hs, hinvokes⟩, halters⟩ :=
      enters_of_halt calm_chart hm₀.clean hproc
    obtain rfl := eq_of_invokes (hinvokes (contains_chart s))
    intro hx
    by_cases hbefore : .active ∈ m₀.configuration
    · have hbelow := isDescendant_of_enters hm₀ hbefore henters hs
      exact absurd hbelow (by decide)
    · have hentered := (mem_of_alters halters hx).resolve_left fun hx =>
        hbefore (Chart.active_of_isWithin (wellFormed_of_mem hm₀ hx) hx hin)
      exact (setup_of_enters hm₀ hbefore henters hentered hin).1 hs

end

/-! ## Along a run -/

/-- A session starts with a machine that nothing has happened to. -/
theorem course_ofConfig (config : Config) (drives canInvoke : Bool) (texts files : Nat → Stamp) :
    Course chart [] (Session.ofConfig config drives canInvoke texts files).machine :=
  .fresh rfl ⟨rfl, rfl, rfl, rfl, rfl, rfl, rfl, rfl, rfl, rfl, rfl⟩

/-- A machine whose life is over is not in `active`, nor in a state within it. -/
theorem not_ended_of_within (h : Course chart log m) (hin : chart.isWithin x .active)
    (hx : x ∈ m.configuration) : ¬ m.Ended := by
  induction h with
  | fresh _ hfresh => exact absurd hx (not_mem_of_nil hfresh.configuration)
  | @next log e m m' hcourse hdoes ih =>
    intro hend
    by_cases hm : m.Ended
    · have hsame := (unmoved_of_does hm hdoes).1.stage.configuration
      exact ih (hsame ▸ hx) hm
    · cases he : e.step with
      | none =>
        obtain ⟨m₁, d, hhits, rfl⟩ := hits_of_move (move_of_does hdoes he) hm hend
        exact inactive_of_hits (sound_of_course hcourse hm) hhits hin hx
      | some step =>
        exact inactive_of_settling (run_of_course hcourse) (settling_of_does hdoes he) hend hx

theorem not_ended_of_active (h : Course chart log m) (hactive : .active ∈ m.configuration) :
    ¬ m.Ended := not_ended_of_within h (Chart.isWithin_refl _) hactive

theorem sound_of_active (h : Course chart log m) (hactive : .active ∈ m.configuration) : Sound m :=
  sound_of_course h (not_ended_of_active h hactive)

/-- A widget that is set up is not set up again. -/
theorem not_initializes_of_active (h : Course chart log m) (hdoes : m.Does e m')
    (hactive : .active ∈ m.configuration) : ¬ Initializes e stored := by
  rintro ⟨step, id, he, -, hentered⟩
  have hturns : ∀ {m₀ later p}, m.nextTurn = .process m₀ step.signal later →
      ¬ m₀.Settles step p := by
    intro m₀ later p hturn hstep
    have hm₀ := sound_of_turn (sound_of_active h hactive) hturn
    have hconf := (sameStage_of_process hturn).configuration
    exact Chart.isDescendant_irrefl
      (isDescendant_of_enters hm₀ (hconf ▸ hactive) (enters_of_settles hstep) hentered)
  cases settling_of_does hdoes he with
  | turn _ hturn hstep _ | turnPanicked _ hturn hstep _ => exact hturns hturn hstep
  | stop => exact absurd hentered List.not_mem_nil

/-- A widget in `active` was there before the last event, or has been set up by it. -/
theorem active_of_does (h : Course chart log m) (hdoes : m.Does e m')
    (hactive : .active ∈ m'.configuration) :
    .active ∈ m.configuration ∨ (.active ∉ m.configuration ∧ ∃ stored, Initializes e stored) := by
  refine or_iff_not_imp_left.mpr fun hin => ⟨hin, ?_⟩
  have hend := not_ended_of_active (h.next hdoes) hactive
  cases he : e.step with
  | none =>
    obtain ⟨-, -, hsame⟩ := journal_of_move (move_of_does hdoes he)
    exact absurd (hsame (fun hs => hend (Or.inr hs)) ▸ hactive) hin
  | some step =>
    have hsettling := settling_of_does hdoes he
    obtain ⟨htruthful, hbefore, hafter⟩ := truthful_of_settling (run_of_course h) hsettling
    obtain ⟨m₀, later, p, hturn, hstep, -⟩ :=
      (settling_work hsettling).resolve_left fun hdead => hend hdead.2.1
    have hentered : .active ∈ step.entered := by
      rw [hafter] at hactive
      exact ((htruthful.after _).mp hactive).resolve_left fun h => hin (hbefore ▸ h.1)
    have hm := sound_of_course h (not_ended_of_up (settling_status hsettling))
    have hconf := (sameStage_of_process hturn).configuration
    obtain ⟨-, id, stored, t, hsignal, -⟩ :=
      setup_of_enters (sound_of_turn hm hturn) (hconf ▸ hin) (enters_of_settles hstep) hentered
        (Chart.isWithin_refl _)
    exact ⟨stored, step, id, he, hsignal, hentered⟩

/-- A step does not leave `active`. -/
theorem not_exited_of_settles {p : Progress domain} (hm : Sound m)
    (hactive : .active ∈ m.configuration) (h : m.Settles step p) : .active ∉ step.exited := by
  obtain ⟨-, ⟨hchart, hhistory, -⟩, hcases⟩ := settles_cases h
  have hbefore : step.before.chart = chart := hchart.trans hm.clean.chart
  rcases hcases with hi | hr
  · rw [hi.exited]
    exact List.not_mem_nil
  · rw [← hr.exited, takes_of_settles h]
    intro hleft
    refine Chart.isDescendant_irrefl
      (isDescendant_of_mem_leaving (m := step.before) ?_ (fun t ht => ?_) hleft)
    · rw [hbefore, hhistory]
      exact hm.clean.history
    · rw [hbefore]
      exact staysBelow_of_takes hm hactive ht

/-- Once the widget is set up it stays in `active` until its life is over. -/
theorem active_of_initializes (h : Course chart log m) (he : e ∈ log)
    (hinit : Initializes e stored) : m.Ended ∨ .active ∈ m.configuration := by
  induction h with
  | fresh => exact absurd he List.not_mem_nil
  | @next log e' m m' hcourse hdoes ih =>
    by_cases hm : m.Ended
    · have hstatus := (unmoved_of_does hm hdoes).1.status
      exact Or.inl (by rwa [Ended, hstatus])
    · rw [List.mem_cons] at he
      cases he' : e'.step with
      | none =>
        have hne : e ≠ e' := by
          rintro rfl
          obtain ⟨step, -, hstep, -⟩ := hinit
          exact absurd (he'.symm.trans hstep) (by simp)
        obtain ⟨-, -, hsame⟩ := journal_of_move (move_of_does hdoes he')
        refine or_iff_not_imp_left.mpr fun hend => ?_
        rw [hsame fun hs => hend (Or.inr hs)]
        exact (ih (he.resolve_left hne)).resolve_left hm
      | some step =>
        have hsettling := settling_of_does hdoes he'
        obtain ⟨htruthful, hbefore, hafter⟩ :=
          truthful_of_settling (run_of_course hcourse) hsettling
        rcases settling_work hsettling with ⟨-, hend, -⟩ | ⟨m₀, later, p, hturn, hstep, -⟩
        · exact Or.inl hend
        · rw [hafter]
          refine Or.inr ((htruthful.after _).mpr ?_)
          -- the step that sets the widget up enters `active`, and no later one leaves it
          rcases he with rfl | he
          · obtain ⟨step', id, hstep', -, hentered⟩ := hinit
            obtain rfl := Option.some.inj (he'.symm.trans hstep')
            exact Or.inr hentered
          · have hactive := (ih he).resolve_left hm
            have hconf := (sameStage_of_process hturn).configuration
            exact Or.inl ⟨hbefore ▸ hactive, not_exited_of_settles
              (sound_of_turn (sound_of_active hcourse hactive) hturn) (hconf ▸ hactive) hstep⟩

/-- The widget is set up at most once. -/
theorem not_initializes_earlier {stored' : List Message} {e' : Statechart.Event domain}
    (h : Course chart (e :: log) m) (hinit : Initializes e stored) (he : e' ∈ log) :
    ¬ Initializes e' stored' := by
  cases h with
  | next hcourse hdoes =>
    intro hearlier
    rcases active_of_initializes hcourse he hearlier with hend | hactive
    · obtain ⟨step, -, hstep, -⟩ := hinit
      exact absurd ((unmoved_of_does hend hdoes).2.2.symm.trans hstep) (by simp)
    · exact not_initializes_of_active hcourse hdoes hactive hinit

end Statechart.Chat
