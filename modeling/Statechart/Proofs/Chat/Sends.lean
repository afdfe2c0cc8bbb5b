import Statechart.Proofs.Chat.Moves
import Statechart.Proofs.Chart.Orders

/-!
# Text that is sent where none is typed

Text is sent in `inputTypeMode`. In the other states of the input it changes neither the context nor
the host. The message list takes it up nevertheless, if it is idle and the text is not blank
(`Paints`): it begins to paint, although nothing was appended. Otherwise all states stay active
(`sent_of_course`).
-/

namespace Statechart.Chat

open Machine

variable {m m' m₀ : Machine domain} {t u : Selected domain} {x : domain.State}
  {step : Settled domain} {text : String} {log : List (Statechart.Event domain)}
  {later : List (Work domain)} {p : Progress domain}

/-- Whether the message list begins to paint when a text is sent. -/
def Paints (m : Machine domain) (text : String) : Prop :=
  Text.allBlank text = false ∧ .listIdle ∈ m.configuration

/-- Whether a state is active as the message list begins to paint. -/
def BeginsPainting (x : domain.State) : Prop :=
  x = .listPainting ∨ x = .paintBubbles ∨ x = .bubblesRendering ∨ x = .paintScroll ∨
    x = .scrollPending

/-! ## Transitions -/

/-- Whether a transition is one that takes a text up where none is typed: the one of
`inputAudioPlayerMode`, which leaves everything as it is, or the one of `listIdle`. -/
def TakesText (s : domain.State) (tr : Transition domain) : Prop :=
  s = .inputAudioPlayerMode ∧ tr.isActionOnly s ∨
    s = .listIdle ∧ tr.target = some .listPainting ∧ tr.reenter = false

theorem takesText_of_declared (h : Declared chart t)
    (htrigger : t.transition.trigger = .event "SEND_MESSAGE") (hne : t.source ≠ .inputTypeMode) :
    TakesText t.source t.transition := by
  revert htrigger hne
  refine of_declared (P := fun s tr => tr.trigger = .event "SEND_MESSAGE" → s ≠ .inputTypeMode →
    TakesText s tr) ?_ h
  unfold TakesText
  decide

theorem guard_of_declared (h : Declared chart t) (hs : t.source = .listIdle)
    (htrigger : t.transition.trigger = .event "SEND_MESSAGE") :
    t.transition.guard = some hasText := by
  revert hs htrigger
  refine of_declared (P := fun s tr => s = .listIdle → tr.trigger = .event "SEND_MESSAGE" →
    tr.guard = some hasText) ?_ h
  rw [chart.nodes_eq]
  simp [chart, tree, regions, attachmentRegion, inputRegion, messageListRegion, debounced,
    dragRegion, alertRegion, compound, leaf, final, on, after, StateTree.entries,
    StateTree.allEntries]

/-- A transition out of `listIdle` stays below `messageList`. -/
theorem crosses_listIdle (hs : t.source = .listIdle) (htarget : t.transition.target = some .listPainting)
    (hreenter : t.transition.reenter = false) :
    chart.crosses t x ↔ chart.isDescendant x .messageList := by
  have hbound : chart.bound? t = some .messageList := by
    obtain ⟨source, index, trigger, target, guard, actions, reenter⟩ := t
    dsimp only at hs htarget hreenter
    subst hs htarget hreenter
    rfl
  rw [crosses_iff, hbound]
  exact ⟨fun ⟨d, hd, hx⟩ => Option.some.inj hd ▸ hx, fun hx => ⟨_, rfl, hx⟩⟩

theorem crosses_actionOnly (h : t.transition.isActionOnly t.source) : ¬ chart.crosses t x := by
  simp [crosses_iff, Outline.bound?, h]

/-! ## What is taken -/

/-- An idle message list is offered a text, unless it is blank. -/
theorem exists_offered_listIdle (hm : Sound m) (h : Text.allBlank text = false) :
    m.chart.isAtomic .listIdle ∧ ∃ u, m.firstEnabledOf (.event (Event.sendMessage text))
      (.listIdle :: m.chart.ancestors .listIdle) = .ok (some u) := by
  have hdeclared : ∃ n ∈ chart.nodes, n.id = .listIdle ∧ chart.isAtomic n.id ∧
      ∃ tr ∈ n.transitions, tr.trigger = .event "SEND_MESSAGE" := by decide
  obtain ⟨n, hn, hid, hatomic, tr, htr, htrigger⟩ := hdeclared
  have hdecl : Declared chart ⟨n.id, 0, tr⟩ := ⟨n, chart.node?_eq_some.mpr ⟨hn, rfl⟩, htr⟩
  refine ⟨hm.clean.chart ▸ hid ▸ hatomic, hid ▸ exists_offered calm_chart hm.clean
    (contains_chart _) hdecl htrigger (Chart.isWithin_refl _) ?_⟩
  rw [guardHolds_hasText (guard_of_declared hdecl hid htrigger), h]
  rfl

section

variable (hm : Sound m) (htyping : .inputTypeMode ∉ m.configuration)

include hm htyping

theorem takesText_of_offered (hx : x ∈ m.configuration)
    (h : m.firstEnabledOf (.event (Event.sendMessage text)) (x :: m.chart.ancestors x) =
      .ok (some t)) :
    TakesText t.source t.transition ∧ (t.source = .listIdle → Paints m text) := by
  obtain ⟨hdecl, htrigger, hwithin, hholds⟩ := spec_of_offered h
  rw [hm.clean.chart] at hdecl hwithin
  have hactive := Chart.active_of_isWithin (wellFormed_of_mem hm hx) hx hwithin
  have hne : t.source ≠ .inputTypeMode := fun hs => htyping (hs ▸ hactive)
  refine ⟨takesText_of_declared hdecl htrigger hne, fun hs => ?_⟩
  rw [guardHolds_hasText (guard_of_declared hdecl hs htrigger)] at hholds
  exact ⟨by simpa using hholds, hs ▸ hactive⟩

/-- Who takes a text up does so once, and `listIdle` does if there is any. -/
theorem takes_sendMessage (text : String) :
    (∀ t ∈ m.takes (.event (Event.sendMessage text)),
        TakesText t.source t.transition ∧ (t.source = .listIdle → Paints m text)) ∧
      (Paints m text → ∃ t ∈ m.takes (.event (Event.sendMessage text)), t.source = .listIdle) := by
  obtain ⟨l, -, htakes, hnodup, hl⟩ := takes_event (e := Event.sendMessage text) calm_chart hm.clean
  have hsub := sublist_withoutConflicts (m := m) l
  rw [htakes]
  have hcases := fun t (ht : t ∈ l) =>
    let ⟨x, hx, _, hfound⟩ := (hl t).mp ht
    takesText_of_offered hm htyping hx hfound
  have hsource : ∀ t ∈ l, ∀ u ∈ l, t.source = u.source → t = u := by
    intro t ht u hu hs
    obtain ⟨x, -, -, hfound⟩ := (hl t).mp ht
    obtain ⟨y, -, -, hfound'⟩ := (hl u).mp hu
    exact eq_of_source hfound hfound' hs
  refine ⟨fun t ht => hcases t (hsub.subset ht), fun hpaints => ?_⟩
  obtain ⟨t, ht, hs⟩ : ∃ t ∈ l, t.source = .listIdle := by
    obtain ⟨hatomic, t, hfound⟩ := exists_offered_listIdle hm hpaints.1
    refine ⟨t, (hl t).mpr ⟨_, hpaints.2, hatomic, hfound⟩, ?_⟩
    rcases (takesText_of_offered hm htyping hpaints.2 hfound).1 with ⟨hs, -⟩ | ⟨hs, -⟩
    · obtain ⟨-, -, hwithin, -⟩ := spec_of_offered hfound
      rw [hm.clean.chart, hs] at hwithin
      exact absurd hwithin (by decide)
    · exact hs
  refine ⟨t, mem_withoutConflicts_of_free hnodup ht fun u hu hne => ?_, hs⟩
  -- the other one leaves nothing
  have hexit : m.exitSet u = [] := by
    rcases (hcases u hu).1 with ⟨-, haction⟩ | ⟨hs', -⟩
    · simp [exitSet, domain?, haction]
    · exact absurd (hsource u hu t ht (hs'.trans hs.symm)) hne
  simp [conflicts, hexit]

end

/-! ## Processing -/

/-- An event is passed over by a widget that is not set up. -/
theorem process_event_inactive {event : Event} (hm : Sound m) (hinactive : .active ∉ m.configuration) :
    m.process (.event event) = .ok { machine := m } := by
  obtain ⟨l, hselect, -, -, hl⟩ := takes_event (e := event) calm_chart hm.clean
  have hnone : l = [] := List.eq_nil_iff_forall_not_mem.mpr fun t ht => by
    obtain ⟨x, hx, -, hfound⟩ := (hl t).mp ht
    obtain ⟨hdecl, htrigger, hwithin, -⟩ := spec_of_offered hfound
    rw [hm.clean.chart] at hdecl hwithin
    have hsource := Chart.active_of_isWithin (wellFormed_of_mem hm hx) hx hwithin
    have hout : ¬ chart.isWithin t.source .active := fun h => hinactive (active_of_below hm hsource h)
    rcases (early_of_declared hdecl hout).2 with ⟨-, hdelay, -⟩ | ⟨-, ⟨h, -⟩ | ⟨h, -⟩⟩
    · simp [Transition.delay?, Trigger.delay?, htrigger] at hdelay
    · simp [htrigger] at h
    · simp [htrigger] at h
  unfold process react
  rw [hselect, hnone]
  rfl

/-! ## What stays active -/

theorem crosses_of_takesText (h : TakesText t.source t.transition) :
    chart.crosses t x ↔ t.source = .listIdle ∧ chart.isDescendant x .messageList := by
  rcases h with ⟨hs, haction⟩ | ⟨hs, htarget, hreenter⟩
  · exact iff_of_false (crosses_actionOnly haction) fun h => State.noConfusion (hs.symm.trans h.1)
  · rw [crosses_listIdle hs htarget hreenter]
    exact ⟨fun h => ⟨hs, h⟩, And.right⟩

theorem below_messageList (h : chart.isDescendant x .messageList) :
    x = .listIdle ∨ chart.isWithin x .listPainting := by
  have hall : ∀ s ∈ State.all, chart.isDescendant s .messageList →
      s = .listIdle ∨ chart.isWithin s .listPainting := by decide
  exact hall x (by cases x <;> decide) h

theorem within_listPainting (h : chart.isWithin x .listPainting) :
    BeginsPainting x ∨ x = .bubblesRendered ∨ x = .scrollSettled := by
  have hall : ∀ s ∈ State.all, chart.isWithin s .listPainting → (s = .listPainting ∨
      s = .paintBubbles ∨ s = .bubblesRendering ∨ s = .paintScroll ∨ s = .scrollPending) ∨
      s = .bubblesRendered ∨ s = .scrollSettled := by decide
  exact hall x (by cases x <;> decide) h

/-- When the message list has begun to paint it has nothing painted. -/
theorem active_of_beginsPainting {active : StateSet domain.State} (hwf : chart.WellFormed active)
    (h : .listPainting ∈ active) (hbubbles : .bubblesRendered ∉ active)
    (hscroll : .scrollSettled ∉ active) (hx : BeginsPainting x) : x ∈ active := by
  have hpaint := hwf.parallel .listPainting h (by decide) .paintBubbles
    (Chart.mem_substates.mpr ⟨by decide, by decide⟩)
  have hpaint' := hwf.parallel .listPainting h (by decide) .paintScroll
    (Chart.mem_substates.mpr ⟨by decide, by decide⟩)
  have hrendering := (one_of_twins hwf twins_paintBubbles hpaint).resolve_right
    fun h => hbubbles h.2
  have hpending := (one_of_twins hwf twins_paintScroll hpaint').resolve_right fun h => hscroll h.2
  rcases hx with rfl | rfl | rfl | rfl | rfl
  · exact h
  · exact hpaint
  · exact hrendering.1
  · exact hpaint'
  · exact hpending.1

section

variable (hm : Sound m) (htyping : .inputTypeMode ∉ m.configuration)
  (hactive : .active ∈ m.configuration) (hx : step.Exchanges chart m)
  (hsignal : step.signal = .event (Event.sendMessage text))

include hm htyping hactive hx hsignal

/-- Nothing is left or entered as a text is sent but what is below the message list, as it begins to
paint. -/
theorem below_of_sent : (∀ x ∈ step.exited, Paints m text ∧ chart.isDescendant x .messageList) ∧
    ∀ x ∈ step.entered, Paints m text ∧ chart.isDescendant x .messageList := by
  obtain ⟨hcases, -⟩ := takes_sendMessage hm htyping text
  rw [← hsignal] at hcases
  have hcrossed : ∀ t ∈ m.takes step.signal, ∀ x, chart.crosses t x →
      Paints m text ∧ chart.isDescendant x .messageList := by
    intro t ht x hcross
    obtain ⟨hs, hbelow⟩ := (crosses_of_takesText (hcases t ht).1).mp hcross
    exact ⟨(hcases t ht).2 hs, hbelow⟩
  constructor
  · intro x hexited
    obtain ⟨-, t, ht, hcross⟩ := hx.exited x hexited
    exact hcrossed t ht x hcross
  · intro x hentered
    rcases hx.crossed x hentered with hempty | ⟨t, ht, hcross⟩
    · exact absurd hactive (not_mem_of_nil hempty)
    · exact hcrossed t ht x hcross

omit hactive in
/-- A list that begins to paint is no longer idle and is painting. -/
theorem listPainting_of_sent (hpaints : Paints m text) :
    .listIdle ∈ step.exited ∧ .listPainting ∈ step.after.configuration := by
  obtain ⟨hcases, hexists⟩ := takes_sendMessage hm htyping text
  rw [← hsignal] at hcases hexists
  obtain ⟨t, ht, hs⟩ := hexists hpaints
  obtain ⟨-, htarget, hreenter⟩ :=
    (hcases t ht).1.resolve_left fun h => State.noConfusion (hs.symm.trans h.1)
  have hcross : ∀ {y}, chart.isDescendant y .messageList → chart.crosses t y := fun hy =>
    (crosses_listIdle hs htarget hreenter).mpr hy
  exact ⟨hx.leaves t ht _ htarget (by decide) _ hpaints.2 (hcross (by decide)),
    (hx.after _).mpr (Or.inr (hx.enters t ht _ htarget (by decide) (hcross (by decide))))⟩

/-- A list that begins to paint has nothing painted, as no transition has a painted state for its
goal. -/
theorem not_aside_of_sent (hpainting : .listPainting ∉ m.configuration) (haside : chart.isAside x)
    (hbelow : chart.isDescendant x .listPainting) : x ∉ step.after.configuration := by
  intro hafter
  rcases (hx.after x).mp hafter with ⟨hbefore, -⟩ | hentered
  · exact hpainting (Chart.active_of_isWithin (wellFormed_of_mem hm hactive) hbefore
      (Chart.isWithin_of_isDescendant hbelow))
  · obtain ⟨hcases, -⟩ := takes_sendMessage hm htyping text
    rw [← hsignal] at hcases
    obtain ⟨t, ht, hcross, g, hg, hgoal⟩ := goal_of_enters hx haside hentered
    have hs := ((crosses_of_takesText (hcases t ht).1).mp hcross).1
    obtain ⟨-, htarget, -⟩ :=
      (hcases t ht).1.resolve_left fun h => State.noConfusion (hs.symm.trans h.1)
    obtain rfl := Option.some.inj (htarget.symm.trans hg)
    rcases hgoal with hwithin | ⟨he, -⟩
    · exact Chart.isDescendant_irrefl (Chart.isDescendant_of_isDescendant_of_isWithin hbelow hwithin)
    · exact State.noConfusion he

/-- What stays active as a text is sent where none is typed, and what is entered. -/
theorem configuration_of_sent (hafter : chart.WellFormed step.after.configuration) :
    (¬ Paints m text → ∀ x, x ∈ step.after.configuration ↔ x ∈ m.configuration) ∧
      (Paints m text → ∀ x, x ∈ step.after.configuration ↔
        (x ∈ m.configuration ∧ x ≠ .listIdle) ∨ BeginsPainting x) := by
  obtain ⟨hexited, hentered⟩ := below_of_sent hm htyping hactive hx hsignal
  refine ⟨fun hno x => ?_, fun hpaints x => ?_⟩
  · rw [hx.after]
    exact ⟨fun h => h.elim And.left fun h => absurd (hentered x h).1 hno,
      fun h => Or.inl ⟨h, fun he => hno (hexited x he).1⟩⟩
  · obtain ⟨hleft, hbegun⟩ := listPainting_of_sent hm htyping hx hsignal hpaints
    have hwf := wellFormed_of_mem hm hactive
    have hbefore : .listPainting ∉ m.configuration := fun h => State.noConfusion
      (eq_of_twins hwf twins_messageList (Or.inl rfl) (Or.inr rfl) hpaints.2 h)
    -- what lies in `listPainting` but does not begin it is not entered
    have hbubbles : .bubblesRendered ∉ step.after.configuration :=
      not_aside_of_sent hm htyping hactive hx hsignal hbefore (by decide) (by decide)
    have hscroll : .scrollSettled ∉ step.after.configuration :=
      not_aside_of_sent hm htyping hactive hx hsignal hbefore (by decide) (by decide)
    constructor
    · intro hxafter
      rcases (hx.after x).mp hxafter with ⟨hactive', hkept⟩ | hentered'
      · exact Or.inl ⟨hactive', fun he => hkept (he ▸ hleft)⟩
      · rcases below_messageList (hentered x hentered').2 with rfl | hwithin
        · exact State.noConfusion (eq_of_twins hafter twins_messageList (Or.inl rfl) (Or.inr rfl)
            hxafter hbegun)
        · refine (within_listPainting hwithin).elim Or.inr fun h => ?_
          rcases h with rfl | rfl
          · exact absurd hxafter hbubbles
          · exact absurd hxafter hscroll
    · rintro (⟨hactive', hne⟩ | hmem)
      · refine (hx.after x).mpr (Or.inl ⟨hactive', fun hexited' => ?_⟩)
        rcases below_messageList (hexited x hexited').2 with he | hwithin
        · exact hne he
        · exact hbefore (Chart.active_of_isWithin hwf hactive' hwithin)
      · exact active_of_beginsPainting hafter hbegun hbubbles hscroll hmem

end

/-! ## Along a run -/

/-- What is active, put in order. -/
theorem active_eq_iff (hm : m.chart = chart) (hm' : m'.chart = chart) : m'.active = m.active ↔
    ∀ x, x ∈ m'.configuration ↔ x ∈ m.configuration := by
  constructor
  · intro h x
    have hmem : x ∈ m'.active ↔ x ∈ m.active := by rw [h]
    exact (Outline.mem_inDocumentOrder ..).symm.trans
      (hmem.trans (Outline.mem_inDocumentOrder ..))
  · intro h
    have hperm : m'.configuration.elems.Perm m.configuration.elems :=
      (List.perm_ext_iff_of_nodup m'.configuration.nodup m.configuration.nodup).mpr h
    unfold active Outline.inDocumentOrder
    rw [hm, hm']
    exact Chart.sort_congr Chart.isOrder_documentLe (fun x _ => contains_chart x) hperm

/-- Processing a text that is sent where none is typed leaves the context and the shell alone. -/
theorem process_sent (hm : Sound m) (hactive : .active ∈ m.configuration)
    (htyping : .inputTypeMode ∉ m.configuration) (text : String) :
    ∃ p, m.process (.event (Event.sendMessage text)) = .ok p ∧ p.machine.chart = chart ∧
      p.machine.context = m.context ∧ p.machine.shell = m.shell := by
  obtain ⟨p, hp⟩ := exists_process hm hactive
  have hunderway := (process_underway mild_chart calm_chart hm.clean).ok hp
  have hnone : m.actionsOn (.event (Event.sendMessage text)) = [] := by
    rw [actionsOn_sent hm, if_neg]
    exact fun h => htyping (isActive_iff.mp ((Bool.and_eq_true ..).mp h).1)
  rw [hnone] at hunderway
  exact ⟨p, hp, hunderway.chart, hunderway.world.1, hunderway.world.2⟩

theorem configuration_of_processed (h : Course chart log m) (hserves : m.Serves false)
    (hturn : m.nextTurn = .process m₀ (.event (Event.sendMessage text)) later)
    (hactive : .active ∈ m₀.configuration) (htyping : .inputTypeMode ∉ m₀.configuration)
    (hp : m₀.process (.event (Event.sendMessage text)) = .ok p) :
    (¬ Paints m₀ text → ∀ x, x ∈ p.machine.configuration ↔ x ∈ m₀.configuration) ∧
      (Paints m₀ text → ∀ x, x ∈ p.machine.configuration ↔
        (x ∈ m₀.configuration ∧ x ≠ .listIdle) ∨ BeginsPainting x) := by
  obtain ⟨-, hm₀⟩ := sound_of_turning h hturn
  rcases process_cases hp with ⟨invocations, -, rfl⟩ | ⟨step, hsettles, hsignal⟩
  · obtain ⟨-, hexists⟩ := takes_sendMessage hm₀ htyping text
    -- nothing is taken, so there was nothing to paint
    rw [takes_of_unsettled hp rfl] at hexists
    refine ⟨fun _ _ => Iff.rfl, fun h => ?_⟩
    obtain ⟨t, ht, -⟩ := hexists h
    exact absurd ht List.not_mem_nil
  · rw [← hsignal] at hturn
    obtain ⟨m', hsettling, hup, hconf⟩ := continues_of_settles hserves hturn hsettles
    have hx := Settled.exchanges_of_settling root_chart historyFromOutside_chart h hsettling
      hturn hsettles
    have hkept : .active ∈ step.after.configuration :=
      (hx.after _).mpr (Or.inl ⟨hactive, not_exited_of_settles hm₀ hactive hsettles⟩)
    have hwf : chart.WellFormed step.after.configuration := by
      have hwhole := (orderly_of_live root_chart historyFromOutside_chart
        ((run_of_course h).settle hsettling) hup).configuration
      rw [hconf] at hwhole
      exact hwhole.resolve_left fun hempty => not_mem_of_nil hempty hkept
    have hsent := configuration_of_sent hm₀ htyping hactive hx hsignal hwf
    rwa [(settled_of_settles hsettles).2, (absorb_spec p).2.2.1] at hsent

/-- A text that is sent where none is typed changes neither the context nor what the widget calls
out to. If the message list is idle and the text is not blank, the list begins to paint; otherwise
all that was active stays active, and nothing else becomes active. -/
theorem sent_of_course (h : Course chart log m) (hserves : m.Serves false)
    (hturn : m.nextTurn = .process m₀ (.event (Event.sendMessage text)) later)
    (htyping : .inputTypeMode ∉ m.configuration) :
    ∃ p, m₀.process (.event (Event.sendMessage text)) = .ok p ∧
      p.machine.context = m.context ∧ p.machine.shell.host = m.shell.host ∧
      (p.machine.active = m.active ↔ ¬ Paints m text) ∧
      (Paints m text → ∀ x, x ∈ p.machine.configuration ↔
        (x ∈ m.configuration ∧ x ≠ .listIdle) ∨ BeginsPainting x) := by
  have hstage := sameStage_of_process hturn
  obtain ⟨-, hm₀⟩ := sound_of_turning h hturn
  have hhost : m₀.shell.host = m.shell.host := by rw [(nextTurn_process hturn).2]
  have hpaints : Paints m text ↔ Paints m₀ text := by rw [Paints, Paints, hstage.configuration]
  rw [← hstage.context, ← hhost, hpaints, ← hstage.configuration]
  have hactive' : m.active = m₀.active := by
    rw [(nextTurn_process hturn).2]
    rfl
  rw [hactive']
  rw [← hstage.configuration] at htyping
  by_cases hactive : .active ∈ m₀.configuration
  · obtain ⟨p, hp, hchart, hcontext, hshell⟩ := process_sent hm₀ hactive htyping text
    have hconf := configuration_of_processed h hserves hturn hactive htyping hp
    refine ⟨p, hp, hcontext, by rw [hshell], ?_, hconf.2⟩
    rw [active_eq_iff hm₀.clean.chart hchart]
    refine ⟨fun hsame hpaints => ?_, hconf.1⟩
    rcases (hconf.2 hpaints .listIdle).mp ((hsame _).mpr hpaints.2) with ⟨-, hne⟩ | hbegins
    · exact hne rfl
    · rcases hbegins with h | h | h | h | h <;> exact State.noConfusion h
  · have hlist : ¬ Paints m₀ text := fun h => hactive (active_of_below hm₀ h.2 (by decide))
    exact ⟨_, process_event_inactive hm₀ hactive, rfl, rfl, iff_of_true rfl hlist,
      fun h => absurd h hlist⟩

/-! ## A recording in the lobby -/

/-- The states of the lobby as somebody records something. -/
def recordStates : List domain.State :=
  [.widget, .active, .attachment, .input, .messageList, .scroll, .inputResize, .appResize, .drag,
    .alert, .inputReady, .listIdle, .scrollIdle, .inputResizeStop, .appResizeStop, .dragIdle,
    .alertHidden, .attachmentClosed, .inputAudioRecordMode]

/-- The states as the recording waits to be sent. -/
def playStates : List domain.State :=
  [.widget, .active, .attachment, .input, .messageList, .scroll, .inputResize, .appResize, .drag,
    .alert, .inputReady, .listIdle, .scrollIdle, .inputResizeStop, .appResizeStop, .dragIdle,
    .alertHidden, .attachmentClosed, .inputAudioPlayerMode]

theorem called_quiet_startRecording (hcontext : m.context = lobbyContext) :
    ((quiet m).called? (.send .startRecording)).map (fun last => (last.2.shell,
      last.2.configuration.elems, last.2.timers.pending, last.2.timers.nextEpoch, last.2.blocked)) =
      some ({ host := ({} : Host), status := .running }, recordStates, [], 4, false) := by
  obtain ⟨c, context⟩ := m
  obtain rfl := hcontext
  set m : Machine domain := ⟨c, lobbyContext, _, _, _, _, _, _, _, _, _, _, _, _, _⟩
  have hselect : (quiet m).select (.event Event.startRecording) =
      .ok [⟨.inputTypeMode, 1, { on "START_RECORDING" .inputAudioRecordMode with
        guard := some audioAllowed }⟩] := by
    unfold select
    dsimp only
    rw [leaves_quiet]
    rfl
  have hreact : (quiet m).reacting? (.event Event.startRecording) = some (quiet m) := rfl
  rw [quiet, called_idleIn, ← quiet, reacted?]
  simp only [hreact, bind, Option.bind, hselect]
  cbv

theorem called_stopRecording :
    ((idleIn recordStates (by decide) m).called? (.send .stopRecording)).map (fun last =>
      (last.2.shell, last.2.configuration.elems, last.2.timers.pending,
        last.2.timers.nextEpoch, last.2.blocked)) =
      some ({ host := ({} : Host), status := .running }, playStates, [], 4, false) := by
  have hleaves : (idleIn recordStates (by decide) m).active.filter
      (idleIn recordStates (by decide) m).chart.isAtomic = [.attachmentClosed, .inputAudioRecordMode,
        .listIdle, .scrollIdle, .inputResizeStop, .appResizeStop, .dragIdle, .alertHidden] := by
    cbv
  have hselect : (idleIn recordStates (by decide) m).select (.event Event.stopRecording) =
      .ok [⟨.inputAudioRecordMode, 0, on "STOP_RECORDING" .inputAudioPlayerMode⟩] := by
    unfold select
    dsimp only
    rw [hleaves]
    rfl
  have hreact : (idleIn recordStates (by decide) m).reacting? (.event Event.stopRecording) =
      some (idleIn recordStates (by decide) m) := rfl
  rw [called_idleIn, reacted?]
  simp only [hreact, bind, Option.bind, hselect]
  cbv

/-- A text is sent as a recording waits in the lobby, and the list is idle. -/
theorem lobby_plays (text : String) : ∃ log, ∃ m m₀ : Machine domain, Course chart log m ∧
    m.Serves false ∧ m.nextTurn = .process m₀ (.event (Event.sendMessage text)) [] ∧
    .active ∈ m.configuration ∧ .inputAudioPlayerMode ∈ m.configuration ∧
    .inputTypeMode ∉ m.configuration ∧ .listIdle ∈ m.configuration := by
  obtain ⟨log, m, hquiet, hcontext⟩ := lobby_quiet
  obtain ⟨log', m', hrecords⟩ :=
    goes_idleIn (by decide) hquiet (called_quiet_startRecording hcontext)
  obtain ⟨log'', m'', hplays⟩ := goes_idleIn (by decide) hrecords called_stopRecording
  let m₀ : Machine domain := idleIn playStates (by decide) m''
  have hadmitted : m₀.shell.receive m₀.timers.nextEpoch (.send (Event.sendMessage text)) =
      .admitted (m₀.shell.enqueue (.signal (.event (Event.sendMessage text)))) := rfl
  have hactive : ∀ s : State, m₀.isActive s = true → (s : domain.State) ∈ m₀.configuration :=
    fun _ h => isActive_iff.mp h
  have htyping : m₀.isActive .inputTypeMode = false := rfl
  refine ⟨_, _, m₀, (course_goes course_lobby hplays).next (.call hadmitted), ⟨rfl, rfl⟩, rfl,
    hactive _ rfl, hactive _ rfl, fun h => ?_, hactive _ rfl⟩
  exact absurd (htyping.symm.trans (isActive_iff.mpr h)) (by simp)

/-- A blank text is sent as a recording waits, and nothing comes of it. -/
theorem lobby_waits : ∃ log, ∃ m m₀ : Machine domain, ∃ p : Progress domain, Course chart log m ∧
    .inputAudioPlayerMode ∈ m.configuration ∧
    m₀.process (.event (Event.sendMessage " ")) = .ok p ∧ p.machine.context = m.context ∧
    p.machine.shell.host = m.shell.host ∧ p.machine.active = m.active := by
  obtain ⟨log, m, m₀, hcourse, hserves, hturn, -, hplays, htyping, -⟩ := lobby_plays " "
  obtain ⟨p, hp, hcontext, hhost, hsame, -⟩ := sent_of_course hcourse hserves hturn htyping
  exact ⟨log, m, m₀, p, hcourse, hplays, hp, hcontext, hhost,
    hsame.mpr fun h => absurd h.1 (by decide)⟩

/-- A text is sent as a recording waits; nothing is appended, but the list begins to paint. -/
theorem lobby_paints : ∃ log, ∃ m m₀ : Machine domain, ∃ p : Progress domain, Course chart log m ∧
    m.Serves false ∧ m.nextTurn = .process m₀ (.event (Event.sendMessage "hi")) [] ∧
    .inputAudioPlayerMode ∈ m.configuration ∧ .inputTypeMode ∉ m.configuration ∧
    m₀.process (.event (Event.sendMessage "hi")) = .ok p ∧ p.machine.context = m.context ∧
    .listPainting ∉ m.configuration ∧ .listPainting ∈ p.machine.configuration := by
  obtain ⟨log, m, m₀, hcourse, hserves, hturn, hactive, hplays, htyping, hlist⟩ := lobby_plays "hi"
  have hstage := sameStage_of_process hturn
  obtain ⟨hm, hm₀⟩ := sound_of_turning hcourse hturn
  have hactive₀ : .active ∈ m₀.configuration := hstage.configuration ▸ hactive
  have htyping₀ : .inputTypeMode ∉ m₀.configuration := hstage.configuration ▸ htyping
  obtain ⟨p, hp, -, hcontext, -⟩ := process_sent hm₀ hactive₀ htyping₀ "hi"
  have hpaints := (configuration_of_processed hcourse hserves hturn hactive₀ htyping₀ hp).2
    ⟨by decide, hstage.configuration ▸ hlist⟩
  exact ⟨log, m, m₀, p, hcourse, hserves, hturn, hplays, htyping, hp,
    hcontext.trans hstage.context, fun h => State.noConfusion (eq_of_twins (wellFormed_of_mem hm h)
      twins_messageList (Or.inl rfl) (Or.inr rfl) hlist h), (hpaints _).mpr (Or.inr (Or.inl rfl))⟩

end Statechart.Chat
