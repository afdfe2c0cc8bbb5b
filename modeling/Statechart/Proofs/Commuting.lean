import Statechart.Proofs.Machine.Lockstep
import Statechart.Proofs.Trace

/-!
# Events of different regions commute

An event that is confined to a region leaves the rest of the machine untouched
(`untouched_of_process`), and what it does within the region depends on the region alone
(`process_alike`). So it makes no difference which of two events is processed first if they are
confined to different regions (`regions_commute`): below either region the one event does what it
does on its own, and the other one changes nothing there.
-/

namespace Statechart

open Chart Attempt

variable {D : Domain}

namespace Machine

/-- The machine after two signals, one processed after the other with nothing in between. -/
def processBoth (m : Machine D) (first second : Signal D) : Attempt D (Machine D) := do
  let p ← m.process first
  let q ← p.machine.process second
  return q.machine

/-- What is not below `r` is in the one machine as it is in the other. -/
structure Untouched (c : Chart D) (r : D.State) (m m' : Machine D) : Prop where
  active : ∀ x, ¬ c.isDescendant x r → (x ∈ m'.configuration ↔ x ∈ m.configuration)
  recorded : ∀ s, (∀ q, c.parent? s = some q → ¬ c.isDescendant q r) →
    m'.history.get? s = m.history.get? s

variable {c : Chart D} {m m' m₁ m₂ : Machine D} {r r₁ r₂ q x : D.State} {e e₁ e₂ : D.Event}
  {p : Progress D} {steps : List (Settled D)}

/-- An event that is confined to `r` leaves everything else as it is. -/
theorem untouched_of_process (hm : Clean c m) (hr : c.isCompound r) (he : c.Confined r e)
    (h : m.process (.event e) = .ok p) : Untouched c r m p.machine := by
  rcases process_cases h with ⟨invocations, -, rfl⟩ | ⟨step, hstep, hsignal⟩
  · exact ⟨fun _ _ => Iff.rfl, fun _ _ => rfl⟩
  · cases hstep with
    | initial => exact absurd hsignal (by simp)
    | @reaction before left between signal selected taken exited entered _ hreact hsel _ htaken
        hexited hleft hbetween hentered hsettle =>
      obtain rfl : signal = .event e := hsignal
      obtain rfl : m = before := Option.some.inj hreact
      obtain rfl := hm.chart
      -- all that is taken moves below `r`, and so does what is left and entered
      have hstays : ∀ t ∈ taken, Declared m.chart t ∧ t.StaysBelow m.chart r := fun t ht =>
        stays_of_mem_select hm he hsel (mem_withoutConflicts (htaken ▸ ht))
      obtain ⟨hk, hconf⟩ := exitStates_keeps hleft
      obtain ⟨hk', hconf'⟩ := runTransitions_keeps hbetween
      obtain ⟨-, -, hhistory, -, hconf''⟩ := settleEntry_spec hsettle
      have hchart : between.chart = m.chart := hk'.chart.trans hk.chart
      have hrecorded : between.history = (m.recordHistories exited).history :=
        hk'.history.trans hk.history
      have hleaving : ∀ y ∈ exited, m.chart.isDescendant y r := fun y hy =>
        below_of_mem_leaving hm.history hr hstays (hexited ▸ hy)
      have hentering : ∀ y ∈ entered, m.chart.isDescendant y r := by
        intro y hy
        have hb := boundedHistory_recordHistories hm exited
        rw [← hrecorded] at hb
        rw [← hchart] at hb hr hstays ⊢
        exact below_of_mem_entering hb hr hstays hentered hy
      refine ⟨fun x hx => ?_, fun s hs => ?_⟩
      · rw [hconf'', hconf', hconf]
        exact (or_iff_left fun hy => hx (hentering x hy)).trans
          (and_iff_left fun hy => hx (hleaving x hy))
      · rw [hhistory, hrecorded]
        by_cases hh : m.chart.isHistory s
        · obtain ⟨mode, hkind⟩ := isHistory_iff.mp hh
          obtain ⟨q, hq⟩ := parent_of_isHistory hh
          rw [get?_recordHistories hkind hq, if_neg fun hy => hs q hq (hleaving q hy)]
        · exact get?_recordHistories_of_not_isHistory hh

/-- So it leaves machines in step below a region that lies apart. -/
theorem inStep_of_untouched (hm : Clean c m) (hm' : Clean c m') (h : Untouched c r₁ m m')
    (hapart : ∀ x, c.isWithin x r₂ → ¬ c.isDescendant x r₁) : InStep c r₂ m m' where
  clean := hm
  clean' := hm'
  active := fun x hx => h.active x (hapart x (isWithin_of_isDescendant hx))
  recorded := fun s hs => h.recorded s fun q hq => hapart q (isWithin_parent hq hs)

/-- Of two different regions neither has anything within it that is below the other. -/
theorem regions_apart (hr₁ : r₁ ∈ c.substates q) (hr₂ : r₂ ∈ c.substates q) (hne : r₁ ≠ r₂)
    (x : D.State) (hx : c.isWithin x r₂) : ¬ c.isDescendant x r₁ := fun hx₁ =>
  hne (child_towards_unique (mem_substates.mp hr₁).1 (mem_substates.mp hr₂).1
    (isWithin_of_isDescendant hx₁) hx)

theorem processBoth_eq_ok {first second : Signal D} : m.processBoth first second = .ok m' ↔
    ∃ p q, m.process first = .ok p ∧ p.machine.process second = .ok q ∧ q.machine = m' := by
  simp only [processBoth, bind_eq_ok, pure_eq_ok]
  exact exists_congr fun p => exists_and_left.symm

theorem processBoth_of_ok {first second : Signal D} (h : m.process first = .ok p) :
    m.processBoth first second = p.machine.process second >>= fun q => pure q.machine := by
  unfold processBoth
  rw [h]
  rfl

theorem processBoth_of_error {first second : Signal D} {halt : Halt D}
    (h : m.process first = .error halt) : m.processBoth first second = .error halt := by
  unfold processBoth
  rw [h]
  rfl

/-- Where each of two signals comes to the same after the other as on its own, there is an end to
both orders or to neither. -/
theorem processBoth_endless {s s' : Signal D} {R R' : Progress D → Progress D → Prop}
    (halike : ∀ p', m.process s' = .ok p' → Alike R (m.process s) (p'.machine.process s))
    (halike' : ∀ p, m.process s = .ok p → Alike R' (m.process s') (p.machine.process s'))
    (hgood : ∀ m' d, m.processBoth s' s ≠ .error (.defect m' d))
    (h : m.processBoth s s' = .error .endless) : m.processBoth s' s = .error .endless := by
  -- an endless part of one order is met in the other, which would else stop at a defect
  cases hs' : m.process s' with
  | error halt =>
    rw [processBoth_of_error hs'] at hgood ⊢
    cases halt with
    | endless => rfl
    | defect m' d => exact absurd rfl (hgood m' d)
  | ok p' =>
    cases hs : m.process s with
    | error halt =>
      have halike := halike p' hs'
      rw [processBoth_of_ok hs'] at hgood ⊢
      rw [processBoth_of_error hs] at h
      obtain rfl := Except.error.inj h
      rw [hs] at halike
      generalize p'.machine.process s = last at halike hgood
      cases halike with
      | endless => rfl
      | right => exact absurd rfl (hgood _ _)
    | ok p =>
      have halike := halike' p hs
      rw [processBoth_of_ok hs] at h
      rw [hs'] at halike
      generalize p.machine.process s' = last at halike h
      cases halike with
      | ok => exact absurd h (by simp [bind, Except.bind, pure, Except.pure])
      | right => exact absurd h (by simp [bind, Except.bind])

/-- Whether two machines are in the same states and remember the same. -/
def SameState (m m' : Machine D) : Prop :=
  (∀ x, x ∈ m'.configuration ↔ x ∈ m.configuration) ∧ ∀ s, m'.history.get? s = m.history.get? s

/-- What is below a region, is as the event of this region has left it, in whatever order; what is
below neither is as it was. -/
theorem sameState_of_inStep {p₁ p₂ q₁ q₂ : Machine D}
    (h₁ : Untouched c r₁ m p₁) (h₁₂ : Untouched c r₂ p₁ q₂) (h₂ : Untouched c r₂ m p₂)
    (h₂₁ : Untouched c r₁ p₂ q₁) (hstep₁ : InStep c r₁ p₁ q₁) (hstep₂ : InStep c r₂ p₂ q₂)
    (hapart : ∀ x, c.isWithin x r₁ → ¬ c.isDescendant x r₂) : SameState q₂ q₁ := by
  refine ⟨fun x => ?_, fun s => ?_⟩
  · by_cases hx₁ : c.isDescendant x r₁
    · rw [hstep₁.active x hx₁, h₁₂.active x (hapart x (isWithin_of_isDescendant hx₁))]
    · rw [h₂₁.active x hx₁]
      by_cases hx₂ : c.isDescendant x r₂
      · exact (hstep₂.active x hx₂).symm
      · rw [h₁₂.active x hx₂, h₁.active x hx₁, h₂.active x hx₂]
  · by_cases hs₁ : c.isDescendant s r₁
    · have hout : ∀ q, c.parent? s = some q → ¬ c.isDescendant q r₂ :=
        fun q hq => hapart q (isWithin_parent hq hs₁)
      rw [hstep₁.recorded s hs₁, h₁₂.recorded s hout]
    · have hout₁ : ∀ q, c.parent? s = some q → ¬ c.isDescendant q r₁ :=
        fun q hq hqr => hs₁ (isDescendant_trans (isDescendant_parent hq) hqr)
      rw [h₂₁.recorded s hout₁]
      by_cases hs₂ : c.isDescendant s r₂
      · exact (hstep₂.recorded s hs₂).symm
      · have hout₂ : ∀ q, c.parent? s = some q → ¬ c.isDescendant q r₂ :=
          fun q hq hqr => hs₂ (isDescendant_trans (isDescendant_parent hq) hqr)
        rw [h₁₂.recorded s hout₂, h₁.recorded s hout₁, h₂.recorded s hout₂]

/-- Whatever a machine has gone through: two events that are confined to different regions may be
processed in either order. Unless they come to a defect, they have no end in both orders, or lead
to the same states and the same records of history states in both. -/
theorem regions_commute (hrun : Run c steps m) (hr₁ : r₁ ∈ c.substates q) (hr₂ : r₂ ∈ c.substates q)
    (hne : r₁ ≠ r₂) (hc₁ : c.isCompound r₁) (hc₂ : c.isCompound r₂) (he₁ : c.Confined r₁ e₁)
    (he₂ : c.Confined r₂ e₂)
    (hgood : ∀ m' d, m.processBoth (.event e₁) (.event e₂) ≠ .error (.defect m' d))
    (hgood' : ∀ m' d, m.processBoth (.event e₂) (.event e₁) ≠ .error (.defect m' d)) :
    (m.processBoth (.event e₁) (.event e₂) = .error .endless ∧
        m.processBoth (.event e₂) (.event e₁) = .error .endless) ∨
      ∃ m₁ m₂, m.processBoth (.event e₁) (.event e₂) = .ok m₁ ∧
        m.processBoth (.event e₂) (.event e₁) = .ok m₂ ∧ SameState m₁ m₂ := by
  have hm := clean_of_run hrun
  have hapart₁ := regions_apart hr₂ hr₁ hne.symm
  have hapart₂ := regions_apart hr₁ hr₂ hne
  -- each event does after the other what it does on its own
  have halike₁ : ∀ p₂, m.process (.event e₂) = .ok p₂ →
      Alike (fun p q => InStep c r₁ p.machine q.machine) (m.process (.event e₁))
        (p₂.machine.process (.event e₁)) := fun p₂ h₂ =>
    process_alike (inStep_of_untouched hm (clean_of_process hm h₂)
      (untouched_of_process hm hc₂ he₂ h₂) hapart₁) hc₁ he₁
  have halike₂ : ∀ p₁, m.process (.event e₁) = .ok p₁ →
      Alike (fun p q => InStep c r₂ p.machine q.machine) (m.process (.event e₂))
        (p₁.machine.process (.event e₂)) := fun p₁ h₁ =>
    process_alike (inStep_of_untouched hm (clean_of_process hm h₁)
      (untouched_of_process hm hc₁ he₁ h₁) hapart₂) hc₂ he₂
  cases h₁₂ : m.processBoth (.event e₁) (.event e₂) with
  | error halt =>
    cases halt with
    | defect m' d => exact absurd h₁₂ (hgood m' d)
    | endless => exact Or.inl ⟨rfl, processBoth_endless halike₁ halike₂ hgood' h₁₂⟩
  | ok m₁ =>
    cases h₂₁ : m.processBoth (.event e₂) (.event e₁) with
    | error halt =>
      cases halt with
      | defect m' d => exact absurd h₂₁ (hgood' m' d)
      | endless =>
        have hnone := processBoth_endless halike₂ halike₁ hgood h₂₁
        exact absurd (h₁₂.symm.trans hnone) (by simp)
    | ok m₂ =>
      obtain ⟨p₁, q₂, hp₁, hq₂, rfl⟩ := processBoth_eq_ok.mp h₁₂
      obtain ⟨p₂, q₁, hp₂, hq₁, rfl⟩ := processBoth_eq_ok.mp h₂₁
      have hstep₁ := halike₁ p₂ hp₂
      have hstep₂ := halike₂ p₁ hp₁
      rw [hp₁, hq₁] at hstep₁
      rw [hp₂, hq₂] at hstep₂
      cases hstep₁ with
      | ok hstep₁ =>
        cases hstep₂ with
        | ok hstep₂ =>
          refine Or.inr ⟨_, _, rfl, rfl, sameState_of_inStep (untouched_of_process hm hc₁ he₁ hp₁)
            (untouched_of_process (clean_of_process hm hp₁) hc₂ he₂ hq₂)
            (untouched_of_process hm hc₂ he₂ hp₂)
            (untouched_of_process (clean_of_process hm hp₂) hc₁ he₁ hq₁) hstep₁ hstep₂ hapart₁⟩

end Machine

/-! ## An aquarium -/

/-- Whether every transition that waits for an event is declared within `r`, stays below it and has no
guard. -/
def Outline.confines (c : Outline D) (r : D.State) (event : String) : Bool :=
  c.nodes.all fun n => n.transitions.all fun t => t.trigger ≠ .event event ||
    (c.isWithin n.id r && t.guard.isNone &&
      (t.isActionOnly n.id || (t.target.any (c.isDescendant · r) &&
        (c.isDescendant n.id r || (n.id = r && !t.reenter)))))

theorem confined_of_confines {c : Chart D} {r : D.State} {e : D.Event}
    (h : c.confines r (D.eventName e)) : c.Confined r e := by
  have hall : ∀ t, Machine.Declared c t → t.transition.trigger = .event (D.eventName e) →
      (c.isWithin t.source r ∧ t.transition.guard = none) ∧ t.StaysBelow c r := by
    rintro t ⟨n, hn, htr⟩ htrigger
    obtain ⟨hmem, hid⟩ := c.node?_eq_some.mp hn
    have hcheck := List.all_eq_true.mp (List.all_eq_true.mp h n hmem) t.transition htr
    simp only [htrigger, ne_eq, not_true_eq_false, decide_false, Bool.false_or, hid,
      Bool.and_eq_true, Bool.or_eq_true, Option.isNone_iff_eq_none, decide_eq_true_eq,
      Bool.not_eq_true'] at hcheck
    obtain ⟨hwithin, hact | ⟨htarget, hsource⟩⟩ := hcheck
    · exact ⟨hwithin, Or.inl hact⟩
    · obtain ⟨g, hg, hgr⟩ := (Option.any_eq_true _ _).mp htarget
      exact ⟨hwithin, Or.inr ⟨g, hg, hgr, hsource.imp_right fun hs => ⟨hs.1, by simp [hs.2]⟩⟩⟩
  exact ⟨fun t ht h => (hall t ht h).1.1, fun t ht h => (hall t ht h).2, fun t ht h g hg =>
    absurd ((hall t ht h).1.2.symm.trans hg) (by simp)⟩

inductive TankState | tank | light | day | night | feeder | working | slow | fast | last | broken
deriving DecidableEq

/-- An aquarium in which it gets dark while the feeder breaks. -/
def tankTree : StateTree (.bare TankState) :=
  .bare .tank .parallel []
    [.bare .light (.compound .day) []
      [.bare .day .atomic [.bare "dusk" .night], .bare .night .atomic],
    .bare .feeder (.compound .working) []
      [.bare .working (.compound .slow) [.bare "break" .broken]
        [.bare .slow .atomic [.bare "speed" .fast], .bare .fast .atomic,
        .bare .last (.history .shallow)],
      .bare .broken .atomic [.bare "repair" .last]]]

def tank : Chart (.bare TankState) :=
  { tankTree.outline with tree := tankTree, outline_eq := rfl, flawless := by cbv }

/-- An aquarium with the feeder at full speed. -/
def busyTank : Machine (.bare TankState) := (tank.machine.trace [.start, .send "speed"]).2

open Machine in
/-- Whether it gets dark first or the feeder breaks first, the aquarium is dark in the end, and the
feeder remembers how fast it was. -/
theorem tank_breaks_at_dusk : ∃ steps m₁ m₂, Run tank steps busyTank ∧
    busyTank.processBoth (.event "break") (.event "dusk") = .ok m₁ ∧
    busyTank.processBoth (.event "dusk") (.event "break") = .ok m₂ ∧ SameState m₁ m₂ ∧
    m₁.configuration.elems = [.tank, .light, .feeder, .broken, .night] ∧
    m₁.history.get? .last = some [.fast] := by
  have hfirst : (busyTank.processBoth (.event "break") (.event "dusk")).toOption.map
      (fun m => (m.configuration.elems, m.history.get? .last)) =
        some ([.tank, .light, .feeder, .broken, .night], some [.fast]) := by cbv
  have hsecond : (busyTank.processBoth (.event "dusk") (.event "break")).toOption.isSome = true := by
    cbv
  obtain ⟨m₁, hm₁, hresult⟩ := Option.map_eq_some_iff.mp hfirst
  obtain ⟨m₂, hm₂⟩ := Option.isSome_iff_exists.mp hsecond
  have hok₁ := toOption_eq_some hm₁
  have hok₂ := toOption_eq_some hm₂
  have hrun := tank.run_trace [.start, .send "speed"]
  have hfeeder : tank.Confined .feeder "break" := confined_of_confines (by decide)
  have hlight : tank.Confined .light "dusk" := confined_of_confines (by decide)
  obtain ⟨hnone, -⟩ | ⟨n₁, n₂, hn₁, hn₂, hsame⟩ := regions_commute (m := busyTank) (q := .tank) hrun
    (by decide) (by decide) (by decide) (by decide) (by decide)
    hfeeder hlight
    (fun _ _ he => by simp [hok₁] at he) (fun _ _ he => by simp [hok₂] at he)
  · exact absurd (hok₁.symm.trans hnone) (by simp)
  · obtain rfl := Except.ok.inj (hok₁.symm.trans hn₁)
    rw [Prod.mk.injEq] at hresult
    exact ⟨_, m₁, n₂, hrun, hok₁, hn₂, hsame, hresult⟩

end Statechart
