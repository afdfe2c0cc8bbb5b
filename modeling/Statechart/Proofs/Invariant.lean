import Statechart.Proofs.Step
import Statechart.Proofs.Trace

/-!
# The configuration stays well formed

On a chart whose root is not parallel and on which history states are only targeted
from outside the states they belong to (`HistoryFromOutside`), every configuration that
anybody gets to see is well formed, and every state is inactive when its turn comes to
be entered (`wellFormed_of_run`).

From outside, a transition cannot stay below the parent of the history state it
targets, since its source lies within its domain; every step is straight
(`straight_of_historyFromOutside`), and so a machine stays in order
(`straight_of_run`).
-/

namespace Statechart

open Chart Machine

variable {D : Domain} {c : Chart D} {steps : List (Settled D)} {step : Settled D} {m : Machine D}

/-- No transition from below a state targets a history state of that state. -/
def Chart.HistoryFromOutside (c : Chart D) : Prop :=
  ∀ n ∈ c.nodes, ∀ tr ∈ n.transitions, ∀ h ∈ tr.target, c.isHistory h → ∀ p ∈ c.parent? h,
    ¬ c.isDescendant n.id p

instance (c : Chart D) : Decidable c.HistoryFromOutside :=
  inferInstanceAs (Decidable (∀ n ∈ c.nodes, ∀ tr ∈ n.transitions, ∀ h ∈ tr.target,
    c.isHistory h → ∀ p ∈ c.parent? h, ¬ c.isDescendant n.id p))

namespace Settled

theorem straight_of_historyFromOutside (hhist : c.HistoryFromOutside) (hon : step.On c)
    (hord : Orderly c steps step.before.configuration step.before.history) : step.Straight := by
  rcases hon.cases with hi | hr
  · exact straight_of_initial hi
  · intro t ht d g p hd hg hh hp hdp
    obtain ⟨⟨n, hn, htr⟩, -⟩ := declared_of_taken hr ht
    have hsource : step.between.chart.isWithin t.source d := by
      refine (domain_spec ?_ ⟨n, by rw [hr.chart]; exact hn, htr⟩ hd).1
      rw [hr.chart, hon.chart]
      exact boundedHistory_of_sound (soundHistory_between hon hord)
    rw [hr.chart] at hsource
    rw [hon.chart] at hn hh hp hdp hsource
    obtain ⟨hmem, hid⟩ := c.node?_eq_some.mp hn
    exact hhist n hmem t.transition htr g hg hh p hp
      (hid ▸ isDescendant_of_isWithin hsource hdp)

end Settled

/-- Along every run on such a chart, each step is a straight one of a machine in order. -/
theorem straight_of_run (hroot : ¬ c.isParallel c.root) (hhist : c.HistoryFromOutside)
    (hrun : Run c steps m) : ∀ later step earlier, steps = later ++ step :: earlier → step.Live →
      step.On c ∧ Orderly c earlier step.before.configuration step.before.history ∧
        step.Straight := by
  intro later step earlier he hlive
  obtain ⟨hon, hord⟩ := orderly_of_run (Q := fun _ => True) hroot
    (fun _ _ hon hord _ => Settled.straight_of_historyFromOutside hhist hon hord) hrun later step
    earlier he hlive fun _ _ => trivial
  exact ⟨hon, hord, Settled.straight_of_historyFromOutside hhist hon hord⟩

/-- Between two steps, too, a machine on such a chart is in order as long as it lives. -/
theorem orderly_of_live (hroot : ¬ c.isParallel c.root) (hhist : c.HistoryFromOutside)
    (hrun : Run c steps m) (hm : ¬ m.Ended) : Orderly c steps m.configuration m.history :=
  ((run_invariant (fun _ _ => orderly_nil) (fun _ _ hon hord => Settled.orderly_step hroot hon hord
    (Settled.straight_of_historyFromOutside hhist hon hord)) hrun).resolve_left hm).2

/-- After every step that leaves the machine running or completed, the configuration is well
formed, and every state that was entered was inactive just before. -/
theorem wellFormed_of_run (hroot : ¬ c.isParallel c.root) (hhist : c.HistoryFromOutside)
    (hrun : Run c steps m) :
    ∀ step ∈ steps, step.Live → c.WellFormed step.after.configuration ∧ step.EntersInactive := by
  intro step hstep hlive
  obtain ⟨later, earlier, he⟩ := List.append_of_mem hstep
  obtain ⟨hon, hord, hstraight⟩ := straight_of_run hroot hhist hrun later step earlier he hlive
  exact ⟨Settled.wellFormed_after hroot hon hord hstraight,
    Settled.entersInactive_of_straight hon hord hstraight⟩

/-! ## A player -/

inductive PlayerState | player | stopped | playing | song | ad | last
deriving DecidableEq

/-- A player that goes back to the song or the advertisement it was stopped in. -/
def playerTree : StateTree (.bare PlayerState) :=
  .bare .player (.compound .stopped) []
    [.bare .stopped .atomic [.bare "play" .playing, .bare "resume" .last],
      .bare .playing (.compound .song) [.bare "stop" .stopped]
        [.bare .song .atomic [.bare "next" .ad], .bare .ad .atomic, .bare .last (.history .deep)]]

def player : Chart (.bare PlayerState) :=
  { playerTree.outline with tree := playerTree, outline_eq := rfl, flawless := by cbv }

theorem player_root : ¬ player.isParallel player.root := by decide

theorem player_historyFromOutside : player.HistoryFromOutside := by decide

theorem player_wellFormed : ∃ steps m, Run player steps m ∧
    (∃ step ∈ steps, step.entered = [.playing, .song]) ∧
      ∀ step ∈ steps, step.Live → player.WellFormed step.after.configuration ∧ step.EntersInactive := by
  have hrun := player.run_trace [.start, .send "play"]
  have htrace : (player.machine.trace [.start, .send "play"]).1.map (·.entered) =
      [[.playing, .song], [.player, .stopped]] := by cbv
  refine ⟨_, _, hrun, ?_, wellFormed_of_run player_root player_historyFromOutside hrun⟩
  exact List.mem_map.mp (htrace ▸ List.mem_cons_self ..)

end Statechart
