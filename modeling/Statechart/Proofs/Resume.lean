import Statechart.Proofs.Invariant

/-!
# History is resumed

Taking a transition to a history state makes active again what the history state
remembers. `Resumed` says what that is, from the configuration in which the state it
belongs to was left for the last time, be it in the same step: everything that was
active below, if the history is deep, and the children that were active, each by
default, if it is shallow. If the state was never left, what counts is the fallback,
and that may be a history state with a story of its own.

`resumed_of_run` holds along every run on a chart whose root is not parallel and on
which history states are only targeted from outside. The records are of the latest
exits, the goals of the transition are what was recorded, and what entering them brings
along below the state is what was recorded from.
-/

namespace Statechart

open Chart Machine

variable {D : Domain} {c : Chart D} {steps earlier : List (Settled D)} {step e : Settled D}
  {m : Machine D} {t : Selected D} {s x p d g r : D.State} {n : Node D}
  {active : StateSet D.State} {goal : D.State → Prop} {h : History D.State}

/-- Whether a state is active by default: with what it comes with, and nothing else within it. -/
def Chart.ByDefault (c : Chart D) (active : StateSet D.State) (s : D.State) : Prop :=
  ∀ x, c.isWithin x s → (x ∈ active ↔ c.ComesWith s x)

/-- What is active is what a history state stands for. -/
inductive Resumed (c : Chart D) (steps : List (Settled D)) (active : StateSet D.State) :
    D.State → Prop
  /-- All that was active below the parent when it was left last. -/
  | deep {s p : D.State} {e : Settled D} :
      c.kind? s = some (.history .deep) → c.parent? s = some p → lastExit p steps = some e →
      (∀ x, c.isDescendant x p → (x ∈ active ↔ x ∈ e.before.configuration)) →
        Resumed c steps active s
  /-- The children that were active when the parent was left last, by default. -/
  | shallow {s p : D.State} {e : Settled D} :
      c.kind? s = some (.history .shallow) → c.parent? s = some p → lastExit p steps = some e →
      (∀ x, c.parent? x = some p → (x ∈ active ↔ x ∈ e.before.configuration)) →
      (∀ x, c.parent? x = some p → x ∈ active → c.ByDefault active x) →
        Resumed c steps active s
  /-- The fallback, if the parent was never left. -/
  | fallback {s p g : D.State} {n : Node D} :
      c.node? s = some n → n.kind.isHistory → c.parent? s = some p → lastExit p steps = none →
      n.fallback = some g → ¬ c.isHistory g → g ∈ active → Resumed c steps active s
  /-- What the fallback stands for in its turn. -/
  | chained {s p g : D.State} {n : Node D} :
      c.node? s = some n → n.kind.isHistory → c.parent? s = some p → lastExit p steps = none →
      n.fallback = some g → c.isHistory g → Resumed c steps active g → Resumed c steps active s
  /-- Without a fallback, the initial child of the parent. -/
  | initial {s p i : D.State} {n : Node D} :
      c.node? s = some n → n.kind.isHistory → c.parent? s = some p → lastExit p steps = none →
      n.fallback = none → c.kind? p = some (.compound i) → i ∈ active → c.ByDefault active i →
        Resumed c steps active s
  /-- Without a fallback, all the regions of the parent. -/
  | regions {s p : D.State} {n : Node D} :
      c.node? s = some n → n.kind.isHistory → c.parent? s = some p → lastExit p steps = none →
      n.fallback = none → c.isParallel p → (∀ r ∈ c.substates p, r ∈ active ∧ c.ByDefault active r) →
        Resumed c steps active s

/-! ## What the goals of a history state bring along -/

namespace Chart

/-- If what is active below `p` is what comes with some of its children, these are the active
children, and they are active by default. -/
theorem byDefault_of_children (active : StateSet D.State) (hgoal : ∀ g, goal g → c.parent? g = some p)
    (hactive : ∀ x, c.isDescendant x p → (x ∈ active ↔ ∃ g, goal g ∧ c.ComesWith g x)) :
    (∀ x, c.parent? x = some p → (x ∈ active ↔ goal x)) ∧ ∀ g, goal g → c.ByDefault active g := by
  constructor
  · intro x hx
    rw [hactive x (isDescendant_parent hx)]
    constructor
    · intro h
      obtain ⟨g, hg, hgx⟩ := h
      have he := child_towards_unique (hgoal g hg) hx (isWithin_of_comesWith hgx) (isWithin_refl x)
      exact he ▸ hg
    · exact fun hx => ⟨x, hx, .self x⟩
  · intro g hg x hxg
    rw [hactive x (isDescendant_of_isWithin hxg (isDescendant_parent (hgoal g hg)))]
    constructor
    · intro h
      obtain ⟨g', hg', hx⟩ := h
      have he := child_towards_unique (hgoal g' hg') (hgoal g hg) (isWithin_of_comesWith hx) hxg
      exact he ▸ hx
    · exact fun hx => ⟨g, hg, hx⟩

end Chart

section

variable (hsound : c.SoundHistory h) (hrec : Recorded c steps h)
  (hpast : ∀ e ∈ steps, e.before.chart = c ∧
    ∀ x ∈ e.exited, x ∈ e.before.configuration ∧ c.WellFormed e.before.configuration)

include hsound hrec hpast in
/-- The goals of a history state with a record are what was recorded. -/
private theorem goal_of_record {mode : HistoryMode} (hk : c.kind? s = some (.history mode))
    (hp : c.parent? s = some p) (he : lastExit p steps = some e) :
    c.StandsFor h s x ↔ x ∈ e.before.configuration ∧ c.Recalls mode p x := by
  obtain ⟨n, hn, hkind⟩ := node_of_kind? hk
  have hkh : n.kind.isHistory := by rw [hkind]; rfl
  have hget : h.get? s = some (e.before.remember mode p) := by
    rw [hrec.latest s mode p hk hp, he]
    rfl
  have hrestored := restored_of_record hn hget
  obtain ⟨hcompat, -, -⟩ := hsound s _ p hget hp
  have hchart := (hpast e (exited_of_lastExit he).1).1
  rw [standsFor_history_iff hn hkh, hrestored, ← hchart, ← mem_remember]
  constructor
  · intro hex
    obtain ⟨y, hy, hx⟩ := hex
    rw [hchart] at hx
    rwa [(standsFor_plain_iff (hcompat.contains y hy) (hcompat.plain y hy)).mp hx]
  · intro hx
    rw [hchart]
    exact ⟨x, hx, .plain (hcompat.contains x hx) (hcompat.plain x hx)⟩

variable (hd : ∀ x, c.isDescendant x d → (x ∈ active ↔ c.Brought goal (c.Around goal d) x))

include hsound hrec hpast hd in
private theorem resumed_of_record (hgoal : ∀ x, goal x ↔ c.StandsFor h s x) (hh : c.isHistory s)
    (hp : c.parent? s = some p) (hpd : c.isWithin p d) (he : lastExit p steps = some e) :
    Resumed c steps active s := by
  obtain ⟨mode, hk⟩ := isHistory_iff.mp hh
  obtain ⟨hmem, hexit⟩ := exited_of_lastExit he
  obtain ⟨hpa, hwf⟩ := (hpast e hmem).2 p hexit
  have hgoal' : ∀ x, goal x ↔ x ∈ e.before.configuration ∧ c.Recalls mode p x :=
    fun x => (hgoal x).trans (goal_of_record hsound hrec hpast hk hp he)
  cases mode with
  | deep =>
    refine .deep hk hp he fun x hx => ?_
    rw [hd x (isDescendant_of_isDescendant_of_isWithin hx hpd)]
    exact brought_leaves hwf hgoal' hpd hx
  | shallow =>
    -- the children recorded are all the regions if the parent is parallel
    have hchild : ∀ g, goal g → c.parent? g = some p := fun g hg => ((hgoal' g).mp hg).2
    have hregions : c.isParallel p → ∀ r ∈ c.substates p, goal r := fun hpar r hr =>
      (hgoal' r).mpr ⟨hwf.parallel p hpa hpar r hr, (mem_substates.mp hr).1⟩
    obtain ⟨hactive, hdefault⟩ := byDefault_of_children active hchild fun x hx => by
      rw [hd x (isDescendant_of_isDescendant_of_isWithin hx hpd)]
      exact brought_children hchild hregions hx
    refine .shallow hk hp he (fun x hx => ?_) fun x hx hxa => hdefault x ((hactive x hx).mp hxa)
    rw [hactive x hx, hgoal']
    exact and_iff_left hx

include hd in
/-- Goals that are children of a state within the bound are active by default. -/
private theorem byDefault_of_goals (hchild : ∀ g, goal g → c.parent? g = some p)
    (hregions : c.isParallel p → ∀ r ∈ c.substates p, goal r) (hpd : c.isWithin p d) (hg : goal g) :
    g ∈ active ∧ c.ByDefault active g := by
  obtain ⟨hactive, hdefault⟩ := byDefault_of_children active hchild fun x hx => by
    rw [hd x (isDescendant_of_isDescendant_of_isWithin hx hpd)]
    exact brought_children hchild hregions hx
  exact ⟨(hactive g (hchild g hg)).mpr hg, hdefault g hg⟩

include hsound hrec hpast hd in
/-- If below a bound that the parent of a history state lies within everything is active that its
goals bring along, and nothing else, then the history state is resumed. The proof follows the
chain of fallbacks to its end. -/
theorem resumed_of_brought (hx : c.StandsFor h s x) :
    ∀ p, c.isHistory s → c.parent? s = some p → c.isWithin p d →
      (∀ x, goal x ↔ c.StandsFor h s x) → Resumed c steps active s := by
  induction hx with
  | plain _ hh => exact fun p hh' => absurd hh' hh
  | @restored s t x n hn hkh ht hx ih =>
    intro p hh hp hpd hgoal
    cases he : lastExit p steps with
    | some e => exact resumed_of_record hsound hrec hpast hd hgoal hh hp hpd he
    | none =>
      obtain ⟨mode, hk⟩ := isHistory_iff.mp hh
      have hrestored : c.restored h n = c.fallbacks n :=
        restored_of_none hn (by rw [hrec.latest s mode p hk hp, he]; rfl)
      have hgoal' : ∀ x, goal x ↔ ∃ t ∈ c.fallbacks n, c.StandsFor h t x := by
        intro x
        rw [hgoal, standsFor_history_iff hn hkh, hrestored]
      rcases fallbacks_cases hn hkh hp with ⟨g, hf, hl, hgp⟩ | ⟨i, hf, hi, hl, hsub⟩ | ⟨hf, hpar, hl⟩
      · rw [hl] at hgoal'
        by_cases hhg : c.isHistory g
        · -- the chain goes on with the same goals, from a parent that lies within this one
          obtain ⟨q, hq⟩ := parent_of_isHistory hhg
          rw [hrestored, hl, List.mem_singleton] at ht
          subst ht
          refine .chained hn hkh hp he hf hhg (ih q hhg hq
            (isWithin_trans (isWithin_parent hq hgp) hpd) fun x => ?_)
          simpa using hgoal' x
        · have hg : goal g := (hgoal' g).mpr
            ⟨g, List.mem_singleton.mpr rfl, .plain (contains_of_isDescendant hgp) hhg⟩
          have hgd := isDescendant_of_isDescendant_of_isWithin hgp hpd
          exact .fallback hn hkh hp he hf hhg ((hd g hgd).mpr (Or.inl ⟨g, hg, .self g⟩))
      · have hsub := mem_substates.mp hsub
        have hc := isCompound_iff.mpr ⟨i, hi⟩
        have hgi : ∀ x, goal x ↔ x = i := by
          intro x
          rw [hgoal', hl]
          simpa using standsFor_plain_iff (contains_of_parent hsub.1) hsub.2
        obtain ⟨hia, hdefault⟩ := byDefault_of_goals hd
          (fun g hg => (hgi g).mp hg ▸ hsub.1)
          (fun hpar => absurd hpar (not_isParallel_of_isCompound hc)) hpd ((hgi i).mpr rfl)
        exact .initial hn hkh hp he hf hi hia hdefault
      · have hgr : ∀ x, goal x ↔ x ∈ c.substates p := by
          intro x
          rw [hgoal', hl]
          constructor
          · intro hex
            obtain ⟨r, hr, hx⟩ := hex
            have hrp := mem_substates.mp hr
            rwa [(standsFor_plain_iff (contains_of_parent hrp.1) hrp.2).mp hx]
          · intro hx
            have hxp := mem_substates.mp hx
            exact ⟨x, hx, .plain (contains_of_parent hxp.1) hxp.2⟩
        refine .regions hn hkh hp he hf hpar fun r hr => ?_
        exact byDefault_of_goals hd (fun g hg => (mem_substates.mp ((hgr g).mp hg)).1)
          (fun _ r hr => (hgr r).mpr hr) hpd ((hgr r).mpr hr)

end

/-! ## Along a run -/

namespace Settled

theorem resumed_of_taken (hon : step.On c) (hr : step.Reaction)
    (hord : Orderly c steps step.before.configuration step.before.history)
    (hstraight : step.Straight) (ht : t ∈ step.taken) (hg : t.transition.target = some g)
    (hh : c.isHistory g) : Resumed c (step :: steps) step.after.configuration g := by
  obtain ⟨d, hd⟩ := exists_domain hon hord hr ht hg hh
  obtain ⟨p, hp⟩ := parent_of_isHistory hh
  have hchart : step.between.chart = c := hr.chart.trans hon.chart
  obtain ⟨hdom, hcovers⟩ := domain_between hon hord hr ht (hstraight t ht)
  have hpd : c.isWithin p d := by
    have := hcovers d g p (hdom.trans hd) hg (by rw [hchart]; exact hh) (by rw [hchart]; exact hp)
    rwa [hchart] at this
  have hsound := soundHistory_between hon hord
  obtain ⟨x, hx⟩ := (compatible_of_taken hon hord hr hstraight ht hd hg).nonempty
  refine resumed_of_brought hsound ?_ (past_of_orderly hon hord) (fun y hy => ?_) hx p hh hp hpd
    fun _ => Iff.rfl
  · rw [← hon.enters.history]
    exact recorded_step hon hord.recorded
  · rw [mem_after_below hon hord hr hstraight ht hd hy, brings_iff hon hord hr hstraight ht hd hg]

end Settled

/-- Along a run on a chart whose root is not parallel and on which history states are only targeted
from outside, every transition taken to a history state resumes it. -/
theorem resumed_of_run (hroot : ¬ c.isParallel c.root) (hhist : c.HistoryFromOutside)
    (hrun : Run c steps m) : ∀ later step earlier, steps = later ++ step :: earlier → step.Live →
      ∀ t ∈ step.taken, ∀ s, t.transition.target = some s → c.isHistory s →
        Resumed c (step :: earlier) step.after.configuration s := by
  intro later step earlier he hlive t ht s hs hh
  obtain ⟨hon, hord, hstraight⟩ := straight_of_run hroot hhist hrun later step earlier he hlive
  rcases hon.cases with hi | hr
  · rw [hi.taken] at ht
    exact absurd ht List.not_mem_nil
  · exact Settled.resumed_of_taken hon hr hord hstraight ht hs hh

/-- Stopped in the advertisement, the player resumes it. -/
theorem player_resumes : ∃ step earlier m, Run player (step :: earlier) m ∧
    (∃ t ∈ step.taken, t.transition.target = some .last) ∧
      step.after.configuration.elems = [.player, .playing, .ad] ∧
        Resumed player (step :: earlier) step.after.configuration .last := by
  have hrun := player.run_trace [.start, .send "play", .send "next", .send "stop", .send "resume"]
  have htrace : (player.machine.trace
      [.start, .send "play", .send "next", .send "stop", .send "resume"]).1.head?.map (fun step =>
        (step.after.status, step.taken.map (·.transition.target), step.after.configuration.elems)) =
      some (.running, [some .last], [.player, .playing, .ad]) := by cbv
  obtain ⟨step, hstep, he⟩ := Option.map_eq_some_iff.mp htrace
  obtain ⟨earlier, hsteps⟩ := List.head?_eq_some_iff.mp hstep
  rw [Prod.mk.injEq, Prod.mk.injEq] at he
  obtain ⟨t, ht, htarget⟩ := List.mem_map.mp (he.2.1 ▸ List.mem_cons_self ..)
  rw [hsteps] at hrun
  exact ⟨step, earlier, _, hrun, ⟨t, ht, htarget⟩, he.2.2,
    resumed_of_run player_root player_historyFromOutside hrun [] step earlier rfl (Or.inl he.1) t ht
      .last htarget (by decide)⟩

end Statechart
