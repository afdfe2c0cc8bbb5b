import Statechart.Proofs.Chart.Orders
import Statechart.Proofs.Clean
import Statechart.Proofs.Entry.Local
import Statechart.Proofs.Isolation

/-!
# Machines in step

Two machines on one chart are in step below `r` if the same states below `r` are active in both and
the history states below `r` remember the same (`InStep`). An event all of whose transitions stay
below `r` and whose guards do not look at the context (`Confined`) makes no difference between them:
every phase of processing it, from the selection of transitions to the states entered, comes to the
same in both and leaves them in step (`process_alike`).

Their contexts and hosts may differ, so that an action may panic in one of them only. Attempts are
compared up to that (`Attempt.Alike`).
-/

namespace Statechart

open Chart

variable {D : Domain}

/-- Whether two attempts come to the same, unless one of them hits a defect: they have results that
`R` relates, or have both no end. -/
inductive Attempt.Alike {α β : Type} (R : α → β → Prop) : Attempt D α → Attempt D β → Prop
  | ok {a : α} {b : β} : R a b → Alike R (.ok a) (.ok b)
  | endless : Alike R (.error .endless) (.error .endless)
  | left {m : Machine D} {d : Defect D.State} {y : Attempt D β} :
      Alike R (.error (.defect m d)) y
  | right {m : Machine D} {d : Defect D.State} {x : Attempt D α} :
      Alike R x (.error (.defect m d))

namespace Attempt

variable {α β γ δ : Type} {R : α → β → Prop} {S : γ → δ → Prop} {x : Attempt D α} {y : Attempt D β}

theorem alike_bind {f : α → Attempt D γ} {g : β → Attempt D δ} (h : Alike R x y)
    (hfg : ∀ a b, R a b → Alike S (f a) (g b)) : Alike S (x >>= f) (y >>= g) := by
  cases h with
  | ok hab => exact hfg _ _ hab
  | endless => exact .endless
  | left => exact .left
  | right => exact .right

theorem alike_foldlM {f : β → α → Attempt D β} {g : δ → α → Attempt D δ} {R : β → δ → Prop} :
    ∀ {l : List α} {b : β} {d : δ}, R b d →
      (∀ a ∈ l, ∀ b d, R b d → Alike R (f b a) (g d a)) → Alike R (l.foldlM f b) (l.foldlM g d)
  | [], _, _, hbd, _ => .ok hbd
  | a :: l, _, _, hbd, hfg => by
    rw [List.foldlM_cons, List.foldlM_cons]
    exact alike_bind (hfg a (List.mem_cons_self ..) _ _ hbd) fun _ _ h =>
      alike_foldlM h fun x hx => hfg x (List.mem_cons_of_mem _ hx)

/-- Attempts that come to an end are alike as soon as their results are. -/
theorem alike_of_ends {good : α → Prop} {good' : β → Prop}
    {bad bad' : Machine D → Defect D.State → Prop} (hx : x.Ends good bad False)
    (hy : y.Ends good' bad' False) (h : ∀ a b, x = .ok a → y = .ok b → R a b) : Alike R x y := by
  cases hx' : x with
  | ok a =>
    cases hy' : y with
    | ok b => exact .ok (h a b hx' hy')
    | error halt =>
      cases halt with
      | defect => exact .right
      | endless => exact (hy.endless hy').elim
  | error halt =>
    cases halt with
    | defect => exact .left
    | endless => exact (hx.endless hx').elim

/-- What is known of the first of two attempts may be used. -/
theorem alike_self (h : Alike R x y) : Alike (fun a b => R a b ∧ x = .ok a) x y := by
  cases h with
  | ok hab => exact .ok ⟨hab, rfl⟩
  | endless => exact .endless
  | left => exact .left
  | right => exact .right

theorem alike_orEndless (o : Option α) : Alike (D := D) (fun a b => a = b ∧ o = some a)
    (Machine.orEndless o) (Machine.orEndless o) := by
  cases o with
  | some a => exact .ok ⟨rfl, rfl⟩
  | none => exact .endless

/-- Turns of a loop in which nothing happens can be left out. -/
theorem foldlM_filter {f : β → α → Attempt D β} {p : α → Bool} : ∀ {l : List α} {b : β},
    (∀ a ∈ l, p a = false → ∀ b, f b a = .ok b) → l.foldlM f b = (l.filter p).foldlM f b
  | [], _, _ => rfl
  | a :: l, b, h => by
    have hl : ∀ b, l.foldlM f b = (l.filter p).foldlM f b := fun b =>
      foldlM_filter fun x hx => h x (List.mem_cons_of_mem _ hx)
    cases hp : p a with
    | true =>
      rw [List.filter_cons_of_pos hp, List.foldlM_cons, List.foldlM_cons]
      exact bind_congr fun b' => hl b'
    | false =>
      rw [List.filter_cons_of_neg (by simp [hp]), List.foldlM_cons,
        h a (List.mem_cons_self ..) hp b, ← hl b]
      rfl

end Attempt

open Attempt

/-- An event is confined to the states below `r` if every transition that waits for it is declared
within `r` and stays below it, and has no guard that looks at the context. -/
structure Chart.Confined (c : Chart D) (r : D.State) (e : D.Event) : Prop where
  within : ∀ t, Machine.Declared c t → t.transition.trigger = .event (D.eventName e) →
    c.isWithin t.source r
  stays : ∀ t, Machine.Declared c t → t.transition.trigger = .event (D.eventName e) →
    t.StaysBelow c r
  guard : ∀ t, Machine.Declared c t → t.transition.trigger = .event (D.eventName e) →
    ∀ g, t.transition.guard = some g →
      ∀ context context', g.holds context (.event e) = g.holds context' (.event e)

theorem accepts_event_iff {trigger : Trigger} {e : D.Event} :
    trigger.accepts (.event e) ↔ trigger = .event (D.eventName e) := by
  cases trigger <;> simp [Trigger.accepts]

namespace Machine

/-- Two machines on one chart, of which one is below `r` as the other. -/
structure InStep (c : Chart D) (r : D.State) (m m' : Machine D) : Prop where
  clean : Clean c m
  clean' : Clean c m'
  active : ∀ x, c.isDescendant x r → (x ∈ m'.configuration ↔ x ∈ m.configuration)
  recorded : ∀ s, c.isDescendant s r → m'.history.get? s = m.history.get? s

variable {c : Chart D} {m m' : Machine D} {r q x : D.State} {e : D.Event} {t u : Selected D}
  {taken selected : List (Selected D)} {states : List D.State} {signal : Signal D}

/-! ## Active states -/

theorem perm_filter (h : InStep c r m m') {P : D.State → Bool}
    (hP : ∀ x, P x → c.isDescendant x r) :
    (m'.configuration.elems.filter P).Perm (m.configuration.elems.filter P) := by
  refine (List.perm_ext_iff_of_nodup (m'.configuration.nodup.filter _)
    (m.configuration.nodup.filter _)).mpr fun x => ?_
  rw [List.mem_filter, List.mem_filter, ← StateSet.mem_def, ← StateSet.mem_def]
  exact and_congr_left fun hx => h.active x (hP x hx)

theorem filter_active (h : InStep c r m m') {P : D.State → Bool}
    (hP : ∀ x, P x → c.isDescendant x r) : m'.active.filter P = m.active.filter P := by
  unfold active
  rw [h.clean.chart, h.clean'.chart]
  unfold Outline.inDocumentOrder
  rw [filter_sort isOrder_documentLe h.clean.contains, filter_sort isOrder_documentLe h.clean'.contains]
  exact sort_congr isOrder_documentLe (fun x hx => h.clean'.contains x (List.mem_filter.mp hx).1)
    (perm_filter h hP)

theorem remember_eq (h : InStep c r m m') (mode : HistoryMode) (hq : c.isWithin q r) :
    m'.remember mode q = m.remember mode q := by
  unfold remember
  rw [h.clean.chart, h.clean'.chart]
  refine filter_active h fun x hx => isDescendant_of_isDescendant_of_isWithin ?_ hq
  cases mode with
  | shallow => exact isDescendant_parent (of_decide_eq_true hx)
  | deep => exact (Bool.and_eq_true_iff.mp hx).2

/-! ## Selection -/

theorem firstEnabled_none : ∀ {l : List (Selected D)},
    (∀ t ∈ l, ¬ t.transition.trigger.accepts signal) → m.firstEnabled signal l = .ok none
  | [], _ => rfl
  | t :: l, h => by
    rw [firstEnabled, if_neg (h t (List.mem_cons_self ..))]
    exact firstEnabled_none fun u hu => h u (List.mem_cons_of_mem _ hu)

/-- An event that is confined to `r` sets off nothing elsewhere. -/
theorem firstEnabledOf_none (hm : Clean c m) (he : c.Confined r e) :
    ∀ {states : List D.State}, (∀ s ∈ states, c.contains s ∧ ¬ c.isWithin s r) →
      m.firstEnabledOf (.event e) states = .ok none
  | [], _ => rfl
  | s :: states, h => by
    obtain ⟨hs, hsr⟩ := h s (List.mem_cons_self ..)
    obtain ⟨n, hn⟩ := contains_iff.mp hs
    have hnone : m.firstEnabled (.event e) (Selected.listOf s n.immediate) = .ok none := by
      refine firstEnabled_none fun t ht haccepts => hsr ?_
      rw [← (mem_listOf ht).1]
      exact he.within t (declared_of_mem_listOf hn ht) (accepts_event_iff.mp haccepts)
    unfold firstEnabledOf
    rw [lookup, hm.chart, hn]
    change (m.firstEnabled (.event e) (Selected.listOf s n.immediate) >>= _) = _
    rw [hnone]
    exact firstEnabledOf_none hm he fun s hs => h s (List.mem_cons_of_mem _ hs)

theorem guardHolds_alike (hguard : ∀ g, t.transition.guard = some g →
    g.holds m.context signal = g.holds m'.context signal) :
    Alike Eq (m.guardHolds signal t) (m'.guardHolds signal t) := by
  unfold guardHolds
  cases hg : t.transition.guard with
  | none => exact .ok rfl
  | some g =>
    dsimp only
    rw [hguard g hg]
    cases g.holds m'.context signal with
    | ok holds => exact .ok rfl
    | error => exact .left

theorem firstEnabled_alike : ∀ {l : List (Selected D)},
    (∀ t ∈ l, t.transition.trigger.accepts signal → ∀ g, t.transition.guard = some g →
      g.holds m.context signal = g.holds m'.context signal) →
    Alike Eq (m.firstEnabled signal l) (m'.firstEnabled signal l)
  | [], _ => .ok rfl
  | t :: l, h => by
    have hl : Alike Eq (m.firstEnabled signal l) (m'.firstEnabled signal l) :=
      firstEnabled_alike fun u hu => h u (List.mem_cons_of_mem _ hu)
    unfold firstEnabled
    split
    · next haccepts =>
      refine alike_bind (guardHolds_alike (h t (List.mem_cons_self ..) haccepts)) ?_
      rintro holds _ rfl
      split
      · exact .ok rfl
      · exact hl
    · exact hl

theorem lookup_alike (h : InStep c r m m') (s : D.State) :
    Alike (fun n n' => n = n' ∧ c.node? s = some n) (m.lookup s) (m'.lookup s) := by
  unfold lookup
  rw [h.clean.chart, h.clean'.chart]
  cases hn : c.node? s with
  | some n => exact .ok ⟨rfl, rfl⟩
  | none => exact .left

theorem firstEnabledOf_alike (h : InStep c r m m') (he : c.Confined r e) :
    ∀ states : List D.State, Alike Eq (m.firstEnabledOf (.event e) states)
      (m'.firstEnabledOf (.event e) states)
  | [] => .ok rfl
  | s :: states => by
    unfold firstEnabledOf
    refine alike_bind (lookup_alike h s) ?_
    rintro n _ ⟨rfl, hn⟩
    refine alike_bind (firstEnabled_alike fun t ht haccepts g hg => ?_) ?_
    · exact he.guard t (declared_of_mem_listOf hn ht) (accepts_event_iff.mp haccepts) g hg _ _
    · rintro found _ rfl
      cases found with
      | some t => exact .ok rfl
      | none => exact firstEnabledOf_alike h he states

/-- Only leaves below `r` matter to an event that is confined to `r`. -/
theorem selectAbove_filter (hm : Clean c m) (he : c.Confined r e)
    (hstates : ∀ s ∈ states, c.contains s ∧ s ≠ r) :
    m.selectAbove (.event e) states =
      m.selectAbove (.event e) (states.filter (c.isDescendant · r)) := by
  refine foldlM_filter fun s hs hsr acc => ?_
  obtain ⟨hcontains, hne⟩ := hstates s hs
  have hout : ¬ c.isWithin s r := fun hw => by
    simp [isDescendant_of_isWithin_of_ne hw hne] at hsr
  have hnone : m.firstEnabledOf (.event e) (s :: m.chart.ancestors s) = .ok none := by
    refine firstEnabledOf_none hm he fun a ha => ?_
    rw [hm.chart] at ha
    rcases List.mem_cons.mp ha with rfl | ha
    · exact ⟨hcontains, hout⟩
    · have hsa := isDescendant_iff.mpr ha
      exact ⟨contains_of_mem_ancestors ha, fun har =>
        hout (isWithin_of_isDescendant (isDescendant_of_isDescendant_of_isWithin hsa har))⟩
  rw [hnone]
  rfl

theorem select_alike (h : InStep c r m m') (hr : c.isCompound r) (he : c.Confined r e) :
    Alike Eq (m.select (.event e)) (m'.select (.event e)) := by
  have hleaves : ∀ {m : Machine D}, Clean c m →
      ∀ s ∈ m.active.filter m.chart.isAtomic, c.contains s ∧ s ≠ r := by
    intro m hm s hs
    obtain ⟨hactive, hatomic⟩ := List.mem_filter.mp hs
    refine ⟨hm.contains s ((Outline.mem_inDocumentOrder ..).mp hactive), ?_⟩
    rintro rfl
    obtain ⟨i, hk⟩ := isCompound_iff.mp hr
    rw [hm.chart] at hatomic
    exact absurd ((hasKind_of_kind? hk).symm.trans hatomic) (by simp [NodeKind.isAtomic])
  unfold select
  dsimp only
  rw [selectAbove_filter h.clean he (hleaves h.clean),
    selectAbove_filter h.clean' he (hleaves h.clean'), List.filter_filter, List.filter_filter,
    h.clean.chart, h.clean'.chart, filter_active h fun x hx => (Bool.and_eq_true_iff.mp hx).1]
  unfold selectAbove
  rw [h.clean.chart, h.clean'.chart]
  refine alike_foldlM rfl ?_
  rintro s - acc _ rfl
  refine alike_bind (firstEnabledOf_alike h he _) ?_
  rintro found _ rfl
  cases found with
  | some t => exact .ok rfl
  | none => exact .ok rfl

/-- What such an event sets off stays below `r`. -/
theorem stays_of_mem_select (hm : Clean c m) (he : c.Confined r e)
    (h : m.select (.event e) = .ok selected) (ht : t ∈ selected) :
    Declared c t ∧ t.StaysBelow c r := by
  obtain ⟨hdecl, -⟩ := mem_select h ht
  rw [hm.chart] at hdecl
  unfold select at h
  obtain ⟨s, -, hfound⟩ := mem_selectAbove h ht
  exact ⟨hdecl, he.stays t hdecl (accepts_event_iff.mp (accepts_of_firstEnabledOf hfound))⟩

/-! ## Leaving -/

theorem mem_leaving_iff_exitSet : x ∈ m.leaving taken ↔ ∃ t ∈ taken, x ∈ m.exitSet t := by
  rw [mem_leaving, ← exists_and_left]
  refine exists_congr fun t => ?_
  rw [mem_exitSet]
  tauto

theorem targets_eq_of_inStep (h : InStep c r m m') {g : D.State} (hg : t.transition.target = some g)
    (hgr : c.isDescendant g r) : m'.targets t = m.targets t := by
  obtain ⟨n, hn⟩ := contains_iff.mp (contains_of_isDescendant hgr)
  simp only [targets, hg, h.clean.chart, h.clean'.chart, hn, restored_congr hn (h.recorded g hgr)]

theorem domain?_eq_of_inStep (h : InStep c r m m') (hstay : t.StaysBelow c r) :
    m'.domain? t = m.domain? t := by
  rcases hstay with hact | ⟨g, hg, hgr, -⟩
  · rw [domain?_eq, domain?_eq, if_pos (by simp [hact]), if_pos (by simp [hact])]
  · exact domain?_congr (h.clean'.chart.trans h.clean.chart.symm) (targets_eq_of_inStep h hg hgr)

section

variable (h : InStep c r m m') (hr : c.isCompound r)

include h hr

theorem mem_exitSet_iff (hdecl : Declared c t) (hstay : t.StaysBelow c r) :
    x ∈ m'.exitSet t ↔ x ∈ m.exitSet t := by
  rw [mem_exitSet, mem_exitSet, domain?_eq_of_inStep h hstay, h.clean.chart, h.clean'.chart]
  refine exists_congr fun d => and_congr_right fun hd => and_congr_left fun hxd => h.active x ?_
  obtain rfl := h.clean.chart
  exact isDescendant_of_isDescendant_of_isWithin hxd
    (isWithin_domain h.clean.history hr hdecl hstay hd)

theorem conflicts_eq (ht : Declared c t ∧ t.StaysBelow c r) (hu : Declared c u ∧ u.StaysBelow c r) :
    m'.conflicts t u = m.conflicts t u := by
  rw [Bool.eq_iff_iff, conflicts_iff, conflicts_iff]
  exact exists_congr fun x => and_congr (mem_exitSet_iff h hr ht.1 ht.2)
    (mem_exitSet_iff h hr hu.1 hu.2)

theorem withoutConflicts_eq (hselected : ∀ t ∈ selected, Declared c t ∧ t.StaysBelow c r) :
    m'.withoutConflicts selected = m.withoutConflicts selected := by
  -- what is kept so far is among what was selected
  have hfold : ∀ {l kept : List (Selected D)}, (∀ t ∈ l, Declared c t ∧ t.StaysBelow c r) →
      (∀ t ∈ kept, Declared c t ∧ t.StaysBelow c r) →
      l.foldl m'.keepOrDrop kept = l.foldl m.keepOrDrop kept := by
    intro l
    induction l with
    | nil => exact fun _ _ => rfl
    | cons t l ih =>
      intro kept hl hkept
      have ht := hl t (List.mem_cons_self ..)
      have hsame : m'.keepOrDrop kept t = m.keepOrDrop kept t := by
        have hrivals : kept.filter (m'.conflicts t) = kept.filter (m.conflicts t) :=
          List.filter_congr fun u hu => conflicts_eq h hr ht (hkept u hu)
        have hothers : kept.filter (!m'.conflicts t ·) = kept.filter (!m.conflicts t ·) :=
          List.filter_congr fun u hu => by rw [conflicts_eq h hr ht (hkept u hu)]
        unfold keepOrDrop
        rw [hrivals, hothers, h.clean.chart, h.clean'.chart]
      rw [List.foldl_cons, List.foldl_cons, hsame]
      refine ih (fun u hu => hl u (List.mem_cons_of_mem _ hu)) fun u hu => ?_
      rcases keepOrDrop_cases (m := m) kept t with he | he
      · rw [he, List.mem_append, List.mem_singleton] at hu
        rcases hu with hu | rfl
        · exact hkept u (List.mem_filter.mp hu).1
        · exact ht
      · exact hkept u (he ▸ hu)
  exact hfold hselected fun t ht => absurd ht List.not_mem_nil

theorem leaving_eq (htaken : ∀ t ∈ taken, Declared c t ∧ t.StaysBelow c r) :
    m'.leaving taken = m.leaving taken := by
  have hperm : (m'.configuration.elems.filter (· ∈ taken.flatMap m'.exitSet)).Perm
      (m.configuration.elems.filter (· ∈ taken.flatMap m.exitSet)) := by
    refine (List.perm_ext_iff_of_nodup (m'.configuration.nodup.filter _)
      (m.configuration.nodup.filter _)).mpr fun x => ?_
    have hiff : x ∈ m'.leaving taken ↔ x ∈ m.leaving taken := by
      rw [mem_leaving_iff_exitSet, mem_leaving_iff_exitSet]
      exact exists_congr fun t => and_congr_right fun ht =>
        mem_exitSet_iff h hr (htaken t ht).1 (htaken t ht).2
    unfold leaving at hiff
    rwa [Outline.mem_inExitOrder, Outline.mem_inExitOrder] at hiff
  unfold leaving
  rw [h.clean.chart, h.clean'.chart]
  exact sort_congr isOrder_exitLe (fun x hx => h.clean'.contains x (List.mem_filter.mp hx).1) hperm

end

/-! ## Phases -/

/-- History that is recorded as the same states are left is the same. -/
theorem inStep_recordHistories (h : InStep c r m m') (exited : List D.State) :
    InStep c r (m.recordHistories exited) (m'.recordHistories exited) := by
  refine ⟨clean_of_alter h.clean .remember, clean_of_alter h.clean' .remember, h.active,
    fun s hs => ?_⟩
  by_cases hh : c.isHistory s
  · obtain ⟨mode, hk⟩ := isHistory_iff.mp hh
    obtain ⟨p, hp⟩ := parent_of_isHistory hh
    rw [get?_recordHistories (h.clean'.chart ▸ hk) (h.clean'.chart ▸ hp),
      get?_recordHistories (h.clean.chart ▸ hk) (h.clean.chart ▸ hp),
      remember_eq h mode (isWithin_parent hp hs), h.recorded s hs]
  · rw [get?_recordHistories_of_not_isHistory (h.clean'.chart ▸ hh),
      get?_recordHistories_of_not_isHistory (h.clean.chart ▸ hh), h.recorded s hs]

/-- Work that leaves history alone, and alters both machines alike below `r`, keeps them in step. -/
private theorem alike_of_alters {x x' : Attempt D (Machine D)} (h : InStep c r m m')
    (hx : x.Alters (fun s => ¬ c.isHistory s) m id) (hx' : x'.Alters (fun s => ¬ c.isHistory s) m' id)
    (hsame : ∀ left left', x = .ok left → x' = .ok left' → left.history = m.history ∧
      left'.history = m'.history ∧
        ∀ s, c.isDescendant s r → (s ∈ left'.configuration ↔ s ∈ left.configuration)) :
    Alike (InStep c r) x x' := by
  refine alike_of_ends hx hx' fun left left' hleft hleft' => ?_
  obtain ⟨hhistory, hhistory', hactive⟩ := hsame left left' hleft hleft'
  refine ⟨clean_of_alters h.clean (hx.ok hleft), clean_of_alters h.clean' (hx'.ok hleft'), hactive,
    fun s hs => ?_⟩
  rw [hhistory, hhistory', h.recorded s hs]

theorem exitStates_alike (h : InStep c r m m') (exited : List D.State) :
    Alike (InStep c r) (m.exitStates signal exited) (m'.exitStates signal exited) := by
  refine alike_of_alters h (exitStates_alters .refl) (exitStates_alters .refl)
    fun left left' hleft hleft' => ?_
  obtain ⟨hk, hconf⟩ := exitStates_keeps hleft
  obtain ⟨hk', hconf'⟩ := exitStates_keeps hleft'
  exact ⟨hk.history, hk'.history, fun s hs => by rw [hconf, hconf', h.active s hs]⟩

theorem runTransitions_alike (h : InStep c r m m') (taken : List (Selected D)) :
    Alike (InStep c r) (m.runTransitions signal taken) (m'.runTransitions signal taken) := by
  refine alike_of_alters h (runTransitions_alters .refl) (runTransitions_alters .refl)
    fun left left' hleft hleft' => ?_
  obtain ⟨hk, hconf⟩ := runTransitions_keeps hleft
  obtain ⟨hk', hconf'⟩ := runTransitions_keeps hleft'
  exact ⟨hk.history, hk'.history, fun s hs => by rw [hconf, hconf', h.active s hs]⟩

section

variable (h : InStep c r m m') (hr : c.isCompound r)
  (htaken : ∀ t ∈ taken, Declared c t ∧ t.StaysBelow c r)

include h hr htaken

/-- The same states are entered, or there is no end to it. -/
theorem entering_eq : m'.entering taken = m.entering taken := by
  have hadd : ∀ t ∈ taken, ∀ set, m'.addEntries set t = m.addEntries set t := by
    intro t ht set
    obtain ⟨hdecl, hstay⟩ := htaken t ht
    have hdomain := domain?_eq_of_inStep h hstay
    cases hd : m.domain? t with
    | none => rw [addEntries_of_none hd, addEntries_of_none (hdomain.trans hd)]
    | some d =>
      have hdr := isWithin_domain (h.clean.chart.symm ▸ h.clean.history) (h.clean.chart.symm ▸ hr)
        (h.clean.chart.symm ▸ hdecl) (h.clean.chart.symm ▸ hstay) hd
      obtain ⟨-, -, hbelow⟩ := domain_spec (h.clean.chart.symm ▸ h.clean.history)
        (h.clean.chart.symm ▸ hdecl) hd
      rw [h.clean.chart] at hdr hbelow
      rcases hstay with hact | ⟨g, hg, hgr, -⟩
      · rw [domain?_eq, if_pos (by simp [hact])] at hd
        exact absurd hd (by simp)
      · have hcongr := addDescendants_congr h.clean.history h.recorded c.entryFuel
        simp only [addEntries, hdomain, hd, hg, targets_eq_of_inStep h hg hgr, h.clean.chart,
          h.clean'.chart, Outline.enterInto, hcongr g set hgr]
        exact bind_congr fun S => foldlM_congr fun s hs S =>
          addAncestors_congr hcongr (hbelow s hs) hdr
  unfold entering
  rw [foldlM_congr hadd, h.clean.chart, h.clean'.chart]

theorem take_alike :
    Alike (fun p p' => InStep c r p.machine p'.machine) (m.take signal taken)
      (m'.take signal taken) := by
  unfold take
  dsimp only
  rw [leaving_eq h hr htaken]
  refine alike_bind (exitStates_alike (inStep_recordHistories h _) _) fun left left' hleft => ?_
  refine alike_bind (runTransitions_alike hleft taken) fun between between' hbetween => ?_
  rw [entering_eq hbetween hr htaken]
  refine alike_bind (alike_orEndless _) ?_
  rintro entered _ ⟨rfl, hentered⟩
  -- no history state is entered, so the machines stay clean
  have hplain : ∀ s ∈ entered, ¬ c.isHistory s := by
    intro s hs
    have hb := hbetween.clean.history
    rw [← hbetween.clean.chart] at hb htaken ⊢
    exact ((entering_bounds hb (fun t ht => (htaken t ht).1) hentered).1 s hs).1
  have hends : ∀ m₁ : Machine D, (m₁.settleEntry signal (m.leaving taken) entered).Ends
      (fun p => m₁.Altered (fun s => ¬ c.isHistory s) p.machine)
      (fun m₂ d => m₁.Alters (fun s => ¬ c.isHistory s) m₂ ∧ ¬ d.OfGuard) False :=
    fun _ => settleEntry_alters hplain .refl
  refine alike_of_ends (hends between) (hends between') fun p p' hp hp' => ?_
  obtain ⟨-, -, hhistory, -, hconf⟩ := settleEntry_spec hp
  obtain ⟨-, -, hhistory', -, hconf'⟩ := settleEntry_spec hp'
  refine ⟨clean_of_altered hbetween.clean ((hends between).ok hp),
    clean_of_altered hbetween.clean' ((hends between').ok hp'), fun x hx => ?_, fun s hs => ?_⟩
  · rw [hconf, hconf', hbetween.active x hx]
  · rw [hhistory, hhistory', hbetween.recorded s hs]

end

/-- An event that is confined to `r` comes to the same in two machines that are in step below `r`, and
leaves them in step. -/
theorem process_alike (h : InStep c r m m') (hr : c.isCompound r) (he : c.Confined r e) :
    Alike (fun p p' => InStep c r p.machine p'.machine) (m.process (.event e))
      (m'.process (.event e)) := by
  change Alike _ (m.react (.event e)) (m'.react (.event e))
  unfold react
  refine alike_bind (alike_self (select_alike h hr he)) ?_
  rintro selected _ ⟨rfl, hselected⟩
  have hstays : ∀ t ∈ selected, Declared c t ∧ t.StaysBelow c r :=
    fun t ht => stays_of_mem_select h.clean he hselected ht
  cases selected with
  | nil => exact .ok h
  | cons t l =>
    change Alike _ (m.take _ (m.withoutConflicts (t :: l))) (m'.take _ (m'.withoutConflicts (t :: l)))
    rw [withoutConflicts_eq h hr hstays]
    exact take_alike h hr fun u hu => hstays u (mem_withoutConflicts hu)

end Machine

end Statechart
