import Statechart.Proofs.Chart.Orders
import Statechart.Proofs.CompletionSignal
import Statechart.Proofs.Machine.Calm
import Statechart.Proofs.Machine.Lockstep

/-!
# What is taken on a signal

An event is offered to every active atomic state and, if that does not take it, to the states around
it. Which transition a state has to offer does not depend on the way to it, so that each state
offers one transition at most, and that one is selected once (`mem_selectAbove_iff`,
`nodup_selectAbove`), in the place of the first leaf that it is offered to
(`pairwise_selectAbove`). Every other signal is offered to one state (`takes_singleton`). In either case
what is taken waits for the signal (`answers_of_takes`), and a transition that conflicts with no
other is taken (`mem_withoutConflicts_of_free`).
-/

namespace Statechart

variable {D : Domain}

/-- Whether a transition waits for a signal. -/
def Selected.Answers (t : Selected D) : Signal D → Prop
  | .start | .stop => False
  | .event e => t.transition.trigger = .event (D.eventName e)
  | .timer s _ _ => t.source = s ∧ ∃ delay, t.transition.trigger = .after delay
  | .invokeDone s _ _ => t.source = s ∧ t.transition.trigger = .invokeDone
  | .invokeError s _ _ => t.source = s ∧ t.transition.trigger = .invokeError
  | .done s => t.source = s ∧ t.transition.trigger = .done

namespace Machine

open Chart

variable {c : Chart D} {m : Machine D} {signal : Signal D} {s x : D.State} {t u : Selected D}
  {l selected : List (Selected D)} {states states' leaves : List D.State} {e : D.Event}

/-! ## What a state has to offer -/

/-- What is offered on the way up is what the state that offers it offers by itself. -/
theorem firstEnabledOf_source : ∀ {states : List D.State},
    m.firstEnabledOf signal states = .ok (some t) →
      m.firstEnabledOf signal [t.source] = .ok (some t)
  | [], h => absurd h (by simp [firstEnabledOf])
  | s :: states, h => by
    unfold firstEnabledOf at h
    obtain ⟨n, hn, h⟩ := bind_eq_ok.mp h
    obtain ⟨found, hfound, h⟩ := bind_eq_ok.mp h
    split at h
    · obtain rfl := Option.some.inj (pure_eq_ok.mp h)
      obtain ⟨rfl, -⟩ := mem_listOf (mem_firstEnabled hfound)
      unfold firstEnabledOf
      exact bind_eq_ok.mpr ⟨n, hn, bind_eq_ok.mpr ⟨_, hfound, rfl⟩⟩
    · exact firstEnabledOf_source h

theorem eq_of_source (ht : m.firstEnabledOf signal states = .ok (some t))
    (hu : m.firstEnabledOf signal states' = .ok (some u)) (h : t.source = u.source) : t = u := by
  have hsame := (firstEnabledOf_source ht).symm.trans (h ▸ firstEnabledOf_source hu)
  exact Option.some.inj (Except.ok.inj hsame)

/-- What is offered may be taken. -/
theorem holds_of_firstEnabled : ∀ {ts : List (Selected D)},
    m.firstEnabled signal ts = .ok (some t) → m.guardHolds signal t = .ok true
  | [], h => absurd h (by simp [firstEnabled])
  | u :: ts, h => by
    unfold firstEnabled at h
    split at h
    · obtain ⟨holds, hholds, h⟩ := bind_eq_ok.mp h
      split at h
      · next htrue => exact Option.some.inj (pure_eq_ok.mp h) ▸ htrue ▸ hholds
      · exact holds_of_firstEnabled h
    · exact holds_of_firstEnabled h

theorem holds_of_firstEnabledOf : ∀ {states : List D.State},
    m.firstEnabledOf signal states = .ok (some t) → m.guardHolds signal t = .ok true
  | [], h => absurd h (by simp [firstEnabledOf])
  | s :: states, h => by
    unfold firstEnabledOf at h
    obtain ⟨n, -, h⟩ := bind_eq_ok.mp h
    obtain ⟨found, hfound, h⟩ := bind_eq_ok.mp h
    split at h
    · exact Option.some.inj (pure_eq_ok.mp h) ▸ holds_of_firstEnabled hfound
    · exact holds_of_firstEnabledOf h

/-- Where nothing is offered, nothing that waits for the signal may be taken. -/
theorem not_holds_of_firstEnabled : ∀ {ts : List (Selected D)},
    m.firstEnabled signal ts = .ok none → t ∈ ts → t.transition.trigger.accepts signal →
      m.guardHolds signal t = .ok false
  | [], _, ht, _ => absurd ht List.not_mem_nil
  | u :: ts, h, ht, haccepts => by
    unfold firstEnabled at h
    rcases List.mem_cons.mp ht with rfl | ht
    · rw [if_pos haccepts] at h
      obtain ⟨holds, hholds, h⟩ := bind_eq_ok.mp h
      split at h
      · exact absurd (pure_eq_ok.mp h) (by simp)
      · next hfalse => exact (Bool.not_eq_true _).mp hfalse ▸ hholds
    · split at h
      · obtain ⟨holds, -, h⟩ := bind_eq_ok.mp h
        split at h
        · exact absurd (pure_eq_ok.mp h) (by simp)
        · exact not_holds_of_firstEnabled h ht haccepts
      · exact not_holds_of_firstEnabled h ht haccepts

theorem not_holds_of_firstEnabledOf (hdecl : Declared m.chart t)
    (haccepts : t.transition.trigger.accepts signal) : ∀ {states : List D.State},
      m.firstEnabledOf signal states = .ok none → t.source ∈ states →
        m.guardHolds signal t = .ok false
  | [], _, ht => absurd ht List.not_mem_nil
  | s :: states, h, ht => by
    unfold firstEnabledOf at h
    obtain ⟨n, hn, h⟩ := bind_eq_ok.mp h
    obtain ⟨found, hfound, h⟩ := bind_eq_ok.mp h
    split at h
    · exact absurd (pure_eq_ok.mp h) (by simp)
    · rcases List.mem_cons.mp ht with rfl | ht
      · obtain ⟨n', hn', htr⟩ := hdecl
        obtain rfl := Option.some.inj ((lookup_eq_ok hn).symm.trans hn')
        have himmediate : t.transition ∈ n.immediate := by
          refine List.mem_filter.mpr ⟨htr, ?_⟩
          unfold Transition.delay? Trigger.delay?
          split
          · next hdelay =>
            exact absurd haccepts (by rw [hdelay]; cases signal <;> simp [Trigger.accepts])
          · rfl
        obtain ⟨i, hi, hget⟩ := List.mem_iff_getElem.mp himmediate
        -- the position of the transition does not matter to its guard
        exact not_holds_of_firstEnabled (t := { t with index := i }) hfound
          (List.mem_map.mpr ⟨(t.transition, i), List.mk_mem_zipIdx_iff_getElem?.mpr
            (List.getElem?_eq_some_iff.mpr ⟨hi, hget⟩), rfl⟩) haccepts
      · exact not_holds_of_firstEnabledOf hdecl haccepts h ht

/-- If one of some states has a transition that may be taken, something is offered. -/
theorem exists_firstEnabledOf (hc : c.Calm) (hm : Clean c m) (hstates : ∀ s ∈ states, c.contains s)
    (hdecl : Declared c t) (ht : t.source ∈ states) (haccepts : t.transition.trigger.accepts signal)
    (hholds : m.guardHolds signal t = .ok true) :
    ∃ u, m.firstEnabledOf signal states = .ok (some u) := by
  have hok : ∃ found, m.firstEnabledOf signal states = .ok found :=
    Attempt.exists_ok (firstEnabledOf_ends (fun _ _ => guardHolds_ends) fun s hs =>
      lookup_of_contains (hm.chart ▸ hstates s hs)) (firstEnabledOf_calm hc hm hstates)
  obtain ⟨found, hfound⟩ := hok
  cases found with
  | some u => exact ⟨u, hfound⟩
  | none =>
    have hfalse := not_holds_of_firstEnabledOf (hm.chart.symm ▸ hdecl) haccepts hfound ht
    exact absurd (hholds.symm.trans hfalse) (by simp)

/-! ## What is selected -/

/-- What a leaf offers is added to what others have offered, unless they have offered it. -/
private theorem selectAbove_step {x : D.State} {acc acc' : List (Selected D)}
    (hacc : ∀ u ∈ acc, ∃ states, m.firstEnabledOf signal states = .ok (some u))
    (h : (do
        match ← m.firstEnabledOf signal (x :: m.chart.ancestors x) with
        | some t => return if acc.any t.same then acc else acc ++ [t]
        | none => return acc) = (.ok acc' : Attempt D (List (Selected D)))) :
    ∃ found, m.firstEnabledOf signal (x :: m.chart.ancestors x) = .ok found ∧
      ((acc' = acc ∧ ∀ t, found = some t → t ∈ acc) ∨
        ∃ t, found = some t ∧ t ∉ acc ∧ acc' = acc ++ [t]) := by
  obtain ⟨found, hfound, h⟩ := bind_eq_ok.mp h
  refine ⟨found, hfound, ?_⟩
  cases found with
  | none => exact Or.inl ⟨(pure_eq_ok.mp h).symm, fun _ h => absurd h (by simp)⟩
  | some t =>
    rw [pure_eq_ok] at h
    subst h
    -- a state offers one transition at most, so those that are the same are equal
    have hany : acc.any t.same ↔ t ∈ acc := by
      rw [List.any_eq_true]
      constructor
      · rintro ⟨u, hu, hsame⟩
        obtain ⟨states, hstates⟩ := hacc u hu
        simp only [Selected.same, Bool.and_eq_true, decide_eq_true_eq] at hsame
        exact eq_of_source hfound hstates hsame.1 ▸ hu
      · exact fun ht => ⟨t, ht, by simp [Selected.same]⟩
    by_cases hmem : t ∈ acc
    · exact Or.inl ⟨if_pos (hany.mpr hmem), fun u hu => Option.some.inj hu ▸ hmem⟩
    · exact Or.inr ⟨t, rfl, hmem, if_neg fun h => hmem (hany.mp h)⟩

/-- What the leaves offer is added to what others have offered, once. -/
private theorem foldlM_selectAbove : ∀ {leaves : List D.State} {acc : List (Selected D)},
    acc.Nodup → (∀ u ∈ acc, ∃ states, m.firstEnabledOf signal states = .ok (some u)) →
    leaves.foldlM
      (fun selected leaf => do
        match ← m.firstEnabledOf signal (leaf :: m.chart.ancestors leaf) with
        | some t => return if selected.any t.same then selected else selected ++ [t]
        | none => return selected) acc = (.ok l : Attempt D (List (Selected D))) →
      l.Nodup ∧ ∀ t, t ∈ l ↔ t ∈ acc ∨
        ∃ x ∈ leaves, m.firstEnabledOf signal (x :: m.chart.ancestors x) = .ok (some t)
  | [], acc, hnodup, _, h => by
    rw [List.foldlM_nil, pure_eq_ok] at h
    subst h
    exact ⟨hnodup, fun t => by simp⟩
  | leaf :: leaves, acc, hnodup, hacc, h => by
    rw [List.foldlM_cons, bind_eq_ok] at h
    obtain ⟨acc', h₁, h₂⟩ := h
    obtain ⟨found, hfound, hcases⟩ := selectAbove_step hacc h₁
    -- either way `acc'` has what `acc` has and what the leaf offers
    have hstep : acc'.Nodup ∧ ∀ t, t ∈ acc' ↔ t ∈ acc ∨ found = some t := by
      rcases hcases with ⟨rfl, hold⟩ | ⟨t, rfl, hnew, rfl⟩
      · exact ⟨hnodup, fun t => ⟨Or.inl, fun h => h.elim id (hold t)⟩⟩
      · refine ⟨List.nodup_append.mpr ⟨hnodup, List.nodup_singleton t, ?_⟩, fun u => ?_⟩
        · rintro u hu _ hv rfl
          exact hnew (List.mem_singleton.mp hv ▸ hu)
        · rw [List.mem_append, List.mem_singleton, Option.some.injEq, eq_comm (a := t)]
    obtain ⟨hnodup', hacc'⟩ := hstep
    obtain ⟨hl, hmem⟩ := foldlM_selectAbove hnodup' (fun u hu => (hacc' u).mp hu |>.elim
      (hacc u) fun h => ⟨_, h ▸ hfound⟩) h₂
    refine ⟨hl, fun t => ?_⟩
    rw [hmem, hacc', or_assoc]
    refine or_congr_right ?_
    rw [List.exists_mem_cons_iff, hfound, Except.ok.injEq]

/-- An event sets off what the leaves and the states around them offer. -/
theorem mem_selectAbove_iff (h : m.selectAbove signal leaves = .ok l) : t ∈ l ↔
    ∃ x ∈ leaves, m.firstEnabledOf signal (x :: m.chart.ancestors x) = .ok (some t) := by
  rw [(foldlM_selectAbove List.nodup_nil (fun u hu => absurd hu List.not_mem_nil) h).2 t]
  simp

theorem nodup_selectAbove (h : m.selectAbove signal leaves = .ok l) : l.Nodup :=
  (foldlM_selectAbove List.nodup_nil (fun _ hu => absurd hu List.not_mem_nil) h).1

/-- The leaf for which a transition is selected: of those that the transition is offered to, the
first one in the document. -/
structure SelectedFor (m : Machine D) (signal : Signal D) (leaves : List D.State) (x : D.State)
    (t : Selected D) : Prop where
  mem : x ∈ leaves
  offers : m.firstEnabledOf signal (x :: m.chart.ancestors x) = .ok (some t)
  first : ∀ y ∈ leaves, m.firstEnabledOf signal (y :: m.chart.ancestors y) = .ok (some t) →
    m.chart.position x ≤ m.chart.position y

/-- Whether the leaf for which one transition is selected comes before that of another. -/
def SelectedBefore (m : Machine D) (signal : Signal D) (leaves : List D.State)
    (t u : Selected D) : Prop :=
  ∃ x y, m.SelectedFor signal leaves x t ∧ m.SelectedFor signal leaves y u ∧
    m.chart.position x < m.chart.position y

/-- Transitions are selected in the order of the leaves for which they are. -/
theorem pairwise_selectAbove
    (hleaves : leaves.Pairwise fun x y => m.chart.position x < m.chart.position y)
    (h : m.selectAbove signal leaves = .ok l) :
    (∀ t ∈ l, ∃ x, m.SelectedFor signal leaves x t) ∧
      l.Pairwise (m.SelectedBefore signal leaves) := by
  induction leaves using List.reverseRecOn generalizing l with
  | nil =>
    obtain rfl := pure_eq_ok.mp h
    exact ⟨fun t ht => absurd ht List.not_mem_nil, List.Pairwise.nil⟩
  | append_singleton front leaf ih =>
    rw [selectAbove, List.foldlM_append, bind_eq_ok] at h
    obtain ⟨acc, hacc, h⟩ := h
    rw [List.foldlM_cons, bind_eq_ok] at h
    obtain ⟨acc', hstep, h⟩ := h
    obtain rfl := pure_eq_ok.mp h
    obtain ⟨hfront, -, hlast⟩ := List.pairwise_append.mp hleaves
    obtain ⟨hfor, hpairs⟩ := ih hfront hacc
    -- for a leaf further on nothing changes
    have hkeep : ∀ {x t}, m.SelectedFor signal front x t →
        m.SelectedFor signal (front ++ [leaf]) x t := by
      intro x t hx
      refine ⟨List.mem_append_left _ hx.mem, hx.offers, fun y hy hoffers => ?_⟩
      rcases List.mem_append.mp hy with hy | hy
      · exact hx.first y hy hoffers
      · exact (hlast x hx.mem y hy).le
    have hpairs : acc.Pairwise (m.SelectedBefore signal (front ++ [leaf])) := by
      refine hpairs.imp ?_
      rintro t u ⟨x, y, hx, hy, hxy⟩
      exact ⟨x, y, hkeep hx, hkeep hy, hxy⟩
    have hoffered : ∀ u ∈ acc, ∃ states, m.firstEnabledOf signal states = .ok (some u) := by
      intro u hu
      obtain ⟨x, hx⟩ := hfor u hu
      exact ⟨_, hx.offers⟩
    obtain ⟨found, hfound, ⟨rfl, -⟩ | ⟨t, rfl, hnew, rfl⟩⟩ := selectAbove_step hoffered hstep
    · exact ⟨fun t ht => (hfor t ht).imp fun x hx => hkeep hx, hpairs⟩
    · -- no leaf before was offered `t`
      have ht : m.SelectedFor signal (front ++ [leaf]) leaf t := by
        refine ⟨by simp, hfound, fun y hy hoffers => ?_⟩
        rcases List.mem_append.mp hy with hy | hy
        · exact absurd ((mem_selectAbove_iff hacc).mpr ⟨y, hy, hoffers⟩) hnew
        · exact (congrArg m.chart.position (List.mem_singleton.mp hy)).ge
      refine ⟨fun u hu => ?_, List.pairwise_append.mpr ⟨hpairs, List.pairwise_singleton .., ?_⟩⟩
      · rcases List.mem_append.mp hu with hu | hu
        · exact (hfor u hu).imp fun x hx => hkeep hx
        · exact ⟨leaf, List.mem_singleton.mp hu ▸ ht⟩
      · intro u hu v hv
        obtain ⟨x, hx⟩ := hfor u hu
        exact ⟨x, leaf, hkeep hx, List.mem_singleton.mp hv ▸ ht,
          hlast x hx.mem leaf (List.mem_singleton_self leaf)⟩

theorem contains_of_isAtomic (h : m.chart.isAtomic x) : m.chart.contains x := by
  obtain ⟨k, hk, -⟩ := hasKind_iff.mp h
  exact contains_of_kind? hk

/-- The active atomic states are listed as they stand in the document. -/
theorem pairwise_active_atomic : (m.active.filter m.chart.isAtomic).Pairwise
    fun x y => m.chart.position x < m.chart.position y := by
  have hsorted : m.active.Pairwise fun x y => m.chart.documentLe x y :=
    List.pairwise_mergeSort isOrder_documentLe.trans isOrder_documentLe.total _
  have hnodup : m.active.Nodup := (List.mergeSort_perm _ _).nodup_iff.mpr m.configuration.nodup
  refine List.pairwise_filter.mpr ((hsorted.and hnodup).imp ?_)
  rintro x y ⟨hle, hne⟩ hx hy
  simp only [Outline.documentLe, decide_eq_true_eq] at hle
  exact lt_of_le_of_ne hle fun he =>
    hne (position_inj (contains_of_isAtomic hx) (contains_of_isAtomic hy) he)

/-! ## What is taken -/

theorem sublist_withoutConflicts (l : List (Selected D)) : (m.withoutConflicts l).Sublist l := by
  have hfold : ∀ {l kept front : List (Selected D)}, kept.Sublist front →
      (l.foldl m.keepOrDrop kept).Sublist (front ++ l) := by
    intro l
    induction l with
    | nil => exact fun h => by simpa using h
    | cons t l ih =>
      intro kept front h
      rw [List.foldl_cons, ← List.singleton_append, ← List.append_assoc]
      refine ih ?_
      rcases keepOrDrop_cases (m := m) kept t with he | he
      · rw [he]
        exact (List.filter_sublist.trans h).append_right [t]
      · rw [he]
        exact h.trans (List.sublist_append_left ..)
  exact hfold (List.Sublist.refl [])

theorem mem_keepOrDrop_of_kept {kept : List (Selected D)} {u : Selected D} (ht : t ∈ kept)
    (h : m.conflicts u t = false) : t ∈ m.keepOrDrop kept u := by
  rcases keepOrDrop_cases (m := m) kept u with he | he
  · rw [he]
    exact List.mem_append_left _ (List.mem_filter.mpr ⟨ht, by simp [h]⟩)
  · rwa [he]

theorem mem_keepOrDrop_self {kept : List (Selected D)}
    (h : ∀ u ∈ kept, m.conflicts t u = false) : t ∈ m.keepOrDrop kept t := by
  have hnone : kept.filter (m.conflicts t) = [] :=
    List.filter_eq_nil_iff.mpr fun u hu => by simp [h u hu]
  simp [keepOrDrop, hnone]

/-- A transition is taken if it conflicts with no other. -/
theorem mem_withoutConflicts_of_free (hl : l.Nodup) (ht : t ∈ l)
    (h : ∀ u ∈ l, u ≠ t → m.conflicts t u = false ∧ m.conflicts u t = false) :
    t ∈ m.withoutConflicts l := by
  obtain ⟨front, back, rfl⟩ := List.append_of_mem ht
  have hne : ∀ u ∈ front ++ back, u ≠ t := by
    rintro u hu rfl
    exact (List.nodup_cons.mp (List.nodup_middle.mp hl)).1 hu
  have hback : ∀ {back kept : List (Selected D)}, t ∈ kept →
      (∀ u ∈ back, m.conflicts u t = false) → t ∈ back.foldl m.keepOrDrop kept := by
    intro back
    induction back with
    | nil => exact fun ht _ => ht
    | cons u back ih =>
      exact fun ht h => ih (mem_keepOrDrop_of_kept ht (h u (List.mem_cons_self ..)))
        fun v hv => h v (List.mem_cons_of_mem _ hv)
  rw [withoutConflicts, List.foldl_append, List.foldl_cons]
  refine hback (mem_keepOrDrop_self fun u hu => ?_) fun u hu => ?_
  · have hu : u ∈ front := (sublist_withoutConflicts front).subset hu
    exact (h u (by simp [hu]) (hne u (by simp [hu]))).1
  · exact (h u (by simp [hu]) (hne u (by simp [hu]))).2

/-- What is selected for a signal waits for it. -/
theorem answers_of_select (h : m.select signal = .ok l) (ht : t ∈ l) : t.Answers signal := by
  cases selects_of_select h with
  | above hsignal habove =>
    obtain ⟨x, -, hfound⟩ := mem_selectAbove habove ht
    subst hsignal
    exact accepts_event_iff.mp (accepts_of_firstEnabledOf hfound)
  | nothing => exact absurd ht List.not_mem_nil
  | @own s _ horigin _ hfound =>
    obtain rfl := List.mem_singleton.mp ht
    have hsource : t.source = s := List.mem_singleton.mp (mem_firstEnabledOf hfound).1
    have haccepts := accepts_of_firstEnabledOf hfound
    generalize htrigger : t.transition.trigger = trigger at haccepts
    cases signal <;> cases trigger <;>
      simp_all [Trigger.accepts, Signal.origin?, Selected.Answers]
  | timer hsignal _ _ hget _ =>
    obtain rfl := List.mem_singleton.mp ht
    obtain ⟨hsource, htr⟩ := mem_listOf (List.mem_of_getElem? hget)
    subst hsignal
    refine ⟨hsource, ?_⟩
    have hdelayed := (List.mem_filter.mp htr).2
    unfold Transition.delay? Trigger.delay? at hdelayed
    split at hdelayed
    · next delay hdelay => exact ⟨delay, hdelay⟩
    · exact absurd hdelayed (by simp)

/-- What is taken on a signal is declared on a state around an active one, and waits for it. -/
theorem answers_of_takes (ht : t ∈ m.takes signal) : Declared m.chart t ∧ t.Answers signal ∧
    ∃ x ∈ m.configuration, m.chart.isWithin x t.source := by
  rcases m.takes_cases signal with hnone | ⟨invocations, selected, -, hselect, htakes⟩
  · exact absurd (hnone ▸ ht) List.not_mem_nil
  · rw [htakes] at ht
    have hmem := mem_withoutConflicts ht
    obtain ⟨hdecl, hwithin⟩ := mem_select hselect hmem
    exact ⟨hdecl, answers_of_select hselect hmem, hwithin⟩

/-- On a signal other than an event one transition is selected at most. -/
theorem select_singleton (hsignal : signal.event? = none) (h : m.select signal = .ok l) :
    l = [] ∨ ∃ t, l = [t] := by
  cases selects_of_select h with
  | above he _ => exact absurd hsignal (by simp [he, Signal.event?])
  | nothing => exact Or.inl rfl
  | own | timer => exact Or.inr ⟨_, rfl⟩

/-- On a signal other than an event one transition is taken at most. -/
theorem takes_singleton (hsignal : signal.event? = none) :
    m.takes signal = [] ∨ ∃ t, m.takes signal = [t] := by
  rcases m.takes_cases signal with hnone | ⟨invocations, selected, -, hselect, htakes⟩
  · exact Or.inl hnone
  · rw [htakes]
    rcases select_singleton hsignal hselect with rfl | ⟨t, rfl⟩
    · exact Or.inl rfl
    · exact Or.inr ⟨t, withoutConflicts_singleton t⟩

/-- On an event, what is taken is what is left of what the active atomic states and those around
them offer. -/
theorem takes_event (hc : c.Calm) (hm : Clean c m) : ∃ l, m.select (.event e) = .ok l ∧
    m.takes (.event e) = m.withoutConflicts l ∧ l.Nodup ∧ ∀ t, t ∈ l ↔
      ∃ x ∈ m.configuration, m.chart.isAtomic x ∧
        m.firstEnabledOf (.event e) (x :: m.chart.ancestors x) = .ok (some t) := by
  have hok : ∃ l, m.select (.event e) = .ok l :=
    Attempt.exists_ok select_unchanged (select_calm hc hm)
  obtain ⟨l, hl⟩ := hok
  refine ⟨l, hl, by simp only [takes, reacting?, hl], nodup_selectAbove hl, fun t => ?_⟩
  rw [mem_selectAbove_iff hl]
  constructor
  · rintro ⟨x, hx, hfound⟩
    obtain ⟨hactive, hatomic⟩ := List.mem_filter.mp hx
    exact ⟨x, (Outline.mem_inDocumentOrder ..).mp hactive, hatomic, hfound⟩
  · rintro ⟨x, hx, hatomic, hfound⟩
    exact ⟨x, List.mem_filter.mpr ⟨(Outline.mem_inDocumentOrder ..).mpr hx, hatomic⟩, hfound⟩

/-- What an event is offered to and taken up by. -/
theorem spec_of_offered
    (h : m.firstEnabledOf (.event e) (s :: m.chart.ancestors s) = .ok (some t)) :
    Declared m.chart t ∧ t.transition.trigger = .event (D.eventName e) ∧
      m.chart.isWithin s t.source ∧ m.guardHolds (.event e) t = .ok true := by
  obtain ⟨hmem, hdecl⟩ := mem_firstEnabledOf h
  refine ⟨hdecl, accepts_event_iff.mp (accepts_of_firstEnabledOf h), ?_, holds_of_firstEnabledOf h⟩
  exact Chart.isWithin_iff.mpr ((List.mem_cons.mp hmem).imp Eq.symm Chart.isDescendant_iff.mpr)

/-- An event is taken up if a state around has a transition for it that may be taken. -/
theorem exists_offered (hc : c.Calm) (hm : Clean c m) (hs : c.contains s) (hdecl : Declared c t)
    (htrigger : t.transition.trigger = .event (D.eventName e)) (hwithin : c.isWithin s t.source)
    (hholds : m.guardHolds (.event e) t = .ok true) :
    ∃ u, m.firstEnabledOf (.event e) (s :: m.chart.ancestors s) = .ok (some u) := by
  rw [hm.chart]
  refine exists_firstEnabledOf hc hm (fun x hx => ?_) hdecl ?_
    (accepts_event_iff.mpr htrigger) hholds
  · exact Chart.contains_of_mem_path hs hx
  · exact List.mem_cons.mpr ((Chart.isWithin_iff.mp hwithin).imp Eq.symm Chart.isDescendant_iff.mp)

/-! ## What is entered -/

/-- What is entered is what the transitions put into the set. -/
theorem mem_entering_of_eq_some {set : StateSet D.State} {entered : List D.State}
    (hset : selected.foldlM m.addEntries .empty = some set)
    (h : m.entering selected = some entered) : s ∈ entered ↔ s ∈ set.elems := by
  unfold entering at h
  rw [hset, Option.map_some, Option.some.injEq] at h
  rw [← h, Outline.mem_inEntryOrder]

/-! ## What stays below a state -/

section

variable {taken : List (Selected D)} {entered : List D.State} {q x : D.State}
  (hb : m.chart.BoundedHistory m.history) (htaken : ∀ t ∈ taken, Declared m.chart t ∧
    ∃ r, m.chart.isCompound r ∧ m.chart.isDescendant r q ∧ t.StaysBelow m.chart r)

include hb htaken

/-- Transitions each of which stays below some compound state below `q` leave nothing else. -/
theorem isDescendant_of_mem_leaving (hx : x ∈ m.leaving taken) : m.chart.isDescendant x q := by
  obtain ⟨-, t, ht, d, hd, hxd⟩ := mem_leaving.mp hx
  obtain ⟨hdecl, r, hr, hrq, hstay⟩ := htaken t ht
  have hxr := Chart.isDescendant_of_isDescendant_of_isWithin hxd
    (isWithin_domain hb hr hdecl hstay hd)
  exact Chart.isDescendant_trans hxr hrq

/-- Nor do they enter anything else. -/
theorem isDescendant_of_mem_entering (h : m.entering taken = some entered) (hx : x ∈ entered) :
    m.chart.isDescendant x q := by
  obtain ⟨-, t, ht, d, g, hd, hg, hx⟩ := (entering_bounds hb (fun t ht => (htaken t ht).1) h).1 x hx
  obtain ⟨hdecl, r, hr, hrq, hstay⟩ := htaken t ht
  refine Chart.isDescendant_trans ?_ hrq
  rcases hx with hx | hx
  · rcases hstay with hact | ⟨g', hg', hgr, -⟩
    · rw [domain?_eq, if_pos (by simp [hact])] at hd
      exact absurd hd (by simp)
    · rw [hg, Option.some.injEq] at hg'
      exact Chart.below_of_scope (hg' ▸ hgr) hx
  · exact Chart.isDescendant_of_isDescendant_of_isWithin hx (isWithin_domain hb hr hdecl hstay hd)

end

end Machine

end Statechart
