import Statechart.Proofs.Entry.Ending
import Statechart.Proofs.Trace

/-!
# Fuel makes no difference

Fuel is how the recursion of an entry is written down, not part of what an entry is. With more fuel
an entry that comes to an end comes to the same end (`addDescendants_succ`), and on a chart whose
fallbacks do not run in a circle it comes to one with the fuel that it is given or more. So what is
entered there is what the recursion would find without any fuel (`settles_of_acyclicFallbacks`).
Nothing is taken out on the way and no history state is put in, whatever the set was at first
(`extends_addDescendants`).

The circles have to be excluded: from a history state on one of them no fuel leads anywhere, as long
as there are no records (`addDescendants_eq_none_of_cycle`).
-/

namespace Statechart

namespace Chart

variable {D : Domain} {c : Chart D} {h : History D.State} {s t p b : D.State}
  {set set' : StateSet D.State} {add add' : D.State → StateSet D.State → Option (StateSet D.State)}

/-- What is found with the fuel of an entry is found with any more: one set, which is `set` with
states of the chart added that can be active. -/
def Settles (c : Chart D) (set : StateSet D.State) (find : Nat → Option (StateSet D.State)) :
    Prop :=
  ∃ set', (∀ fuel, c.entryFuel ≤ fuel → find fuel = some set') ∧
    c.Extends (fun x => c.contains x) set set'

/-! ## More fuel -/

theorem foldlM_mono {α β : Type} {f g : β → α → Option β}
    (hfg : ∀ a b b', f b a = some b' → g b a = some b') :
    ∀ {l : List α} {b b' : β}, l.foldlM f b = some b' → l.foldlM g b = some b'
  | [], _, _, h => h
  | a :: l, b, b', h => by
    rw [List.foldlM_cons, Option.bind_eq_bind, Option.bind_eq_some_iff] at h ⊢
    obtain ⟨b₁, h₁, h₂⟩ := h
    exact ⟨b₁, hfg a b b₁ h₁, foldlM_mono hfg h₂⟩

section

variable (hadd : ∀ s S S', add s S = some S' → add' s S = some S')

include hadd

theorem addRegions_mono (h' : c.addRegions add p set = some set') :
    c.addRegions add' p set = some set' := by
  refine foldlM_mono (fun r S S' hS => ?_) h'
  split at hS
  · next hany => rw [if_pos hany, hS]
  · next hany => rw [if_neg hany, hadd r S S' hS]

theorem addAncestors_mono (h' : c.addAncestors add s b set = some set') :
    c.addAncestors add' s b set = some set' := by
  refine foldlM_mono (fun a S S' hS => ?_) h'
  split at hS
  · next hpar => rw [if_pos hpar, addRegions_mono hadd hS]
  · next hpar => rw [if_neg hpar, hS]

end

/-- What is entered with some fuel is entered with more. -/
theorem addDescendants_succ (fuel : Nat) : ∀ s set set', c.addDescendants h fuel s set = some set' →
    c.addDescendants h (fuel + 1) s set = some set' := by
  induction fuel with
  | zero => intro s set set' h'; exact absurd h' (by simp [Outline.addDescendants])
  | succ fuel ih =>
    intro s set set' h'
    -- both sides go on in the same way, with less fuel for what comes next
    rw [Outline.addDescendants] at h' ⊢
    cases hn : c.node? s with
    | none => rwa [hn] at h'
    | some n =>
      rw [hn] at h'
      dsimp only at h' ⊢
      cases hk : n.kind with
      | history mode =>
        rw [hk] at h'
        dsimp only at h' ⊢
        cases hp : n.parent? with
        | none => rwa [hp] at h'
        | some p =>
          rw [hp] at h'
          obtain ⟨set₁, h₁, h₂⟩ := Option.bind_eq_some_iff.mp h'
          exact Option.bind_eq_some_iff.mpr ⟨set₁, foldlM_mono (fun t S S' => ih t S S') h₁,
            foldlM_mono (fun t S S' => addAncestors_mono ih) h₂⟩
      | compound i =>
        rw [hk] at h'
        obtain ⟨set₁, h₁, h₂⟩ := Option.bind_eq_some_iff.mp h'
        exact Option.bind_eq_some_iff.mpr ⟨set₁, ih i _ _ h₁, addAncestors_mono ih h₂⟩
      | parallel =>
        rw [hk] at h'
        exact addRegions_mono ih h'
      | atomic | final => rwa [hk] at h'

theorem addDescendants_mono {fuel fuel' : Nat} (hle : fuel ≤ fuel')
    (h' : c.addDescendants h fuel s set = some set') :
    c.addDescendants h fuel' s set = some set' := by
  induction hle with
  | refl => exact h'
  | step _ ih => exact addDescendants_succ _ _ _ _ ih

/-! ## What is put in -/

theorem extends_addAncestors
    (hadd : ∀ r S S', add r S = some S' → c.Extends (fun x => c.contains x) S S')
    (h' : c.addAncestors add s b set = some set') :
    c.Extends (fun x => c.contains x) set set' := by
  refine extends_foldlM (fun a ha S S' hS => ?_) h'
  have hsa := (List.takeWhile_prefix _).subset ha
  have hins : c.Extends (fun x => c.contains x) S (S.insert a) :=
    extends_insert (contains_of_mem_ancestors hsa)
      (not_isHistory_of_isDescendant (isDescendant_iff.mpr hsa))
  split at hS
  · exact extends_trans hins (extends_addRegions (fun r _ => hadd r) hS)
  · rw [Option.some.injEq] at hS
    exact hS ▸ hins

theorem extends_addDescendants (fuel : Nat) : ∀ s set set',
    c.addDescendants h fuel s set = some set' → c.Extends (fun x => c.contains x) set set' := by
  induction fuel with
  | zero => intro s set set' h'; exact absurd h' (by simp [Outline.addDescendants])
  | succ fuel ih =>
    intro s set set' h'
    by_cases hs : c.contains s
    · by_cases hh : c.isHistory s
      · obtain ⟨n, p, hn, hk, hp⟩ := node_of_isHistory hh
        obtain ⟨set₁, h₁, h₂⟩ := addDescendants_history hn hk hp h'
        exact extends_trans (extends_foldlM (fun t _ => ih t) h₁)
          (extends_foldlM (fun t _ S S' => extends_addAncestors ih) h₂)
      · have hins : c.Extends (fun x => c.contains x) set (set.insert s) := extends_insert hs hh
        rcases addDescendants_plain hs hh h' with ⟨i, -, h₁⟩ | ⟨-, h₁⟩ | ⟨-, -, rfl⟩
        · exact extends_trans hins (ih i _ _ h₁)
        · exact extends_trans hins (extends_addRegions (fun r _ => ih r) h₁)
        · exact hins
    · rw [addDescendants_outside hs, Option.some.injEq] at h'
      exact h' ▸ extends_refl

/-! ## Fallbacks in a circle -/

/-- From a history state that falls back to itself by way of others, no fuel leads anywhere. -/
theorem addDescendants_eq_none_of_cycle (hnone : ∀ s, c.isHistory s → h.get? s = none)
    (fuel : Nat) : ∀ s, Relation.TransGen c.FallsBackTo s s →
      ∀ set, c.addDescendants h fuel s set = none := by
  induction fuel with
  | zero => exact fun _ _ _ => rfl
  | succ fuel ih =>
    intro s hs set
    obtain ⟨t, hst, hts⟩ := Relation.TransGen.head'_iff.mp hs
    -- the next state is on the circle too
    have ht : Relation.TransGen c.FallsBackTo t t := .tail' hts hst
    obtain ⟨n, hn, hk, hf, -⟩ := hst
    have hh : c.isHistory s := (isHistory_of_node hn).mpr hk
    have hrestored : c.restored h n = [t] := by
      rw [restored_of_none hn (hnone s hh), Outline.fallbacks, hf]
    obtain ⟨p, hp⟩ := parent_of_isHistory hh
    refine Option.eq_none_iff_forall_ne_some.mpr fun set' h' => ?_
    obtain ⟨set₁, h₁, -⟩ := addDescendants_history hn hk hp h'
    rw [hrestored, List.foldlM_cons, ih t ht] at h₁
    exact absurd h₁ (by simp)

/-! ## Entering without fuel -/

theorem settles_of_mono {find : Nat → Option (StateSet D.State)}
    (hends : ∃ set', find c.entryFuel = some set')
    (hmono : ∀ fuel set', c.entryFuel ≤ fuel → find c.entryFuel = some set' → find fuel = some set')
    (hextends : ∀ set', find c.entryFuel = some set' → c.Extends (fun x => c.contains x) set set') :
    c.Settles set find := by
  obtain ⟨set', h'⟩ := hends
  exact ⟨set', fun fuel hfuel => hmono fuel set' hfuel h', hextends set' h'⟩

/-- On a chart whose fallbacks do not run in a circle, entering a state, climbing from it and
completing a parallel state come to an end that has nothing to do with fuel, whatever the set is at
first. Nothing is taken out of the set, and no history state is put in. -/
theorem settles_of_acyclicFallbacks (hacyclic : c.AcyclicFallbacks) (hrecords : c.PlainRecords h) :
    (∀ s set, c.Settles set fun fuel => c.addDescendants h fuel s set) ∧
      (∀ s b set, c.Settles set fun fuel => c.addAncestors (c.addDescendants h fuel) s b set) ∧
      ∀ p set, c.Settles set fun fuel => c.addRegions (c.addDescendants h fuel) p set := by
  have hends : ∀ s set, ∃ set', c.addDescendants h c.entryFuel s set = some set' :=
    exists_addDescendants_of_entryFuel hacyclic hrecords (Nat.le_refl _)
  refine ⟨fun s set => ?_, fun s b set => ?_, fun p set => ?_⟩
  · exact settles_of_mono (hends s set) (fun _ _ => addDescendants_mono)
      (extends_addDescendants _ s set)
  · exact settles_of_mono (exists_addAncestors (fun r _ _ => hends r) set)
      (fun _ _ hfuel => addAncestors_mono fun _ _ _ => addDescendants_mono hfuel)
      (fun _ => extends_addAncestors (extends_addDescendants _))
  · exact settles_of_mono (exists_addRegions (fun r _ => hends r) set)
      (fun _ _ hfuel => addRegions_mono fun _ _ _ => addDescendants_mono hfuel)
      (fun _ => extends_addRegions fun r _ => extends_addDescendants _ r)

end Chart

/-! ## A workshop -/

inductive WorkshopState
  | workshop | closed | benches | lathe | idle | turning | lastJob | drill | off | on | lastVisit
deriving DecidableEq

/-- A workshop that goes back, when it is opened, to what the lathe was last used for. -/
def workshopTree : StateTree (.bare WorkshopState) :=
  .bare .workshop (.compound .closed) []
    [.bare .closed .atomic,
    .bare .benches .parallel []
      [.bare .lathe (.compound .idle) []
        [.bare .idle .atomic, .bare .turning .atomic,
        .node { id := .lastJob, kind := .history .shallow, fallback := some .turning } []],
      .bare .drill (.compound .off) [] [.bare .off .atomic, .bare .on .atomic]],
    .node { id := .lastVisit, kind := .history .deep, fallback := some .lastJob } []]

def workshop : Chart (.bare WorkshopState) :=
  { workshopTree.outline with tree := workshopTree, outline_eq := rfl, flawless := by cbv }

/-- The lathe was idle when it was last left. -/
def workshopHistory : History WorkshopState := ({} : History WorkshopState).record .lastJob [.idle]

theorem workshop_acyclicFallbacks : workshop.AcyclicFallbacks :=
  Chart.acyclicFallbacks_of_rank (fun s => if s = .lastVisit then 1 else 0) (by decide)

theorem workshop_plainRecords : workshop.PlainRecords workshopHistory := by
  intro s l _ hl
  by_cases hs : s = .lastJob
  · subst hs
    rw [workshopHistory, History.get?_record_self, Option.some.injEq] at hl
    subst hl
    decide
  · rw [workshopHistory, History.get?_record_of_ne _ hs] at hl
    exact absurd hl (by simp [History.get?])

/-- One history state leads to another, this one to what it remembers, and climbing from there opens
the drill too. The history state that was in the set at first is the only one there in the end. -/
theorem workshop_settles : workshop.AcyclicFallbacks ∧ workshop.PlainRecords workshopHistory ∧
    ∀ fuel, workshop.entryFuel ≤ fuel →
      (workshop.addDescendants workshopHistory fuel .lastVisit (.ofList [.lastJob])).map (·.elems) =
        some [.lastJob, .idle, .lathe, .benches, .drill, .off] := by
  refine ⟨workshop_acyclicFallbacks, workshop_plainRecords, fun fuel hfuel => ?_⟩
  obtain ⟨set', hset', -⟩ :=
    (Chart.settles_of_acyclicFallbacks workshop_acyclicFallbacks workshop_plainRecords).1
      .lastVisit (.ofList [.lastJob])
  have hsame := (hset' fuel hfuel).trans (hset' workshop.entryFuel (Nat.le_refl _)).symm
  dsimp only at hsame
  rw [hsame]
  cbv

end Statechart
