import SymBisect.Core.SearcherSpec

/-!
# Searchers over runs

A searcher of any kind, with or without a `MergingSearcher` around it, beside the live states of the executor and the
process tree.  The executor forks and removes states in the tree, tells the searcher of added and removed states,
selects states, and the merge handlers pause and continue them.

* `Allowed`: what the executor keeps to.
* `Fits`: no paused state is removed from a `MergingSearcher`, nothing is added or removed while the current state is
  paused there, and the current state is not one that an `IterativeDeepeningTimeSearcher` has set aside.  The executor
  does not keep to this.
* `removed_paused_fails`: the memory cap removes a paused state, and the searcher below does not have it.
* `searcher_holds`: otherwise the searcher holds exactly the live states, in every run.
-/

namespace SymBisect

open Lib RandomPathSearcher

namespace Searcher

/-- The first of several items is chosen, and no time is over. -/
def Oracle.first : Oracle where
  rng _ := 0
  choose := List.head?
  expired _ := false
  choose_mem {items} hne := by
    cases items with
    | nil => exact absurd rfl hne
    | cons x items => exact ⟨x, List.mem_cons_self, rfl⟩

/-! ### Merging -/

namespace Merging

variable {S : Type} {base : Calls S} {V : View S} {m : Merging S} {σ : System} {L : Set ℕ}

/-- Every state is with the underlying searcher or paused. -/
structure Holds (V : View S) (m : Merging S) (σ : System) (L B : Set ℕ) : Prop where
  base : V.holds m.baseSearcher σ B
  nodup : m.pausedStates.Nodup
  disjoint : ∀ x ∈ m.pausedStates, x ∉ B
  mem : ∀ x, x ∈ L ↔ x ∈ B ∨ x ∈ m.pausedStates

variable {B : Set ℕ}

theorem Holds.live (h : Holds V m σ L B) (hlive : ∀ x ∈ L, σ.tree.Live x) : ∀ x ∈ B, σ.tree.Live x :=
  fun x hx => hlive x ((h.mem x).2 (.inl hx))

theorem pauseState_spec (hbase : base.Correct V) (h : Holds V m σ L B) (hinv : σ.Inv)
    (hlive : ∀ x ∈ L, σ.tree.Live x) {state : ℕ} (hL : state ∈ L) (hnot : state ∉ m.pausedStates) :
    ∃ m' σ' B', pauseState base state m σ = some (m', σ') ∧ Holds V m' σ' L B' ∧ Frame V.ids σ σ' := by
  have hB : state ∈ B := ((h.mem state).1 hL).resolve_right hnot
  have hcons : Consistent σ B none [] [state] :=
    { inv := hinv
      live := fun x hx => h.live hlive x (hx.resolve_right List.not_mem_nil)
      added_nodup := List.nodup_nil
      added_new := fun x hx => absurd hx List.not_mem_nil
      removed_nodup := List.nodup_singleton state
      removed_held := fun x hx => .inl (List.mem_singleton.1 hx ▸ hB)
      current_held := fun x hx => nomatch hx }
  obtain ⟨b, σ', hrun, hholds, hframe⟩ := hbase.update hcons h.base (hbase.fits_none _)
  refine ⟨⟨b, m.pausedStates ++ [state]⟩, σ', _, ?_, ⟨hholds, ?_, fun x hx hin => ?_, fun x => ?_⟩, hframe⟩
  · unfold pauseState
    rw [if_neg hnot]
    exact congrArg (Option.map _) hrun
  · refine List.nodup_append.2 ⟨h.nodup, List.nodup_singleton state, fun x hx y hy heq => hnot ?_⟩
    rw [← List.mem_singleton.1 hy, ← heq]
    exact hx
  · obtain ⟨hxB, hne⟩ := mem_after.1 hin
    obtain hx | hx := List.mem_append.1 hx
    · exact h.disjoint x hx (hxB.resolve_right List.not_mem_nil)
    · exact hne hx
  · rw [h.mem, mem_after, List.mem_append, List.mem_singleton]
    by_cases hxs : x = state
    · simp [hxs, hB]
    · simp [hxs]

theorem continueState_spec (hbase : base.Correct V) (h : Holds V m σ L B) (hinv : σ.Inv)
    (hlive : ∀ x ∈ L, σ.tree.Live x) {state : ℕ} (hp : state ∈ m.pausedStates) :
    ∃ m' σ' B', continueState base state m σ = some (m', σ') ∧ Holds V m' σ' L B' ∧ Frame V.ids σ σ' ∧
      m'.pausedStates = m.pausedStates.erase state := by
  have hcons : Consistent σ B none [state] [] :=
    { inv := hinv
      live := fun x hx => hx.elim (h.live hlive x) fun hx =>
        hlive x ((h.mem x).2 (.inr (List.mem_singleton.1 hx ▸ hp)))
      added_nodup := List.nodup_singleton state
      added_new := fun x hx => List.mem_singleton.1 hx ▸ h.disjoint state hp
      removed_nodup := List.nodup_nil
      removed_held := fun x hx => absurd hx List.not_mem_nil
      current_held := fun x hx => nomatch hx }
  obtain ⟨b, σ', hrun, hholds, hframe⟩ := hbase.update hcons h.base (hbase.fits_none _)
  refine ⟨⟨b, m.pausedStates.erase state⟩, σ', _, ?_, ⟨hholds, h.nodup.erase state, fun x hx hin => ?_, fun x => ?_⟩,
    hframe, rfl⟩
  · unfold continueState
    rw [if_pos hp]
    exact congrArg (Option.map _) hrun
  · obtain ⟨hne, hx⟩ := h.nodup.mem_erase_iff.1 hx
    exact (mem_after.1 hin).1.elim (h.disjoint x hx) fun hs => hne (List.mem_singleton.1 hs)
  · rw [h.mem, mem_after, h.nodup.mem_erase_iff, List.mem_singleton]
    by_cases hxs : x = state
    · simp [hxs, hp]
    · simp [hxs]

/-- States that have arrived are released one after the other. -/
theorem releaseStates_spec (hbase : base.Correct V) (states : List ℕ) : ∀ {m : Merging S} {σ : System} {B : Set ℕ},
    Holds V m σ L B → σ.Inv → (∀ x ∈ L, σ.tree.Live x) → states.Nodup → (∀ x ∈ states, x ∈ m.pausedStates) →
    ∃ m' σ' B', releaseStates base states m σ = some (m', σ') ∧ Holds V m' σ' L B' ∧ Frame V.ids σ σ' ∧
      (∀ x ∈ m.pausedStates, x ∉ states → x ∈ m'.pausedStates) ∧ m'.pausedStates ⊆ m.pausedStates := by
  induction states with
  | nil => exact fun {m σ B} h hinv _ _ _ => ⟨m, σ, B, rfl, h, .refl hinv, fun x hx _ => hx, fun x hx => hx⟩
  | cons state states ih =>
    intro m σ B h hinv hlive hnodup hpaused
    obtain ⟨hnot, hnodup⟩ := List.nodup_cons.1 hnodup
    obtain ⟨m₁, σ₁, B₁, hrun₁, h₁, hframe₁, hp₁⟩ :=
      continueState_spec hbase h hinv hlive (hpaused state List.mem_cons_self)
    have hmem₁ : ∀ x, x ∈ m.pausedStates → x ≠ state → x ∈ m₁.pausedStates := fun x hx hne => by
      rw [hp₁]
      exact h.nodup.mem_erase_iff.2 ⟨hne, hx⟩
    obtain ⟨m₂, σ₂, B₂, hrun₂, h₂, hframe₂, hp₂, hsub₂⟩ := ih h₁ hframe₁.inv
      (fun x hx => (hframe₁.live x).2 (hlive x hx)) hnodup fun x hx =>
        hmem₁ x (hpaused x (List.mem_cons_of_mem _ hx)) fun heq => hnot (heq ▸ hx)
    refine ⟨m₂, σ₂, B₂, ?_, h₂, hframe₁.trans hframe₂, fun x hx hnx => ?_, fun x hx => ?_⟩
    · unfold releaseStates
      rw [hrun₁]
      exact hrun₂
    · rw [List.mem_cons, not_or] at hnx
      exact hp₂ x (hmem₁ x hx hnx.1) hnx.2
    · have hx₁ := hsub₂ hx
      rw [hp₁] at hx₁
      exact List.mem_of_mem_erase hx₁

/-- What is selected is one of the states. -/
theorem selectFrom_spec (hbase : base.Correct V) {prioritize : MergeGroup → Option ℕ} (groups : List MergeGroup) :
    ∀ {m : Merging S} {σ : System} {B : Set ℕ}, Holds V m σ L B → σ.Inv → (∀ x ∈ L, σ.tree.Live x) → B ≠ ∅ →
    (∀ group ∈ groups, ∀ es ∈ prioritize group, es ∈ L) → (groups.flatMap MergeGroup.closedStates).Nodup →
    (∀ x ∈ groups.flatMap MergeGroup.closedStates, x ∈ m.pausedStates) →
    ∃ x m' σ' B', selectFrom base prioritize groups m σ = some (x, m', σ') ∧ x ∈ L ∧ Holds V m' σ' L B' ∧
      Frame V.ids σ σ' := by
  induction groups with
  | nil =>
    intro m σ B h hinv hlive hne _ _ _
    obtain ⟨x, b, hrun, hx, hholds⟩ := hbase.selectState hinv (h.live hlive) h.base hne
    exact ⟨x, ⟨b, m.pausedStates⟩, σ, B, congrArg (Option.map _) hrun, (h.mem x).2 (.inl hx),
      ⟨hholds, h.nodup, h.disjoint, h.mem⟩, .refl hinv⟩
  | cons group groups ih =>
    intro m σ B h hinv hlive hne hpri hnodup hclosed
    rw [List.flatMap_cons] at hnodup hclosed
    obtain ⟨hnodup₁, hnodup₂, hdis⟩ := List.nodup_append.1 hnodup
    have hpri' : ∀ g ∈ groups, ∀ es ∈ prioritize g, es ∈ L := fun g hg => hpri g (List.mem_cons_of_mem _ hg)
    unfold selectFrom
    by_cases hnone : group.closedStates = []
    · rw [if_pos hnone]
      exact ih h hinv hlive hne hpri' hnodup₂ fun x hx => hclosed x (List.mem_append_right _ hx)
    · rw [if_neg hnone]
      cases hes : prioritize group with
      | some es => exact ⟨es, m, σ, B, rfl, hpri group List.mem_cons_self es hes, h, .refl hinv⟩
      | none =>
        obtain ⟨m₁, σ₁, B₁, hrun₁, h₁, hframe₁, hp₁, hsub₁⟩ := releaseStates_spec hbase group.closedStates h hinv
          hlive hnodup₁ fun x hx => hclosed x (List.mem_append_left _ hx)
        have hne₁ : B₁ ≠ ∅ := by
          obtain ⟨x, hx⟩ := Set.nonempty_iff_ne_empty.2 hne
          refine Set.nonempty_iff_ne_empty.1 ⟨x, ?_⟩
          exact ((h₁.mem x).1 ((h.mem x).2 (.inl hx))).resolve_right fun hp => h.disjoint x (hsub₁ hp) hx
        obtain ⟨x, m₂, σ₂, B₂, hrun₂, hx, h₂, hframe₂⟩ := ih h₁ hframe₁.inv
          (fun x hx => (hframe₁.live x).2 (hlive x hx)) hne₁ hpri' hnodup₂ fun x hx =>
            hp₁ x (hclosed x (List.mem_append_right _ hx)) fun hin => hdis x hin x hx rfl
        refine ⟨x, m₂, σ₂, B₂, ?_, hx, h₂, hframe₁.trans hframe₂⟩
        simp only [hrun₁]
        exact hrun₂

/-- An update that removes no paused state, and nothing at all while the current state is paused. -/
theorem update_spec (hbase : base.Correct V) (h : Holds V m σ L B) {current : Option ℕ}
    {addedStates removedStates : List ℕ} (hc : Consistent σ L current addedStates removedStates)
    (hremoved : ∀ x ∈ removedStates, x ∉ m.pausedStates)
    (hdropped : (∃ c ∈ current, c ∈ m.pausedStates) → addedStates = [] ∧ removedStates = [])
    (hfits : (¬ ∃ c ∈ current, c ∈ m.pausedStates) → V.fits current m.baseSearcher) :
    ∃ m' σ' B', update base current addedStates removedStates m σ = some (m', σ') ∧
      Holds V m' σ' (after L addedStates removedStates) B' ∧ Frame V.ids σ σ' := by
  unfold update
  by_cases hcur : ∃ c ∈ current, c ∈ m.pausedStates
  · obtain ⟨rfl, rfl⟩ := hdropped hcur
    refine ⟨m, σ, B, if_pos hcur, ⟨h.base, h.nodup, h.disjoint, fun x => ?_⟩, .refl hc.inv⟩
    rw [mem_after, ← h.mem]
    simp
  · have hcons : Consistent σ B current addedStates removedStates :=
      { inv := hc.inv
        live := fun x hx => hc.live x (hx.imp_left fun hB => (h.mem x).2 (.inl hB))
        added_nodup := hc.added_nodup
        added_new := fun x hx hB => hc.added_new x hx ((h.mem x).2 (.inl hB))
        removed_nodup := hc.removed_nodup
        removed_held := fun x hx => (hc.removed_held x hx).imp_left fun hL =>
          ((h.mem x).1 hL).resolve_right (hremoved x hx)
        current_held := fun c hcc => ((h.mem c).1 (hc.current_held c hcc)).resolve_right fun hp => hcur ⟨c, hcc, hp⟩ }
    obtain ⟨b, σ', hrun, hholds, hframe⟩ := hbase.update hcons h.base (hfits hcur)
    refine ⟨⟨b, m.pausedStates⟩, σ', _, ?_, ⟨hholds, h.nodup, fun x hx hin => ?_, fun x => ?_⟩, hframe⟩
    · rw [if_neg hcur]
      exact congrArg (Option.map _) hrun
    · obtain hB | hadd := (mem_after.1 hin).1
      · exact h.disjoint x hx hB
      · exact hc.added_new x hadd ((h.mem x).2 (.inr hx))
    · rw [mem_after, mem_after, h.mem]
      have hnot := hremoved x
      tauto

end Merging

/-! ### The searcher of the executor -/

/-- The searcher of the executor. -/
inductive UserSearcher (k : Kind) where
  | plain (s : State k)
  | merging (m : Merging (State k))

/-- The process tree, the searcher and the live states of the executor. -/
structure Execution (k : Kind) where
  system : System
  searcher : UserSearcher k
  states : Set ℕ

/-- What the executor does, and what is decided outside of the searchers while it does. -/
inductive Action where
  | attach (leftState rightState : ℕ)
  | remove (compressProcessTree : Bool) (state : ℕ)
  | update (o : Oracle) (current : Option ℕ) (addedStates removedStates : List ℕ)
  | selectState (o : Oracle) (prioritize : MergeGroup → Option ℕ) (mergeGroups : List MergeGroup)
  | pauseState (o : Oracle) (state : ℕ)
  | continueState (o : Oracle) (state : ℕ)

namespace UserSearcher

variable {k : Kind} (o : Oracle)

/-- `update`. -/
def update (current : Option ℕ) (addedStates removedStates : List ℕ) (σ : System) :
    UserSearcher k → Option (UserSearcher k × System)
  | .plain s => ((calls o [] k).update current addedStates removedStates s σ).map fun r => (.plain r.1, r.2)
  | .merging m =>
    (m.update (calls o [] k) current addedStates removedStates σ).map fun r => (.merging r.1, r.2)

/-- `empty`. -/
def empty (σ : System) : UserSearcher k → Bool
  | .plain s => (calls o [] k).empty s σ
  | .merging m => m.empty (calls o [] k) σ

/-- `selectState`. -/
def selectState (prioritize : MergeGroup → Option ℕ) (mergeGroups : List MergeGroup) (σ : System) :
    UserSearcher k → Option (ℕ × UserSearcher k × System)
  | .plain s => ((calls o [] k).selectState s σ).map fun r => (r.1, .plain r.2, σ)
  | .merging m =>
    (m.selectState (calls o [] k) prioritize mergeGroups σ).map fun r => (r.1, .merging r.2.1, r.2.2)

/-- `pauseState` of the `MergingSearcher`. -/
def pauseState (state : ℕ) (σ : System) : UserSearcher k → Option (UserSearcher k × System)
  | .plain _ => none
  | .merging m => (m.pauseState (calls o [] k) state σ).map fun r => (.merging r.1, r.2)

/-- `continueState` of the `MergingSearcher`. -/
def continueState (state : ℕ) (σ : System) : UserSearcher k → Option (UserSearcher k × System)
  | .plain _ => none
  | .merging m => (m.continueState (calls o [] k) state σ).map fun r => (.merging r.1, r.2)

/-- The states that are paused by the `MergingSearcher`. -/
def pausedStates : UserSearcher k → List ℕ
  | .plain _ => []
  | .merging m => m.pausedStates

/-- The searcher below the `MergingSearcher`. -/
def baseSearcher : UserSearcher k → State k
  | .plain s => s
  | .merging m => m.baseSearcher

end UserSearcher

namespace Execution

variable {k : Kind}

/-- One action; a failed assertion ends the run. -/
def step (e : Execution k) : Action → Option (Execution k)
  | .attach leftState rightState =>
    (e.system.step (.attach leftState rightState)).map fun σ => { e with system := σ }
  | .remove compressProcessTree state =>
    (e.system.step (.remove compressProcessTree state)).map fun σ => { e with system := σ }
  | .update o current addedStates removedStates =>
    (e.searcher.update o current addedStates removedStates e.system).map fun r =>
      ⟨r.2, r.1, after e.states addedStates removedStates⟩
  | .selectState o prioritize mergeGroups =>
    (e.searcher.selectState o prioritize mergeGroups e.system).map fun r => ⟨r.2.2, r.2.1, e.states⟩
  | .pauseState o state => (e.searcher.pauseState o state e.system).map fun r => ⟨r.2, r.1, e.states⟩
  | .continueState o state => (e.searcher.continueState o state e.system).map fun r => ⟨r.2, r.1, e.states⟩

/-- What the executor keeps to: a forked state is new, a state that is removed from the tree is no longer live; the
current state is live, added states are new ones of the tree and removed ones are live or just added; a searcher that
is empty is not asked; a state that is prioritized is an open one, open states are live, and states that have arrived
are paused; and a state is paused and continued in turn. -/
def Allowed (e : Execution k) : Action → Prop
  | .attach leftState rightState => e.system.tree.Live rightState ∧ ¬ e.system.tree.Live leftState
  | .remove _ state => e.system.tree.Live state ∧ state ∉ e.states
  | .update _ current addedStates removedStates =>
    (∀ c ∈ current, c ∈ e.states) ∧ addedStates.Nodup ∧
      (∀ x ∈ addedStates, x ∉ e.states ∧ e.system.tree.Live x) ∧ removedStates.Nodup ∧
      ∀ x ∈ removedStates, x ∈ e.states ∨ x ∈ addedStates
  | .selectState o prioritize mergeGroups =>
    e.searcher.empty o e.system = false ∧
      (∀ group ∈ mergeGroups, (∀ es ∈ prioritize group, es ∈ group.openStates) ∧
        ∀ x ∈ group.openStates, x ∈ e.states) ∧
      (mergeGroups.flatMap MergeGroup.closedStates).Nodup ∧
      ∀ x ∈ mergeGroups.flatMap MergeGroup.closedStates, x ∈ e.searcher.pausedStates
  | .pauseState _ state => (∃ m, e.searcher = .merging m) ∧ state ∈ e.states ∧ state ∉ e.searcher.pausedStates
  | .continueState _ state => state ∈ e.searcher.pausedStates

/-- The updates on which the searchers can be relied. -/
def Fits (e : Execution k) : Action → Prop
  | .update _ current addedStates removedStates =>
    (∀ x ∈ removedStates, x ∉ e.searcher.pausedStates) ∧
      ((∃ c ∈ current, c ∈ e.searcher.pausedStates) → addedStates = [] ∧ removedStates = []) ∧
      ((¬ ∃ c ∈ current, c ∈ e.searcher.pausedStates) → (view k).fits current e.searcher.baseSearcher)
  | _ => True

/-! ### The invariant -/

/-- Every live state is held once: by the searcher, or paused. -/
structure Holds (e : Execution k) (B : Set ℕ) : Prop where
  base : (view k).holds e.searcher.baseSearcher e.system B
  nodup : e.searcher.pausedStates.Nodup
  disjoint : ∀ x ∈ e.searcher.pausedStates, x ∉ B
  mem : ∀ x, x ∈ e.states ↔ x ∈ B ∨ x ∈ e.searcher.pausedStates

/-- The invariant of runs. -/
structure Inv (e : Execution k) : Prop where
  inv : e.system.Inv
  live : ∀ x ∈ e.states, e.system.tree.Live x
  unused : ∀ id ∉ (view k).ids, e.system.registered id = ∅
  holds : ∃ B, e.Holds B

/-- At the start the searcher has no states. -/
def start (k : Kind) (initialState : ℕ) (useMerge : Bool) : Execution k where
  system := System.start initialState
  searcher := if useMerge then .merging ⟨initial k, []⟩ else .plain (initial k)
  states := ∅

variable {e e' : Execution k}

theorem start_inv (k : Kind) (initialState : ℕ) (useMerge : Bool) : (start k initialState useMerge).Inv where
  inv := System.start_inv initialState
  live x hx := absurd hx (Set.notMem_empty x)
  unused _ _ := rfl
  holds := by
    have hinit := initial_holds (σ := System.start initialState) (fun _ => rfl) k
    refine ⟨∅, ?_, ?_, ?_, ?_⟩
    · cases useMerge with
      | false => exact hinit
      | true => exact hinit
    · cases useMerge with
      | false => exact List.nodup_nil
      | true => exact List.nodup_nil
    · exact fun x _ => Set.notMem_empty x
    · intro x
      refine iff_of_false (Set.notMem_empty x) fun h => h.elim (Set.notMem_empty x) ?_
      cases useMerge with
      | false => exact List.not_mem_nil
      | true => exact List.not_mem_nil

/-- A searcher registers live states only. -/
theorem Inv.registered (h : e.Inv) (hk : k.Distinct) {x : ℕ} {id : Fin 3} (hx : x ∈ e.system.registered id) :
    x ∈ e.states := by
  obtain ⟨B, hB⟩ := h.holds
  by_cases hid : id ∈ (view k).ids
  · exact (hB.mem x).2 (.inl ((calls_correct .first [] k hk).registered hB.base hid hx))
  · rw [h.unused id hid] at hx
    exact absurd hx (Set.notMem_empty x)

/-- A change of the tree that leaves the searchers' states alone. -/
theorem Inv.tree (h : e.Inv) (hk : k.Distinct) (o : Oracle) {t : PTree} (hinv : System.Inv { e.system with tree := t })
    (hlive : ∀ x ∈ e.states, t.Live x) : Inv { e with system := { e.system with tree := t } } := by
  obtain ⟨B, hB⟩ := h.holds
  refine ⟨hinv, hlive, h.unused, B, ?_, hB.nodup, hB.disjoint, hB.mem⟩
  exact (calls_correct o [] k hk).frame hB.base fun _ _ => rfl

/-- A fork in the tree. -/
theorem Inv.attach (h : e.Inv) (hk : k.Distinct) (o : Oracle) {leftState rightState : ℕ}
    (ha : e.Allowed (.attach leftState rightState)) : ∃ e', e.step (.attach leftState rightState) = some e' ∧ e'.Inv := by
  obtain ⟨σ', hstep, hinv⟩ := h.inv.step (a := .attach leftState rightState) ha
  obtain ⟨⟨n, pa, hn⟩, -⟩ := ha
  obtain ⟨t', hrun, hsplit⟩ := PTree.attach_split (l := leftState) h.inv.shape hn
  have hσ : σ' = { e.system with tree := t' } := by
    simp only [System.step, h.inv.shape.owner hn, hrun, Option.bind_eq_bind, Option.bind_some, Option.some.injEq] at hstep
    exact hstep.symm
  subst hσ
  exact ⟨_, congrArg (Option.map _) hstep, h.tree hk o hinv fun x hx => (hsplit.live hn).2 (.inl (h.live x hx))⟩

/-- A state that is not live is removed from the tree. -/
theorem Inv.remove (h : e.Inv) (hk : k.Distinct) (o : Oracle) {compressProcessTree : Bool} {state : ℕ}
    (ha : e.Allowed (.remove compressProcessTree state)) :
    ∃ e', e.step (.remove compressProcessTree state) = some e' ∧ e'.Inv := by
  have hreg : ∀ id, state ∉ e.system.registered id := fun id hx => ha.2 (h.registered hk hx)
  obtain ⟨σ', hstep, hinv⟩ := h.inv.step (a := .remove compressProcessTree state) ⟨ha.1, hreg⟩
  obtain ⟨⟨n, pa, hn⟩, hnot⟩ := ha
  obtain ⟨t', hrun, -, -, hlive⟩ := PTree.remove_spec h.inv.shape h.inv.tagged hn hreg compressProcessTree
  have hσ : σ' = { e.system with tree := t' } := by
    simp only [System.step, h.inv.shape.owner hn, hrun, Option.bind_eq_bind, Option.bind_some, Option.some.injEq] at hstep
    exact hstep.symm
  subst hσ
  exact ⟨_, congrArg (Option.map _) hstep, h.tree hk o hinv fun x hx =>
    (hlive x).2 ⟨h.live x hx, fun heq => hnot (heq ▸ hx)⟩⟩

/-- After calls that change the tree in the bits of the searcher only. -/
theorem Inv.of_frame (h : e.Inv) {σ' : System} {searcher : UserSearcher k} {L B : Set ℕ}
    (hframe : Frame (view k).ids e.system σ') (hlive : ∀ x ∈ L, e.system.tree.Live x)
    (hholds : Execution.Holds ⟨σ', searcher, L⟩ B) : Inv ⟨σ', searcher, L⟩ :=
  ⟨hframe.inv, fun x hx => (hframe.live x).2 (hlive x hx), fun id hid => (hframe.registered id hid).trans (h.unused id hid),
    B, hholds⟩

theorem Inv.update (h : e.Inv) (hk : k.Distinct) {o : Oracle} {current : Option ℕ} {addedStates removedStates : List ℕ}
    (ha : e.Allowed (.update o current addedStates removedStates))
    (hf : e.Fits (.update o current addedStates removedStates)) :
    ∃ e', e.step (.update o current addedStates removedStates) = some e' ∧ e'.Inv := by
  obtain ⟨hcur, hadded, hnew, hremoved, hheld⟩ := ha
  have hc : Consistent e.system e.states current addedStates removedStates :=
    ⟨h.inv, fun x hx => hx.elim (h.live x) fun hx => (hnew x hx).2, hadded, fun x hx => (hnew x hx).1, hremoved, hheld,
      hcur⟩
  have hlive : ∀ x ∈ after e.states addedStates removedStates, e.system.tree.Live x :=
    fun x hx => hc.live x (mem_after.1 hx).1
  have hbase := calls_correct o [] k hk
  obtain ⟨B, hB⟩ := h.holds
  obtain ⟨σ, searcher, L⟩ := e
  cases searcher with
  | plain s =>
    have hL : B = L := Set.ext fun x => ((hB.mem x).trans (or_iff_left List.not_mem_nil)).symm
    subst hL
    obtain ⟨s', σ', hrun, hholds, hframe⟩ := hbase.update hc hB.base
      (hf.2.2 fun hex => hex.elim fun c hc => absurd hc.2 List.not_mem_nil)
    refine ⟨⟨σ', .plain s', _⟩, ?_, h.of_frame (B := after B addedStates removedStates) hframe hlive
      ⟨hholds, List.nodup_nil, fun x hx => absurd hx List.not_mem_nil, fun x => (or_iff_left List.not_mem_nil).symm⟩⟩
    have hrun : (calls o [] k).update current addedStates removedStates s σ = some (s', σ') := hrun
    simp only [Execution.step, UserSearcher.update, hrun, Option.map_some]
  | merging m =>
    obtain ⟨m', σ', B', hrun, hholds, hframe⟩ := Merging.update_spec hbase
      ⟨hB.base, hB.nodup, hB.disjoint, hB.mem⟩ hc hf.1 hf.2.1 hf.2.2
    refine ⟨⟨σ', .merging m', _⟩, ?_, h.of_frame hframe hlive
      ⟨hholds.base, hholds.nodup, hholds.disjoint, hholds.mem⟩⟩
    simp only [Execution.step, UserSearcher.update, hrun, Option.map_some]

/-- A selection returns a live state. -/
theorem Inv.selectState (h : e.Inv) (hk : k.Distinct) {o : Oracle} {prioritize : MergeGroup → Option ℕ}
    {mergeGroups : List MergeGroup} (ha : e.Allowed (.selectState o prioritize mergeGroups)) :
    ∃ x searcher' σ', e.searcher.selectState o prioritize mergeGroups e.system = some (x, searcher', σ') ∧
      x ∈ e.states ∧ Inv ⟨σ', searcher', e.states⟩ := by
  obtain ⟨hempty, hgroups, hnodup, hclosed⟩ := ha
  have hbase := calls_correct o [] k hk
  obtain ⟨B, hB⟩ := h.holds
  obtain ⟨σ, searcher, L⟩ := e
  have hliveB : ∀ x ∈ B, σ.tree.Live x := fun x hx => h.live x ((hB.mem x).2 (.inl hx))
  have hne : B ≠ ∅ := by
    intro hB0
    have he := (hbase.empty h.inv hliveB hB.base).2 hB0
    cases searcher with
    | plain s => exact Bool.false_ne_true (hempty.symm.trans he)
    | merging m => exact Bool.false_ne_true (hempty.symm.trans he)
  cases searcher with
  | plain s =>
    obtain ⟨x, s', hrun, hx, hholds⟩ := hbase.selectState h.inv hliveB hB.base hne
    refine ⟨x, .plain s', σ, ?_, (hB.mem x).2 (.inl hx), h.inv, h.live, h.unused, B, hholds, hB.nodup, hB.disjoint,
      hB.mem⟩
    have hrun : (calls o [] k).selectState s σ = some (x, s') := hrun
    simp only [UserSearcher.selectState, hrun, Option.map_some]
  | merging m =>
    obtain ⟨x, m', σ', B', hrun, hx, hholds, hframe⟩ := Merging.selectFrom_spec hbase mergeGroups
      ⟨hB.base, hB.nodup, hB.disjoint, hB.mem⟩ h.inv h.live hne
      (fun group hgroup es hes => (hgroups group hgroup).2 es ((hgroups group hgroup).1 es hes)) hnodup hclosed
    refine ⟨x, .merging m', σ', ?_, hx, h.of_frame hframe h.live
      ⟨hholds.base, hholds.nodup, hholds.disjoint, hholds.mem⟩⟩
    have hsel : m.selectState (calls o [] k) prioritize mergeGroups σ = some (x, m', σ') := by
      unfold Merging.selectState
      rw [if_neg (by rw [show (calls o [] k).empty m.baseSearcher σ = false from hempty]; decide)]
      exact hrun
    simp only [UserSearcher.selectState, hsel, Option.map_some]

theorem Inv.pauseState (h : e.Inv) (hk : k.Distinct) {o : Oracle} {state : ℕ} (ha : e.Allowed (.pauseState o state)) :
    ∃ e', e.step (.pauseState o state) = some e' ∧ e'.Inv := by
  obtain ⟨⟨m, hm⟩, hL, hnot⟩ := ha
  obtain ⟨B, hB⟩ := h.holds
  obtain ⟨σ, searcher, L⟩ := e
  obtain rfl : searcher = .merging m := hm
  obtain ⟨m', σ', B', hrun, hholds, hframe⟩ := Merging.pauseState_spec (calls_correct o [] k hk)
    ⟨hB.base, hB.nodup, hB.disjoint, hB.mem⟩ h.inv h.live hL hnot
  refine ⟨⟨σ', .merging m', L⟩, ?_, h.of_frame hframe h.live ⟨hholds.base, hholds.nodup, hholds.disjoint, hholds.mem⟩⟩
  simp only [Execution.step, UserSearcher.pauseState, hrun, Option.map_some]

theorem Inv.continueState (h : e.Inv) (hk : k.Distinct) {o : Oracle} {state : ℕ}
    (ha : e.Allowed (.continueState o state)) : ∃ e', e.step (.continueState o state) = some e' ∧ e'.Inv := by
  obtain ⟨B, hB⟩ := h.holds
  obtain ⟨σ, searcher, L⟩ := e
  cases searcher with
  | plain s => exact absurd ha List.not_mem_nil
  | merging m =>
    obtain ⟨m', σ', B', hrun, hholds, hframe, -⟩ := Merging.continueState_spec (calls_correct o [] k hk)
      ⟨hB.base, hB.nodup, hB.disjoint, hB.mem⟩ h.inv h.live ha
    refine ⟨⟨σ', .merging m', L⟩, ?_, h.of_frame hframe h.live
      ⟨hholds.base, hholds.nodup, hholds.disjoint, hholds.mem⟩⟩
    simp only [Execution.step, UserSearcher.continueState, hrun, Option.map_some]

/-- An action of the executor that fits succeeds and keeps the invariant. -/
theorem Inv.step (h : e.Inv) (hk : k.Distinct) (o : Oracle) {a : Action} (ha : e.Allowed a) (hf : e.Fits a) :
    ∃ e', e.step a = some e' ∧ e'.Inv := by
  cases a with
  | attach leftState rightState => exact h.attach hk o ha
  | remove compressProcessTree state => exact h.remove hk o ha
  | update o current addedStates removedStates => exact h.update hk ha hf
  | selectState o prioritize mergeGroups =>
    obtain ⟨x, searcher', σ', hrun, -, hinv⟩ := h.selectState hk ha
    exact ⟨_, congrArg (Option.map _) hrun, hinv⟩
  | pauseState o state => exact h.pauseState hk ha
  | continueState o state => exact h.continueState hk ha

/-! ### Runs -/

/-- A run in which the executor keeps to what is `Allowed`, and every update `Fits`. -/
def Reached (k : Kind) (initialState : ℕ) (useMerge : Bool) (e : Execution k) : Prop :=
  Run Execution.step (fun e a => e.Allowed a ∧ e.Fits a) (start k initialState useMerge) e

theorem Reached.inv {initialState : ℕ} {useMerge : Bool} (hk : k.Distinct) (h : Reached k initialState useMerge e) :
    e.Inv := by
  refine h.invariant (fun e a e' hinv hg hstep => ?_) (start_inv k initialState useMerge)
  obtain ⟨e₁, hstep₁, hinv₁⟩ := hinv.step hk .first hg.1 hg.2
  obtain rfl : e₁ = e' := Option.some.inj (hstep₁.symm.trans hstep)
  exact hinv₁

/-- The searcher is empty when all live states are paused. -/
theorem Inv.empty (h : e.Inv) (hk : k.Distinct) (o : Oracle) :
    e.searcher.empty o e.system = true ↔ ∀ x ∈ e.states, x ∈ e.searcher.pausedStates := by
  obtain ⟨B, hB⟩ := h.holds
  have hlive : ∀ x ∈ B, e.system.tree.Live x := fun x hx => h.live x ((hB.mem x).2 (.inl hx))
  have hbase := (calls_correct o [] k hk).empty h.inv hlive hB.base
  have hsearcher : e.searcher.empty o e.system = (calls o [] k).empty e.searcher.baseSearcher e.system := by
    cases e.searcher with
    | plain s => rfl
    | merging m => rfl
  rw [hsearcher, hbase]
  constructor
  · intro hempty x hx
    refine ((hB.mem x).1 hx).resolve_left ?_
    rw [hempty]
    exact Set.notMem_empty x
  · intro hall
    refine Set.eq_empty_iff_forall_notMem.2 fun x hx => ?_
    exact hB.disjoint x (hall x ((hB.mem x).2 (.inl hx))) hx

/-- **The searcher holds exactly the live states**, each once: in every run whose updates all fit, no call fails an
assertion, the searcher is empty only if every live state is paused, and a selected state is live. -/
theorem searcher_holds (hk : k.Distinct) {initialState : ℕ} {useMerge : Bool} (h : Reached k initialState useMerge e) :
    (∃ B, e.Holds B) ∧
      (∀ a, e.Allowed a → e.Fits a → ∃ e', e.step a = some e') ∧
      (∀ o, e.searcher.empty o e.system = true ↔ ∀ x ∈ e.states, x ∈ e.searcher.pausedStates) ∧
      ∀ o prioritize mergeGroups, e.Allowed (.selectState o prioritize mergeGroups) →
        ∃ x ∈ e.states, ∃ r, e.searcher.selectState o prioritize mergeGroups e.system = some (x, r) := by
  have hinv := h.inv hk
  refine ⟨hinv.holds, fun a ha hf => ?_, hinv.empty hk, fun o prioritize mergeGroups ha => ?_⟩
  · obtain ⟨e', hstep, -⟩ := hinv.step hk .first ha hf
    exact ⟨e', hstep⟩
  · obtain ⟨x, searcher', σ', hrun, hx, -⟩ := hinv.selectState hk ha
    exact ⟨x, hx, (searcher', σ'), hrun⟩

/-- Below a `MergingSearcher` a `BFSSearcher` gets a state and one that was forked from it, which is paused at the end of its
merge.  The memory cap may terminate the paused state: then the `MergingSearcher` has the `BFSSearcher` remove it, which no
longer has it. -/
theorem reached_paused : ∃ e : Execution .bfs, Reached .bfs 1 true e ∧
    e.Allowed (.selectState .first (fun _ => none) []) ∧ e.Allowed (.update .first (some 1) [] [2]) ∧
      e.step (.update .first (some 1) [] [2]) = none := by
  refine ⟨_, .step (.pauseState .first 2) (.step (.update .first (some 1) [2] []) (.step (.attach 2 1)
    (.step (.update .first none [1] []) .refl ⟨?_, ?_⟩ rfl) ⟨?_, trivial⟩ rfl) ⟨?_, ?_⟩ rfl) ⟨?_, trivial⟩ rfl, ⟨rfl, ?_, ?_, ?_⟩,
    ?_, rfl⟩
  · refine ⟨fun c hc => (nomatch hc), List.nodup_singleton 1, fun x hx => ?_, List.nodup_nil, fun x hx => (nomatch hx)⟩
    obtain rfl := List.mem_singleton.1 hx
    exact ⟨Set.notMem_empty 1, 0, none, _, rfl, rfl, rfl⟩
  · exact ⟨fun x hx => (nomatch hx), fun hex => hex.elim fun c hc => (nomatch hc.1), fun _ => trivial⟩
  · refine ⟨⟨0, none, _, rfl, rfl, rfl⟩, ?_⟩
    intro ⟨n, pa, hn⟩
    have howner : none = some n := (System.start_inv 1).shape.owner hn
    exact nomatch howner
  · refine ⟨fun c hc => ?_, List.nodup_singleton 2, fun x hx => ?_, List.nodup_nil, fun x hx => (nomatch hx)⟩
    · obtain rfl := Option.some.inj hc
      exact mem_after.2 ⟨.inr List.mem_cons_self, List.not_mem_nil⟩
    · obtain rfl := List.mem_singleton.1 hx
      refine ⟨fun hin => ?_, 1, some 0, _, rfl, rfl, rfl⟩
      obtain h | h := (mem_after.1 hin).1
      · exact Set.notMem_empty 2 h
      · exact absurd h (by decide)
  · exact ⟨fun x hx => (nomatch hx), fun hex => hex.elim fun c hc => (nomatch hc.2), fun _ => trivial⟩
  · exact ⟨⟨_, rfl⟩, mem_after.2 ⟨.inr List.mem_cons_self, List.not_mem_nil⟩, List.not_mem_nil⟩
  · exact fun group hgroup => (nomatch hgroup)
  · exact List.nodup_nil
  · exact fun x hx => (nomatch hx)
  · refine ⟨fun c hc => ?_, List.nodup_nil, fun x hx => (nomatch hx), List.nodup_singleton 2, fun x hx => .inl ?_⟩
    · obtain rfl := Option.some.inj hc
      exact mem_after.2 ⟨.inl (mem_after.2 ⟨.inr List.mem_cons_self, List.not_mem_nil⟩), List.not_mem_nil⟩
    · obtain rfl := List.mem_singleton.1 hx
      exact mem_after.2 ⟨.inr List.mem_cons_self, List.not_mem_nil⟩

/-- With the second state paused, a state is selected. -/
theorem searcher_holds_bfs : ∃ e : Execution .bfs, Reached .bfs 1 true e ∧
    ∃ x ∈ e.states, ∃ r, e.searcher.selectState .first (fun _ => none) [] e.system = some (x, r) := by
  obtain ⟨e, hreached, hallowed, -⟩ := reached_paused
  exact ⟨e, hreached, (searcher_holds (k := .bfs) List.nodup_nil hreached).2.2.2 .first (fun _ => none) [] hallowed⟩

/-- The removal of the paused state fails. -/
theorem removed_paused_fails : ∃ e : Execution .bfs, Run Execution.step Execution.Allowed (start .bfs 1 true) e ∧
    e.Allowed (.update .first (some 1) [] [2]) ∧ e.step (.update .first (some 1) [] [2]) = none := by
  obtain ⟨e, hreached, -, hallowed, hfails⟩ := reached_paused
  exact ⟨e, hreached.weaken fun _ _ h => h.1, hallowed, hfails⟩

end Execution

end Searcher

end SymBisect
