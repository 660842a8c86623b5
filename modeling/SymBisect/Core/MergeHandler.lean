import Mathlib.Data.Finset.Sort
import Mathlib.Data.List.Perm.Lattice
import Mathlib.Algebra.Order.Ring.Rat
import Mathlib.Logic.Function.Basic

/-!
# Merge handlers

`lib/Core/MergeHandler.cpp`, with `MergingSearcher` of `lib/Core/Searcher.cpp`, `klee_open_merge` and `klee_close_merge` of the
special function handler, and what the executor does when it forks, terminates and deletes states.

States and handlers are given by numbers, handlers in the order in which they are made.  The searcher below the
`MergingSearcher` is the set of the states it was told of; every searcher of this development is one
(`Searcher.calls_correct`).  A computation without a result is a failed assertion or a dangling pointer.
-/

namespace SymBisect

namespace KleeMerge

/-! ### Vectors and maps -/

/-- `std::find`, `std::swap` with the last element, `pop_back`. -/
def swapErase (states : List ℕ) (state : ℕ) : List ℕ :=
  match states.getLast? with
  | none => []
  | some back => (states.set (states.idxOf state) back).dropLast

/-- Up to the order, a present element is erased. -/
theorem swapErase_perm {states : List ℕ} {state : ℕ} (h : state ∈ states) :
    (swapErase states state).Perm (states.erase state) := by
  obtain ⟨l, r, hl, rfl, herase⟩ := List.exists_erase_eq h
  rw [herase]
  have hidx : (l ++ state :: r).idxOf state = l.length := by
    rw [List.idxOf_append_of_notMem hl, List.idxOf_cons_self, Nat.add_zero]
  induction r using List.reverseRecOn with
  | nil =>
    have hrun : swapErase (l ++ [state]) state = l := by
      unfold swapErase
      rw [List.getLast?_concat, hidx]
      show ((l ++ [state]).set l.length state).dropLast = l
      rw [List.set_append_right _ _ (Nat.le_refl _), Nat.sub_self]
      exact List.dropLast_concat
    rw [hrun, List.append_nil]
  | append_singleton r back _ =>
    have hcons : l ++ state :: (r ++ [back]) = (l ++ state :: r) ++ [back] := by simp
    have hrun : swapErase (l ++ state :: (r ++ [back])) state = l ++ back :: r := by
      unfold swapErase
      rw [hcons, List.getLast?_concat, ← hcons, hidx]
      show ((l ++ state :: (r ++ [back])).set l.length back).dropLast = l ++ back :: r
      rw [List.set_append_right _ _ (Nat.le_refl _), Nat.sub_self, List.set_cons_zero]
      have hlast : l ++ back :: (r ++ [back]) = (l ++ back :: r) ++ [back] := by simp
      rw [hlast]
      exact List.dropLast_concat
    rw [hrun]
    exact (List.perm_append_singleton back r).symm.append_left l

/-- `reachedCloseMerge[mp].push_back(es)`. -/
def pushBack (mp es : ℕ) : List (ℕ × List ℕ) → List (ℕ × List ℕ)
  | [] => [(mp, [es])]
  | (k, cpv) :: rest =>
    if mp < k then (mp, [es]) :: (k, cpv) :: rest
    else if mp = k then (k, cpv ++ [es]) :: rest
    else (k, cpv) :: pushBack mp es rest

theorem flatMap_pushBack (mp es : ℕ) (groups : List (ℕ × List ℕ)) :
    ((pushBack mp es groups).flatMap Prod.snd).Perm (es :: groups.flatMap Prod.snd) := by
  induction groups with
  | nil => exact .refl _
  | cons group rest ih =>
    obtain ⟨k, cpv⟩ := group
    unfold pushBack
    by_cases hlt : mp < k
    · rw [if_pos hlt]
      exact .refl _
    · rw [if_neg hlt]
      by_cases heq : mp = k
      · rw [if_pos heq]
        show ((cpv ++ [es]) ++ rest.flatMap Prod.snd).Perm (es :: (cpv ++ rest.flatMap Prod.snd))
        rw [List.append_assoc]
        exact List.perm_middle
      · rw [if_neg heq]
        show (cpv ++ (pushBack mp es rest).flatMap Prod.snd).Perm (es :: (cpv ++ rest.flatMap Prod.snd))
        exact (ih.append_left cpv).trans List.perm_middle

theorem pushBack_ne_nil {mp es : ℕ} {groups : List (ℕ × List ℕ)} (h : ∀ group ∈ groups, group.2 ≠ []) :
    ∀ group ∈ pushBack mp es groups, group.2 ≠ [] := by
  induction groups with
  | nil =>
    intro group hgroup
    rw [List.mem_singleton.1 hgroup]
    exact List.cons_ne_nil _ _
  | cons group rest ih =>
    obtain ⟨k, cpv⟩ := group
    have hrest := fun g hg => h g (List.mem_cons_of_mem _ hg)
    unfold pushBack
    by_cases hlt : mp < k
    · rw [if_pos hlt]
      intro g hg
      obtain rfl | hg := List.mem_cons.1 hg
      · exact List.cons_ne_nil _ _
      · exact h g hg
    · rw [if_neg hlt]
      by_cases heq : mp = k
      · rw [if_pos heq]
        intro g hg
        obtain rfl | hg := List.mem_cons.1 hg
        · show cpv ++ [es] ≠ []
          simp
        · exact hrest g hg
      · rw [if_neg heq]
        intro g hg
        obtain rfl | hg := List.mem_cons.1 hg
        · exact h _ List.mem_cons_self
        · exact ih hrest g hg

/-! ### The handlers and the searcher -/

/-- `MergeHandler`; the map from instructions to the states that wait there is the list of its entries.  The mean is a
`double` in the source and exact here. -/
structure MergeHandler where
  openInstruction : BitVec 64
  closedMean : ℚ
  closedStateCount : BitVec 32
  openStates : List ℕ
  reachedCloseMerge : List (ℕ × List ℕ)
  refCount : ℕ

namespace MergeHandler

variable (m : MergeHandler)

def getMean : ℚ := if m.closedStateCount = 0 then 0 else m.closedMean

def getInstructionDistance (steppedInstructions : BitVec 64) : BitVec 32 :=
  (steppedInstructions - m.openInstruction).setWidth 32

def addOpenState (es : ℕ) : MergeHandler := { m with openStates := m.openStates ++ [es] }

def removeOpenState (es : ℕ) : Option MergeHandler :=
  if es ∈ m.openStates then some { m with openStates := swapErase m.openStates es } else none

/-- A reference to the handler is copied. -/
def ref : MergeHandler := { m with refCount := m.refCount + 1 }

/-- The statistics of `addClosedState`. -/
def countClosed (distance : BitVec 32) : MergeHandler :=
  let closedStateCount := m.closedStateCount + 1
  { m with
    closedStateCount := closedStateCount
    closedMean := m.closedMean + ((distance.toNat : ℚ) - m.closedMean) / closedStateCount.toNat }

def hasMergedStates : Bool := !m.reachedCloseMerge.isEmpty

/-- The states that have reached a `klee_close_merge` and were not merged. -/
def waiting : List ℕ := m.reachedCloseMerge.flatMap Prod.snd

end MergeHandler

/-- The executor, as far as merging is concerned.  The merge stack of a state has the last element of the vector first; a
state that does not exist has none. -/
structure System where
  mergeHandler : ℕ → Option MergeHandler
  nextHandler : ℕ
  openMergeStack : ℕ → Option (List ℕ)
  steppedInstructions : ℕ → BitVec 64
  addedStates : List ℕ
  removedStates : List ℕ
  baseSearcher : Finset ℕ
  pausedStates : List ℕ
  inCloseMerge : Finset ℕ
  mergeGroups : List ℕ

/-- `update` of the searcher below; states are added that it does not have, and removed that it has. -/
def updateBase (base : Finset ℕ) (addedStates removedStates : List ℕ) : Option (Finset ℕ) :=
  if addedStates.Nodup ∧ (∀ x ∈ addedStates, x ∉ base) ∧ removedStates.Nodup ∧
      ∀ x ∈ removedStates, x ∈ base ∨ x ∈ addedStates then
    some ((base ∪ addedStates.toFinset) \ removedStates.toFinset)
  else none

namespace System

/-- The memory of a handler. -/
def setHandler (s : System) (h : ℕ) (m : Option MergeHandler) : System :=
  { s with mergeHandler := Function.update s.mergeHandler h m }

def setStack (s : System) (es : ℕ) (stack : Option (List ℕ)) : System :=
  { s with openMergeStack := Function.update s.openMergeStack es stack }

/-- A call on every handler of a stack. -/
def updateHandlers (f : MergeHandler → Option MergeHandler) : List ℕ → System → Option System
  | [], s => some s
  | h :: hs, s => do
    let m ← s.mergeHandler h
    let m ← f m
    updateHandlers f hs (s.setHandler h (some m))

/-! ### `MergingSearcher` -/

def pauseState (es : ℕ) (s : System) : Option System :=
  if es ∈ s.pausedStates then none
  else do
    let base ← updateBase s.baseSearcher [] [es]
    some { s with baseSearcher := base, pausedStates := s.pausedStates ++ [es] }

def continueState (es : ℕ) (s : System) : Option System :=
  if es ∈ s.pausedStates then do
    let base ← updateBase s.baseSearcher [es] []
    some { s with baseSearcher := base, pausedStates := s.pausedStates.erase es }
  else none

/-- The loops of `releaseStates`. -/
def releaseEach : List ℕ → System → Option System
  | [], s => some s
  | es :: rest, s => do
    let s ← s.continueState es
    releaseEach rest { s with inCloseMerge := s.inCloseMerge.erase es }

/-- `releaseStates`. -/
def releaseStates (h : ℕ) (s : System) : Option System := do
  let m ← s.mergeHandler h
  let s ← releaseEach m.waiting s
  some (s.setHandler h (some { m with reachedCloseMerge := [] }))

/-- `getPrioritizeState`. -/
def getPrioritizeState (s : System) (m : MergeHandler) : Option ℕ :=
  m.openStates.find? fun es =>
    decide (es ∉ s.inCloseMerge) &&
      decide (((m.getInstructionDistance (s.steppedInstructions es)).toNat : ℚ) < 2 * m.getMean)

/-- The loop of `selectState`, and the call that follows it. -/
def selectFrom (select : Finset ℕ → Option ℕ) : List ℕ → System → Option (ℕ × System)
  | [], s => (select s.baseSearcher).map fun es => (es, s)
  | h :: hs, s => do
    let m ← s.mergeHandler h
    if m.hasMergedStates then
      match s.getPrioritizeState m with
      | some es => some (es, s)
      | none => do
        let s ← s.releaseStates h
        selectFrom select hs s
    else selectFrom select hs s

/-- `selectState`; `select` is that of the searcher below. -/
def selectState (useIncompleteMerge : Bool) (select : Finset ℕ → Option ℕ) (s : System) : Option (ℕ × System) :=
  -- base searcher is empty
  if s.baseSearcher = ∅ then none
  else if useIncompleteMerge then selectFrom select s.mergeGroups s
  else (select s.baseSearcher).map fun es => (es, s)

/-- `MergingSearcher::update`. -/
def update (current : Option ℕ) (s : System) : Option System :=
  if ∃ c ∈ current, c ∈ s.pausedStates then some s
  else do
    let base ← updateBase s.baseSearcher s.addedStates s.removedStates
    some { s with baseSearcher := base }

/-! ### References -/

/-- `~MergeHandler`. -/
def destroyHandler (h : ℕ) (s : System) : Option System :=
  -- all merge handlers should be registered in mergeGroups
  if h ∈ s.mergeGroups then do
    let s ← releaseStates h { s with mergeGroups := swapErase s.mergeGroups h }
    some (s.setHandler h none)
  else none

/-- A reference to a handler goes. -/
def unref (h : ℕ) (s : System) : Option System := do
  let m ← s.mergeHandler h
  let s := s.setHandler h (some { m with refCount := m.refCount - 1 })
  if m.refCount - 1 = 0 then s.destroyHandler h else some s

def unrefEach : List ℕ → System → Option System
  | [], s => some s
  | h :: hs, s => do
    let s ← s.unref h
    unrefEach hs s

/-- `~ExecutionState`: the body of the destructor, then its members. -/
def deleteState (es : ℕ) (s : System) : Option System := do
  let stack ← s.openMergeStack es
  let s ← updateHandlers (fun m => m.removeOpenState es) stack.reverse s
  unrefEach stack.reverse (s.setStack es none)

/-! ### The executor -/

def terminateState (es : ℕ) (s : System) : Option System :=
  if es ∈ s.addedStates then
    -- never reached searcher, just delete immediately
    deleteState es { s with addedStates := s.addedStates.erase es }
  else some { s with removedStates := s.removedStates ++ [es] }

/-- `branch` and the copy constructor; the new state is `falseState`. -/
def branch (es falseState : ℕ) (s : System) : Option System := do
  let stack ← s.openMergeStack es
  let s ← updateHandlers (fun m => some m.ref) stack.reverse s
  let s ← updateHandlers (fun m => some (m.addOpenState falseState)) stack.reverse s
  some { s.setStack falseState (some stack) with
    steppedInstructions := Function.update s.steppedInstructions falseState (s.steppedInstructions es)
    addedStates := s.addedStates ++ [falseState] }

def deleteEach : List ℕ → System → Option System
  | [], s => some s
  | es :: rest, s => do
    let s ← s.deleteState es
    deleteEach rest s

/-- `updateStates`. -/
def updateStates (current : Option ℕ) (s : System) : Option System := do
  let s ← s.update current
  let s ← deleteEach s.removedStates { s with addedStates := [] }
  some { s with removedStates := [] }

/-- `addClosedState`; `merge mState es` is the result of `mState->merge(*es)`. -/
def addClosedState (merge : ℕ → ℕ → Bool) (h es mp : ℕ) (s : System) : Option System := do
  let m ← s.mergeHandler h
  let m ← (m.countClosed (m.getInstructionDistance (s.steppedInstructions es))).removeOpenState es
  match m.reachedCloseMerge.lookup mp with
  | none => pauseState es (s.setHandler h (some { m with reachedCloseMerge := pushBack mp es m.reachedCloseMerge }))
  | some cpv =>
    if cpv.any fun mState => merge mState es then do
      let s ← terminateState es (s.setHandler h (some m))
      some { s with inCloseMerge := s.inCloseMerge.erase es }
    else pauseState es (s.setHandler h (some { m with reachedCloseMerge := pushBack mp es m.reachedCloseMerge }))

/-- `handleOpenMerge`. -/
def handleOpenMerge (es : ℕ) (s : System) : Option System := do
  let stack ← s.openMergeStack es
  let h := s.nextHandler
  let m : MergeHandler := {
    openInstruction := s.steppedInstructions es
    closedMean := 0
    closedStateCount := 0
    openStates := []
    reachedCloseMerge := []
    refCount := 1 }
  some { (s.setHandler h (some (m.addOpenState es))).setStack es (some (h :: stack)) with
    nextHandler := h + 1
    mergeGroups := s.mergeGroups ++ [h] }

/-- `handleCloseMerge`. -/
def handleCloseMerge (merge : ℕ → ℕ → Bool) (es mp : ℕ) (s : System) : Option System := do
  let stack ← s.openMergeStack es
  match stack with
  -- a close without a preceding open is a warning
  | [] => some s
  | h :: rest =>
    -- a state cannot run into close_merge while being closed
    if es ∈ s.inCloseMerge then none
    else do
      let s ← addClosedState merge h es mp { s with inCloseMerge := insert es s.inCloseMerge }
      unref h (s.setStack es (some rest))

end System

end KleeMerge

end SymBisect
