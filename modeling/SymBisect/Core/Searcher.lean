import SymBisect.Core.RandomPath

/-!
# Searchers

The searchers of `lib/Core/Searcher.cpp`.  A `Kind` says how a searcher is built from others, and `State` is what
it keeps; a random path searcher keeps nothing, since its states are the tagged leaves of the process tree.  A
call that fails an assertion, or leaves a `std::vector` undefined, has no result.

`DiscretePDF` is the list of its items: whatever the weights are, `choose` walks down its tree and returns one of
them.  What clocks, random numbers and weights decide in a call is an `Oracle`.

`MergingSearcher` is the outermost searcher, as `constructUserSearcher` builds it, and the one whose `pauseState` and
`continueState` the merge handlers call.
-/

namespace SymBisect

open RandomPathSearcher

namespace Searcher

/-- `WeightedRandomSearcher::WeightType`. -/
inductive WeightType where
  | Depth | RP | QueryCost | InstCount | CPInstCount | MinDistToUncovered | CoveringNew
  deriving DecidableEq, Repr

/-- `updateWeights`. -/
def WeightType.updateWeights : WeightType → Bool
  | .Depth | .RP => false
  | _ => true

mutual

/-- How a searcher is built. -/
inductive Kind where
  | dfs
  | bfs
  | random
  | weightedRandom (type : WeightType)
  | randomPath (id : Fin 3)
  | batching (base : Kind)
  | iterativeDeepening (base : Kind)
  | interleaved (first : Kind) (rest : Kinds)

/-- The searchers after the first of an `InterleavedSearcher`. -/
inductive Kinds where
  | nil
  | cons (first : Kind) (rest : Kinds)

end

/-- `BatchingSearcher`. -/
structure Batching (S : Type) where
  baseSearcher : S
  lastState : Option ℕ

/-- `IterativeDeepeningTimeSearcher`; the set of paused states is a list in the order of the set. -/
structure IterativeDeepening (S : Type) where
  baseSearcher : S
  pausedStates : List ℕ

/-- `InterleavedSearcher`. -/
structure Interleaved (S : Type) where
  searchers : S
  index : ℕ

mutual

/-- What a searcher keeps. -/
def State : Kind → Type
  | .dfs => List ℕ
  | .bfs => List ℕ
  | .random => List ℕ
  | .weightedRandom _ => List ℕ
  | .randomPath _ => Unit
  | .batching base => Batching (State base)
  | .iterativeDeepening base => IterativeDeepening (State base)
  | .interleaved first rest => Interleaved (State first × States rest)

/-- What several searchers keep. -/
def States : Kinds → Type
  | .nil => Unit
  | .cons first rest => State first × States rest

end

mutual

/-- A searcher at the start. -/
def initial : (k : Kind) → State k
  | .dfs => ([] : List ℕ)
  | .bfs => ([] : List ℕ)
  | .random => ([] : List ℕ)
  | .weightedRandom _ => ([] : List ℕ)
  | .randomPath _ => ()
  | .batching base => (⟨initial base, none⟩ : Batching _)
  | .iterativeDeepening base => (⟨initial base, []⟩ : IterativeDeepening _)
  | .interleaved first rest => (⟨(initial first, initials rest), 1⟩ : Interleaved _)

/-- Several searchers at the start. -/
def initials : (ks : Kinds) → States ks
  | .nil => ()
  | .cons first rest => (initial first, initials rest)

end

/-- What is not decided by the searchers themselves in one call: the random numbers, the element that
`DiscretePDF::choose` returns, and at each place in the searcher whether its time is over. -/
structure Oracle where
  rng : ℕ → BitVec 32
  choose : List ℕ → Option ℕ
  expired : List ℕ → Bool
  choose_mem : ∀ {items}, items ≠ [] → ∃ x ∈ items, choose items = some x

/-- The virtual functions of a searcher that keeps an `S`. -/
structure Calls (S : Type) where
  empty : S → System → Bool
  selectState : S → System → Option (ℕ × S)
  update : (current : Option ℕ) → (addedStates removedStates : List ℕ) → S → System → Option (S × System)

/-- The calls of `InterleavedSearcher` to several searchers: to one, and to all in their order. -/
structure ManyCalls (S : Type) where
  selectAt : ℕ → S → System → Option (ℕ × S)
  update : (current : Option ℕ) → (addedStates removedStates : List ℕ) → S → System → Option (S × System)

/-! ### Lists of states -/

/-- Erase by `std::find`; past the end nothing can be erased. -/
def eraseFound (states : List ℕ) (state : ℕ) : Option (List ℕ) :=
  if state ∈ states then some (states.erase state) else none

/-- The removal of `DFSSearcher`. -/
def eraseBack (states : List ℕ) (state : ℕ) : Option (List ℕ) :=
  match states.getLast? with
  | none => none
  | some back => if state = back then some states.dropLast else eraseFound states state

/-- The removal of `BFSSearcher`. -/
def eraseFront (states : List ℕ) (state : ℕ) : Option (List ℕ) :=
  match states with
  | [] => none
  | front :: states => if state = front then some states else eraseFound (front :: states) state

/-- `DiscretePDF::insert`. -/
def insertNew (items : List ℕ) (item : ℕ) : Option (List ℕ) := if item ∈ items then none else some (items ++ [item])

/-- The current state moves to the end of a `BFSSearcher` when states were added: then it has evolved. -/
def moveCurrent (current : Option ℕ) (addedStates removedStates states : List ℕ) : Option (List ℕ) :=
  match current with
  | some c =>
    if addedStates ≠ [] ∧ c ∉ removedStates then (eraseFound states c).map fun states => states ++ [c]
    else some states
  | none => some states

/-- The new weight of the current state of a `WeightedRandomSearcher`. -/
def reweigh (updateWeights : Bool) (current : Option ℕ) (removedStates states : List ℕ) : Option (List ℕ) :=
  match current with
  | some c => if updateWeights = true ∧ c ∉ removedStates ∧ c ∉ states then none else some states
  | none => some states

/-- `DFSSearcher`. -/
def DFSSearcher : Calls (List ℕ) where
  empty states _ := states.isEmpty
  selectState states _ := states.getLast?.map fun x => (x, states)
  update _ addedStates removedStates states σ :=
    (removedStates.foldlM eraseBack (states ++ addedStates)).map fun states => (states, σ)

/-- `BFSSearcher`. -/
def BFSSearcher : Calls (List ℕ) where
  empty states _ := states.isEmpty
  selectState states _ := states.head?.map fun x => (x, states)
  update current addedStates removedStates states σ :=
    (moveCurrent current addedStates removedStates states).bind fun states =>
      (removedStates.foldlM eraseFront (states ++ addedStates)).map fun states => (states, σ)

/-- `RandomSearcher`. -/
def RandomSearcher (o : Oracle) : Calls (List ℕ) where
  empty states _ := states.isEmpty
  selectState states _ := (states[(o.rng 0).toNat % states.length]?).map fun x => (x, states)
  update _ addedStates removedStates states σ :=
    (removedStates.foldlM eraseFound (states ++ addedStates)).map fun states => (states, σ)

/-- `WeightedRandomSearcher`, over the list of its states.  Over its weighted tree it is `WeightedRandomSearcher.treeSearcher`,
which `treeSearcher_correct` puts in the same place. -/
def WeightedRandomSearcher (o : Oracle) (type : WeightType) : Calls (List ℕ) where
  empty states _ := states.isEmpty
  selectState states _ := if states = [] then none else (o.choose states).map fun x => (x, states)
  update current addedStates removedStates states σ :=
    (reweigh type.updateWeights current removedStates states).bind fun states =>
      (addedStates.foldlM insertNew states).bind fun states =>
        (removedStates.foldlM eraseFound states).map fun states => (states, σ)

/-- `RandomPathSearcher`. -/
def RandomPathSearcher (o : Oracle) (id : Fin 3) : Calls Unit where
  empty _ σ := RandomPathSearcher.empty id σ.tree
  selectState s σ := (RandomPathSearcher.selectState id σ.tree o.rng).map fun x => (x, s)
  update _ addedStates removedStates s σ :=
    (σ.step (.update id addedStates removedStates)).map fun σ => (s, σ)

/-! ### Wrappers -/

section

variable {S T : Type}

/-- `BatchingSearcher`; `expired` says that the time or the instructions of the last state are used up. -/
def BatchingSearcher (expired : Bool) (base : Calls S) : Calls (Batching S) where
  empty s σ := base.empty s.baseSearcher σ
  selectState s σ :=
    match s.lastState, expired with
    | some x, false => some (x, s)
    | _, _ => (base.selectState s.baseSearcher σ).map fun r => (r.1, ⟨r.2, some r.1⟩)
  update current addedStates removedStates s σ :=
    -- drop memoized state if it is marked for deletion
    (base.update current addedStates removedStates s.baseSearcher σ).map fun r =>
      (⟨r.1, s.lastState.filter fun x => x ∉ removedStates⟩, r.2)

/-- Take the removed states out of the paused ones, and the paused ones out of the removed. -/
def dropPaused : List ℕ → List ℕ → List ℕ → List ℕ × List ℕ
  | [], pausedStates, alt => (pausedStates, alt)
  | state :: removedStates, pausedStates, alt =>
    if state ∈ pausedStates then
      dropPaused removedStates (pausedStates.erase state) (alt.filter fun x => x ≠ state)
    else dropPaused removedStates pausedStates alt

/-- `pausedStates.insert`. -/
def insertPaused (state : ℕ) (pausedStates : List ℕ) : List ℕ :=
  if state ∈ pausedStates then pausedStates else pausedStates.orderedInsert (· ≤ ·) state

namespace IterativeDeepening

/-- Pause the current state if its time is over. -/
def pauseExpired (expired : Bool) (base : Calls S) (current : Option ℕ) (removedStates : List ℕ)
    (s : IterativeDeepening S) (σ : System) : Option (IterativeDeepening S × System) :=
  match current with
  | some c =>
    if c ∉ removedStates ∧ expired = true then
      (base.update none [] [c] s.baseSearcher σ).map fun r => (⟨r.1, insertPaused c s.pausedStates⟩, r.2)
    else some (s, σ)
  | none => some (s, σ)

/-- No states left in the underlying searcher: fill with paused states. -/
def refill (base : Calls S) (s : IterativeDeepening S) (σ : System) : Option (IterativeDeepening S × System) :=
  if base.empty s.baseSearcher σ = true then
    (base.update none s.pausedStates [] s.baseSearcher σ).map fun r => (⟨r.1, []⟩, r.2)
  else some (s, σ)

end IterativeDeepening

/-- `IterativeDeepeningTimeSearcher`; `expired` says that the time of the current state is over. -/
def IterativeDeepeningTimeSearcher (expired : Bool) (base : Calls S) : Calls (IterativeDeepening S) where
  empty s σ := base.empty s.baseSearcher σ && s.pausedStates.isEmpty
  selectState s σ := (base.selectState s.baseSearcher σ).map fun r => (r.1, ⟨r.2, s.pausedStates⟩)
  update current addedStates removedStates s σ :=
    -- filter paused states unknown to underlying searcher
    let paused := dropPaused removedStates s.pausedStates removedStates
    (base.update current addedStates paused.2 s.baseSearcher σ).bind fun r =>
      (IterativeDeepening.pauseExpired expired base current removedStates ⟨r.1, paused.1⟩ r.2).bind fun r =>
        IterativeDeepening.refill base r.1 r.2

/-- `InterleavedSearcher`, of `n + 1` searchers. -/
def InterleavedSearcher (first : Calls S) (rest : ManyCalls T) (n : ℕ) : Calls (Interleaved (S × T)) where
  empty s σ := first.empty s.searchers.1 σ
  selectState s σ :=
    match s.index - 1 with
    | 0 => (first.selectState s.searchers.1 σ).map fun r => (r.1, ⟨(r.2, s.searchers.2), n + 1⟩)
    | i + 1 => (rest.selectAt i s.searchers.2 σ).map fun r => (r.1, ⟨(s.searchers.1, r.2), i + 1⟩)
  update current addedStates removedStates s σ :=
    (first.update current addedStates removedStates s.searchers.1 σ).bind fun r =>
      (rest.update current addedStates removedStates s.searchers.2 r.2).map fun r' => (⟨(r.1, r'.1), s.index⟩, r'.2)

/-- No more searchers. -/
def noCalls : ManyCalls Unit where
  selectAt _ _ _ := none
  update _ _ _ s σ := some (s, σ)

/-- A searcher before others. -/
def consCalls (first : Calls S) (rest : ManyCalls T) : ManyCalls (S × T) where
  selectAt i s σ :=
    match i with
    | 0 => (first.selectState s.1 σ).map fun r => (r.1, (r.2, s.2))
    | i + 1 => (rest.selectAt i s.2 σ).map fun r => (r.1, (s.1, r.2))
  update current addedStates removedStates s σ :=
    (first.update current addedStates removedStates s.1 σ).bind fun r =>
      (rest.update current addedStates removedStates s.2 r.2).map fun r' => ((r.1, r'.1), r'.2)

end

/-- The number of searchers. -/
def Kinds.size : Kinds → ℕ
  | .nil => 0
  | .cons _ rest => rest.size + 1

mutual

/-- The functions of a searcher; `path` is its place in the whole. -/
def calls (o : Oracle) (path : List ℕ) : (k : Kind) → Calls (State k)
  | .dfs => DFSSearcher
  | .bfs => BFSSearcher
  | .random => RandomSearcher o
  | .weightedRandom type => WeightedRandomSearcher o type
  | .randomPath id => RandomPathSearcher o id
  | .batching base => BatchingSearcher (o.expired path) (calls o (0 :: path) base)
  | .iterativeDeepening base => IterativeDeepeningTimeSearcher (o.expired path) (calls o (0 :: path) base)
  | .interleaved first rest => InterleavedSearcher (calls o (0 :: path) first) (manyCalls o (1 :: path) rest) rest.size

/-- The functions of several searchers. -/
def manyCalls (o : Oracle) (path : List ℕ) : (ks : Kinds) → ManyCalls (States ks)
  | .nil => noCalls
  | .cons first rest => consCalls (calls o (0 :: path) first) (manyCalls o (1 :: path) rest)

end

/-! ### Merging -/

/-- `MergingSearcher`: the paused states in the order in which they were paused. -/
structure Merging (S : Type) where
  baseSearcher : S
  pausedStates : List ℕ

/-- What `selectState` reads of a `MergeHandler`: its open states, and the states that have reached the end. -/
structure MergeGroup where
  openStates : List ℕ
  closedStates : List ℕ

namespace Merging

variable {S : Type} (base : Calls S)

/-- `pauseState`. -/
def pauseState (state : ℕ) (s : Merging S) (σ : System) : Option (Merging S × System) :=
  if state ∈ s.pausedStates then none
  else (base.update none [] [state] s.baseSearcher σ).map fun r => (⟨r.1, s.pausedStates ++ [state]⟩, r.2)

/-- `continueState`. -/
def continueState (state : ℕ) (s : Merging S) (σ : System) : Option (Merging S × System) :=
  if state ∈ s.pausedStates then
    (base.update none [state] [] s.baseSearcher σ).map fun r => (⟨r.1, s.pausedStates.erase state⟩, r.2)
  else none

/-- `releaseStates`. -/
def releaseStates : List ℕ → Merging S → System → Option (Merging S × System)
  | [], s, σ => some (s, σ)
  | state :: states, s, σ => (continueState base state s σ).bind fun r => releaseStates states r.1 r.2

/-- The merge handlers in turn: a state that can be prioritized is selected, and else those that have arrived are
released.  `prioritize` is the state that `getPrioritizeState` finds. -/
def selectFrom (prioritize : MergeGroup → Option ℕ) :
    List MergeGroup → Merging S → System → Option (ℕ × Merging S × System)
  | [], s, σ => (base.selectState s.baseSearcher σ).map fun r => (r.1, ⟨r.2, s.pausedStates⟩, σ)
  | group :: groups, s, σ =>
    if group.closedStates = [] then selectFrom prioritize groups s σ
    else
      match prioritize group with
      | some es => some (es, s, σ)
      | none => (releaseStates base group.closedStates s σ).bind fun r => selectFrom prioritize groups r.1 r.2

/-- `selectState`; without `--use-incomplete-merge` no merge handler is asked. -/
def selectState (prioritize : MergeGroup → Option ℕ) (mergeGroups : List MergeGroup) (s : Merging S) (σ : System) :
    Option (ℕ × Merging S × System) :=
  -- base searcher is empty
  if base.empty s.baseSearcher σ = true then none else selectFrom base prioritize mergeGroups s σ

/-- `update`. -/
def update (current : Option ℕ) (addedStates removedStates : List ℕ) (s : Merging S) (σ : System) :
    Option (Merging S × System) :=
  -- check if the current execution state was just deleted, as to not confuse the nurs searchers
  if ∃ c ∈ current, c ∈ s.pausedStates then some (s, σ)
  else (base.update current addedStates removedStates s.baseSearcher σ).map fun r => (⟨r.1, s.pausedStates⟩, r.2)

/-- `empty`. -/
def empty (s : Merging S) (σ : System) : Bool := base.empty s.baseSearcher σ

end Merging

end Searcher

end SymBisect
