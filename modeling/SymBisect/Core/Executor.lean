import SymBisect.Core.ExecutionState
import SymBisect.Solver.Query
import SymBisect.Lib.Prog

/-!
# The executor: states, queries and forks

`lib/Core/Executor.cpp` up to the instruction handlers: the lists of states, the seeds, the constraints,
`fork`, `branch`, `terminateState`, `updateStates` and the memory operations.

A program of the executor is a `Prog` on `Executor`.  It aborts where the source fails an assertion,
reports a fatal error, dereferences a null pointer or reads a state that has been freed; a write to a
freed state is lost.  A state is known by its pointer and pointers are not used twice.

What the source takes from outside of the modelled part is read from the environment `Env`, at the time
`clock`, which every question advances:

* the solver, whose answers may be missing at any time;
* the random choices, the memory usage and the time;
* the seeds' values and the resolution of symbolic addresses;
* the data that an instruction or a hook leaves in a state (`Data`: registers, memory and pointer maps).

Two fields of `Executor` are not in the source.  `trace` lists what happened, the last event first.
`history` lists, for every state, the conditional branches executed on its path.
-/

namespace SymBisect

open Lib Expr

/-- `ExecutionState *`. -/
abbrev Ptr := ℕ

/-- `SeedInfo`. -/
abbrev Seed := ℕ

/-- The installed listeners, in the order of `ListenerService::preparation`. -/
inductive ListenerKind where
  | UCListener
  | PathListener
  deriving DecidableEq

/-- A branch of the source that is worth telling from the others. -/
inductive Mark where
  /-- `PathListener` terminates the state for a missing line of the whitelist. -/
  | whitelist
  /-- `checkLoopLimit` terminates the state. -/
  | loopLimit
  /-- A hook of `UCListener` terminates the state. -/
  | ucHook
  /-- A handler goes on with a state that it has terminated. -/
  | stale
  /-- `fork` adds a side of a condition whose query timed out. -/
  | unchecked
  deriving DecidableEq

/-- What happens to the states. -/
inductive Event where
  | before (listener : ListenerKind) (state : Ptr) (ki : ℕ)
  | execute (state : Ptr) (ki : ℕ)
  | after (listener : ListenerKind) (state : Ptr) (ki : ℕ)
  | terminate (state : Ptr)
  | fork (parent child : Ptr)
  | updateStates (states added removed : List Ptr)
  | notFound (state : Ptr)
  | mark (m : Mark) (state : Ptr)
  deriving DecidableEq

/-- `BasicBlock`: its address, its name and the position of its first instruction. -/
structure BasicBlock where
  address : BitVec pointerWidth
  name : String
  entry : ℕ
  deriving DecidableEq

/-- The execution of a conditional branch: where, whether both sides went on, and whether
`checkLoopLimit` terminated the new state. -/
structure Visit where
  calltrace : String
  block : BasicBlock
  twoWay : Bool
  terminated : Bool
  deriving DecidableEq

/-- The part of the executor that decides what is asked and chosen next, with the values at the start. -/
structure Bookkeeping where
  seedMap : Ptr → Option (List Seed) := fun _ => none
  constantTable : ℕ → Option Expr := fun _ => none
  nextID : ℕ := 1
  instructions : ℕ := 0
  forks : ℕ := 0
  atMemoryLimit : Bool := false
  replayPosition : ℕ := 0
  BB_targetBB_counter : String → Option ℕ := fun _ => none
  low_priority_lines_counter : String → Option ℕ := fun _ => none
  haltExecution : Bool := false
  clock : ℕ := 0

/-- `Executor`. -/
structure Executor where
  heap : Ptr → Option ExecutionState
  nextPtr : Ptr
  states : List Ptr
  addedStates : List Ptr
  removedStates : List Ptr
  trace : List Event
  history : Ptr → List Visit
  aux : Bookkeeping

/-- The opcodes with a handler of their own here.  `other` are the rest: they change data and call the
executor back. -/
inductive Opcode where
  | ret (isVoidReturn : Bool)
  | br (dest : BasicBlock)
  | condBr (cond : Operand) (succ0 succ1 : BasicBlock)
  | indirectBr (address : Operand) (destinations : List BasicBlock)
  | switch (cond : Operand) (width : ℕ) (cases : List (BitVec width × BasicBlock)) (defaultDest : BasicBlock)
  | unreachable
  | load (address : Operand) (bytes : ℕ)
  | store (value address : Operand) (bytes : ℕ)
  | other

/-- `KInstruction`: `sourceinfo` is `dump_inst_sourceinfo`, `simple_name_l` its `simplifylineinfo`;
`normalDest` is set for an invoke. -/
structure KInstruction where
  opcode : Opcode
  parent : BasicBlock
  function : String
  sourceinfo : String
  simple_name_l : String
  normalDest : Option BasicBlock
  use_empty : Bool

/-- The command-line options and the entries of the configuration file, with their defaults. -/
structure Config where
  MaxMemory : ℕ := 20000
  MaxMemoryInhibit : Bool := true
  inhibitForking : Bool := false
  MaxForks : Option ℕ := none
  MaxDepth : ℕ := 0
  MaxInstructions : ℕ := 0
  MaxSymArraySize : ℕ := 0
  SimplifySymIndices : Bool := false
  OnlyReplaySeeds : Bool := false
  replayPath : Option (List Bool) := none
  replayKTest : Bool := false
  looplimit : Option UInt32 := none
  BB_targetBB : String → Option String := fun _ => none
  target_lines : List String := []
  target_bbs : List String := []
  low_priority_bbs : List String := []
  low_priority_functions : List String := []
  low_priority_lines : List String := []
  whitelist_map : String → Option (List String) := fun _ => none

/-- The data of a state that the handlers and hooks compute. -/
structure Data where
  locals : ℕ → Option Expr
  addressSpace : AddressSpace
  symaddr_base : ExprMap
  map_symbolic_address : ExprMap
  map_address_symbolic : ExprMap
  OOBW : Bool

/-- Overwrite the data of a state; the registers are those of the innermost frame. -/
def ExecutionState.setData (state : ExecutionState) (d : Data) : ExecutionState :=
  { state with
    stack := match state.stack with
      | [] => []
      | sf :: frames => { sf with locals := d.locals } :: frames
    addressSpace := d.addressSpace
    symaddr_base := d.symaddr_base
    map_symbolic_address := d.map_symbolic_address
    map_address_symbolic := d.map_address_symbolic
    OOBW := d.OOBW }

/-- What the handlers of the other instructions ask of the executor.  A state is named by its place in
the list of the states met so far: the instruction's own state, then the pair of every fork. -/
inductive Request where
  | fork (h : ℕ) (condition : Expr)
  | terminateState (h : ℕ)
  | toConstant (h : ℕ) (e : Expr)
  | executeMemoryOperation (h : ℕ) (isWrite : Bool) (address : Expr) (bytes : ℕ)
  | pushFrame (h : ℕ) (kf : String) (entry : ℕ)
  | setData (h : ℕ)

/-- A chain of solvers: the answers at a given time, or nothing when the query times out. -/
structure SolverChain where
  evaluate : ℕ → ConstraintSet → Expr → Option Validity
  mustBeTrue : ℕ → ConstraintSet → Expr → Option Bool
  mayBeTrue : ℕ → ConstraintSet → Expr → Option Bool
  getValue : ℕ → ConstraintSet → (e : Expr) → Option (BitVec e.getWidth)

/-- The module, the configuration and everything that is decided outside. -/
structure Env where
  config : Config
  instructions : ℕ → KInstruction
  phiIndex : ℕ → BasicBlock → Option ℕ
  blockAt : ℕ → Option BasicBlock
  BB1_reach_BB2 : BasicBlock → BasicBlock → Bool
  solver : SolverChain
  random : ℕ → ℕ
  totalUsage : ℕ → ℕ
  timeOut : ℕ → Bool
  /-- One of the four static fork limits is exceeded. -/
  staticLimit : ℕ → Bool
  /-- `getValue` of a condition under the assignment of a seed, `isTrue`. -/
  seedValue : ℕ → Seed → Expr → Option Bool
  /-- `mustBeFalse` of a condition under the assignment of a seed. -/
  seedViolates : ℕ → Seed → Expr → Option Bool
  patchSeed : ℕ → Seed → Expr → Seed
  /-- `executeMakeSymbolic` runs out of inputs or finds one of another size. -/
  inputMismatch : ℕ → Bool
  resolveOne : ℕ → ExecutionState → Expr → Option (Option MemoryObject)
  resolve : ℕ → ExecutionState → Expr → List MemoryObject × Bool
  readOnly : ℕ → MemoryObject → Bool
  data : ℕ → ExecutionState → Data
  /-- The requests of an instruction without a handler of its own. -/
  requests : ℕ → List Request
  /-- The function that the configuration names for an indirect call is not in the module. -/
  calleeMissing : ℕ → Bool
  /-- The number of objects that a hook of `UCListener` creates. -/
  createdObjects : ℕ → ℕ
  /-- The addresses and sizes that the hook after a store writes to. -/
  storeTargets : ℕ → List (BitVec pointerWidth × ℕ)

namespace Executor

/-! ### Memory and events -/

/-- Read through a pointer. -/
def read (p : Ptr) : Prog Executor ExecutionState := fun s => (s.heap p, s)

/-- Write through a pointer. -/
def write (p : Ptr) (f : ExecutionState → ExecutionState) : Prog Executor Unit :=
  Prog.modify fun s => { s with heap := Function.update s.heap p ((s.heap p).map f) }

/-- Change the bookkeeping. -/
def modifyAux (f : Bookkeeping → Bookkeeping) : Prog Executor Unit :=
  Prog.modify fun s => { s with aux := f s.aux }

def emit (e : Event) : Prog Executor Unit := Prog.modify fun s => { s with trace := e :: s.trace }

/-- The time of the next question. -/
def tick : Prog Executor ℕ := do
  let n ← Prog.gets (·.aux.clock)
  modifyAux fun b => { b with clock := b.clock + 1 }
  pure n

/-- `theRNG.getInt32()` and `std::rand()`. -/
def random (env : Env) : Prog Executor ℕ := do
  let n ← tick
  pure (env.random n)

/-- The state has been terminated: it waits in `removedStates`, or has been freed. -/
def isTerminated (s : Executor) (p : Ptr) : Bool := s.removedStates.contains p || (s.heap p).isNone

/-- Leave a mark if the state has been terminated. -/
def markTerminated (m : Mark) (p : Ptr) : Prog Executor Unit := do
  let s ← Prog.get
  Prog.when (s.isTerminated p = true) (emit (.mark m p))

/-- What an instruction or a hook leaves in the data of a state. -/
def setData (env : Env) (p : Ptr) : Prog Executor Unit := do
  let n ← tick
  write p fun state => state.setData (env.data n state)

/-! ### Life of a state -/

/-- The part of `ExecutionState::branch` and its callers that makes the new state. -/
def spawn (p : Ptr) : Prog Executor Ptr := do
  let state ← read p
  let s ← Prog.get
  let branched := state.branch s.aux.nextID
  modifyAux fun b => { b with nextID := b.nextID + 1 }
  Prog.modify fun s =>
    { s with
      heap := Function.update (Function.update s.heap p (some branched.1)) s.nextPtr (some branched.2)
      nextPtr := s.nextPtr + 1
      addedStates := s.addedStates ++ [s.nextPtr]
      trace := .fork p s.nextPtr :: s.trace
      history := Function.update s.history s.nextPtr (s.history p) }
  pure s.nextPtr

/-- `terminateState`: a state that the searcher does not know yet is freed at once. -/
def terminateState (p : Ptr) : Prog Executor Unit := do
  emit (.terminate p)
  let s ← Prog.get
  if p ∈ s.addedStates then do
    modifyAux fun b => { b with seedMap := Function.update b.seedMap p none }
    Prog.modify fun s =>
      { s with addedStates := s.addedStates.erase p, heap := Function.update s.heap p none }
  else do
    write p fun state => { state with pc := state.prevPC }
    Prog.modify fun s => { s with removedStates := s.removedStates ++ [p] }

/-- The loop of `updateStates` over `removedStates`. -/
def eraseStates : List Ptr → Prog Executor Unit :=
  Prog.each fun es => do
    let s ← Prog.get
    if es ∈ s.states then do
      modifyAux fun b => { b with seedMap := Function.update b.seedMap es none }
      Prog.modify fun s => { s with states := s.states.erase es, heap := Function.update s.heap es none }
    else do
      emit (.notFound es)
      Prog.abort

/-- `states.insert(addedStates.begin(), addedStates.end())`. -/
def insertStates (states added : List Ptr) : List Ptr :=
  states ++ added.filter fun p => !states.contains p

/-- `updateStates`. -/
def updateStates : Prog Executor Unit := do
  let s ← Prog.get
  emit (.updateStates s.states s.addedStates s.removedStates)
  Prog.modify fun s => { s with states := insertStates s.states s.addedStates, addedStates := [] }
  eraseStates s.removedStates
  Prog.modify fun s => { s with removedStates := [] }

/-! ### Queries -/

/-- `TimingSolver::evaluate`. -/
def evaluate (env : Env) (p : Ptr) (e : Expr) : Prog Executor (Option Validity) := do
  let state ← read p
  Prog.assert (e.HasWidth 1)
  if e.isConstant then pure (some (if e.isTrue then .True else .False))
  else do
    let n ← tick
    pure (env.solver.evaluate n state.constraints e)

/-- `TimingSolver::mustBeTrue`. -/
def mustBeTrue (env : Env) (p : Ptr) (e : Expr) : Prog Executor (Option Bool) := do
  let state ← read p
  Prog.assert (e.HasWidth 1)
  if e.isConstant then pure (some e.isTrue)
  else do
    let n ← tick
    pure (env.solver.mustBeTrue n state.constraints e)

/-- `TimingSolver::mayBeTrue`, with the assertion that it succeeds. -/
def mayBeTrue (env : Env) (p : Ptr) (e : Expr) : Prog Executor Bool := do
  let state ← read p
  Prog.assert (e.HasWidth 1)
  if e.isConstant then pure e.isTrue
  else do
    let n ← tick
    Prog.unwrap (env.solver.mayBeTrue n state.constraints e)

/-- `TimingSolver::getValue`. -/
def getValue (env : Env) (p : Ptr) (e : Expr) : Prog Executor (Option (BitVec e.getWidth)) := do
  let state ← read p
  Prog.assert e.WF
  let n ← tick
  pure (env.solver.getValue n state.constraints e)

/-! ### Constraints -/

variable [ExprOptions]

/-- The seeds that the condition violates are patched. -/
def patchSeeds (env : Env) (condition : Expr) : List Seed → Prog Executor (List Seed)
  | [] => pure []
  | seed :: seeds => do
    let n ← tick
    let violated ← Prog.unwrap (env.seedViolates n seed condition)
    let rest ← patchSeeds env condition seeds
    pure ((if violated then env.patchSeed n seed condition else seed) :: rest)

/-- The seeds of a state. -/
def seedsOf (p : Ptr) : Prog Executor (Option (List Seed)) := Prog.gets fun s => s.aux.seedMap p

def setSeeds (p : Ptr) (seeds : Option (List Seed)) : Prog Executor Unit :=
  modifyAux fun b => { b with seedMap := Function.update b.seedMap p seeds }

/-- Patch the seeds of a state, if it has any. -/
def checkSeeds (env : Env) (p : Ptr) (condition : Expr) : Prog Executor Unit := do
  match ← seedsOf p with
  | none => pure ()
  | some seeds => do
    let seeds ← patchSeeds env condition seeds
    setSeeds p (some seeds)

/-- `Executor::addConstraint`; `ConstraintManager` asserts that the set does not become false. -/
def addConstraint (env : Env) (p : Ptr) (condition : Expr) : Prog Executor Unit := do
  if condition.isConstant then Prog.assert (condition.isTrue = true)
  else do
    checkSeeds env p condition
    let state ← read p
    let constraints ← Prog.unwrap (ConstraintManager.addConstraint state.constraints condition)
    write p fun state => { state with constraints := constraints }

/-- `toUnique`. -/
def toUnique (env : Env) (p : Ptr) (e : Expr) : Prog Executor Expr := do
  if e.isConstant then pure e
  else
    match ← getValue env p e with
    | none => pure e
    | some value => do
      let isTrue ← mustBeTrue env p (EqExpr.create e (.const value))
      pure (if isTrue = some true then .const value else e)

/-- `toConstant`. -/
def toConstant (env : Env) (p : Ptr) (e : Expr) : Prog Executor Expr := do
  let state ← read p
  let e := ConstraintManager.simplifyExpr state.constraints e
  if e.isConstant then pure e
  else do
    let value ← getValue env p e >>= Prog.unwrap
    addConstraint env p (EqExpr.create e (.const value))
    pure (.const value)

/-! ### `fork` -/

/-- `branchingPermitted`. -/
def branchingPermitted (env : Env) (p : Ptr) : Prog Executor Bool := do
  let state ← read p
  let s ← Prog.get
  pure (!((env.config.MaxMemoryInhibit && s.aux.atMemoryLimit) || state.forkDisabled ||
    env.config.inhibitForking || env.config.MaxForks.any fun m => decide (m ≤ s.aux.forks)))

/-- The static limits: the condition is fixed to one of its values. -/
def limitStatically (env : Env) (p : Ptr) (isSeeding : Bool) (condition : Expr) : Prog Executor Expr := do
  let n ← tick
  if !isSeeding && !condition.isConstant && env.staticLimit n then do
    let value ← getValue env p condition >>= Prog.unwrap
    addConstraint env p (EqExpr.create (.const value) condition)
    pure (.const value)
  else pure condition

/-- Add the side of the condition that `side` names; the mark says that nobody has asked whether it is
feasible. -/
def takeSide (env : Env) (p : Ptr) (condition : Expr) (timedOut side : Bool) : Prog Executor Validity := do
  Prog.when (timedOut = true) (emit (.mark .unchecked p))
  addConstraint env p (if side then condition else createIsZero condition)
  pure (if side then .True else .False)

/-- Without seeds: follow the replayed path, or pick a side where branching is not permitted. -/
def pickSide (env : Env) (p : Ptr) (condition : Expr) (isInternal timedOut : Bool) (res : Validity) :
    Prog Executor Validity := do
  match env.config.replayPath, isInternal with
  | some path, false => do
    let s ← Prog.get
    let branch ← Prog.unwrap path[s.aux.replayPosition]?
    modifyAux fun b => { b with replayPosition := b.replayPosition + 1 }
    match res with
    | .True => Prog.assert (branch = true) >>= fun _ => pure res
    | .False => Prog.assert (branch = false) >>= fun _ => pure res
    | .Unknown => takeSide env p condition timedOut branch
  | _, _ =>
    if res = .Unknown then do
      Prog.assert (env.config.replayKTest = false)
      let permitted ← branchingPermitted env p
      if permitted then pure res
      else do
        let n ← random env
        takeSide env p condition timedOut (n % 2 == 1)
    else pure res

/-- The values of a condition under the seeds. -/
def seedValues (env : Env) (condition : Expr) : List Seed → Prog Executor (List (Seed × Bool))
  | [] => pure []
  | seed :: seeds => do
    let n ← tick
    let value ← Prog.unwrap (env.seedValue n seed condition)
    let rest ← seedValues env condition seeds
    pure ((seed, value) :: rest)

/-- Whether some seed makes the condition true and some seed makes it false; the search stops when both
are found. -/
def seedSides (env : Env) (condition : Expr) : List Seed → Bool → Bool → Prog Executor (Bool × Bool)
  | [], trueSeed, falseSeed => pure (trueSeed, falseSeed)
  | seed :: seeds, trueSeed, falseSeed => do
    let n ← tick
    let value ← Prog.unwrap (env.seedValue n seed condition)
    if (trueSeed || value) && (falseSeed || !value) then pure (true, true)
    else seedSides env condition seeds (trueSeed || value) (falseSeed || !value)

/-- With seeds, where forking is off: fix the branch if the seeds agree on it. -/
def fixBySeeds (env : Env) (p : Ptr) (condition : Expr) (seeds : List Seed) (timedOut : Bool)
    (res : Validity) : Prog Executor Validity := do
  let state ← read p
  if (state.forkDisabled || env.config.OnlyReplaySeeds) && res = .Unknown then do
    let sides ← seedSides env condition seeds false false
    if sides.1 && sides.2 then pure res
    else do
      Prog.assert ((sides.1 || sides.2) = true)
      takeSide env p condition timedOut sides.1
  else pure res

/-- The part of `fork` between the query and the fork. -/
def chooseSide (env : Env) (p : Ptr) (condition : Expr) (isInternal : Bool) (seeds : Option (List Seed))
    (timedOut : Bool) (res : Validity) : Prog Executor Validity :=
  match seeds with
  | none => pickSide env p condition isInternal timedOut res
  | some seeds => fixBySeeds env p condition seeds timedOut res

/-- `std::swap` of the fields that say what a state has met. -/
def swapInfo (p q : Ptr) : Prog Executor Unit := do
  let trueState ← read p
  let falseState ← read q
  write p fun state =>
    { state with
      coveredNew := falseState.coveredNew
      coveredLines := falseState.coveredLines
      completecoveredLines := falseState.completecoveredLines
      BBcount := falseState.BBcount
      OOBW := falseState.OOBW
      symaddr_base := falseState.symaddr_base }
  write q fun state =>
    { state with
      coveredNew := trueState.coveredNew
      coveredLines := trueState.coveredLines
      completecoveredLines := trueState.completecoveredLines
      BBcount := trueState.BBcount
      OOBW := trueState.OOBW
      symaddr_base := trueState.symaddr_base }

/-- Divide the seeds of the forked state, if it has any. -/
def splitSeeds (env : Env) (trueState falseState : Ptr) (condition : Expr) :
    Option (List Seed) → Prog Executor Unit
  | none => pure ()
  | some seeds => do
    let values ← seedValues env condition seeds
    let trueSeeds := (values.filter (·.2)).map (·.1)
    let falseSeeds := (values.filter (!·.2)).map (·.1)
    setSeeds trueState (if trueSeeds.isEmpty then none else some trueSeeds)
    setSeeds falseState (if falseSeeds.isEmpty then none else some falseSeeds)
    Prog.when (trueSeeds.isEmpty = true) (swapInfo trueState falseState)

/-- The two-way case of `fork`. -/
def forkBoth (env : Env) (current : Ptr) (condition : Expr) (seeds : Option (List Seed))
    (notaddconstraint : Bool) : Prog Executor (Option Ptr × Option Ptr) := do
  modifyAux fun b => { b with forks := b.forks + 1 }
  let falseState ← spawn current
  splitSeeds env current falseState condition seeds
  Prog.when (notaddconstraint = false) do
    addConstraint env current condition
    addConstraint env falseState (createIsZero condition)
  let trueState ← read current
  if env.config.MaxDepth ≠ 0 ∧ env.config.MaxDepth ≤ trueState.depth then do
    terminateState current
    terminateState falseState
    pure (none, none)
  else pure (some current, some falseState)

/-- `fork`. -/
def fork (env : Env) (current : Ptr) (condition : Expr) (isInternal : Bool) :
    Prog Executor (Option Ptr × Option Ptr) := do
  let seeds ← seedsOf current
  let condition ← limitStatically env current seeds.isSome condition
  let answer ← evaluate env current condition
  -- a query that times out counts as two-way, without the constraints
  let notaddconstraint := answer.isNone
  let res := answer.getD .Unknown
  let res ← chooseSide env current condition isInternal seeds notaddconstraint res
  match res with
  | .True => pure (some current, none)
  | .False => pure (none, some current)
  | .Unknown => forkBoth env current condition seeds notaddconstraint

end Executor

end SymBisect
