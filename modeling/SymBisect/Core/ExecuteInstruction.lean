import SymBisect.Core.Executor

/-!
# The executor: instructions, hooks and the main loop

The rest of `lib/Core/Executor.cpp`: `branch`, the memory operations, the handlers of
`executeInstruction`, and the main loop of `run`, with the hooks of the two listeners
(`lib/Kernel/Listener/ListenerService.cpp`, `PathListener.cpp`, `UCListener.cpp`).

The hooks of `UCListener` rewrite operands and create objects, which is data; what matters here is that
creating an object (`executeMakeSymbolic`) and the memory operations after a store may terminate the state.
-/

namespace SymBisect

open Lib Expr

namespace Executor

variable [ExprOptions]

/-! ### `branch` -/

/-- The loop that makes `n` new states, each from one of the states made so far. -/
def branchStates (env : Env) : ℕ → List Ptr → Prog Executor (List Ptr)
  | 0, result => pure result
  | n + 1, result => do
    let r ← random env
    let es ← Prog.unwrap result[r % result.length]?
    let ns ← spawn es
    branchStates env n (result ++ [ns])

/-- The index of the first condition that the seed makes true. -/
def firstTrue (env : Env) (seed : Seed) : List Expr → ℕ → Prog Executor (Option ℕ)
  | [], _ => pure none
  | condition :: conditions, i => do
    let n ← tick
    let value ← Prog.unwrap (env.seedValue n seed condition)
    if value then pure (some i) else firstTrue env seed conditions (i + 1)

/-- Give the seed to the state of a condition that it satisfies, or of a random one. -/
def assignSeed (env : Env) (conditions : List Expr) (result : List (Option Ptr)) (seed : Seed) :
    Prog Executor Unit := do
  let found ← firstTrue env seed conditions 0
  let r ← random env
  match result[found.getD (r % conditions.length)]?.join with
  | none => pure ()
  | some q => modifyAux fun b =>
    { b with seedMap := Function.update b.seedMap q (some ((b.seedMap q).getD [] ++ [seed])) }

/-- With `OnlyReplaySeeds`, a state without seeds is terminated. -/
def killUnseeded : List (Option Ptr) → Prog Executor (List (Option Ptr))
  | [] => pure []
  | none :: result => do
    let rest ← killUnseeded result
    pure (none :: rest)
  | some q :: result => do
    let seeds ← seedsOf q
    Prog.when (seeds = none) (terminateState q)
    let rest ← killUnseeded result
    pure ((if seeds = none then none else some q) :: rest)

/-- Redistribute the seeds of the state, if it has any. -/
def redistributeSeeds (env : Env) (p : Ptr) (conditions : List Expr) (result : List (Option Ptr)) :
    Prog Executor (List (Option Ptr)) := do
  match ← seedsOf p with
  | none => pure result
  | some seeds => do
    setSeeds p none
    Prog.each (assignSeed env conditions result) seeds
    if env.config.OnlyReplaySeeds then killUnseeded result else pure result

/-- `addConstraint` for every state that is left. -/
def addConstraints (env : Env) : List (Option Ptr × Expr) → Prog Executor Unit :=
  Prog.each fun qc =>
    match qc.1 with
    | none => pure ()
    | some q => addConstraint env q qc.2

/-- The states of `branch`, one for each condition; where branching is not permitted all but a random one
are null. -/
def branchResult (env : Env) (p : Ptr) (N : ℕ) : Prog Executor (List (Option Ptr)) := do
  let permitted ← branchingPermitted env p
  if permitted then do
    modifyAux fun b => { b with forks := b.forks + (N - 1) }
    let result ← branchStates env (N - 1) [p]
    pure (result.map some)
  else do
    let r ← random env
    pure ((List.range N).map fun i => if i = r % N then some p else none)

/-- `branch`. -/
def branch (env : Env) (p : Ptr) (conditions : List Expr) : Prog Executor (List (Option Ptr)) := do
  Prog.assert (conditions ≠ [])
  let result ← branchResult env p conditions.length
  let result ← redistributeSeeds env p conditions result
  addConstraints env (result.zip conditions)
  pure result

/-! ### Memory operations -/

/-- The access to an object that holds the address. -/
def access (env : Env) (p : Ptr) (mo : MemoryObject) (isWrite : Bool) : Prog Executor Unit := do
  let n ← tick
  if isWrite && env.readOnly n mo then terminateState p else setData env p

/-- The access in the state of `fork` in which the object holds the address, if there is one. -/
def accessBound (env : Env) (mo : MemoryObject) (isWrite : Bool) : Option Ptr → Prog Executor Unit
  | none => pure ()
  | some bound => access env bound mo isWrite

/-- The loop over the objects that the address may point to; what is returned is `unbound`. -/
def bindObjects (env : Env) (isWrite : Bool) (address : Expr) (bytes : ℕ) :
    List MemoryObject → Ptr → Prog Executor (Option Ptr)
  | [], unbound => pure (some unbound)
  | mo :: rl, unbound => do
    let branches ← fork env unbound (mo.getBoundsCheckPointer address bytes) true
    accessBound env mo isWrite branches.1
    match branches.2 with
    | none => pure none
    | some unbound => bindObjects env isWrite address bytes rl unbound

/-- The error path of a memory operation: no resolution, several, or one out of bounds. -/
def resolveError (env : Env) (p : Ptr) (isWrite : Bool) (address : Expr) (bytes : ℕ) :
    Prog Executor Unit := do
  let n ← tick
  let state ← read p
  let unbound ← bindObjects env isWrite address bytes (env.resolve n state address).1 p
  match unbound with
  | none => pure ()
  | some q => if (env.resolve n state address).2 then terminateState q else setData env p

/-- The single object that the address may point to; a time-out concretizes the address. -/
def resolveAddress (env : Env) (p : Ptr) (address : Expr) :
    Prog Executor (Expr × Option MemoryObject) := do
  let n ← tick
  let state ← read p
  match env.resolveOne n state address with
  | some op => pure (address, op)
  | none => do
    let address ← toConstant env p address
    let state ← read p
    pure (address, state.addressSpace.resolveOne (address.eval (fun _ _ => 0) pointerWidth).toNat)

/-- The address in a large object is concretized. -/
def limitSymArray (env : Env) (p : Ptr) (mo : MemoryObject) (address : Expr) : Prog Executor Expr :=
  if env.config.MaxSymArraySize ≠ 0 ∧ env.config.MaxSymArraySize ≤ mo.size then toConstant env p address
  else pure address

/-- `executeMemoryOperation`. -/
def executeMemoryOperation (env : Env) (p : Ptr) (isWrite : Bool) (address : Expr) (bytes : ℕ) :
    Prog Executor Unit := do
  let state ← read p
  let resolved ← resolveAddress env p
    (if env.config.SimplifySymIndices && !address.isConstant then
      ConstraintManager.simplifyExpr state.constraints address else address)
  match resolved.2 with
  | none => resolveError env p isWrite resolved.1 bytes
  | some mo => do
    let address ← limitSymArray env p mo resolved.1
    let inBounds ← mustBeTrue env p (mo.getBoundsCheckPointer address bytes)
    match inBounds with
    | none => do
      write p fun state => { state with pc := state.prevPC }
      terminateState p
    | some true => access env p mo isWrite
    | some false => resolveError env p isWrite address bytes

/-! ### Requests of the other handlers -/

/-- The state that a request names; a null pointer is dereferenced. -/
def stateOf (states : List (Option Ptr)) (h : ℕ) : Prog Executor Ptr := do
  let q ← Prog.unwrap states[h]?.join
  markTerminated .stale q
  pure q

/-- The requests of a handler, one after the other. -/
def serve (env : Env) : List Request → List (Option Ptr) → Prog Executor Unit
  | [], _ => pure ()
  | .fork h condition :: requests, states => do
    let q ← stateOf states h
    let branches ← fork env q condition true
    serve env requests (states ++ [branches.1, branches.2])
  | .terminateState h :: requests, states => do
    let q ← stateOf states h
    terminateState q
    serve env requests states
  | .toConstant h e :: requests, states => do
    let q ← stateOf states h
    let _ ← toConstant env q e
    serve env requests states
  | .executeMemoryOperation h isWrite address bytes :: requests, states => do
    let q ← stateOf states h
    executeMemoryOperation env q isWrite address bytes
    serve env requests states
  | .pushFrame h kf entry :: requests, states => do
    let q ← stateOf states h
    write q fun state =>
      { state with stack := ⟨some state.prevPC, kf, fun _ => none⟩ :: state.stack, pc := entry }
    serve env requests states
  | .setData h :: requests, states => do
    let q ← stateOf states h
    setData env q
    serve env requests states

/-! ### Hooks of the listeners -/

/-- `executeMakeSymbolic` for an object that a hook creates: with seeds or a replayed test, the inputs may
not fit. -/
def executeMakeSymbolic (env : Env) (p : Ptr) : Prog Executor Unit := do
  let n ← tick
  let seeds ← seedsOf p
  if (seeds.isSome || env.config.replayKTest) && env.inputMismatch n then do
    emit (.mark .ucHook p)
    terminateState p
  else setData env p

/-- The objects that a hook creates. -/
def createObjects (env : Env) (p : Ptr) : Prog Executor Unit := do
  let n ← tick
  Prog.each (fun _ => executeMakeSymbolic env p) (List.range (env.createdObjects n))

/-- Return from a function without a value; in the outermost frame the caller is null. -/
def returnDirectly (env : Env) (p : Ptr) : Prog Executor Unit := do
  let state ← read p
  match state.stack with
  | [] => Prog.abort
  | [_] => do
    terminateState p
    Prog.abort
  | sf :: _ :: _ => do
    let caller ← Prog.unwrap sf.caller
    let dest := (env.instructions caller).normalDest
    write p fun state =>
      { state with stack := state.stack.tail, pc := (dest.map (·.entry)).getD (caller + 1) }
    setData env p

/-- The memory operations of the hook after a store, each on the constant address of an element. -/
def writeElements (env : Env) (p : Ptr) : Prog Executor Unit := do
  let n ← tick
  Prog.each (fun target => do
    executeMemoryOperation env p true (.const target.1) target.2
    markTerminated .ucHook p) (env.storeTargets n)

namespace UCListener

/-- `UCListener::beforeExecuteInstruction`. -/
def beforeExecuteInstruction (env : Env) (p : Ptr) : Prog Executor Unit := createObjects env p

/-- `UCListener::afterExecuteInstruction`. -/
def afterExecuteInstruction (env : Env) (p : Ptr) (ki : ℕ) : Prog Executor Unit :=
  match (env.instructions ki).opcode with
  | .store _ _ _ => do
    setData env p
    writeElements env p
  | .other => createObjects env p
  | .load _ _ => setData env p
  | .unreachable => returnDirectly env p
  | _ => pure ()

end UCListener

/-- The first place of `pat` in a text. -/
def find (pat : List Char) : List Char → Option ℕ
  | [] => if pat = [] then some 0 else none
  | c :: cs => if pat.isPrefixOf (c :: cs) then some 0 else (find pat cs).map (· + 1)

namespace PathListener

/-- `line_info.substr(line_info.find("source/") + 1)`; a text without it is kept. -/
def lineInfo (sourceinfo : String) : String :=
  match find "source/".toList sourceinfo.toList with
  | none => sourceinfo
  | some pos => String.ofList (sourceinfo.toList.drop (pos + 1))

/-- `haltExecution = true`. -/
def halt : Prog Executor Unit := modifyAux fun b => { b with haltExecution := true }

/-- Cover a line; the state is terminated once for each line of its whitelist that it has not covered. -/
def coverLine (env : Env) (p : Ptr) (line : String) : Prog Executor Unit := do
  write p fun state => { state with completecoveredLines := state.completecoveredLines.insert line }
  let state ← read p
  Prog.each (fun whiteline =>
    Prog.when (whiteline ∉ state.completecoveredLines) do
      emit (.mark .whitelist p)
      terminateState p) ((env.config.whitelist_map line).getD [])

/-- The callee of an indirect call, which the configuration may name. -/
def pickCallee (env : Env) (p : Ptr) : Opcode → Prog Executor Unit
  | .other => do
    let n ← tick
    if env.calleeMissing n then halt else setData env p
  | _ => pure ()

/-- `PathListener::beforeExecuteInstruction`. -/
def beforeExecuteInstruction (env : Env) (p : Ptr) (ki : ℕ) : Prog Executor Unit := do
  let inst := env.instructions ki
  Prog.when (inst.sourceinfo ≠ "") (coverLine env p (lineInfo inst.sourceinfo))
  pickCallee env p inst.opcode

/-- Count a visit to a line of low priority; the first ten terminate the state. -/
def visitLowPriority (p : Ptr) (line : String) : Prog Executor Unit := do
  let s ← Prog.get
  let count := (s.aux.low_priority_lines_counter line).getD 0 + 1
  modifyAux fun b =>
    { b with low_priority_lines_counter := Function.update b.low_priority_lines_counter line (some count) }
  Prog.when (count ≤ 10) (terminateState p)

/-- The blocks, functions and lines of low priority. -/
def checkPriority (env : Env) (p : Ptr) (inst : KInstruction) : Prog Executor Unit :=
  if inst.parent.name ∈ env.config.low_priority_bbs then terminateState p
  else if inst.function ∈ env.config.low_priority_functions then terminateState p
  else Prog.when (inst.simple_name_l ∈ env.config.low_priority_lines) (visitLowPriority p inst.simple_name_l)

/-- `PathListener::OOBWcheck` at a target line. -/
def checkTarget (p : Ptr) : Prog Executor Unit := do
  let state ← read p
  Prog.when (state.OOBW = true) halt

/-- `PathListener::afterExecuteInstruction`. -/
def afterExecuteInstruction (env : Env) (p : Ptr) (ki : ℕ) : Prog Executor Unit := do
  let inst := env.instructions ki
  Prog.when (inst.parent.name ∈ env.config.target_bbs) halt
  checkPriority env p inst
  Prog.when (inst.simple_name_l ∈ env.config.target_lines) (checkTarget p)
  write p fun state => { state with OOBW := false }

end PathListener

/-- `ListenerService::beforeExecuteInstruction`. -/
def beforeExecuteInstruction (env : Env) (p : Ptr) (ki : ℕ) : Prog Executor Unit := do
  emit (.before .UCListener p ki)
  UCListener.beforeExecuteInstruction env p
  emit (.before .PathListener p ki)
  PathListener.beforeExecuteInstruction env p ki

/-- `ListenerService::afterExecuteInstruction`. -/
def afterExecuteInstruction (env : Env) (p : Ptr) (ki : ℕ) : Prog Executor Unit := do
  let s ← Prog.get
  if p ∈ s.removedStates then pure ()
  else do
    emit (.after .UCListener p ki)
    UCListener.afterExecuteInstruction env p ki
    emit (.after .PathListener p ki)
    PathListener.afterExecuteInstruction env p ki

/-! ### Branches -/

/-- `eval` of an operand. -/
def eval (p : Ptr) (op : Operand) : Prog Executor Expr := do
  let state ← read p
  let s ← Prog.get
  match op with
  | .const n => Prog.unwrap (s.aux.constantTable n)
  | .reg n => Prog.unwrap (state.stack.head?.bind fun sf => sf.locals n)

/-- `transferToBasicBlock`. -/
def transferToBasicBlock (env : Env) (dst src : BasicBlock) (p : Ptr) : Prog Executor Unit :=
  write p fun state =>
    { state with
      pc := dst.entry
      incomingBBIndex := (env.phiIndex dst.entry src).getD state.incomingBBIndex }

/-- `getCalltrace`: the functions on the stack, from the outermost. -/
def getCalltrace (state : ExecutionState) : String :=
  "--".intercalate (state.stack.reverse.map (·.kf))

/-- The name under which a block is counted: what follows the file name after `bc-`. -/
def countedName (name : String) : Option String :=
  (find "bc-".toList name.toList).map fun i =>
    let rest := name.toList.drop (i + 3)
    String.ofList (rest.drop (((find "-".toList rest).map (· + 1)).getD 0))

/-- `BBkey`. -/
def BBkey (calltrace name : String) : Option String := (countedName name).map (calltrace ++ "-" ++ ·)

/-- `checkLoopLimit`. -/
def checkLoopLimit (p : Ptr) (block : BasicBlock) (looplimit : UInt32) (terminate : Bool) :
    Prog Executor Bool := do
  let state ← read p
  match BBkey (getCalltrace state) block.name with
  | none => pure false
  | some key => do
    write p fun state =>
      { state with BBcount := Function.update state.BBcount key (state.BBcount key + 1) }
    if looplimit < state.BBcount key + 1 then do
      Prog.when (terminate = true) do
        emit (.mark .loopLimit p)
        terminateState p
      pure true
    else pure false

/-- Add an execution of a conditional branch to the history of a state. -/
def record (p : Ptr) (v : Visit) : Prog Executor Unit :=
  Prog.modify fun s => { s with history := Function.update s.history p (v :: s.history p) }

/-- The check of the loop limit in the new state of a branch, and the record of the execution. -/
def limitNewState (env : Env) (p newstate : Ptr) (block : BasicBlock) (calltrace : String) :
    Prog Executor Unit := do
  let terminated ← checkLoopLimit newstate block (env.config.looplimit.getD 10) true
  record p ⟨calltrace, block, true, terminated⟩
  record newstate ⟨calltrace, block, true, terminated⟩

/-- Both sides are feasible: the loop limit is checked in both states, and the new state gets the hook
that the main loop runs for the old one. -/
def branchBoth (env : Env) (p newstate : Ptr) (ki : ℕ) : Prog Executor Unit := do
  let block := (env.instructions ki).parent
  let state ← read p
  let _ ← checkLoopLimit p block (env.config.looplimit.getD 10) false
  limitNewState env p newstate block (getCalltrace state)
  afterExecuteInstruction env newstate ki

/-- At most one side is feasible: a loop that runs too long is left by a random side. -/
def branchOne (env : Env) (p : Ptr) (block succ0 succ1 : BasicBlock) : Prog Executor Unit := do
  let state ← read p
  let reached ← checkLoopLimit p block 129 false
  record p ⟨getCalltrace state, block, false, false⟩
  Prog.when (reached = true) do
    let r ← random env
    transferToBasicBlock env (if r % 2 = 0 then succ0 else succ1) block p

/-- `transferToBasicBlock` unless the state is null. -/
def transferTo (env : Env) (dst src : BasicBlock) : Option Ptr → Prog Executor Unit
  | none => pure ()
  | some p => transferToBasicBlock env dst src p

/-- `targetBB`. -/
def targetBB (env : Env) (currentBB : String) : String := (env.config.BB_targetBB currentBB).getD ""

/-- `BB_targetBB_counter[currentBB] = count`. -/
def setCounter (currentBB : String) (count : ℕ) : Prog Executor Unit :=
  modifyAux fun b =>
    { b with BB_targetBB_counter := Function.update b.BB_targetBB_counter currentBB (some count) }

/-- Count the executions of a branch that miss its target block. -/
def countMisses (env : Env) (currentBB : String) (succ0 succ1 : BasicBlock)
    (branches : Option Ptr × Option Ptr) : Prog Executor Unit := do
  let s ← Prog.get
  let target := targetBB env currentBB
  Prog.when (target ≠ "") do
    if (target = succ0.name ∧ branches.1 = none) ∨ (target = succ1.name ∧ branches.2 = none) then
      setCounter currentBB ((s.aux.BB_targetBB_counter currentBB).getD 0 + 1)
    else Prog.when (s.aux.BB_targetBB_counter currentBB ≠ none) (setCounter currentBB 0)

/-- Which side a branch tries first: the one that reaches the other, or a random one. -/
def randvalue (env : Env) (block succ0 succ1 : BasicBlock) (r : ℕ) : ℕ :=
  if env.BB1_reach_BB2 succ0 block || env.BB1_reach_BB2 succ1 block then r % 2
  else if env.BB1_reach_BB2 succ0 succ1 then 1
  else if env.BB1_reach_BB2 succ1 succ0 then 0
  else r % 2

/-- What follows the `fork` of a conditional branch; `state2` is its second state. -/
def afterFork (env : Env) (p : Ptr) (ki : ℕ) (succ0 succ1 : BasicBlock)
    (branches : Option Ptr × Option Ptr) (state2 : Option Ptr) : Prog Executor Unit :=
  match branches, state2 with
  | (some _, some _), some newstate => branchBoth env p newstate ki
  | _, _ => branchOne env p (env.instructions ki).parent succ0 succ1

/-- `Instruction::Br`, conditional. -/
def executeCondBr (env : Env) (p : Ptr) (ki : ℕ) (cond : Operand) (succ0 succ1 : BasicBlock) :
    Prog Executor Unit := do
  let block := (env.instructions ki).parent
  let s ← Prog.get
  if 5 < (s.aux.BB_targetBB_counter block.name).getD 0 then do
    transferToBasicBlock env (if targetBB env block.name = succ0.name then succ0 else succ1) block p
    setCounter block.name 0
  else do
    let c ← eval p cond
    let r ← random env
    let flip := randvalue env block succ0 succ1 r = 1
    let branches ← fork env p (if flip then createIsZero c else c) false
    let sides := if flip then branches.swap else branches
    transferTo env succ0 block sides.1
    transferTo env succ1 block sides.2
    afterFork env p ki succ0 succ1 sides branches.2
    countMisses env block.name succ0 succ1 sides

/-- The feasible destinations of an indirect branch, with the conditions, and the condition of the error
case. -/
def feasibleDestinations (env : Env) (p : Ptr) (address : Expr) :
    List BasicBlock → List BasicBlock → Expr → Prog Executor (List (BasicBlock × Expr) × Expr)
  | [], _, errorCase => pure ([], errorCase)
  | d :: ds, seen, errorCase => do
    if d ∈ seen then feasibleDestinations env p address ds seen errorCase
    else do
      let e := EqExpr.create address (.const d.address)
      let result ← mayBeTrue env p e
      let rest ← feasibleDestinations env p address ds (d :: seen)
        (AndExpr.create errorCase (createIsZero e))
      pure (if result then (d, e) :: rest.1 else rest.1, rest.2)

/-- Transfer every state of `branch` to its block. -/
def transferAll (env : Env) (src : BasicBlock) : List (BasicBlock × Option Ptr) → Prog Executor Unit :=
  Prog.each fun bq => transferTo env bq.1 src bq.2

/-- The symbolic case of an indirect branch; the state of the error case is the last of `branch`. -/
def branchIndirect (env : Env) (p : Ptr) (block : BasicBlock) (address : Expr)
    (destinations : List BasicBlock) : Prog Executor Unit := do
  let feasible ← feasibleDestinations env p address destinations [] (ofBool true)
  let error ← mayBeTrue env p feasible.2
  let branches ← branch env p (feasible.1.map (·.2) ++ if error then [feasible.2] else [])
  Prog.when (error = true) do
    let q ← Prog.unwrap branches.getLast?.join
    terminateState q
  transferAll env block ((feasible.1.map (·.1)).zip branches)

/-- `Instruction::IndirectBr`. -/
def executeIndirectBr (env : Env) (p : Ptr) (block : BasicBlock) (address : Operand)
    (destinations : List BasicBlock) : Prog Executor Unit := do
  let e ← eval p address
  let address ← toUnique env p e
  if address.isConstant then do
    let bb ← Prog.unwrap (env.blockAt (address.eval (fun _ _ => 0) pointerWidth).toNat)
    transferToBasicBlock env bb block p
  else branchIndirect env p block address destinations

/-- `expressionOrder.insert`: of two equal values the first one stays.  The source orders the values by `Expr::compare`, which
looks at the hashes first; here they are in the order of the numbers, and what is proved of a switch does not depend on it. -/
def insertCase {w : ℕ} (c : BitVec w × BasicBlock) :
    List (BitVec w × BasicBlock) → List (BitVec w × BasicBlock)
  | [] => [c]
  | d :: ds => if c.1.toNat < d.1.toNat then c :: d :: ds
      else if c.1 = d.1 then d :: ds
      else d :: insertCase c ds

/-- `branchTargets.insert` and the disjunction with the earlier matches of the block. -/
def addTarget (bb : BasicBlock) (matched : Expr) : List (BasicBlock × Expr) → List (BasicBlock × Expr)
  | [] => [(bb, OrExpr.create matched (ofBool false))]
  | (b, e) :: targets =>
    if b = bb then (b, OrExpr.create matched e) :: targets else (b, e) :: addTarget bb matched targets

/-- The feasible cases of a switch: the targets in order with their conditions, and the condition of the
default case. -/
def feasibleCases {w : ℕ} (env : Env) (p : Ptr) (cond : Expr) (defaultDest : BasicBlock) :
    List (BitVec w × BasicBlock) → List (BasicBlock × Expr) → Expr →
      Prog Executor (List (BasicBlock × Expr) × Expr)
  | [], targets, defaultValue => pure (targets, defaultValue)
  | (value, bb) :: cases, targets, defaultValue => do
    -- a case that leads to the default block is left to the default case
    if bb = defaultDest then feasibleCases env p cond defaultDest cases targets defaultValue
    else do
      let matched := EqExpr.create cond (.const value)
      let result ← mayBeTrue env p matched
      feasibleCases env p cond defaultDest cases (if result then addTarget bb matched targets else targets)
        (AndExpr.create defaultValue (createIsZero matched))

/-- The symbolic case of a switch.  Without a target block, the loop that orders the cases transfers the
state to each unnamed successor on the way. -/
def branchSwitch {w : ℕ} (env : Env) (p : Ptr) (block : BasicBlock) (cond : Expr)
    (cases : List (BitVec w × BasicBlock)) (defaultDest : BasicBlock) : Prog Executor Unit := do
  Prog.assert (cond.HasWidth w)
  Prog.each (fun c => Prog.when (c.2.name = targetBB env block.name) (transferToBasicBlock env c.2 block p))
    cases
  let order := cases.foldl (fun order c => insertCase c order) []
  let feasible ← feasibleCases env p cond defaultDest order [] (ofBool true)
  let default ← mayBeTrue env p feasible.2
  let targets := feasible.1 ++ if default then [(defaultDest, feasible.2)] else []
  let branches ← branch env p (targets.map (·.2))
  transferAll env block ((targets.map (·.1)).zip branches)

/-- `Instruction::Switch`. -/
def executeSwitch {w : ℕ} (env : Env) (p : Ptr) (block : BasicBlock) (cond : Operand)
    (cases : List (BitVec w × BasicBlock)) (defaultDest : BasicBlock) : Prog Executor Unit := do
  let e ← eval p cond
  let target := targetBB env block.name
  match cases.find? fun c => target ≠ "" ∧ c.2.name = target with
  | some c => transferToBasicBlock env c.2 block p
  | none => do
    let e ← toUnique env p e
    if e.isConstant then do
      -- `getZExtValue` takes no value of more than 64 bits
      Prog.assert (w ≤ 64)
      let value := e.eval (fun _ _ => 0) w
      transferToBasicBlock env (((cases.find? fun c => c.1 = value).map (·.2)).getD defaultDest) block p
    else branchSwitch env p block e cases defaultDest

/-! ### Instructions -/

/-- `Instruction::Ret`. -/
def executeRet (env : Env) (p : Ptr) (isVoidReturn : Bool) : Prog Executor Unit := do
  let state ← read p
  match state.stack with
  | [] => Prog.abort
  | [sf] => do
    Prog.assert (sf.caller = none)
    terminateState p
  | sf :: _ :: _ => do
    let caller ← Prog.unwrap sf.caller
    let kcaller := env.instructions caller
    write p fun state =>
      { state with stack := state.stack.tail, pc := (kcaller.normalDest.map (·.entry)).getD (caller + 1) }
    if isVoidReturn then Prog.when (kcaller.use_empty = false) (terminateState p)
    else setData env p

/-- `executeInstruction`. -/
def executeInstruction (env : Env) (p : Ptr) (ki : ℕ) : Prog Executor Unit := do
  emit (.execute p ki)
  let block := (env.instructions ki).parent
  match (env.instructions ki).opcode with
  | .ret isVoidReturn => executeRet env p isVoidReturn
  | .br dest => transferToBasicBlock env dest block p
  | .condBr cond succ0 succ1 => executeCondBr env p ki cond succ0 succ1
  | .indirectBr address destinations => executeIndirectBr env p block address destinations
  | .switch cond _ cases defaultDest => executeSwitch env p block cond cases defaultDest
  | .unreachable => pure ()
  | .load address bytes => do
    let base ← eval p address
    executeMemoryOperation env p false base bytes
  | .store value address bytes => do
    let base ← eval p address
    let _ ← eval p value
    executeMemoryOperation env p true base bytes
  | .other => do
    let n ← tick
    serve env (env.requests n) [some p]

/-! ### The main loop -/

/-- `stepInstruction`. -/
def stepInstruction (env : Env) (p : Ptr) : Prog Executor Unit := do
  write p fun state => { state with prevPC := state.pc, pc := state.pc + 1 }
  modifyAux fun b =>
    { b with
      instructions := b.instructions + 1
      haltExecution := b.haltExecution || b.instructions + 1 == env.config.MaxInstructions }

/-- The random victims of `checkMemoryUsage`: `n` of the states in `arr`, with a second pull for a state
that covered new code.  The last state moves into the gap, which the next random pull does not see. -/
def killStates (env : Env) : ℕ → List Ptr → Prog Executor Unit
  | 0, _ => pure ()
  | n + 1, arr => do
    let r ← random env
    let r' ← random env
    match arr[r % arr.length]? with
    | none => pure ()
    | some q => do
      let state ← read q
      let idx := if state.coveredNew then r' % arr.length else r % arr.length
      let q ← Prog.unwrap arr[idx]?
      terminateState q
      killStates env n (arr.eraseIdx idx)

/-- `checkMemoryUsage`, and the `updateStates` after it when states were killed. -/
def checkMemoryUsage (env : Env) : Prog Executor Unit := do
  let s ← Prog.get
  Prog.when (env.config.MaxMemory ≠ 0 ∧ s.aux.instructions % 2 ^ 16 = 0) do
    let n ← tick
    let totalUsage := env.totalUsage n
    modifyAux fun b => { b with atMemoryLimit := decide (env.config.MaxMemory < totalUsage) }
    Prog.when (env.config.MaxMemory + 100 < totalUsage) do
      let numStates := s.states.length
      killStates env (max 1 (numStates - numStates * env.config.MaxMemory / totalUsage)) s.states
      updateStates

/-- One turn of the main loop of `run`, on the state that the searcher selects. -/
def runStep (env : Env) (p : Ptr) : Prog Executor Unit := do
  let state ← read p
  stepInstruction env p
  beforeExecuteInstruction env p state.pc
  executeInstruction env p state.pc
  afterExecuteInstruction env p state.pc
  updateStates
  checkMemoryUsage env
  let n ← tick
  Prog.when (env.timeOut n = true) PathListener.halt

/-- The start of `run`: one state. -/
def start (initialState : ExecutionState) (aux : Bookkeeping) : Executor where
  heap := fun p => if p = 0 then some initialState else none
  nextPtr := 1
  states := [0]
  addedStates := []
  removedStates := []
  trace := []
  history := fun _ => []
  aux := aux

/-- The main loop as a machine: it goes on while there are states and nobody halts it; the action is the
choice of the searcher. -/
def step (env : Env) (s : Executor) (p : Ptr) : Option Executor :=
  if p ∈ s.states ∧ s.aux.haltExecution = false then
    match runStep env p s with
    | (some _, t) => some t
    | (none, _) => none
  else none

end Executor

/-- An environment in which nothing happens but the instructions: no memory pressure, no static limits, no
indirect targets.  Registers are set to `locals`, at every write of data, and `solver` answers. -/
def Env.plain (config : Config) (instructions : ℕ → KInstruction) (locals : ℕ → ℕ → Option Expr)
    (solver : SolverChain) : Env where
  config := config
  instructions := instructions
  phiIndex := fun _ _ => none
  blockAt := fun _ => none
  BB1_reach_BB2 := fun _ _ => false
  solver := solver
  random := fun _ => 0
  totalUsage := fun _ => 0
  timeOut := fun _ => false
  staticLimit := fun _ => false
  seedValue := fun _ _ _ => none
  seedViolates := fun _ _ _ => none
  patchSeed := fun _ seed _ => seed
  inputMismatch := fun _ => false
  resolveOne := fun _ _ _ => some none
  resolve := fun _ _ _ => ([], false)
  readOnly := fun _ _ => false
  data := fun n state =>
    ⟨locals n, state.addressSpace, state.symaddr_base, state.map_symbolic_address,
      state.map_address_symbolic, state.OOBW⟩
  requests := fun _ => []
  calleeMissing := fun _ => false
  createdObjects := fun _ => 0
  storeTargets := fun _ => []

end SymBisect
