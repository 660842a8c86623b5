import SymBisect.Core.ExecuteInstruction
import SymBisect.Lib.Run

/-!
# What the executor's programs can do

Every program of the executor is put together from a few changes: of the bookkeeping, of a state through
its pointer, a new state, a terminated state.  This file names these changes once and proves, program by
program, that an invariant which survives the changes is kept by the program.

* `Quiet`: the program only changes the bookkeeping.
* `Mild I`: `I` survives the bookkeeping, the marks and a write that leaves `BBcount` and `constraints` alone.
* `Constrains I`: also new constraints.
* `TerminatesAt p I`, `Terminates I`: also the end of the state `p`, of any state.
* `Forks I`: also new states.
* `Updates I`: also the lists of states.
-/

namespace SymBisect

open Lib Expr

namespace Executor

/-! ### The changes -/

/-- A write through a pointer. -/
def written (s : Executor) (p : Ptr) (f : ExecutionState → ExecutionState) : Executor :=
  { s with heap := Function.update s.heap p ((s.heap p).map f) }

/-- An event. -/
def emitted (s : Executor) (e : Event) : Executor := { s with trace := e :: s.trace }

/-- A new state, copied from the state `state` at `p`. -/
def spawned (s : Executor) (p : Ptr) (state : ExecutionState) : Executor :=
  { s with
    heap := Function.update (Function.update s.heap p (some (state.branch s.aux.nextID).1)) s.nextPtr
      (some (state.branch s.aux.nextID).2)
    nextPtr := s.nextPtr + 1
    addedStates := s.addedStates ++ [s.nextPtr]
    trace := .fork p s.nextPtr :: s.trace
    history := Function.update s.history s.nextPtr (s.history p)
    aux := { s.aux with nextID := s.aux.nextID + 1 } }

/-- A terminated state. -/
def terminated (s : Executor) (p : Ptr) : Executor :=
  if p ∈ s.addedStates then
    { s with
      heap := Function.update s.heap p none
      addedStates := s.addedStates.erase p
      trace := .terminate p :: s.trace
      aux := { s.aux with seedMap := Function.update s.aux.seedMap p none } }
  else
    { s with
      heap := Function.update s.heap p ((s.heap p).map fun state => { state with pc := state.prevPC })
      removedStates := s.removedStates ++ [p]
      trace := .terminate p :: s.trace }

variable {α : Type} {Q : α → Executor → Prop} {E : Executor → Prop} {s : Executor}

theorem written_heap (s : Executor) (p : Ptr) (f : ExecutionState → ExecutionState) (x : Ptr) :
    (s.written p f).heap x = if x = p then (s.heap p).map f else s.heap x :=
  Function.update_apply ..

theorem spawned_heap (s : Executor) (p : Ptr) (state : ExecutionState) (x : Ptr) :
    (s.spawned p state).heap x = if x = s.nextPtr then some (state.branch s.aux.nextID).2
      else if x = p then some (state.branch s.aux.nextID).1 else s.heap x := by
  show Function.update _ _ _ x = _
  rw [Function.update_apply, Function.update_apply]

theorem wp_read {Q : ExecutionState → Executor → Prop} {p : Ptr} :
    Prog.wp (read p) Q E s ↔ (∀ state, s.heap p = some state → Q state s) ∧ (s.heap p = none → E s) := by
  unfold Prog.wp read
  cases s.heap p with
  | none => simp
  | some state => simp

@[simp] theorem wp_write {Q : Unit → Executor → Prop} {p : Ptr} {f : ExecutionState → ExecutionState} :
    Prog.wp (write p f) Q E s ↔ Q () (s.written p f) := Iff.rfl

@[simp] theorem wp_emit {Q : Unit → Executor → Prop} {e : Event} :
    Prog.wp (emit e) Q E s ↔ Q () (s.emitted e) := Iff.rfl

@[simp] theorem wp_modifyAux {Q : Unit → Executor → Prop} {f : Bookkeeping → Bookkeeping} :
    Prog.wp (modifyAux f) Q E s ↔ Q () { s with aux := f s.aux } := Iff.rfl

theorem wp_spawn {Q : Ptr → Executor → Prop} {p : Ptr} :
    Prog.wp (spawn p) Q E s ↔
      (∀ state, s.heap p = some state → Q s.nextPtr (s.spawned p state)) ∧ (s.heap p = none → E s) := by
  unfold spawn
  rw [Prog.wp_bind, wp_read]
  exact Iff.rfl

theorem wp_terminateState {Q : Unit → Executor → Prop} {p : Ptr} :
    Prog.wp (terminateState p) Q E s ↔ Q () (s.terminated p) := by
  unfold terminateState terminated
  simp only [Prog.wp_bind, wp_emit, Prog.wp_get, Prog.wp_ite, wp_modifyAux, Prog.wp_modify, wp_write]
  by_cases h : p ∈ s.addedStates
  · have h' : p ∈ (s.emitted (.terminate p)).addedStates := h
    simp only [h, h', if_true, forall_const, not_true_eq_false, IsEmpty.forall_iff, and_true]
    exact Iff.rfl
  · have h' : p ∉ (s.emitted (.terminate p)).addedStates := h
    simp only [h, h', if_false, forall_const, not_false_eq_true, IsEmpty.forall_iff, true_and]
    exact Iff.rfl

/-- A constraint that is added to a state without seeds. -/
theorem wp_addConstraint [ExprOptions] {Q : Unit → Executor → Prop} {env : Env} {p : Ptr} {condition : Expr}
    {state : ExecutionState} {constraints : ConstraintSet} (hc : condition.isConstant = false)
    (hseeds : s.aux.seedMap p = none) (hstate : s.heap p = some state)
    (hadd : ConstraintManager.addConstraint state.constraints condition = some constraints)
    (hQ : Q () (s.written p fun state => { state with constraints := constraints })) :
    Prog.wp (addConstraint env p condition) Q E s := by
  unfold addConstraint
  rw [if_neg (by simp [hc]), Prog.wp_bind]
  unfold checkSeeds seedsOf
  rw [Prog.wp_bind, Prog.wp_gets, hseeds]
  show Prog.wp _ Q E s
  rw [Prog.wp_bind, wp_read]
  refine ⟨fun state' hstate' => ?_, fun h => absurd (hstate.symm.trans h) nofun⟩
  obtain rfl : state = state' := Option.some.inj (hstate.symm.trans hstate')
  rw [hadd]
  exact hQ

/-! ### Quiet programs -/

/-- Only the bookkeeping differs. -/
def SameStates (s t : Executor) : Prop := ∃ b, t = { s with aux := b }

/-- The program only changes the bookkeeping. -/
def Quiet (m : Prog Executor α) : Prop := ∀ s, Prog.Keeps (SameStates s) m

namespace Quiet

variable {β : Type} {m : Prog Executor α} {k : α → Prog Executor β}

theorem pure (a : α) : Quiet (pure a : Prog Executor α) := fun _ => .pure a

theorem bind (hm : Quiet m) (hk : ∀ a, Quiet (k a)) : Quiet (m >>= k) :=
  fun s => (hm s).bind fun a => hk a s

theorem ite {c : Prop} [Decidable c] {m' : Prog Executor α} (hm : Quiet m) (hm' : Quiet m') :
    Quiet (if c then m else m') := fun s => (hm s).ite (hm' s)

theorem when {c : Prop} [Decidable c] {m : Prog Executor Unit} (hm : Quiet m) : Quiet (Prog.when c m) :=
  fun s => (hm s).when

theorem assert {c : Prop} [Decidable c] : Quiet (Prog.assert c) := fun _ => .assert

theorem unwrap (o : Option α) : Quiet (Prog.unwrap o) := fun _ => .unwrap o

theorem gets (f : Executor → α) : Quiet (Prog.gets f) := fun _ => .gets f

theorem get : Quiet (Prog.get : Prog Executor Executor) := fun _ => .get

theorem each {ι : Type} {f : ι → Prog Executor Unit} (hf : ∀ i, Quiet (f i)) (is : List ι) :
    Quiet (Prog.each f is) := fun s => .each (fun i => hf i s) is

theorem modifyAux (f : Bookkeeping → Bookkeeping) : Quiet (modifyAux f) := by
  intro s
  refine .modify fun t ht => ?_
  obtain ⟨b, rfl⟩ := ht
  exact ⟨_, rfl⟩

/-- An invariant that does not look at the bookkeeping is kept. -/
theorem keeps {I : Executor → Prop} (hm : Quiet m) (hI : ∀ s b, I s → I { s with aux := b }) :
    Prog.Keeps I m := by
  intro s hs
  refine (hm s s ⟨s.aux, rfl⟩).mono ?_ ?_
  · intro a t ht
    obtain ⟨b, rfl⟩ := ht
    exact hI s b hs
  · intro t ht
    obtain ⟨b, rfl⟩ := ht
    exact hI s b hs

theorem read (p : Ptr) : Quiet (read p) := by
  intro s t ht
  rw [wp_read]
  exact ⟨fun _ _ => ht, fun _ => ht⟩

theorem tick : Quiet tick := (gets _).bind fun _ => (modifyAux _).bind fun _ => pure _

theorem random (env : Env) : Quiet (random env) := tick.bind fun _ => pure _

theorem evaluate (env : Env) (p : Ptr) (e : Expr) : Quiet (evaluate env p e) :=
  (read p).bind fun _ => assert.bind fun _ => (pure _).ite (tick.bind fun _ => pure _)

theorem mustBeTrue (env : Env) (p : Ptr) (e : Expr) : Quiet (mustBeTrue env p e) :=
  (read p).bind fun _ => assert.bind fun _ => (pure _).ite (tick.bind fun _ => pure _)

theorem mayBeTrue (env : Env) (p : Ptr) (e : Expr) : Quiet (mayBeTrue env p e) :=
  (read p).bind fun _ => assert.bind fun _ => (pure _).ite (tick.bind fun _ => unwrap _)

theorem getValue (env : Env) (p : Ptr) (e : Expr) : Quiet (getValue env p e) :=
  (read p).bind fun _ => assert.bind fun _ => tick.bind fun _ => pure _

theorem seedsOf (p : Ptr) : Quiet (seedsOf p) := gets _

theorem setSeeds (p : Ptr) (seeds : Option (List Seed)) : Quiet (setSeeds p seeds) := modifyAux _

theorem patchSeeds (env : Env) (condition : Expr) (seeds : List Seed) :
    Quiet (patchSeeds env condition seeds) := by
  induction seeds with
  | nil => exact pure _
  | cons seed seeds ih => exact tick.bind fun _ => (unwrap _).bind fun _ => ih.bind fun _ => pure _

theorem checkSeeds (env : Env) (p : Ptr) (condition : Expr) : Quiet (checkSeeds env p condition) := by
  refine (seedsOf p).bind fun seeds => ?_
  cases seeds with
  | none => exact pure _
  | some seeds => exact (patchSeeds env condition seeds).bind fun _ => setSeeds _ _

theorem seedValues (env : Env) (condition : Expr) (seeds : List Seed) :
    Quiet (seedValues env condition seeds) := by
  induction seeds with
  | nil => exact pure _
  | cons seed seeds ih => exact tick.bind fun _ => (unwrap _).bind fun _ => ih.bind fun _ => pure _

theorem seedSides (env : Env) (condition : Expr) (seeds : List Seed) (t f : Bool) :
    Quiet (seedSides env condition seeds t f) := by
  induction seeds generalizing t f with
  | nil => exact pure _
  | cons seed seeds ih =>
    exact tick.bind fun _ => (unwrap _).bind fun _ => (pure _).ite (ih _ _)

theorem branchingPermitted (env : Env) (p : Ptr) : Quiet (branchingPermitted env p) :=
  (read p).bind fun _ => get.bind fun _ => pure _

theorem firstTrue (env : Env) (seed : Seed) (conditions : List Expr) (i : ℕ) :
    Quiet (firstTrue env seed conditions i) := by
  induction conditions generalizing i with
  | nil => exact pure _
  | cons condition conditions ih =>
    exact tick.bind fun _ => (unwrap _).bind fun _ => (pure _).ite (ih _)

theorem assignSeed (env : Env) (conditions : List Expr) (result : List (Option Ptr)) (seed : Seed) :
    Quiet (assignSeed env conditions result seed) := by
  refine (firstTrue env seed conditions 0).bind fun found => (random env).bind fun r => ?_
  cases result[found.getD (r % conditions.length)]?.join with
  | none => exact pure _
  | some q => exact modifyAux _

theorem eval (p : Ptr) (op : Operand) : Quiet (eval p op) := by
  refine (read p).bind fun _ => get.bind fun _ => ?_
  cases op with
  | const n => exact unwrap _
  | reg n => exact unwrap _

theorem toUnique [ExprOptions] (env : Env) (p : Ptr) (e : Expr) : Quiet (toUnique env p e) := by
  refine (pure _).ite ((getValue env p e).bind fun value => ?_)
  cases value with
  | none => exact pure _
  | some value => exact (mustBeTrue env p _).bind fun _ => pure _

theorem feasibleDestinations [ExprOptions] (env : Env) (p : Ptr) (address : Expr)
    (ds seen : List BasicBlock) (errorCase : Expr) :
    Quiet (feasibleDestinations env p address ds seen errorCase) := by
  induction ds generalizing seen errorCase with
  | nil => exact pure _
  | cons d ds ih =>
    exact (ih _ _).ite ((mayBeTrue env p _).bind fun _ => (ih _ _).bind fun _ => pure _)

theorem feasibleCases [ExprOptions] {w : ℕ} (env : Env) (p : Ptr) (cond : Expr) (defaultDest : BasicBlock)
    (cases : List (BitVec w × BasicBlock)) (targets : List (BasicBlock × Expr)) (defaultValue : Expr) :
    Quiet (feasibleCases env p cond defaultDest cases targets defaultValue) := by
  induction cases generalizing targets defaultValue with
  | nil => exact pure _
  | cons c cases ih => exact (ih _ _).ite ((mayBeTrue env p _).bind fun _ => ih _ _)

theorem setCounter (currentBB : String) (count : ℕ) : Quiet (setCounter currentBB count) := modifyAux _

theorem countMisses (env : Env) (currentBB : String) (succ0 succ1 : BasicBlock)
    (branches : Option Ptr × Option Ptr) : Quiet (countMisses env currentBB succ0 succ1 branches) :=
  get.bind fun _ => when ((setCounter _ _).ite (when (setCounter _ _)))

theorem halt : Quiet PathListener.halt := modifyAux _

theorem checkTarget (p : Ptr) : Quiet (PathListener.checkTarget p) :=
  (read p).bind fun _ => when halt

end Quiet

/-! ### Mild programs -/

/-- `I` survives the bookkeeping, the marks and the writes that leave the counters and the constraints of
a state alone. -/
structure Mild (I : Executor → Prop) : Prop where
  aux : ∀ s b, I s → I { s with aux := b }
  mark : ∀ s m p, I s → I (s.emitted (.mark m p))
  write : ∀ s p f, (∀ state, s.heap p = some state →
    (f state).BBcount = state.BBcount ∧ (f state).constraints = state.constraints) → I s → I (s.written p f)

namespace Mild

variable {I : Executor → Prop}

theorem quiet (h : Mild I) {m : Prog Executor α} (hm : Quiet m) : Prog.Keeps I m := hm.keeps h.aux

theorem write_of (h : Mild I) {p : Ptr} {f : ExecutionState → ExecutionState}
    (hf : ∀ state, (f state).BBcount = state.BBcount ∧ (f state).constraints = state.constraints) :
    Prog.Keeps I (Executor.write p f) :=
  .modify fun s => h.write s p f fun state _ => hf state

theorem setData (h : Mild I) (env : Env) (p : Ptr) : Prog.Keeps I (setData env p) :=
  (h.quiet .tick).bind fun _ => h.write_of fun _ => ⟨rfl, rfl⟩

theorem transferToBasicBlock (h : Mild I) (env : Env) (dst src : BasicBlock) (p : Ptr) :
    Prog.Keeps I (transferToBasicBlock env dst src p) :=
  h.write_of fun _ => ⟨rfl, rfl⟩

theorem transferTo (h : Mild I) (env : Env) (dst src : BasicBlock) (p : Option Ptr) :
    Prog.Keeps I (transferTo env dst src p) := by
  cases p with
  | none => exact .pure _
  | some p => exact h.transferToBasicBlock env dst src p

theorem transferAll (h : Mild I) (env : Env) (src : BasicBlock) (bqs : List (BasicBlock × Option Ptr)) :
    Prog.Keeps I (transferAll env src bqs) :=
  .each (fun _ => h.transferTo env _ src _) bqs

theorem markTerminated (h : Mild I) (m : Mark) (p : Ptr) : Prog.Keeps I (markTerminated m p) :=
  Prog.Keeps.get.bind fun _ => (Prog.Keeps.modify fun s => h.mark s m p).when

theorem stateOf (h : Mild I) (states : List (Option Ptr)) (n : ℕ) : Prog.Keeps I (stateOf states n) :=
  (Prog.Keeps.unwrap _).bind fun _ => (h.markTerminated _ _).bind fun _ => .pure _

theorem stepInstruction (h : Mild I) (env : Env) (p : Ptr) : Prog.Keeps I (stepInstruction env p) :=
  Prog.Keeps.bind (h.write_of fun _ => ⟨rfl, rfl⟩) fun _ => h.quiet (.modifyAux _)

theorem pickCallee (h : Mild I) (env : Env) (p : Ptr) (opcode : Opcode) :
    Prog.Keeps I (PathListener.pickCallee env p opcode) := by
  cases opcode with
  | other => exact (h.quiet .tick).bind fun _ => (h.quiet .halt).ite (h.setData env p)
  | _ => exact .pure _

/-- The states at `p` and `q` have counted alike. -/
def CountedAlike (p q : Ptr) (BBcount : String → UInt32) (s : Executor) : Prop :=
  ∀ x, x = p ∨ x = q → ∀ state, s.heap x = some state → state.BBcount = BBcount

theorem countedAlike_written {p q x : Ptr} {BBcount : String → UInt32}
    {f : ExecutionState → ExecutionState} (hf : ∀ state, (f state).BBcount = BBcount)
    (hs : CountedAlike p q BBcount s) : CountedAlike p q BBcount (s.written x f) := by
  intro y hy state hstate
  by_cases hxy : y = x
  · subst hxy
    rw [written_heap, if_pos rfl] at hstate
    obtain ⟨state', -, rfl⟩ := Option.map_eq_some_iff.1 hstate
    exact hf state'
  · rw [written_heap, if_neg hxy] at hstate
    exact hs y hy state hstate

/-- States that have counted alike can swap what they have met. -/
theorem swapInfo (h : Mild I) {p q : Ptr} {BBcount : String → UInt32} (hs : I s)
    (hcount : CountedAlike p q BBcount s) : Prog.wp (swapInfo p q) (fun _ => I) I s := by
  unfold Executor.swapInfo
  rw [Prog.wp_bind, wp_read]
  refine ⟨fun trueState ht => ?_, fun _ => hs⟩
  rw [Prog.wp_bind, wp_read]
  refine ⟨fun falseState hf => ?_, fun _ => hs⟩
  have htc := hcount p (.inl rfl) trueState ht
  have hfc := hcount q (.inr rfl) falseState hf
  rw [Prog.wp_bind, wp_write, wp_write]
  refine h.write _ q _ (fun state hstate => ?_) (h.write s p _ (fun state hstate => ?_) hs)
  · refine ⟨htc.trans (countedAlike_written ?_ hcount q (.inr rfl) state hstate).symm, rfl⟩
    exact fun _ => hfc
  · exact ⟨hfc.trans (hcount p (.inl rfl) state hstate).symm, rfl⟩

/-- Dividing the seeds of two states that have counted alike. -/
theorem splitSeeds [ExprOptions] (h : Mild I) (env : Env) {p q : Ptr} (condition : Expr)
    (seeds : Option (List Seed)) {BBcount : String → UInt32} (hs : I s)
    (hcount : CountedAlike p q BBcount s) :
    Prog.wp (splitSeeds env p q condition seeds) (fun _ => I) I s := by
  cases seeds with
  | none => exact hs
  | some seeds =>
    have hquiet : ∀ {γ : Type} {m : Prog Executor γ}, Quiet m →
        Prog.Keeps (fun s => I s ∧ CountedAlike p q BBcount s) m :=
      fun hm => hm.keeps fun t b ht => ⟨h.aux t b ht.1, ht.2⟩
    have hweak : ∀ t, (I t ∧ CountedAlike p q BBcount t) → I t := fun t ht => ht.1
    unfold Executor.splitSeeds
    refine Prog.wp.bind ((hquiet (.seedValues env condition seeds) s ⟨hs, hcount⟩).mono (fun _ _ => id)
      hweak) fun values t ht => ?_
    refine Prog.wp.bind ((hquiet (.setSeeds p _) t ht).mono (fun _ _ => id) hweak) fun _ t ht => ?_
    refine Prog.wp.bind ((hquiet (.setSeeds q _) t ht).mono (fun _ _ => id) hweak) fun _ t ht => ?_
    rw [Prog.wp_when]
    exact ⟨fun _ => h.swapInfo ht.1 ht.2, fun _ => ht.1⟩

end Mild

/-! ### Constraints -/

/-- `I` also survives new constraints. -/
structure Constrains (I : Executor → Prop) : Prop extends Mild I where
  constrain : ∀ s p constraints, I s → I (s.written p fun state => { state with constraints := constraints })

namespace Constrains

variable {I : Executor → Prop} [ExprOptions]

theorem addConstraint (h : Constrains I) (env : Env) (p : Ptr) (condition : Expr) :
    Prog.Keeps I (addConstraint env p condition) :=
  Prog.Keeps.assert.ite ((h.quiet (.checkSeeds env p condition)).bind fun _ =>
    (h.quiet (.read p)).bind fun _ => (Prog.Keeps.unwrap _).bind fun constraints =>
      .modify fun s => h.constrain s p constraints)

theorem toConstant (h : Constrains I) (env : Env) (p : Ptr) (e : Expr) :
    Prog.Keeps I (toConstant env p e) :=
  (h.quiet (.read p)).bind fun _ => (Prog.Keeps.pure _).ite
    (((h.quiet (.getValue env p _)).bind fun _ => Prog.Keeps.unwrap _).bind fun _ =>
      (h.addConstraint env p _).bind fun _ => .pure _)

theorem limitStatically (h : Constrains I) (env : Env) (p : Ptr) (isSeeding : Bool) (condition : Expr) :
    Prog.Keeps I (limitStatically env p isSeeding condition) :=
  (h.quiet .tick).bind fun _ => Prog.Keeps.ite
    (((h.quiet (.getValue env p _)).bind fun _ => Prog.Keeps.unwrap _).bind fun _ =>
      (h.addConstraint env p _).bind fun _ => .pure _) (.pure _)

theorem takeSide (h : Constrains I) (env : Env) (p : Ptr) (condition : Expr) (timedOut side : Bool) :
    Prog.Keeps I (takeSide env p condition timedOut side) :=
  ((Prog.Keeps.modify fun s => h.mark s _ p).when).bind fun _ =>
    (h.addConstraint env p _).bind fun _ => .pure _

theorem pickSide (h : Constrains I) (env : Env) (p : Ptr) (condition : Expr) (isInternal timedOut : Bool)
    (res : Validity) : Prog.Keeps I (pickSide env p condition isInternal timedOut res) := by
  have hfree : Prog.Keeps I (if res = .Unknown then do
        Prog.assert (env.config.replayKTest = false)
        let permitted ← Executor.branchingPermitted env p
        if permitted then pure res
        else do
          let n ← Executor.random env
          Executor.takeSide env p condition timedOut (n % 2 == 1)
      else pure res) :=
    Prog.Keeps.ite (Prog.Keeps.assert.bind fun _ => (h.quiet (.branchingPermitted env p)).bind fun _ =>
      (Prog.Keeps.pure _).ite ((h.quiet (.random env)).bind fun _ => h.takeSide env p _ _ _)) (.pure _)
  unfold Executor.pickSide
  cases env.config.replayPath with
  | none => exact hfree
  | some path =>
    cases isInternal with
    | true => exact hfree
    | false =>
      refine Prog.Keeps.get.bind fun _ => (Prog.Keeps.unwrap _).bind fun _ =>
        (h.quiet (.modifyAux _)).bind fun _ => ?_
      cases res with
      | True => exact Prog.Keeps.assert.bind fun _ => .pure _
      | False => exact Prog.Keeps.assert.bind fun _ => .pure _
      | Unknown => exact h.takeSide env p _ _ _

theorem fixBySeeds (h : Constrains I) (env : Env) (p : Ptr) (condition : Expr) (seeds : List Seed)
    (timedOut : Bool) (res : Validity) : Prog.Keeps I (fixBySeeds env p condition seeds timedOut res) :=
  (h.quiet (.read p)).bind fun _ => Prog.Keeps.ite
    ((h.quiet (.seedSides env condition seeds _ _)).bind fun _ => (Prog.Keeps.pure _).ite
      (Prog.Keeps.assert.bind fun _ => h.takeSide env p _ _ _)) (.pure _)

theorem chooseSide (h : Constrains I) (env : Env) (p : Ptr) (condition : Expr) (isInternal : Bool)
    (seeds : Option (List Seed)) (timedOut : Bool) (res : Validity) :
    Prog.Keeps I (chooseSide env p condition isInternal seeds timedOut res) := by
  cases seeds with
  | none => exact h.pickSide env p condition isInternal timedOut res
  | some seeds => exact h.fixBySeeds env p condition seeds timedOut res

theorem addConstraints (h : Constrains I) (env : Env) (qcs : List (Option Ptr × Expr)) :
    Prog.Keeps I (addConstraints env qcs) := by
  refine .each (fun qc => ?_) qcs
  cases qc.1 with
  | none => exact .pure _
  | some q => exact h.addConstraint env q _

theorem resolveAddress (h : Constrains I) (env : Env) (p : Ptr) (address : Expr) :
    Prog.Keeps I (resolveAddress env p address) := by
  refine (h.quiet .tick).bind fun n => (h.quiet (.read p)).bind fun state => ?_
  cases env.resolveOne n state address with
  | some op => exact .pure _
  | none => exact (h.toConstant env p address).bind fun _ => (h.quiet (.read p)).bind fun _ => .pure _

theorem limitSymArray (h : Constrains I) (env : Env) (p : Ptr) (mo : MemoryObject) (address : Expr) :
    Prog.Keeps I (limitSymArray env p mo address) :=
  (h.toConstant env p address).ite (.pure _)

end Constrains

/-! ### Terminated states -/

/-- `I` also survives the end of the state `p`. -/
structure TerminatesAt (p : Ptr) (I : Executor → Prop) : Prop extends Constrains I where
  terminate : ∀ s, I s → I (s.terminated p)

namespace TerminatesAt

variable {I : Executor → Prop} {p : Ptr}

theorem terminateState (h : TerminatesAt p I) : Prog.Keeps I (terminateState p) :=
  fun s hs => wp_terminateState.2 (h.terminate s hs)

theorem access (h : TerminatesAt p I) (env : Env) (mo : MemoryObject) (isWrite : Bool) :
    Prog.Keeps I (access env p mo isWrite) :=
  (h.quiet .tick).bind fun _ => h.terminateState.ite (h.setData env p)

theorem executeMakeSymbolic (h : TerminatesAt p I) (env : Env) : Prog.Keeps I (executeMakeSymbolic env p) :=
  (h.quiet .tick).bind fun _ => (h.quiet (.seedsOf p)).bind fun _ => Prog.Keeps.ite
    ((Prog.Keeps.modify fun s => h.mark s _ p).bind fun _ => h.terminateState) (h.setData env p)

theorem createObjects (h : TerminatesAt p I) (env : Env) : Prog.Keeps I (createObjects env p) :=
  (h.quiet .tick).bind fun _ => .each (fun _ => h.executeMakeSymbolic env) _

theorem returnDirectly (h : TerminatesAt p I) (env : Env) : Prog.Keeps I (returnDirectly env p) := by
  refine (h.quiet (.read p)).bind fun state => ?_
  match state.stack with
  | [] => exact .abort
  | [_] => exact h.terminateState.bind fun _ => .abort
  | sf :: _ :: _ =>
    exact (Prog.Keeps.unwrap _).bind fun _ =>
      Prog.Keeps.bind (h.write_of fun _ => ⟨rfl, rfl⟩) fun _ => h.setData env p

theorem executeRet (h : TerminatesAt p I) (env : Env) (isVoidReturn : Bool) :
    Prog.Keeps I (executeRet env p isVoidReturn) := by
  refine (h.quiet (.read p)).bind fun state => ?_
  match state.stack with
  | [] => exact .abort
  | [_] => exact Prog.Keeps.assert.bind fun _ => h.terminateState
  | sf :: _ :: _ =>
    exact (Prog.Keeps.unwrap _).bind fun _ =>
      Prog.Keeps.bind (h.write_of fun _ => ⟨rfl, rfl⟩) fun _ =>
        h.terminateState.when.ite (h.setData env p)

theorem coverLine (h : TerminatesAt p I) (env : Env) (line : String) :
    Prog.Keeps I (PathListener.coverLine env p line) :=
  Prog.Keeps.bind (h.write_of fun _ => ⟨rfl, rfl⟩) fun _ => (h.quiet (.read p)).bind fun _ =>
    .each (fun _ => ((Prog.Keeps.modify fun s => h.mark s _ p).bind fun _ => h.terminateState).when) _

theorem checkPriority (h : TerminatesAt p I) (env : Env) (inst : KInstruction) :
    Prog.Keeps I (PathListener.checkPriority env p inst) :=
  h.terminateState.ite (h.terminateState.ite (Prog.Keeps.get.bind fun _ =>
    (h.quiet (.modifyAux _)).bind fun _ => h.terminateState.when).when)

theorem beforePath (h : TerminatesAt p I) (env : Env) (ki : ℕ) :
    Prog.Keeps I (PathListener.beforeExecuteInstruction env p ki) :=
  (h.coverLine env _).when.bind fun _ => h.pickCallee env p _

theorem afterPath (h : TerminatesAt p I) (env : Env) (ki : ℕ) :
    Prog.Keeps I (PathListener.afterExecuteInstruction env p ki) :=
  (h.quiet .halt).when.bind fun _ => (h.checkPriority env _).bind fun _ =>
    (h.quiet (.checkTarget p)).when.bind fun _ => h.write_of fun _ => ⟨rfl, rfl⟩

/-- The hooks before an instruction; `hooks` says that `I` survives their events. -/
theorem beforeExecuteInstruction (h : TerminatesAt p I) (env : Env) (ki : ℕ)
    (hooks : ∀ s l, I s → I (s.emitted (.before l p ki))) :
    Prog.Keeps I (beforeExecuteInstruction env p ki) :=
  (Prog.Keeps.modify fun s => hooks s _).bind fun _ => (h.createObjects env).bind fun _ =>
    (Prog.Keeps.modify fun s => hooks s _).bind fun _ => h.beforePath env ki

end TerminatesAt

/-- `I` also survives the end of any state. -/
structure Terminates (I : Executor → Prop) : Prop extends Constrains I where
  terminate : ∀ p s, I s → I (s.terminated p)

namespace Terminates

variable {I : Executor → Prop}

theorem on (h : Terminates I) (p : Ptr) : TerminatesAt p I := ⟨h.toConstrains, h.terminate p⟩

theorem accessBound (h : Terminates I) (env : Env) (mo : MemoryObject) (isWrite : Bool) (p : Option Ptr) :
    Prog.Keeps I (accessBound env mo isWrite p) := by
  cases p with
  | none => exact .pure _
  | some p => exact (h.on p).access env mo isWrite

theorem killUnseeded (h : Terminates I) (result : List (Option Ptr)) :
    Prog.Keeps I (killUnseeded result) := by
  induction result with
  | nil => exact .pure _
  | cons q result ih =>
    cases q with
    | none => exact ih.bind fun _ => .pure _
    | some q =>
      exact (h.quiet (.seedsOf q)).bind fun _ => (h.on q).terminateState.when.bind fun _ =>
        ih.bind fun _ => .pure _

theorem redistributeSeeds (h : Terminates I) (env : Env) (p : Ptr) (conditions : List Expr)
    (result : List (Option Ptr)) : Prog.Keeps I (redistributeSeeds env p conditions result) := by
  refine (h.quiet (.seedsOf p)).bind fun seeds => ?_
  cases seeds with
  | none => exact .pure _
  | some seeds =>
    exact (h.quiet (.setSeeds p none)).bind fun _ =>
      (h.quiet (.each (fun _ => .assignSeed env conditions result _) seeds)).bind fun _ =>
        (h.killUnseeded result).ite (.pure _)

theorem killStates (h : Terminates I) (env : Env) (n : ℕ) (arr : List Ptr) :
    Prog.Keeps I (killStates env n arr) := by
  induction n generalizing arr with
  | zero => exact .pure _
  | succ n ih =>
    refine (h.quiet (.random env)).bind fun r => (h.quiet (.random env)).bind fun r' => ?_
    cases arr[r % arr.length]? with
    | none => exact .pure _
    | some q =>
      exact (h.quiet (.read q)).bind fun _ => (Prog.Keeps.unwrap _).bind fun q =>
        (h.on q).terminateState.bind fun _ => ih _

end Terminates

/-! ### New states -/

/-- `I` also survives new states. -/
structure Forks (I : Executor → Prop) : Prop extends Terminates I where
  spawn : ∀ s p state, s.heap p = some state → I s → I (s.spawned p state)

namespace Forks

variable {I : Executor → Prop}

theorem countedAlike_spawned {p : Ptr} {state : ExecutionState} (s : Executor) :
    Mild.CountedAlike p s.nextPtr state.BBcount (s.spawned p state) := by
  intro x hx state' hstate'
  by_cases hnew : x = s.nextPtr
  · subst hnew
    rw [spawned_heap, if_pos rfl] at hstate'
    cases hstate'
    rfl
  · obtain rfl : x = p := hx.resolve_right hnew
    rw [spawned_heap, if_neg hnew, if_pos rfl] at hstate'
    cases hstate'
    rfl

theorem spawnState (h : Forks I) (p : Ptr) : Prog.Keeps I (Executor.spawn p) :=
  fun s hs => wp_spawn.2 ⟨fun state hstate => h.spawn s p state hstate hs, fun _ => hs⟩

theorem branchStates (h : Forks I) (env : Env) (n : ℕ) (result : List Ptr) :
    Prog.Keeps I (branchStates env n result) := by
  induction n generalizing result with
  | zero => exact .pure _
  | succ n ih =>
    exact (h.quiet (.random env)).bind fun _ => (Prog.Keeps.unwrap _).bind fun es =>
      (h.spawnState es).bind fun _ => ih _

theorem branchResult (h : Forks I) (env : Env) (p : Ptr) (N : ℕ) : Prog.Keeps I (branchResult env p N) :=
  (h.quiet (.branchingPermitted env p)).bind fun _ => Prog.Keeps.ite
    ((h.quiet (.modifyAux _)).bind fun _ => (h.branchStates env _ _).bind fun _ => .pure _)
    ((h.quiet (.random env)).bind fun _ => .pure _)

variable [ExprOptions]

theorem forkBoth (h : Forks I) (env : Env) (p : Ptr) (condition : Expr) (seeds : Option (List Seed))
    (notaddconstraint : Bool) : Prog.Keeps I (forkBoth env p condition seeds notaddconstraint) := by
  refine (h.quiet (.modifyAux _)).bind fun _ s hs => ?_
  rw [Prog.wp_bind, wp_spawn]
  refine ⟨fun state hstate => ?_, fun _ => hs⟩
  have hs' := h.spawn s p state hstate hs
  refine (h.splitSeeds env condition seeds hs' (countedAlike_spawned s)).bind fun _ t ht => ?_
  refine Prog.Keeps.bind ?_ (fun _ => ?_) t ht
  · exact ((h.addConstraint env p _).bind fun _ => h.addConstraint env _ _).when
  · exact (h.quiet (.read p)).bind fun _ => Prog.Keeps.ite
      ((h.on p).terminateState.bind fun _ => (h.on _).terminateState.bind fun _ => .pure _) (.pure _)

theorem fork (h : Forks I) (env : Env) (p : Ptr) (condition : Expr) (isInternal : Bool) :
    Prog.Keeps I (fork env p condition isInternal) := by
  refine (h.quiet (.seedsOf p)).bind fun seeds => (h.limitStatically env p _ condition).bind fun condition =>
    (h.quiet (.evaluate env p condition)).bind fun answer =>
      (h.chooseSide env p condition isInternal seeds _ _).bind fun res => ?_
  cases res with
  | True => exact .pure _
  | False => exact .pure _
  | Unknown => exact h.forkBoth env p condition seeds _

theorem branch (h : Forks I) (env : Env) (p : Ptr) (conditions : List Expr) :
    Prog.Keeps I (branch env p conditions) :=
  Prog.Keeps.assert.bind fun _ => (h.branchResult env p _).bind fun _ =>
    (h.redistributeSeeds env p conditions _).bind fun _ => (h.addConstraints env _).bind fun _ => .pure _

theorem bindObjects (h : Forks I) (env : Env) (isWrite : Bool) (address : Expr) (bytes : ℕ)
    (rl : List MemoryObject) (unbound : Ptr) :
    Prog.Keeps I (bindObjects env isWrite address bytes rl unbound) := by
  induction rl generalizing unbound with
  | nil => exact .pure _
  | cons mo rl ih =>
    refine (h.fork env unbound _ true).bind fun branches =>
      (h.accessBound env mo isWrite branches.1).bind fun _ => ?_
    cases branches.2 with
    | none => exact .pure _
    | some unbound => exact ih unbound

theorem resolveError (h : Forks I) (env : Env) (p : Ptr) (isWrite : Bool) (address : Expr) (bytes : ℕ) :
    Prog.Keeps I (resolveError env p isWrite address bytes) := by
  refine (h.quiet .tick).bind fun _ => (h.quiet (.read p)).bind fun _ =>
    (h.bindObjects env isWrite address bytes _ p).bind fun unbound => ?_
  cases unbound with
  | none => exact .pure _
  | some q => exact (h.on q).terminateState.ite (h.setData env p)

theorem executeMemoryOperation (h : Forks I) (env : Env) (p : Ptr) (isWrite : Bool) (address : Expr)
    (bytes : ℕ) : Prog.Keeps I (executeMemoryOperation env p isWrite address bytes) := by
  refine (h.quiet (.read p)).bind fun _ => (h.resolveAddress env p _).bind fun resolved => ?_
  cases resolved.2 with
  | none => exact h.resolveError env p isWrite _ bytes
  | some mo =>
    refine (h.limitSymArray env p mo _).bind fun address => (h.quiet (.mustBeTrue env p _)).bind
      fun inBounds => ?_
    match inBounds with
    | none => exact Prog.Keeps.bind (h.write_of fun _ => ⟨rfl, rfl⟩) fun _ => (h.on p).terminateState
    | some true => exact (h.on p).access env mo isWrite
    | some false => exact h.resolveError env p isWrite address bytes

theorem serve (h : Forks I) (env : Env) (requests : List Request) (states : List (Option Ptr)) :
    Prog.Keeps I (serve env requests states) := by
  induction requests generalizing states with
  | nil => exact .pure _
  | cons request requests ih =>
    cases request with
    | fork n condition =>
      exact (h.stateOf states n).bind fun q => (h.fork env q condition true).bind fun _ => ih _
    | terminateState n =>
      exact (h.stateOf states n).bind fun q => (h.on q).terminateState.bind fun _ => ih _
    | toConstant n e => exact (h.stateOf states n).bind fun q => (h.toConstant env q e).bind fun _ => ih _
    | executeMemoryOperation n isWrite address bytes =>
      exact (h.stateOf states n).bind fun q =>
        (h.executeMemoryOperation env q isWrite address bytes).bind fun _ => ih _
    | pushFrame n kf entry =>
      exact (h.stateOf states n).bind fun q =>
        Prog.Keeps.bind (h.write_of fun _ => ⟨rfl, rfl⟩) fun _ => ih _
    | setData n => exact (h.stateOf states n).bind fun q => (h.setData env q).bind fun _ => ih _

theorem writeElements (h : Forks I) (env : Env) (p : Ptr) : Prog.Keeps I (writeElements env p) :=
  (h.quiet .tick).bind fun _ => .each (fun _ =>
    (h.executeMemoryOperation env p true _ _).bind fun _ => h.markTerminated _ p) _

theorem branchIndirect (h : Forks I) (env : Env) (p : Ptr) (block : BasicBlock) (address : Expr)
    (destinations : List BasicBlock) : Prog.Keeps I (branchIndirect env p block address destinations) :=
  (h.quiet (.feasibleDestinations env p address destinations _ _)).bind fun _ =>
    (h.quiet (.mayBeTrue env p _)).bind fun _ => (h.branch env p _).bind fun _ =>
      ((Prog.Keeps.unwrap _).bind fun q => (h.on q).terminateState).when.bind fun _ => h.transferAll env block _

theorem executeIndirectBr (h : Forks I) (env : Env) (p : Ptr) (block : BasicBlock) (address : Operand)
    (destinations : List BasicBlock) : Prog.Keeps I (executeIndirectBr env p block address destinations) :=
  (h.quiet (.eval p address)).bind fun _ => (h.quiet (.toUnique env p _)).bind fun _ => Prog.Keeps.ite
    ((Prog.Keeps.unwrap _).bind fun _ => h.transferToBasicBlock env _ block p)
    (h.branchIndirect env p block _ destinations)

theorem branchSwitch (h : Forks I) {w : ℕ} (env : Env) (p : Ptr) (block : BasicBlock) (cond : Expr)
    (cases : List (BitVec w × BasicBlock)) (defaultDest : BasicBlock) :
    Prog.Keeps I (branchSwitch env p block cond cases defaultDest) :=
  Prog.Keeps.assert.bind fun _ =>
    (Prog.Keeps.each (fun _ => (h.transferToBasicBlock env _ block p).when) cases).bind fun _ =>
      (h.quiet (.feasibleCases env p cond defaultDest _ _ _)).bind fun _ =>
        (h.quiet (.mayBeTrue env p _)).bind fun _ => (h.branch env p _).bind fun _ =>
          h.transferAll env block _

theorem executeSwitch (h : Forks I) {w : ℕ} (env : Env) (p : Ptr) (block : BasicBlock) (cond : Operand)
    (cases : List (BitVec w × BasicBlock)) (defaultDest : BasicBlock) :
    Prog.Keeps I (executeSwitch env p block cond cases defaultDest) := by
  refine (h.quiet (.eval p cond)).bind fun e => ?_
  dsimp only
  cases cases.find? fun c => decide (targetBB env block.name ≠ "" ∧ c.2.name = targetBB env block.name) with
  | some c => exact h.transferToBasicBlock env c.2 block p
  | none =>
    exact (h.quiet (.toUnique env p e)).bind fun _ => Prog.Keeps.ite
      (Prog.Keeps.assert.bind fun _ => h.transferToBasicBlock env _ block p)
      (h.branchSwitch env p block _ cases defaultDest)

theorem afterUC (h : Forks I) (env : Env) (p : Ptr) (ki : ℕ) :
    Prog.Keeps I (UCListener.afterExecuteInstruction env p ki) := by
  unfold UCListener.afterExecuteInstruction
  cases (env.instructions ki).opcode with
  | store _ _ _ => exact (h.setData env p).bind fun _ => h.writeElements env p
  | other => exact (h.on p).createObjects env
  | load _ _ => exact h.setData env p
  | unreachable => exact (h.on p).returnDirectly env
  | _ => exact .pure _

theorem afterExecuteInstruction (h : Forks I) (env : Env) (p : Ptr) (ki : ℕ)
    (hooks : ∀ s l, I s → I (s.emitted (.after l p ki))) :
    Prog.Keeps I (afterExecuteInstruction env p ki) :=
  Prog.Keeps.get.bind fun _ => (Prog.Keeps.pure _).ite
    ((Prog.Keeps.modify fun s => hooks s _).bind fun _ => (h.afterUC env p ki).bind fun _ =>
      (Prog.Keeps.modify fun s => hooks s _).bind fun _ => (h.on p).afterPath env ki)

/-- The instructions; the conditional branch is left to `hbr`. -/
theorem executeInstruction (h : Forks I) (env : Env) (p : Ptr) (ki : ℕ)
    (event : ∀ s, I s → I (s.emitted (.execute p ki)))
    (hbr : ∀ cond succ0 succ1, (env.instructions ki).opcode = .condBr cond succ0 succ1 →
      Prog.Keeps I (executeCondBr env p ki cond succ0 succ1)) :
    Prog.Keeps I (executeInstruction env p ki) := by
  refine (Prog.Keeps.modify fun s => event s).bind fun _ => ?_
  revert hbr
  dsimp only
  cases (env.instructions ki).opcode with
  | ret isVoidReturn => exact fun _ => (h.on p).executeRet env isVoidReturn
  | br dest => exact fun _ => h.transferToBasicBlock env dest _ p
  | condBr cond succ0 succ1 => exact fun hbr => hbr cond succ0 succ1 rfl
  | indirectBr address destinations => exact fun _ => h.executeIndirectBr env p _ address destinations
  | switch cond w cases defaultDest => exact fun _ => h.executeSwitch env p _ cond cases defaultDest
  | unreachable => exact fun _ => .pure _
  | load address bytes =>
    exact fun _ => (h.quiet (.eval p address)).bind fun _ => h.executeMemoryOperation env p false _ bytes
  | store value address bytes =>
    exact fun _ => (h.quiet (.eval p address)).bind fun _ => (h.quiet (.eval p value)).bind fun _ =>
      h.executeMemoryOperation env p true _ bytes
  | other => exact fun _ => (h.quiet .tick).bind fun _ => h.serve env _ _

end Forks

/-! ### The lists of states -/

/-- `I` also survives changes of the lists, freed states and the events of `updateStates`. -/
structure Updates (I : Executor → Prop) : Prop extends Forks I where
  lists : ∀ s states added removed, I s →
    I { s with states := states, addedStates := added, removedStates := removed }
  free : ∀ s p, I s → I { s with heap := Function.update s.heap p none }
  notFound : ∀ s p, I s → I (s.emitted (.notFound p))
  update : ∀ s states added removed, I s → I (s.emitted (.updateStates states added removed))

namespace Updates

variable {I : Executor → Prop}

theorem eraseStates (h : Updates I) (removed : List Ptr) : Prog.Keeps I (eraseStates removed) := by
  refine .each (fun es => Prog.Keeps.get.bind fun _ => Prog.Keeps.ite ?_ ?_) removed
  · refine (h.quiet (.modifyAux _)).bind fun _ => .modify fun s hs => ?_
    exact h.free _ es (h.lists s (s.states.erase es) _ _ hs)
  · exact (Prog.Keeps.modify fun s => h.notFound s es).bind fun _ => .abort

theorem updateStates (h : Updates I) : Prog.Keeps I updateStates := by
  refine Prog.Keeps.get.bind fun _ => Prog.Keeps.bind (.modify fun t => h.update t _ _ _) fun _ => ?_
  refine Prog.Keeps.bind (.modify fun t ht => h.lists t (insertStates t.states t.addedStates) [] _ ht) ?_
  refine fun _ => (h.eraseStates _).bind fun _ => ?_
  exact .modify fun t ht => h.lists t _ _ [] ht

theorem checkMemoryUsage (h : Updates I) (env : Env) : Prog.Keeps I (checkMemoryUsage env) :=
  Prog.Keeps.get.bind fun _ => ((h.quiet .tick).bind fun _ => (h.quiet (.modifyAux _)).bind fun _ =>
    ((h.killStates env _ _).bind fun _ => h.updateStates).when).when

/-- **One turn of the main loop.**  `hooks` says that `I` survives the events of the hooks, `hbr` that the
conditional branch keeps it. -/
theorem runStep [ExprOptions] (h : Updates I) (env : Env) (p : Ptr)
    (before : ∀ s l ki, I s → I (s.emitted (.before l p ki)))
    (execute : ∀ s ki, I s → I (s.emitted (.execute p ki)))
    (after : ∀ s l ki, I s → I (s.emitted (.after l p ki)))
    (hbr : ∀ ki cond succ0 succ1, (env.instructions ki).opcode = .condBr cond succ0 succ1 →
      Prog.Keeps I (executeCondBr env p ki cond succ0 succ1)) :
    Prog.Keeps I (runStep env p) :=
  (h.quiet (.read p)).bind fun state => (h.stepInstruction env p).bind fun _ =>
    ((h.on p).beforeExecuteInstruction env state.pc fun s l => before s l _).bind fun _ =>
      (h.executeInstruction env p state.pc (fun s => execute s _) (hbr _)).bind fun _ =>
        (h.afterExecuteInstruction env p state.pc fun s l => after s l _).bind fun _ =>
          h.updateStates.bind fun _ => (h.checkMemoryUsage env).bind fun _ =>
            (h.quiet .tick).bind fun _ => (h.quiet .halt).when

end Updates

/-- A turn of the main loop that is not aborted is a step of a run. -/
theorem run_turn [ExprOptions] {env : Env} {s t : Executor} {p : Ptr}
    (h : Run (step env) (fun _ _ => True) s t) (hp : p ∈ t.states) (hhalt : t.aux.haltExecution = false)
    (hturn : (runStep env p t).1 = some ()) : Run (step env) (fun _ _ => True) s (runStep env p t).2 := by
  refine .step p h trivial ?_
  unfold step
  rw [if_pos ⟨hp, hhalt⟩]
  cases hres : runStep env p t with
  | mk o u =>
    rw [hres] at hturn
    cases hturn
    rfl

/-- The states of the runs from `s`, and the states in which their last turn stops, aborted or not. -/
inductive Reached [ExprOptions] (env : Env) (s : Executor) : Executor → Prop
  | run {t : Executor} : Run (step env) (fun _ _ => True) s t → Reached env s t
  | stop {t : Executor} (p : Ptr) : Run (step env) (fun _ _ => True) s t → p ∈ t.states →
      t.aux.haltExecution = false → Reached env s (runStep env p t).2

/-- An invariant of the main loop holds in every state of a run. -/
theorem run_invariant [ExprOptions] {I : Executor → Prop} {env : Env} {s t : Executor}
    (hstep : ∀ p, Prog.Keeps I (runStep env p)) (hrun : Run (step env) (fun _ _ => True) s t) (hs : I s) :
    I t := by
  refine hrun.invariant (fun u p v hu _ hstep' => ?_) hs
  have hv := (hstep p).snd hu
  unfold step at hstep'
  split at hstep'
  · split at hstep'
    · rename_i heq
      cases hstep'
      rwa [heq] at hv
    · cases hstep'
  · cases hstep'

/-- An invariant of the main loop holds in every state reached. -/
theorem Reached.invariant [ExprOptions] {I : Executor → Prop} {env : Env} {s t : Executor}
    (hstep : ∀ p, Prog.Keeps I (runStep env p)) (h : Reached env s t) (hs : I s) : I t := by
  cases h with
  | run hrun => exact run_invariant hstep hrun hs
  | stop p hrun _ _ => exact (hstep p).snd (run_invariant hstep hrun hs)

end Executor

end SymBisect
