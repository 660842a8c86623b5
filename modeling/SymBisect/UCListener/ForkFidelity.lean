import SymBisect.UCListener.PointerMaps

/-!
# Pointers after a fork

`ExecutionState::branch` copies the state, but the copy constructor leaves the two pointer maps of the new
state empty.  This module runs loads, stores and `getelementptr`s in the parent and in the child, from
the same registers, memory and allocations, and compares the objects that their pointers resolve to.

The executor's own part of a load or a store (`executeMemoryOperation`) is a parameter: it reads and
writes the stack, the address space and the constraints, and never looks at the pointer maps.
-/

namespace SymBisect

open Expr

namespace UCListener

/-- What `executeMemoryOperation` works on. -/
structure MemoryView where
  stack : List StackFrame
  addressSpace : AddressSpace
  constraints : ConstraintSet

/-- `Executor::executeMemoryOperation` for a load into a register and for a store, and the loop of
`afterExecuteInstruction` that overwrites the possible targets of a symbolic store in an object. -/
structure MemoryOperation where
  load : MemoryView → ℕ → Expr → MemoryView
  store : MemoryView → Expr → Expr → MemoryView
  overwrite : MemoryView → MemoryObject → Expr → MemoryView

/-- The part of a state that a memory operation sees. -/
def view (u : UCState) : MemoryView := ⟨u.state.stack, u.state.addressSpace, u.state.constraints⟩

/-- The state after a memory operation. -/
def setView (u : UCState) (v : MemoryView) : UCState :=
  { u with state := { u.state with
      stack := v.stack, addressSpace := v.addressSpace, constraints := v.constraints } }

/-- The instructions that follow the fork.  A `getelementptr` has its base and first index, the indices
with the sizes of their elements, and a constant offset. -/
inductive PointerInst where
  | load (dest : ℕ) (address : Operand)
  | store (value address : Operand) (valueType : TypeID)
  | getElementPtr (dest : ℕ) (base index : Operand) (indices : List (Operand × ℕ)) (offset : ℕ)

/-- The object that an operand points into. -/
def resolved (u : UCState) (address : Operand) : Option MemoryObject := do
  let e ← u.eval address
  let addr ← constantAddress e
  u.state.addressSpace.resolveOne addr

/-- The `Load` case: hook, operation, hook. -/
def executeLoad (op : MemoryOperation) (memory : ℕ → MemoryObject) (u : UCState) (dest : ℕ)
    (address : Operand) : Option (Option MemoryObject × UCState) := do
  let u ← symbolic_before_load memory u address
  let base ← u.eval address
  let u' ← symbolic_after_load (setView u (op.load (view u) dest base)) address
  return (resolved u address, u')

/-- The end of the `Store` case of `afterExecuteInstruction`. -/
def overwriteTargets (op : MemoryOperation) (u : UCState) (address : Expr) : UCState :=
  match u.state.map_address_symbolic address with
  | none => u
  | some _ =>
    if address.isConstant then u
    else match u.state.symaddr_base address with
      | none => u
      | some baseaddr =>
        match (constantAddress baseaddr).bind u.state.addressSpace.resolveOne with
        | none => u
        | some object => setView u (op.overwrite (view u) object address)

/-- The `Store` case: hook, operation, hook. -/
def executeStore (op : MemoryOperation) (memory : ℕ → MemoryObject) (u : UCState)
    (value address : Operand) (valueType : TypeID) : Option (Option MemoryObject × UCState) := do
  let u ← symbolic_before_store memory u address valueType
  let base ← u.eval address
  let stored ← u.eval value
  let u' ← symbolic_after_store (setView u (op.store (view u) base stored)) address
  let restored ← u'.eval address
  return (resolved u address, overwriteTargets op u' restored)

/-- The `GetElementPtr` case of `afterExecuteInstruction`: a symbolic index into a bound object is
logged. -/
def logElementPtr (u : UCState) (result baseaddr index : Expr) : UCState :=
  if index.isConstant then u
  else match (constantAddress baseaddr).bind u.state.addressSpace.resolveOne with
    | none => u
    | some _ =>
      { u with state := { u.state with symaddr_base := u.state.symaddr_base.set result baseaddr } }

section
variable [ExprOptions]

/-- The address that a `getelementptr` computes. -/
def elementPtr (u : UCState) (base : Expr) : List (Operand × ℕ) → Option Expr
  | [] => some base
  | (index, elementSize) :: indices => do
    let i ← u.eval index
    elementPtr u (AddExpr.create base (MulExpr.create (SExtExpr.create i pointerWidth)
      (.const (BitVec.ofNat pointerWidth elementSize)))) indices

/-- The `GetElementPtr` case and its hook. -/
def executeGetElementPtr (u : UCState) (dest : ℕ) (base index : Operand)
    (indices : List (Operand × ℕ)) (offset : ℕ) : Option (Option MemoryObject × UCState) := do
  let start ← u.eval base
  let address ← elementPtr u start indices
  let result := if offset = 0 then address
    else AddExpr.create address (.const (BitVec.ofNat pointerWidth offset))
  let u := u.un_eval (.reg dest) result
  let baseaddr ← u.eval base
  let i ← u.eval index
  return (resolved u base, logElementPtr u result baseaddr i)

/-- One instruction: the object that its address operand resolved to, and the state after it. -/
def executePointerInst (op : MemoryOperation) (memory : ℕ → MemoryObject) (u : UCState) :
    PointerInst → Option (Option MemoryObject × UCState)
  | .load dest address => executeLoad op memory u dest address
  | .store value address valueType => executeStore op memory u value address valueType
  | .getElementPtr dest base index indices offset =>
    executeGetElementPtr u dest base index indices offset

/-- The objects that a sequence of instructions resolves its pointers to. -/
def resolutions (op : MemoryOperation) (memory : ℕ → MemoryObject) :
    UCState → List PointerInst → List (Option MemoryObject)
  | _, [] => []
  | u, inst :: insts =>
    match executePointerInst op memory u inst with
    | none => []
    | some (object, u) => object :: resolutions op memory u insts

/-- The child has the parent's pointer maps, and every sequence of instructions resolves its pointers in
the child as it would have in the parent. -/
def ForkFaithful (op : MemoryOperation) (memory : ℕ → MemoryObject) (u : UCState) (nextID : ℕ) : Prop :=
  let parent := (u.state.branch nextID).1
  let child := (u.state.branch nextID).2
  child.map_symbolic_address = parent.map_symbolic_address ∧
    child.map_address_symbolic = parent.map_address_symbolic ∧
    ∀ insts, resolutions op memory { u with state := child } insts =
      resolutions op memory { u with state := parent } insts

end

/-! ### What a run of instructions depends on -/

/-- The fields in which `branch` makes the child differ from its parent, the pointer maps apart. -/
def relabel (id : ℕ) (coveredNew : Bool) (coveredLines : List String) (u : UCState) : UCState :=
  { u with state := { u.state with
      id := id, coveredNew := coveredNew, coveredLines := coveredLines } }

section Relabel

variable {id : ℕ} {coveredNew : Bool} {coveredLines : List String}

theorem eval_relabel (u : UCState) (op : Operand) :
    (relabel id coveredNew coveredLines u).eval op = u.eval op := by
  cases op with
  | const n => rfl
  | reg n => rfl

theorem un_eval_relabel (u : UCState) (op : Operand) (value : Expr) :
    (relabel id coveredNew coveredLines u).un_eval op value =
      relabel id coveredNew coveredLines (u.un_eval op value) := by
  cases op with
  | const n => rfl
  | reg n =>
    unfold UCState.un_eval relabel
    cases u.state.stack with
    | nil => rfl
    | cons sf rest => rfl

theorem resolved_relabel (u : UCState) (op : Operand) :
    resolved (relabel id coveredNew coveredLines u) op = resolved u op := by
  unfold resolved
  rw [eval_relabel]
  rfl

theorem symbolic_before_relabel (memory : ℕ → MemoryObject) (u : UCState) (address : Operand)
    (ty : TypeID) :
    symbolic_before memory (relabel id coveredNew coveredLines u) address ty =
      (symbolic_before memory u address ty).map (relabel id coveredNew coveredLines) := by
  unfold symbolic_before
  rw [eval_relabel]
  cases u.eval address with
  | none => rfl
  | some base =>
    simp only [Option.bind_eq_bind, Option.bind_some, Option.pure_def]
    split
    · rfl
    have hmap : (relabel id coveredNew coveredLines u).state.map_symbolic_address base =
      u.state.map_symbolic_address base := rfl
    rw [hmap]
    cases u.state.map_symbolic_address base with
    | some real => exact congrArg some (un_eval_relabel ..)
    | none =>
      simp only [find_equalsymaddr, Bool.false_eq_true, if_false]
      split
      · exact congrArg (fun v : UCState => some (v.bindAddress base (memory u.allocated).getBaseExpr))
          (un_eval_relabel (u.create_mo memory).2 address _)
      · rfl

theorem symbolic_after_relabel (u : UCState) (address : Operand) :
    symbolic_after (relabel id coveredNew coveredLines u) address =
      (symbolic_after u address).map (relabel id coveredNew coveredLines) := by
  unfold symbolic_after
  rw [eval_relabel]
  cases u.eval address with
  | none => rfl
  | some base =>
    simp only [Option.bind_eq_bind, Option.bind_some, Option.pure_def]
    have hmap : (relabel id coveredNew coveredLines u).state.map_address_symbolic base =
      u.state.map_address_symbolic base := rfl
    rw [hmap]
    cases u.state.map_address_symbolic base with
    | some symbolic => exact congrArg some (un_eval_relabel ..)
    | none => rfl

theorem overwriteTargets_relabel (op : MemoryOperation) (u : UCState) (address : Expr) :
    overwriteTargets op (relabel id coveredNew coveredLines u) address =
      relabel id coveredNew coveredLines (overwriteTargets op u address) := by
  unfold overwriteTargets
  simp only [relabel]
  split
  · rfl
  split
  · rfl
  split
  · rfl
  split
  · rfl
  · rfl

theorem executeLoad_relabel (op : MemoryOperation) (memory : ℕ → MemoryObject) (u : UCState)
    (dest : ℕ) (address : Operand) :
    executeLoad op memory (relabel id coveredNew coveredLines u) dest address =
      (executeLoad op memory u dest address).map
        (Prod.map (fun object => object) (relabel id coveredNew coveredLines)) := by
  unfold executeLoad symbolic_before_load symbolic_after_load
  rw [symbolic_before_relabel]
  cases symbolic_before memory u address .pointer with
  | none => rfl
  | some u₁ =>
    simp only [Option.map_some, Option.bind_eq_bind, Option.bind_some, Option.pure_def]
    rw [eval_relabel, resolved_relabel]
    cases u₁.eval address with
    | none => rfl
    | some base =>
      have hview : setView (relabel id coveredNew coveredLines u₁)
          (op.load (view (relabel id coveredNew coveredLines u₁)) dest base) =
          relabel id coveredNew coveredLines (setView u₁ (op.load (view u₁) dest base)) := rfl
      simp only [Option.bind_some]
      rw [hview, symbolic_after_relabel]
      cases symbolic_after (setView u₁ (op.load (view u₁) dest base)) address with
      | none => rfl
      | some u₂ => rfl

theorem executeStore_relabel (op : MemoryOperation) (memory : ℕ → MemoryObject) (u : UCState)
    (value address : Operand) (valueType : TypeID) :
    executeStore op memory (relabel id coveredNew coveredLines u) value address valueType =
      (executeStore op memory u value address valueType).map
        (Prod.map (fun object => object) (relabel id coveredNew coveredLines)) := by
  unfold executeStore symbolic_before_store symbolic_after_store
  rw [symbolic_before_relabel]
  cases symbolic_before memory u address valueType with
  | none => rfl
  | some u₁ =>
    simp only [Option.map_some, Option.bind_eq_bind, Option.bind_some, Option.pure_def]
    rw [eval_relabel, eval_relabel, resolved_relabel]
    cases u₁.eval address with
    | none => rfl
    | some base =>
      cases u₁.eval value with
      | none => rfl
      | some stored =>
        have hview : setView (relabel id coveredNew coveredLines u₁)
            (op.store (view (relabel id coveredNew coveredLines u₁)) base stored) =
            relabel id coveredNew coveredLines (setView u₁ (op.store (view u₁) base stored)) := rfl
        simp only [Option.bind_some]
        rw [hview, symbolic_after_relabel]
        cases symbolic_after (setView u₁ (op.store (view u₁) base stored)) address with
        | none => rfl
        | some u₂ =>
          simp only [Option.map_some, Option.bind_some]
          rw [eval_relabel]
          cases u₂.eval address with
          | none => rfl
          | some restored =>
            simp only [Option.bind_some, Option.map_some, overwriteTargets_relabel, Prod.map]

theorem logElementPtr_relabel (u : UCState) (result baseaddr index : Expr) :
    logElementPtr (relabel id coveredNew coveredLines u) result baseaddr index =
      relabel id coveredNew coveredLines (logElementPtr u result baseaddr index) := by
  unfold logElementPtr
  cases index.isConstant with
  | true => rfl
  | false =>
    have hspace : (relabel id coveredNew coveredLines u).state.addressSpace = u.state.addressSpace := rfl
    rw [hspace]
    cases (constantAddress baseaddr).bind u.state.addressSpace.resolveOne with
    | none => rfl
    | some mo => rfl

variable [ExprOptions]

theorem elementPtr_relabel (u : UCState) (base : Expr) (indices : List (Operand × ℕ)) :
    elementPtr (relabel id coveredNew coveredLines u) base indices = elementPtr u base indices := by
  induction indices generalizing base with
  | nil => rfl
  | cons p indices ih =>
    unfold elementPtr
    rw [eval_relabel]
    exact Option.bind_congr fun i _ => ih _

theorem executeGetElementPtr_relabel (u : UCState) (dest : ℕ) (base index : Operand)
    (indices : List (Operand × ℕ)) (offset : ℕ) :
    executeGetElementPtr (relabel id coveredNew coveredLines u) dest base index indices offset =
      (executeGetElementPtr u dest base index indices offset).map
        (Prod.map (fun object => object) (relabel id coveredNew coveredLines)) := by
  unfold executeGetElementPtr
  rw [eval_relabel]
  cases u.eval base with
  | none => rfl
  | some start =>
    simp only [Option.bind_eq_bind, Option.bind_some, Option.pure_def, elementPtr_relabel]
    cases elementPtr u start indices with
    | none => rfl
    | some address =>
      simp only [Option.bind_some, un_eval_relabel, eval_relabel, resolved_relabel]
      cases (u.un_eval (.reg dest) _).eval base with
      | none => rfl
      | some baseaddr =>
        cases (u.un_eval (.reg dest) _).eval index with
        | none => rfl
        | some i =>
          simp only [Option.bind_some, Option.map_some, Prod.map, logElementPtr_relabel]

theorem executePointerInst_relabel (op : MemoryOperation) (memory : ℕ → MemoryObject) (u : UCState)
    (inst : PointerInst) :
    executePointerInst op memory (relabel id coveredNew coveredLines u) inst =
      (executePointerInst op memory u inst).map
        (Prod.map (fun object => object) (relabel id coveredNew coveredLines)) := by
  cases inst with
  | load dest address => exact executeLoad_relabel op memory u dest address
  | store value address valueType => exact executeStore_relabel op memory u value address valueType
  | getElementPtr dest base index indices offset =>
    exact executeGetElementPtr_relabel u dest base index indices offset

theorem resolutions_relabel (op : MemoryOperation) (memory : ℕ → MemoryObject) (u : UCState)
    (insts : List PointerInst) :
    resolutions op memory (relabel id coveredNew coveredLines u) insts =
      resolutions op memory u insts := by
  induction insts generalizing u with
  | nil => rfl
  | cons inst insts ih =>
    unfold resolutions
    rw [executePointerInst_relabel]
    cases executePointerInst op memory u inst with
    | none => rfl
    | some p => exact congrArg (p.1 :: ·) (ih p.2)

end Relabel

section Fork

variable [ExprOptions]

/-- **A fork is faithful exactly when no symbolic pointer has been bound.** -/
theorem forkFaithful_iff (op : MemoryOperation) (memory : ℕ → MemoryObject) (u : UCState) (nextID : ℕ) :
    ForkFaithful op memory u nextID ↔
      u.state.map_symbolic_address = ExprMap.empty ∧ u.state.map_address_symbolic = ExprMap.empty := by
  constructor
  · rintro ⟨hsym, haddr, -⟩
    exact ⟨hsym.symm, haddr.symm⟩
  · rintro ⟨hsym, haddr⟩
    refine ⟨hsym.symm, haddr.symm, fun insts => ?_⟩
    have hchild : { u with state := (u.state.branch nextID).2 } =
        relabel nextID false [] { u with state := (u.state.branch nextID).1 } := by
      simp only [ExecutionState.branch, ExecutionState.copy, relabel, hsym, haddr]
    rw [hchild, resolutions_relabel]

end Fork


/-! ### A bound pointer is dereferenced again in the child -/

/-- A memory that reads 0 everywhere and forgets what is stored. -/
def zeroMemory : MemoryOperation where
  load v dest _ :=
    match v.stack with
    | [] => v
    | sf :: rest =>
      { v with stack := { sf with locals := Function.update sf.locals dest (some (.const 0#64)) } :: rest }
  store v _ _ := v
  overwrite v _ _ := v

/-- Register 0 holds a symbolic pointer that is bound to the object of the first allocation. -/
def boundPointer : UCState where
  state := { ExecutionState.init "main" 0 0 with
    stack := [⟨none, "main", fun _ => some symbolicPointer⟩]
    addressSpace := ⟨[spacedMemory 0], List.pairwise_singleton _ _⟩
    map_symbolic_address := ExprMap.empty.set symbolicPointer (spacedMemory 0).getBaseExpr
    map_address_symbolic := ExprMap.empty.set (spacedMemory 0).getBaseExpr symbolicPointer }
  constantTable := fun _ => none
  allocated := 1

/-- Loading through the pointer reaches the bound object in the parent, and a new one in the child. -/
theorem boundPointer_not_forkFaithful :
    let _ : ExprOptions := ⟨false, true⟩
    ¬ForkFaithful zeroMemory spacedMemory boundPointer 1 := by
  intro _ hfaithful
  have hsame := congrArg (List.map (Option.map MemoryObject.address))
    (hfaithful.2.2 [.load 1 (.reg 0)])
  have hchild : (resolutions zeroMemory spacedMemory
      { boundPointer with state := (boundPointer.state.branch 1).2 } [.load 1 (.reg 0)]).map
        (Option.map MemoryObject.address) = [some (spacedMemory 1).address] := by
    decide +kernel
  have hparent : (resolutions zeroMemory spacedMemory
      { boundPointer with state := (boundPointer.state.branch 1).1 } [.load 1 (.reg 0)]).map
        (Option.map MemoryObject.address) = [some (spacedMemory 0).address] := by
    decide +kernel
  exact absurd (hchild.symm.trans (hsame.trans hparent)) (by decide)

end UCListener

end SymBisect
