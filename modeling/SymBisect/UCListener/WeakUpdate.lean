import SymBisect.Core.SpecialFunctionHandler
import SymBisect.UCListener.OperandFrame
import SymBisect.UCListener.OutOfBoundsSound

/-!
# A store through a symbolic offset

The `Store` instruction between its hooks (`lib/Kernel/Listener/UCListener.cpp`).  Before the instruction the symbolic address
is replaced by a constant one, its stand-in; after it the address is put back, and a loop over the object of `symaddr_base`
is to give every slot that the address may equal a new symbolic value.  The loop is guarded by a lookup of the address in
`map_address_symbolic`, whose keys are the stand-ins.

* `store`: the hooks and the instruction.
* `afterStore_idle`: the loop is never entered.
* `store_spec`: the object of `symaddr_base` after the store.
* `storeUpdates_iff`: when the slots are nevertheless right.
-/

namespace SymBisect

open Lib ConstraintSet SpecialFunctionHandler

namespace UCListener

/-- A machine with what the hooks keep for all states: the constant table of the module, the number of objects allocated and
of symbolic values made. -/
structure UCMachine where
  machine : SymBisect.Machine
  constantTable : ℕ → Option Expr
  allocated : ℕ
  arrays : ℕ

/-- The environment: `memory n` is the `n`-th object that is allocated, `made n` the contents that `executeMakeSymbolic` gives
it, `symbolic n w` the `n`-th value of `manual_make_symbolic`. -/
structure UCEnv where
  env : MemoryEnv
  timing : TimingSolver
  memory : ℕ → MemoryObject
  made : ℕ → Memory.ObjectState
  symbolic : ℕ → ℕ → Expr

/-- A `store`: its operands, and the type of the value with its width in bits. -/
structure StoreInst where
  value : Operand
  address : Operand
  type : TypeID
  width : ℕ

/-- `getTypeStoreSize`. -/
def StoreInst.size (x : StoreInst) : ℕ := (x.width + 7) / 8

namespace UCMachine

variable {α : Type}

/-- The state at a pointer as the hooks see it. -/
def ucState (s : UCMachine) (p : Ptr) : Option UCState :=
  (s.machine.executor.heap p).map fun state => ⟨state, s.constantTable, s.allocated⟩

/-- The contents of the objects of a state, the `n`-th up to the `m`-th object being new. -/
def withMade (cfg : UCEnv) (contents : MemoryObject → Memory.ObjectState) (n m : ℕ) : MemoryObject → Memory.ObjectState :=
  fun mo =>
    match (List.range' n (m - n)).find? fun k => cfg.memory k = mo with
    | some k => cfg.made k
    | none => contents mo

/-- The machine after a hook. -/
def withState (cfg : UCEnv) (s : UCMachine) (p : Ptr) (u : UCState) : UCMachine :=
  { s with
    machine := { s.machine with
      executor := s.machine.executor.written p fun _ => u.state
      contents := Function.update s.machine.contents p
        (withMade cfg (s.machine.contents p) s.allocated u.allocated) }
    constantTable := u.constantTable
    allocated := u.allocated }

/-- A hook, on the state at `p`. -/
def hook (cfg : UCEnv) (p : Ptr) (f : UCState → Option UCState) : Prog UCMachine Unit := fun s =>
  match (s.ucState p).bind f with
  | some u => (some (), s.withState cfg p u)
  | none => (none, s)

/-- `Executor::eval` on the state at `p`. -/
def evalOperand (p : Ptr) (op : Operand) : Prog UCMachine Expr := fun s => ((s.ucState p).bind (·.eval op), s)

/-- An operation of the machine. -/
def onMachine (m : Prog SymBisect.Machine α) : Prog UCMachine α := fun s =>
  ((m s.machine).1, { s with machine := (m s.machine).2 })

/-- `manual_make_symbolic`. -/
def manual_make_symbolic (cfg : UCEnv) (width : ℕ) : Prog UCMachine Expr := fun s =>
  (some (cfg.symbolic s.arrays width), { s with arrays := s.arrays + 1 })

end UCMachine

open UCMachine

section Code

variable [ExprOptions] [APIntHash] (cfg : UCEnv) (p : Ptr)

/-- The `Store` case of `OOBWcheck`. -/
def OOBWcheckStore (ts : TimingSolver) (x : StoreInst) (u : UCState) : Option UCState :=
  if u.state.OOBW then some u
  else do
    let base ← u.eval x.address
    let value ← u.eval x.value
    return { u with state := OOB_check ts u.state base ((value.getWidth + 7) / 8) }

/-- The `Store` case of `beforeExecuteInstruction`. -/
def beforeStore (x : StoreInst) : Prog UCMachine Unit := do
  hook cfg p (OOBWcheckStore cfg.timing x)
  hook cfg p fun u => symbolic_before_store cfg.memory u x.address x.type

/-- The `Store` case of `executeInstruction`. -/
def executeStoreInst (x : StoreInst) : Prog UCMachine Unit := do
  let base ← evalOperand p x.address
  let value ← evalOperand p x.value
  onMachine (SymBisect.Machine.executeMemoryOperation cfg.env p (.store value) base)

/-- The loop over the slots of the object, with the number of turns left; the 33rd turn breaks it. -/
def updateSlots (object : MemoryObject) (address : Expr) (size : ℕ) : ℕ → ℕ → Prog UCMachine Unit
  | 0, _ => pure ()
  | turns + 1, offset =>
    if offset < object.size then do
      let currentaddr := AddExpr.create object.getBaseExpr (.const (BitVec.ofNat pointerWidth offset))
      let res ← onMachine (SymBisect.Machine.lift p (Executor.askMayBeTrue cfg.env.toEnv p (EqExpr.create currentaddr address)))
      match res with
      -- the query failed, `res` is not set
      | none => Prog.abort
      -- sym address cannot equal current address, skip
      | some false => updateSlots object address size turns (offset + size)
      | some true => do
        let currentvalue ← manual_make_symbolic cfg (size * 8)
        onMachine (SymBisect.Machine.executeMemoryOperation cfg.env p (.store currentvalue) currentaddr)
        updateSlots object address size turns (offset + size)
    else pure ()

/-- The `Store` case of `afterExecuteInstruction`. -/
def afterStore (x : StoreInst) : Prog UCMachine Unit := do
  hook cfg p fun u => symbolic_after_store u x.address
  let address ← evalOperand p x.address
  let state ← onMachine (SymBisect.Machine.lift p (Executor.read p))
  match state.map_address_symbolic address with
  | none => pure ()
  | some _ =>
    if address.isConstant then pure ()
    else match state.symaddr_base address with
      | none => pure ()
      | some baseaddr => do
        let base ← Prog.unwrap (constantAddress baseaddr)
        match state.addressSpace.resolveOne base with
        | none => pure ()
        | some object => updateSlots cfg p object address x.size 32 0

/-- A store with its hooks. -/
def store (x : StoreInst) : Prog UCMachine Unit := do
  beforeStore cfg p x
  executeStoreInst cfg p x
  afterStore cfg p x

end Code

/-! ### Hooks -/

section Hooks

variable {cfg : UCEnv} {p : Ptr} {s t : UCMachine} {u u' : UCState} {op op' : Operand} {E : UCMachine → Prop}

/-- A register or an entry of the constant table is assigned; the rest of the state is kept. -/
theorem un_eval_state (u : UCState) (op : Operand) (value : Expr) :
    ∃ stack, (u.un_eval op value).state = { u.state with stack := stack } := by
  cases op with
  | const n => exact ⟨u.state.stack, rfl⟩
  | reg n =>
    unfold UCState.un_eval
    cases u.state.stack with
    | nil => exact ⟨u.state.stack, rfl⟩
    | cons sf rest => exact ⟨_, rfl⟩

theorem un_eval_allocated (u : UCState) (op : Operand) (value : Expr) : (u.un_eval op value).allocated = u.allocated := by
  cases op with
  | const n => rfl
  | reg n =>
    unfold UCState.un_eval
    cases u.state.stack with
    | nil => rfl
    | cons sf rest => rfl

/-- The other operands keep their values. -/
theorem eval_un_eval_other (h : op ≠ op') (u : UCState) (value : Expr) : (u.un_eval op' value).eval op = u.eval op := by
  cases op' with
  | const m =>
    cases op with
    | const n => exact Function.update_of_ne (fun hn => h (congrArg Operand.const hn)) _ _
    | reg n => rfl
  | reg m =>
    cases op with
    | const n =>
      unfold UCState.un_eval
      cases u.state.stack with
      | nil => rfl
      | cons sf rest => rfl
    | reg n => exact eval_un_eval_of_ne (fun hn => h (congrArg Operand.reg hn)) u value

theorem hook_eq {f : UCState → Option UCState} (h : s.ucState p = some u) (hf : f u = some u') :
    hook cfg p f s = (some (), s.withState cfg p u') := by
  unfold hook
  rw [h, Option.bind_some, hf]

theorem evalOperand_eq {e : Expr} (h : s.ucState p = some u) (he : u.eval op = some e) :
    evalOperand p op s = (some e, s) := by
  unfold evalOperand
  rw [h, Option.bind_some, he]

theorem ucState_eq_some : s.ucState p = some u ↔
    s.machine.executor.heap p = some u.state ∧ s.constantTable = u.constantTable ∧ s.allocated = u.allocated := by
  unfold UCMachine.ucState
  rw [Option.map_eq_some_iff]
  constructor
  · rintro ⟨state, hstate, rfl⟩
    exact ⟨hstate, rfl, rfl⟩
  · rintro ⟨hstate, htable, hallocated⟩
    refine ⟨u.state, hstate, ?_⟩
    rw [htable, hallocated]

theorem heap_withState (h : s.ucState p = some u) (u' : UCState) :
    (s.withState cfg p u').machine.executor.heap p = some u'.state := by
  show Function.update s.machine.executor.heap p ((s.machine.executor.heap p).map fun _ => u'.state) p = _
  rw [Function.update_self, (ucState_eq_some.1 h).1]
  rfl

theorem ucState_withState (h : s.ucState p = some u) (u' : UCState) : (s.withState cfg p u').ucState p = some u' :=
  ucState_eq_some.2 ⟨heap_withState h u', rfl, rfl⟩

theorem contents_withState (cfg : UCEnv) (s : UCMachine) (p : Ptr) (u' : UCState) : (s.withState cfg p u').machine.contents p =
    withMade cfg (s.machine.contents p) s.allocated u'.allocated := Function.update_self ..

theorem withMade_self (contents : MemoryObject → Memory.ObjectState) (n : ℕ) : withMade cfg contents n n = contents := by
  unfold withMade
  rw [Nat.sub_self]
  rfl

theorem withMade_succ (contents : MemoryObject → Memory.ObjectState) (n : ℕ) :
    withMade cfg contents n (n + 1) = Function.update contents (cfg.memory n) (cfg.made n) := by
  funext mo
  unfold withMade
  rw [Nat.add_sub_cancel_left, List.range'_one, Function.update_apply, List.find?_cons]
  by_cases h : cfg.memory n = mo
  · rw [decide_eq_true h, if_pos h.symm]
  · rw [decide_eq_false h, if_neg fun h' => h h'.symm]
    rfl

end Hooks

/-! ### Up to the instruction -/

/-- The state at `p` looks like `u` to the hooks, its memory is in order, and the object `mo` has the contents `os`; the two
operands have their values, and the keys of `map_address_symbolic` are constants. -/
structure Prepared (s : UCMachine) (p : Ptr) (x : StoreInst) (constraints : ConstraintSet) (mo : MemoryObject)
    (os : Memory.ObjectState) (address value : Expr) (u : UCState) : Prop where
  current : s.ucState p = some u
  standing : Standing s.machine p (Executor.viewOf u.state)
  constraints_eq : u.state.constraints = constraints
  object : mo ∈ u.state.addressSpace.objects
  contents : s.machine.contents p mo = os
  addressOperand : u.eval x.address = some address
  valueOperand : u.eval x.value = some value
  keys : ConstantKeys u

/-- The object that is allocated next overlaps no other, and is in order. -/
structure UCEnv.Allocates (cfg : UCEnv) (n : ℕ) (space : AddressSpace) : Prop where
  free : ∀ mo ∈ space.objects, ∀ c, mo.Checks c → ¬(cfg.memory n).Checks c
  consistent : Memory.Consistent (cfg.made n)
  size : (cfg.made n).size = (cfg.memory n).size

/-- What the address is replaced by: a constant stays, a pointer that is bound has its address, and a pointer to an integer
or a pointer is bound to a new object. -/
inductive StandsFor (cfg : UCEnv) (u : UCState) (x : StoreInst) : Expr → BitVec pointerWidth → Prop
  | constant (c : BitVec pointerWidth) : StandsFor cfg u x (.const c) c
  | bound {address : Expr} {c : BitVec pointerWidth} (symbolic : address.isConstant = false)
      (bound : u.state.map_symbolic_address address = some (.const c)) : StandsFor cfg u x address c
  | new {address : Expr} (symbolic : address.isConstant = false) (unbound : u.state.map_symbolic_address address = none)
      (type : x.type = .integer ∨ x.type = .pointer) : StandsFor cfg u x address (cfg.memory u.allocated).address

/-- The value that is stored: if both operands are one register, it is rewritten with the address. -/
def writtenValue (x : StoreInst) (c : BitVec pointerWidth) (value : Expr) : Expr :=
  if x.value = x.address then .const c else value

section Before

variable {cfg : UCEnv} {p : Ptr} {s : UCMachine} {u : UCState} {x : StoreInst} {constraints : ConstraintSet}
  {mo : MemoryObject} {os : Memory.ObjectState} {address value : Expr} {c : BitVec pointerWidth} {E : UCMachine → Prop}

theorem Prepared.allocated (h : Prepared s p x constraints mo os address value u) : s.allocated = u.allocated :=
  (ucState_eq_some.1 h.current).2.2

theorem view_withState {s : UCMachine} {u : UCState} (h : s.ucState p = some u) (u' : UCState) :
    (s.withState cfg p u').machine.executor.view p = some (Executor.viewOf u'.state) := by
  unfold Executor.view
  rw [heap_withState h u']
  rfl

/-- A hook that binds no object. -/
theorem Prepared.withState (h : Prepared s p x constraints mo os address value u) {u' : UCState} {address' value' : Expr}
    (hallocated : u'.allocated = u.allocated) (hconstraints : u'.state.constraints = u.state.constraints)
    (hspace : u'.state.addressSpace = u.state.addressSpace) (haddress : u'.eval x.address = some address')
    (hvalue : u'.eval x.value = some value')
    (hkeys : ConstantKeys u') :
    Prepared (s.withState cfg p u') p x constraints mo os address' value' u' := by
  have hcontents : (s.withState cfg p u').machine.contents p = s.machine.contents p := by
    rw [contents_withState, hallocated, h.allocated, withMade_self]
  have hmem : ∀ mo' ∈ u'.state.addressSpace.objects, mo' ∈ u.state.addressSpace.objects := fun mo' hmo' => hspace ▸ hmo'
  refine ⟨ucState_withState h.current u', ⟨view_withState h.current u', h.standing.lt, h.standing.running, ?_, ?_, ?_, ?_⟩,
    hconstraints.trans h.constraints_eq, hspace ▸ h.object, (congrFun hcontents mo).trans h.contents, haddress, hvalue, hkeys⟩
  · show u'.state.constraints.IsBool
    rw [hconstraints]
    exact h.standing.isBool
  · show u'.state.addressSpace.Disjoint
    rw [hspace]
    exact h.standing.disjoint
  · intro mo' hmo'
    rw [hcontents]
    exact h.standing.consistent mo' (hmem mo' hmo')
  · intro mo' hmo'
    rw [hcontents]
    exact h.standing.size mo' (hmem mo' hmo')

theorem mem_bindObject {space : AddressSpace} {mo new : MemoryObject} : mo ∈ (space.bindObject new).objects ↔
    mo = new ∨ (mo ∈ space.objects ∧ mo.address ≠ new.address) := by
  unfold AddressSpace.bindObject
  rw [List.mem_append, List.mem_cons, List.mem_filter, List.mem_filter, decide_eq_true_iff, decide_eq_true_iff, ne_eq,
    BitVec.toNat_eq]
  constructor
  · rintro (⟨hmem, hlt⟩ | heq | ⟨hmem, hlt⟩)
    · exact .inr ⟨hmem, hlt.ne⟩
    · exact .inl heq
    · exact .inr ⟨hmem, hlt.ne'⟩
  · rintro (heq | ⟨hmem, hne⟩)
    · exact .inr (.inl heq)
    · obtain hlt | hlt := Nat.lt_or_gt_of_ne hne
      · exact .inl ⟨hmem, hlt⟩
      · exact .inr (.inr ⟨hmem, hlt⟩)

/-- A hook that binds the object that is allocated next. -/
theorem Prepared.withNew (h : Prepared s p x constraints mo os address value u)
    (hnew : cfg.Allocates u.allocated u.state.addressSpace) {u' : UCState} {address' value' : Expr}
    (hallocated : u'.allocated = u.allocated + 1) (hconstraints : u'.state.constraints = u.state.constraints)
    (hspace : u'.state.addressSpace = u.state.addressSpace.bindObject (cfg.memory u.allocated))
    (haddress : u'.eval x.address = some address') (hvalue : u'.eval x.value = some value')
    (hkeys : ConstantKeys u') :
    Prepared (s.withState cfg p u') p x constraints mo os address' value' u' := by
  have hapart : ∀ mo' ∈ u.state.addressSpace.objects, mo'.address ≠ (cfg.memory u.allocated).address := by
    intro mo' hmo' heq
    exact hnew.free mo' hmo' _ mo'.checks_address (heq ▸ MemoryObject.checks_address _)
  have hne : ∀ mo' ∈ u.state.addressSpace.objects, mo' ≠ cfg.memory u.allocated := fun mo' hmo' heq =>
    hapart mo' hmo' (congrArg MemoryObject.address heq)
  have hcontents : (s.withState cfg p u').machine.contents p =
      Function.update (s.machine.contents p) (cfg.memory u.allocated) (cfg.made u.allocated) := by
    rw [contents_withState, hallocated, h.allocated, withMade_succ]
  have hmem : ∀ mo' ∈ u'.state.addressSpace.objects, mo' = cfg.memory u.allocated ∨ mo' ∈ u.state.addressSpace.objects := by
    intro mo' hmo'
    rw [hspace] at hmo'
    exact (mem_bindObject.1 hmo').imp_right And.left
  refine ⟨ucState_withState h.current u', ⟨view_withState h.current u', h.standing.lt, h.standing.running, ?_, ?_, ?_, ?_⟩,
    hconstraints.trans h.constraints_eq, ?_, ?_, haddress, hvalue, hkeys⟩
  · show u'.state.constraints.IsBool
    rw [hconstraints]
    exact h.standing.isBool
  · show u'.state.addressSpace.Disjoint
    intro y hy z hz hyz v hyv hzv
    obtain rfl | hy := hmem y hy
    · obtain rfl | hz := hmem z hz
      · exact hyz rfl
      · exact hnew.free z hz v hzv hyv
    · obtain rfl | hz := hmem z hz
      · exact hnew.free y hy v hyv hzv
      · exact h.standing.disjoint y hy z hz hyz v hyv hzv
  · intro mo' hmo'
    rw [hcontents]
    obtain rfl | hmo' := hmem mo' hmo'
    · rw [Function.update_self]
      exact hnew.consistent
    · rw [Function.update_of_ne (hne mo' hmo')]
      exact h.standing.consistent mo' hmo'
  · intro mo' hmo'
    rw [hcontents]
    obtain rfl | hmo' := hmem mo' hmo'
    · rw [Function.update_self]
      exact hnew.size
    · rw [Function.update_of_ne (hne mo' hmo')]
      exact h.standing.size mo' hmo'
  · rw [hspace]
    exact mem_bindObject.2 (.inr ⟨h.object, hapart mo h.object⟩)
  · rw [hcontents, Function.update_of_ne (hne mo h.object)]
    exact h.contents

variable [ExprOptions] [APIntHash]

/-- `OOBWcheck` sets its flag at most. -/
theorem Prepared.OOBWcheck (h : Prepared s p x constraints mo os address value u) (ts : TimingSolver) :
    ∃ b, OOBWcheckStore ts x u = some { u with state := { u.state with OOBW := b } } := by
  unfold OOBWcheckStore
  by_cases hflag : u.state.OOBW = true
  · exact ⟨u.state.OOBW, if_pos hflag⟩
  · rw [if_neg hflag, h.addressOperand, h.valueOperand]
    obtain ⟨b, hb⟩ := OOB_check_eq ts u.state address ((value.getWidth + 7) / 8)
    refine ⟨b, ?_⟩
    show some { u with state := OOB_check ts u.state address ((value.getWidth + 7) / 8) } = _
    rw [hb]

omit [ExprOptions] [APIntHash] in
/-- The operand is rewritten with a constant. -/
theorem Prepared.eval_value (h : Prepared s p x constraints mo os address value u) {u' : UCState}
    (haddress : u'.eval x.address = some (.const c)) (hother : x.value ≠ x.address → u'.eval x.value = u.eval x.value) :
    u'.eval x.value = some (writtenValue x c value) := by
  unfold writtenValue
  by_cases hsame : x.value = x.address
  · rw [if_pos hsame, hsame]
    exact haddress
  · rw [if_neg hsame, hother hsame]
    exact h.valueOperand

omit [ExprOptions] [APIntHash] in
/-- `symbolic_before_store` puts the stand-in into the operand. -/
theorem Prepared.symbolic_before (h : Prepared s p x constraints mo os address value u) (hstand : StandsFor cfg u x address c)
    (hnew : cfg.Allocates u.allocated u.state.addressSpace) :
    ∃ u', symbolic_before_store cfg.memory u x.address x.type = some u' ∧
      Prepared (s.withState cfg p u') p x constraints mo os (.const c) (writtenValue x c value) u' := by
  cases hstand with
  | constant c =>
    have hunfold : symbolic_before_store cfg.memory u x.address x.type = some u := by
      simp only [symbolic_before_store, UCListener.symbolic_before, h.addressOperand, Option.bind_eq_bind, Option.bind_some]
      exact if_pos rfl
    refine ⟨u, hunfold, h.withState rfl rfl rfl h.addressOperand ?_ h.keys⟩
    exact h.eval_value h.addressOperand fun _ => rfl
  | bound symbolic bound =>
    have hunfold : symbolic_before_store cfg.memory u x.address x.type = some (u.un_eval x.address (.const c)) := by
      simp only [symbolic_before_store, UCListener.symbolic_before, h.addressOperand, bound, Option.bind_eq_bind,
        Option.bind_some]
      exact if_neg (Bool.eq_false_iff.1 symbolic)
    obtain ⟨stack, hstack⟩ := un_eval_state u x.address (.const c)
    have haddress : (u.un_eval x.address (.const c)).eval x.address = some (.const c) := eval_un_eval h.addressOperand _
    refine ⟨_, hunfold, h.withState (un_eval_allocated ..) ?_ ?_ haddress ?_ ?_⟩
    · rw [hstack]
    · rw [hstack]
    · exact h.eval_value haddress fun hne => eval_un_eval_other hne u _
    · exact h.keys.of_eq (pointerMaps_un_eval ..)
  | new symbolic unbound type =>
    have hunfold : symbolic_before_store cfg.memory u x.address x.type =
        some (((u.create_mo cfg.memory).2.un_eval x.address (cfg.memory u.allocated).getBaseExpr).bindAddress address
          (cfg.memory u.allocated).getBaseExpr) := by
      simp only [symbolic_before_store, UCListener.symbolic_before, h.addressOperand, unbound, Option.bind_eq_bind,
        Option.bind_some]
      rw [if_neg (Bool.eq_false_iff.1 symbolic)]
      exact if_pos type
    obtain ⟨stack, hstack⟩ := un_eval_state (u.create_mo cfg.memory).2 x.address (cfg.memory u.allocated).getBaseExpr
    have haddress : ((u.create_mo cfg.memory).2.un_eval x.address (cfg.memory u.allocated).getBaseExpr).eval x.address =
        some (.const (cfg.memory u.allocated).address) :=
      eval_un_eval (u := (u.create_mo cfg.memory).2) h.addressOperand _
    refine ⟨_, hunfold, h.withNew hnew ?_ ?_ ?_ haddress ?_ ?_⟩
    · exact un_eval_allocated ..
    · show ((u.create_mo cfg.memory).2.un_eval x.address _).state.constraints = _
      rw [hstack]
      rfl
    · show ((u.create_mo cfg.memory).2.un_eval x.address _).state.addressSpace = _
      rw [hstack]
      rfl
    · exact h.eval_value haddress fun hne => eval_un_eval_other hne (u.create_mo cfg.memory).2 _
    · intro key pointer hkey
      have hmap : ((u.create_mo cfg.memory).2.un_eval x.address
          (cfg.memory u.allocated).getBaseExpr).state.map_address_symbolic = u.state.map_address_symbolic := by
        rw [hstack]
        rfl
      by_cases heq : key = (cfg.memory u.allocated).getBaseExpr
      · rw [heq]
        rfl
      · refine h.keys key pointer ?_
        rw [← hmap]
        exact (Function.update_of_ne heq _ _).symm.trans hkey

/-- **Before the instruction.** -/
theorem beforeStore_spec (h : Prepared s p x constraints mo os address value u) (hstand : StandsFor cfg u x address c)
    (hnew : cfg.Allocates u.allocated u.state.addressSpace) : Prog.wp (beforeStore cfg p x)
      (fun _ t => ∃ u', Prepared t p x constraints mo os (.const c) (writtenValue x c value) u') E s := by
  obtain ⟨b, hb⟩ := h.OOBWcheck cfg.timing
  have h₁ : Prepared (s.withState cfg p { u with state := { u.state with OOBW := b } }) p x constraints mo os address value
      { u with state := { u.state with OOBW := b } } :=
    h.withState rfl rfl rfl h.addressOperand h.valueOperand h.keys
  have hstand₁ : StandsFor cfg { u with state := { u.state with OOBW := b } } x address c := by
    cases hstand with
    | constant c => exact .constant c
    | bound symbolic bound => exact .bound symbolic bound
    | new symbolic unbound type => exact .new symbolic unbound type
  obtain ⟨u₂, hu₂, h₂⟩ := h₁.symbolic_before hstand₁ hnew
  exact Prog.wp.step (hook_eq h.current hb) (Prog.wp.of_result (hook_eq h₁.current hu₂) ⟨u₂, h₂⟩)

end Before

/-! ### The instruction and the hook after it -/

section After

variable {cfg : UCEnv} {p : Ptr} {s : UCMachine} {u : UCState} {x : StoreInst} {constraints : ConstraintSet}
  {mo : MemoryObject} {os : Memory.ObjectState} {value : Expr} {c : BitVec pointerWidth} {w : ℕ} {E : UCMachine → Prop}

theorem wp_onMachine {α : Type} {m : Prog SymBisect.Machine α} {Q : α → UCMachine → Prop} : Prog.wp (onMachine m) Q E s ↔
    Prog.wp m (fun a t => Q a { s with machine := t }) (fun t => E { s with machine := t }) s.machine := by
  unfold Prog.wp onMachine
  cases m s.machine with
  | mk o t =>
    cases o with
    | none => exact Iff.rfl
    | some a => exact Iff.rfl

/-- What a store of the word at the address `c` makes of an object. -/
def StoredAt [ExprOptions] (env : MemoryEnv) (mo : MemoryObject) (c : BitVec pointerWidth) (w : ℕ)
    (constraints : ConstraintSet) (value : Expr) (os os' : Memory.ObjectState) : Prop :=
  if SymBisect.Machine.Holds mo c (PlainArray.numBytes w) ∧ os.readOnly = false then
    Memory.Stores env.littleEndian (c.toNat - mo.address.toNat) w (SymBisect.Machine.storedValue env constraints value) os os'
  else os' = os

variable [ExprOptions]

/-- **The instruction.** -/
theorem executeStoreInst_spec (h : Prepared s p x constraints mo os (.const c) value u) (hv : value.HasWidth w)
    (hw : Memory.ObjectState.WidthAllowed w) : Prog.wp (executeStoreInst cfg p x)
      (fun _ t => (∃ pc, t.ucState p = some { u with state := { u.state with pc := pc } }) ∧
        StoredAt cfg.env mo c w constraints value os (t.machine.contents p mo)) E s := by
  have hheap := (ucState_eq_some.1 h.current).1
  refine Prog.wp.step (evalOperand_eq h.current h.addressOperand) ?_
  refine Prog.wp.step (evalOperand_eq h.current h.valueOperand) ?_
  rw [wp_onMachine]
  refine (SymBisect.Machine.store_const hheap h.standing.lt h.standing.running h.standing.isBool h.standing.disjoint h.object hv hw
    h.standing.consistent h.standing.size).mono ?_ fun _ h => h
  rintro - t ⟨⟨pc, hpc⟩, ht⟩
  refine ⟨⟨pc, ?_⟩, ?_⟩
  · exact ucState_eq_some.2 ⟨hpc, (ucState_eq_some.1 h.current).2⟩
  · rw [h.constraints_eq, h.contents] at ht
    exact ht

omit [ExprOptions] in
/-- `symbolic_after_store` writes the operand at most. -/
theorem symbolic_after_state {base : Expr} (hbase : u.eval x.address = some base) :
    ∃ u' address, symbolic_after_store u x.address = some u' ∧ u'.eval x.address = some address ∧
      u'.allocated = u.allocated ∧ u'.state.map_address_symbolic = u.state.map_address_symbolic := by
  obtain ⟨u', hu', heval⟩ := eval_symbolic_after hbase
  refine ⟨u', _, hu', heval, ?_⟩
  cases hkey : u.state.map_address_symbolic base with
  | none =>
    simp only [symbolic_after, hbase, hkey, Option.bind_eq_bind, Option.bind_some, Option.pure_def] at hu'
    obtain rfl := Option.some.inj hu'
    exact ⟨rfl, rfl⟩
  | some symbolic =>
    simp only [symbolic_after, hbase, hkey, Option.bind_eq_bind, Option.bind_some, Option.pure_def] at hu'
    obtain rfl := Option.some.inj hu'
    obtain ⟨stack, hstack⟩ := un_eval_state u x.address symbolic
    refine ⟨un_eval_allocated .., ?_⟩
    rw [hstack]

/-- **The hook after the instruction never enters its loop**: the address is a key of `map_address_symbolic` only if it is a
constant. -/
theorem afterStore_idle {base : Expr} (hcurrent : s.ucState p = some u) (hbase : u.eval x.address = some base)
    (hkeys : ConstantKeys u) :
    Prog.wp (afterStore cfg p x) (fun _ t => t.machine.contents p = s.machine.contents p) E s := by
  obtain ⟨u', address, hafter, haddress, hallocated, hmap⟩ := symbolic_after_state hbase
  have hcontents : (s.withState cfg p u').machine.contents p = s.machine.contents p := by
    rw [contents_withState, hallocated, (ucState_eq_some.1 hcurrent).2.2, withMade_self]
  unfold afterStore
  refine Prog.wp.step (hook_eq hcurrent hafter) ?_
  refine Prog.wp.step (evalOperand_eq (ucState_withState hcurrent u') haddress) ?_
  rw [Prog.wp_bind, wp_onMachine, SymBisect.Machine.wp_lift, Executor.wp_read, heap_withState hcurrent u']
  refine ⟨fun state hstate => ?_, fun hnone => absurd hnone (Option.some_ne_none _)⟩
  obtain rfl := Option.some.inj hstate
  have hidle : ((s.withState cfg p u').machine.after p (s.withState cfg p u').machine.executor).contents p =
      s.machine.contents p := by
    refine Eq.trans ?_ hcontents
    show (if _ then _ else _) = _
    rw [ite_self]
  cases hkey : u'.state.map_address_symbolic address with
  | none => exact hidle
  | some pointer =>
    rw [hmap] at hkey
    show Prog.wp (if address.isConstant = true then pure () else _) _ _ _
    rw [if_pos (hkeys address pointer hkey)]
    exact hidle

/-- **The object of the base after the store** is as the store to the stand-in leaves it. -/
theorem store_spec [APIntHash] {address : Expr} (h : Prepared s p x constraints mo os address value u)
    (hstand : StandsFor cfg u x address c) (hnew : cfg.Allocates u.allocated u.state.addressSpace)
    (hv : (writtenValue x c value).HasWidth w) (hw : Memory.ObjectState.WidthAllowed w) : Prog.wp (store cfg p x)
      (fun _ t => StoredAt cfg.env mo c w constraints (writtenValue x c value) os (t.machine.contents p mo)) E s := by
  unfold store
  refine (beforeStore_spec h hstand hnew).bind fun _ s₁ h₁ => ?_
  obtain ⟨u₁, h₁⟩ := h₁
  refine (executeStoreInst_spec h₁ hv hw).bind fun _ s₂ h₂ => ?_
  obtain ⟨⟨pc, hcurrent⟩, hstored⟩ := h₂
  refine (afterStore_idle hcurrent h₁.addressOperand h₁.keys).mono (fun _ t ht => ?_) fun _ h => h
  rw [ht]
  exact hstored

end After

/-! ### The slots of the base object -/

section Slots

open PlainArray Memory

/-- The address may equal that of the offset in the object. -/
def MayEqual (constraints : ConstraintSet) (address : Expr) (mo : MemoryObject) (offset : ℕ) : Prop :=
  ∃ a, Satisfies a constraints ∧ address.Denotes a (mo.address + BitVec.ofNat pointerWidth offset)

/-- The bytes from the offset on are those of the value. -/
def HasValue (littleEndian : Bool) (w : ℕ) (value : Expr) (a : Assignment) (byteAt : ℕ → BitVec 8 → Prop) (offset : ℕ) :
    Prop :=
  ∃ v : BitVec w, value.Denotes a v ∧
    ∀ i < numBytes w, byteAt (offset + bytePosition littleEndian (numBytes w) i) (v.extractLsb' (8 * i) 8)

/-- What is asked of the first 32 slots of the object: one that the address may equal has a value that can be the stored one,
and one that it cannot equal is as before. -/
structure SlotsUpdated (littleEndian : Bool) (x : StoreInst) (constraints : ConstraintSet) (address value : Expr)
    (mo : MemoryObject) (os os' : ObjectState) : Prop where
  written : ∀ k < 32, (k + 1) * x.size ≤ mo.size → MayEqual constraints address mo (k * x.size) →
    ∃ a, Satisfies a constraints ∧ HasValue littleEndian x.width value a (HasByte a os') (k * x.size)
  kept : ∀ k < 32, (k + 1) * x.size ≤ mo.size → ¬MayEqual constraints address mo (k * x.size) →
    ∀ a, Satisfies a constraints → ∀ j, k * x.size ≤ j → j < (k + 1) * x.size → ∀ byte,
      HasByte a os' j byte ↔ HasByte a os j byte

/-- The store to the stand-in reaches the byte of the object. -/
def Reaches (mo : MemoryObject) (os : ObjectState) (c : BitVec pointerWidth) (w j : ℕ) : Prop :=
  (SymBisect.Machine.Holds mo c (numBytes w) ∧ os.readOnly = false) ∧
    c.toNat - mo.address.toNat ≤ j ∧ j < c.toNat - mo.address.toNat + numBytes w

/-- The byte that the store to the stand-in brings to its place in the object. -/
def Brings (littleEndian : Bool) (w : ℕ) (written : Expr) (mo : MemoryObject) (c : BitVec pointerWidth) (a : Assignment)
    (j : ℕ) (byte : BitVec 8) : Prop :=
  ∃ v : BitVec w, written.Denotes a v ∧ ∃ i < numBytes w,
    j = c.toNat - mo.address.toNat + bytePosition littleEndian (numBytes w) i ∧ byte = v.extractLsb' (8 * i) 8

/-- The slots need no update: where the address may equal one, its bytes out of reach of the stand-in are those of the stored
value already, and those in reach are brought there; where it cannot, what is brought there is there already. -/
structure NoUpdateNeeded (littleEndian : Bool) (x : StoreInst) (constraints : ConstraintSet) (address value : Expr)
    (mo : MemoryObject) (c : BitVec pointerWidth) (os : ObjectState) : Prop where
  possible : ∀ k < 32, (k + 1) * x.size ≤ mo.size → MayEqual constraints address mo (k * x.size) →
    ∃ a, Satisfies a constraints ∧ HasValue littleEndian x.width value a (fun j byte =>
      (Reaches mo os c x.width j → Brings littleEndian x.width (writtenValue x c value) mo c a j byte) ∧
      (¬Reaches mo os c x.width j → HasByte a os j byte)) (k * x.size)
  impossible : ∀ k < 32, (k + 1) * x.size ≤ mo.size → ¬MayEqual constraints address mo (k * x.size) →
    ∀ a, Satisfies a constraints → ∀ j, k * x.size ≤ j → j < (k + 1) * x.size → Reaches mo os c x.width j → ∀ byte,
      Brings littleEndian x.width (writtenValue x c value) mo c a j byte ↔ HasByte a os j byte

/-- A store whose address was recorded by a `getelementptr`: what the code around it guarantees.  For the keys that is
`run_constantKeys`. -/
structure StoreReady [ExprOptions] (cfg : UCEnv) (s : UCMachine) (p : Ptr) (x : StoreInst) (address value : Expr)
    (mo : MemoryObject) (c : BitVec pointerWidth) (u : UCState) : Prop where
  current : s.ucState p = some u
  standing : Standing s.machine p (Executor.viewOf u.state)
  addressOperand : u.eval x.address = some address
  valueOperand : u.eval x.value = some value
  address_hasWidth : address.HasWidth pointerWidth
  value_hasWidth : value.HasWidth x.width
  allowed : ObjectState.WidthAllowed x.width
  defined : ∀ a, Satisfies a u.state.constraints → value.Defined a
  recorded : ∃ base : BitVec pointerWidth, u.state.symaddr_base address = some (.const base) ∧
    u.state.addressSpace.resolveOne base.toNat = some mo
  keys : ConstantKeys u
  standIn : StandsFor cfg u x address c
  allocates : cfg.Allocates u.allocated u.state.addressSpace
  known : ∀ a, Satisfies a u.state.constraints → ∀ j < mo.size, ∃ byte, HasByte a (s.machine.contents p mo) j byte

variable {cfg : UCEnv} {p : Ptr} {s : UCMachine} {u : UCState} {x : StoreInst} {constraints : ConstraintSet}
  {mo : MemoryObject} {os os' : ObjectState} {address value : Expr} {c : BitVec pointerWidth}

variable [ExprOptions]

/-- A byte after the store to the stand-in. -/
theorem hasByte_storedAt {w : ℕ} {written : Expr} {a : Assignment} {j : ℕ} {byte : BitVec 8}
    (hstored : StoredAt cfg.env mo c w constraints written os os') (hb : constraints.IsBool) (ha : Satisfies a constraints)
    (hv : written.HasWidth w) (hdef : written.Defined a) (hknown : ∃ byte, HasByte a os j byte) :
    HasByte a os' j byte ↔ (Reaches mo os c w j → Brings cfg.env.littleEndian w written mo c a j byte) ∧
      (¬Reaches mo os c w j → HasByte a os j byte) := by
  unfold StoredAt at hstored
  by_cases hcond : SymBisect.Machine.Holds mo c (numBytes w) ∧ os.readOnly = false
  · rw [if_pos hcond] at hstored
    have hplaced : ∀ v : BitVec w, written.Denotes a v → ∀ i < numBytes w,
        HasByte a os' (c.toNat - mo.address.toNat + bytePosition cfg.env.littleEndian (numBytes w) i)
          (v.extractLsb' (8 * i) 8) := fun v hden =>
      hstored.placed a v (SymBisect.Machine.storedValue_denotes hb hv (fun _ => ha) hden)
    by_cases hreach : Reaches mo os c w j
    · rw [and_iff_left fun hn => absurd hreach hn, forall_prop_of_true hreach]
      constructor
      · intro hbyte
        obtain ⟨-, hlow, hhigh⟩ := hreach
        have hden := Expr.Denotes.self hdef w
        obtain ⟨i, hi, hj⟩ : ∃ i < numBytes w,
            j = c.toNat - mo.address.toNat + bytePosition cfg.env.littleEndian (numBytes w) i := by
          refine ⟨_, bytePosition_lt cfg.env.littleEndian (i := j - (c.toNat - mo.address.toNat)) (by omega), ?_⟩
          rw [bytePosition_bytePosition cfg.env.littleEndian (by omega)]
          omega
        have hat := hplaced _ hden i hi
        rw [← hj] at hat
        exact ⟨_, hden, i, hi, hj, hbyte.unique hstored.consistent hat⟩
      · rintro ⟨v, hden, i, hi, rfl, rfl⟩
        exact hplaced v hden i hi
    · rw [and_iff_right fun hr => absurd hr hreach, forall_prop_of_true hreach]
      have hout : j < c.toNat - mo.address.toNat ∨ c.toNat - mo.address.toNat + numBytes w ≤ j := by
        by_contra hin
        exact hreach ⟨hcond, by omega, by omega⟩
      refine ⟨fun hbyte => ?_, hstored.kept a j byte hout⟩
      obtain ⟨y, hy⟩ := hknown
      rw [hbyte.unique hstored.consistent (hstored.kept a j y hout hy)]
      exact hy
  · rw [if_neg hcond] at hstored
    have hreach : ¬Reaches mo os c w j := fun h => hcond h.1
    rw [and_iff_right fun hr => absurd hr hreach, forall_prop_of_true hreach, hstored]

theorem StoreReady.written_hasWidth (h : StoreReady cfg s p x address value mo c u) :
    (writtenValue x c value).HasWidth x.width := by
  unfold writtenValue
  by_cases hsame : x.value = x.address
  · rw [if_pos hsame]
    have heq : value = address := Option.some.inj (h.valueOperand.symm.trans ((congrArg u.eval hsame).trans h.addressOperand))
    have hwidth : x.width = pointerWidth := h.value_hasWidth.width.symm.trans (heq ▸ h.address_hasWidth.width)
    rw [hwidth]
    exact Expr.hasWidth_const c
  · rw [if_neg hsame]
    exact h.value_hasWidth

theorem StoreReady.written_defined (h : StoreReady cfg s p x address value mo c u) {a : Assignment}
    (ha : Satisfies a u.state.constraints) : (writtenValue x c value).Defined a := by
  unfold writtenValue
  by_cases hsame : x.value = x.address
  · rw [if_pos hsame]
    exact (Expr.denotes_const c).defined
  · rw [if_neg hsame]
    exact h.defined a ha

omit [ExprOptions] in
theorem HasValue.congr {littleEndian : Bool} {w : ℕ} {a : Assignment} {offset : ℕ} {B B' : ℕ → BitVec 8 → Prop}
    (hB : ∀ j, offset ≤ j → j < offset + numBytes w → ∀ byte, B j byte → B' j byte)
    (h : HasValue littleEndian w value a B offset) : HasValue littleEndian w value a B' offset := by
  obtain ⟨v, hv, hbytes⟩ := h
  refine ⟨v, hv, fun i hi => hB _ (Nat.le_add_right _ _) ?_ _ (hbytes i hi)⟩
  exact Nat.add_lt_add_left (bytePosition_lt littleEndian hi) offset

theorem StoreReady.prepared (h : StoreReady cfg s p x address value mo c u) :
    Prepared s p x u.state.constraints mo (s.machine.contents p mo) address value u := by
  obtain ⟨base, -, hresolve⟩ := h.recorded
  have hmo := ((u.state.addressSpace.resolveOne_eq_some_iff h.standing.disjoint base mo).1 hresolve).1
  exact ⟨h.current, h.standing, rfl, hmo, rfl, h.addressOperand, h.valueOperand, h.keys⟩

/-- The slots of an object as the store to the stand-in leaves it. -/
theorem slotsUpdated_storedAt (h : StoreReady cfg s p x address value mo c u)
    (hstored : StoredAt cfg.env mo c x.width u.state.constraints (writtenValue x c value) (s.machine.contents p mo) os') :
    SlotsUpdated cfg.env.littleEndian x u.state.constraints address value mo (s.machine.contents p mo) os' ↔
      NoUpdateNeeded cfg.env.littleEndian x u.state.constraints address value mo c (s.machine.contents p mo) := by
  have hsize : x.size = numBytes x.width := SymBisect.Machine.bytes_eq_numBytes h.allowed
  have hbyte : ∀ a, Satisfies a u.state.constraints → ∀ j < mo.size, ∀ byte, HasByte a os' j byte ↔
      (Reaches mo (s.machine.contents p mo) c x.width j →
        Brings cfg.env.littleEndian x.width (writtenValue x c value) mo c a j byte) ∧
      (¬Reaches mo (s.machine.contents p mo) c x.width j → HasByte a (s.machine.contents p mo) j byte) := fun a ha j hj _ =>
    hasByte_storedAt hstored h.standing.isBool ha h.written_hasWidth (h.written_defined ha) (h.known a ha j hj)
  have hend : ∀ k, (k + 1) * x.size = k * x.size + numBytes x.width := by
    intro k
    rw [Nat.succ_mul, hsize]
  constructor
  · intro hslots
    refine ⟨fun k hk hin hmay => ?_, fun k hk hin hmay a ha j hlow hhigh hreach byte => ?_⟩
    · obtain ⟨a, ha, hvalue⟩ := hslots.written k hk hin hmay
      refine ⟨a, ha, hvalue.congr fun j _ hj byte => (hbyte a ha j ?_ byte).1⟩
      rw [hend] at hin
      exact hj.trans_le hin
    · have hj := hbyte a ha j (hhigh.trans_le hin) byte
      rw [and_iff_left fun hn => absurd hreach hn, forall_prop_of_true hreach] at hj
      exact hj.symm.trans (hslots.kept k hk hin hmay a ha j hlow hhigh byte)
  · intro hneeded
    refine ⟨fun k hk hin hmay => ?_, fun k hk hin hmay a ha j hlow hhigh byte => ?_⟩
    · obtain ⟨a, ha, hvalue⟩ := hneeded.possible k hk hin hmay
      refine ⟨a, ha, hvalue.congr fun j _ hj byte => (hbyte a ha j ?_ byte).2⟩
      rw [hend] at hin
      exact hj.trans_le hin
    · refine (hbyte a ha j (hhigh.trans_le hin) byte).trans ?_
      by_cases hreach : Reaches mo (s.machine.contents p mo) c x.width j
      · rw [and_iff_left fun hn => absurd hreach hn, forall_prop_of_true hreach]
        exact hneeded.impossible k hk hin hmay a ha j hlow hhigh hreach byte
      · rw [and_iff_right fun hr => absurd hr hreach, forall_prop_of_true hreach]

/-- The store of a value through the recorded address leaves the slots of the base object right. -/
def StoreUpdates [APIntHash] (cfg : UCEnv) (s : UCMachine) (p : Ptr) (x : StoreInst) (constraints : ConstraintSet)
    (address value : Expr) (mo : MemoryObject) : Prop :=
  Prog.wp (store cfg p x) (fun _ t => SlotsUpdated cfg.env.littleEndian x constraints address value mo
    (s.machine.contents p mo) (t.machine.contents p mo)) (fun _ => False) s

theorem StoreReady.noUpdateNeeded [APIntHash] (h : StoreReady cfg s p x address value mo c u)
    (hslots : StoreUpdates cfg s p x u.state.constraints address value mo) :
    NoUpdateNeeded cfg.env.littleEndian x u.state.constraints address value mo c (s.machine.contents p mo) := by
  have hspec := store_spec (E := fun _ => False) h.prepared h.standIn h.allocates h.written_hasWidth h.allowed
  have hboth := (Prog.wp.and hslots hspec).mono (fun _ _ h => h) fun _ h => h.1
  obtain ⟨_, t, -, hslot, hstored⟩ := hboth.exists_result
  exact (slotsUpdated_storedAt h hstored).1 hslot

/-- **When the slots of the base object are right after a store through a symbolic offset**: iff they need no update. -/
theorem storeUpdates_iff [APIntHash] (h : StoreReady cfg s p x address value mo c u) :
    StoreUpdates cfg s p x u.state.constraints address value mo ↔
      NoUpdateNeeded cfg.env.littleEndian x u.state.constraints address value mo c (s.machine.contents p mo) := by
  refine ⟨h.noUpdateNeeded, fun hneeded => ?_⟩
  have hspec := store_spec (E := fun _ => False) h.prepared h.standIn h.allocates h.written_hasWidth h.allowed
  exact hspec.mono (fun _ t hstored => (slotsUpdated_storedAt h hstored).2 hneeded) fun _ h => h

omit [ExprOptions] in
/-- Where the stand-in is outside of the base object, a slot that the address may equal has to have a value already that can
be the stored one. -/
theorem noUpdateNeeded_iff_of_outside (hout : ¬SymBisect.Machine.Holds mo c (numBytes x.width)) {littleEndian : Bool} :
    NoUpdateNeeded littleEndian x constraints address value mo c os ↔
      ∀ k < 32, (k + 1) * x.size ≤ mo.size → MayEqual constraints address mo (k * x.size) →
        ∃ a, Satisfies a constraints ∧ HasValue littleEndian x.width value a (HasByte a os) (k * x.size) := by
  have hreach : ∀ j, ¬Reaches mo os c x.width j := fun j h => hout h.1.1
  constructor
  · intro h k hk hin hmay
    obtain ⟨a, ha, hvalue⟩ := h.possible k hk hin hmay
    exact ⟨a, ha, hvalue.congr fun j _ _ byte hbyte => hbyte.2 (hreach j)⟩
  · intro h
    refine ⟨fun k hk hin hmay => ?_, fun k _ _ _ a _ j _ _ hr => absurd hr (hreach j)⟩
    obtain ⟨a, ha, hvalue⟩ := h k hk hin hmay
    exact ⟨a, ha, hvalue.congr fun j _ _ byte hbyte => ⟨fun hr => absurd hr (hreach j), fun _ => hbyte⟩⟩

/-- A new object is outside. -/
theorem StoreReady.outside_of_new (h : StoreReady cfg s p x address value mo (cfg.memory u.allocated).address u) :
    ¬SymBisect.Machine.Holds mo (cfg.memory u.allocated).address (numBytes x.width) := by
  intro hin
  exact h.allocates.free mo h.prepared.object _ (hin.checks (numBytes_pos h.allowed)) (MemoryObject.checks_address _)

/-- A slot that the address may equal, and whose value cannot be the stored one, is missed. -/
theorem StoreReady.not_storeUpdates [APIntHash] (h : StoreReady cfg s p x address value mo c u)
    (hout : ¬SymBisect.Machine.Holds mo c (numBytes x.width)) {k : ℕ} (hk : k < 32) (hin : (k + 1) * x.size ≤ mo.size)
    (hmay : MayEqual u.state.constraints address mo (k * x.size))
    (hnot : ∀ a, ¬HasValue cfg.env.littleEndian x.width value a (HasByte a (s.machine.contents p mo)) (k * x.size)) :
    ¬StoreUpdates cfg s p x u.state.constraints address value mo := by
  intro hslots
  obtain ⟨a, -, hvalue⟩ := (noUpdateNeeded_iff_of_outside hout).1 (h.noUpdateNeeded hslots) k hk hin hmay
  exact hnot a hvalue

end Slots

/-! ### A byte at a symbolic index -/

/-- The pointer to the element of the object whose index is a symbolic byte. -/
def elementPointer : Expr := .bin .add (.const 0x200000#64) (.zext (symbolicByte 0) 64)

theorem elementPointer_hasWidth : elementPointer.HasWidth pointerWidth :=
  (Expr.hasWidth_const 0x200000#64).bin ((symbolicByte_hasWidth 0).zext (by decide))

/-- Zeros. -/
def zeroBytes : Memory.ObjectState := Memory.ofBytes ⟨16, MemoryObject.sixteen_lt⟩ fun _ => 0

/-- The object of 16 bytes, the pointer in register 0, and the value 1 in register 1. -/
def elementState : ExecutionState :=
  { ExecutionState.init "f" 0 0 with
    stack := [⟨none, "f", fun n => if n = 0 then some elementPointer else some (.const 1#8)⟩]
    addressSpace := ⟨[highObject], List.pairwise_singleton _ _⟩
    symaddr_base := ExprMap.empty.set elementPointer (.const 0x200000#64) }

def elementMachine : UCMachine where
  machine := ⟨Executor.start elementState {}, fun _ _ => zeroBytes, 0⟩
  constantTable := fun _ => none
  allocated := 0
  arrays := 1

def elementUCState : UCState := ⟨elementState, fun _ => none, 0⟩

/-- The stand-in is the object at 0x80. -/
noncomputable def elementEnv : UCEnv where
  env := copyEnv false
  timing := TimingSolver.exact
  memory := fun _ => Executor.lowObject
  made := fun _ => zeroBytes
  symbolic := fun n _ => symbolicByte n

/-- `p[i] = 1`. -/
def storeElement : StoreInst := ⟨.reg 1, .reg 0, .integer, 8⟩

theorem storeElement_ready [ExprOptions] : StoreReady elementEnv elementMachine 0 storeElement elementPointer (.const 1#8)
    highObject 0x80#64 elementUCState where
  current := rfl
  standing :=
    { alive := rfl
      lt := Nat.one_pos
      running := List.not_mem_nil
      isBool := List.forall_mem_nil _
      disjoint := fun y hy z hz hne => absurd ((List.mem_singleton.1 hy).trans (List.mem_singleton.1 hz).symm) hne
      consistent := fun _ _ => Memory.ofBytes_consistent _ _
      size := fun mo hmo => by
        rw [List.mem_singleton.1 hmo]
        rfl }
  addressOperand := rfl
  valueOperand := rfl
  address_hasWidth := elementPointer_hasWidth
  value_hasWidth := Expr.hasWidth_const 1#8
  allowed := .inr ⟨rfl, by decide⟩
  defined := fun _ _ => (Expr.denotes_const 1#8).defined
  recorded := ⟨0x200000#64, by
    show ExprMap.set ExprMap.empty elementPointer (.const 0x200000#64) elementPointer = _
    exact Function.update_self .., by decide⟩
  keys := run_constantKeys rfl (.refl : Run (step spacedMemory) (fun _ _ => True) _ _)
  standIn := .new rfl rfl (.inl rfl)
  allocates :=
    { free := fun mo hmo => by
        rw [List.mem_singleton.1 hmo]
        exact copySpace_disjoint _ (List.mem_cons_of_mem _ List.mem_cons_self) _ List.mem_cons_self (by decide)
      consistent := Memory.ofBytes_consistent _ _
      size := rfl }
  known := fun a _ j hj => ⟨_, Memory.ofBytes_hasByte a ⟨16, MemoryObject.sixteen_lt⟩ (fun _ => 0) hj⟩

theorem storeElement_outside : ¬SymBisect.Machine.Holds highObject 0x80#64 (PlainArray.numBytes storeElement.width) := by
  let _ : ExprOptions := .defaults
  exact storeElement_ready.outside_of_new

theorem storeElement_slot : (0 + 1) * storeElement.size ≤ highObject.size := by decide

/-- The pointer may be that of the first byte. -/
theorem elementPointer_mayEqual : MayEqual elementState.constraints elementPointer highObject (0 * storeElement.size) := by
  refine ⟨fun _ _ => 0, List.forall_mem_nil _, ?_⟩
  have hext := Expr.Denotes.zext (w := 64) 64 (symbolicByte_hasWidth 0) (symbolicByte_denotes 0 fun _ _ => 0)
  rw [Nat.zero_mul]
  exact (Expr.denotes_const 0x200000#64).bin ((symbolicByte_hasWidth 0).zext (by decide)) hext nofun

/-- The first byte stays 0, although the pointer may be its address. -/
theorem storeElement_not_storeUpdates :
    let _ : ExprOptions := ⟨false, true⟩
    let _ : APIntHash := ⟨fun _ => 0⟩
    ¬StoreUpdates elementEnv elementMachine 0 storeElement elementUCState.state.constraints elementPointer (.const 1#8)
      highObject := by
  intro _ _
  refine storeElement_ready.not_storeUpdates storeElement_outside (by decide) storeElement_slot elementPointer_mayEqual ?_
  rintro a ⟨v, hv, hbytes⟩
  obtain rfl : 1#8 = v := hv.value
  have hone := hbytes 0 (by decide)
  have hzero := Memory.ofBytes_hasByte a ⟨16, MemoryObject.sixteen_lt⟩ (fun _ => 0) (j := 0) (by decide)
  exact absurd (hone.unique (Memory.ofBytes_consistent _ _) hzero) (by decide)

theorem storeElement_storeUpdates_iff :
    let _ : ExprOptions := ⟨false, true⟩
    let _ : APIntHash := ⟨fun _ => 0⟩
    StoreUpdates elementEnv elementMachine 0 storeElement elementUCState.state.constraints elementPointer (.const 1#8)
        highObject ↔
      NoUpdateNeeded elementEnv.env.littleEndian storeElement elementUCState.state.constraints elementPointer (.const 1#8)
        highObject 0x80#64 (elementMachine.machine.contents 0 highObject) := by
  intro _ _
  exact storeUpdates_iff storeElement_ready

end UCListener

end SymBisect
