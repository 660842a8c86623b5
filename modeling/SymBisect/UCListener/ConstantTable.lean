import SymBisect.UCListener.SymbolicPointer
import SymBisect.Lib.Run

/-!
# The constant table over a run

`Executor::un_eval` hands out a writable cell: a register of the innermost frame, or, when the operand is a constant, the
cell of `kmodule->constantTable` that every state reads for that constant.  The hooks of `UCListener` before and after an
instruction, `PathListener` at an indirect call and the model of `user_path_at` write through it.

* Loads and stores are not rewritten when the address is a constant, and the argument of a modelled function is replaced
  by itself, so these hooks never change a constant.
* The hooks after a load and a store and before a comparison look a constant up in `map_address_symbolic`, the redirection
  of an indirect call and `user_path_at` write without looking: these change the constant of the module.

`constants_kept_iff` says that a run keeps the table iff each of its steps does.  The states are known by their pointers;
what else the executor does is any change of the states.
-/

namespace SymBisect.UCListener

open Lib

/-- `bindModuleConstants`: every cell holds a `ConstantExpr`. -/
def bindModuleConstants (constants : List (Σ w, BitVec w)) (n : ℕ) : Option Expr :=
  constants[n]?.map fun c => .const c.2

/-- What the hooks take from outside: the objects of the memory manager, the entries of the configuration for indirect
calls, and the addresses of the functions of the module. -/
structure Setup where
  memory : ℕ → MemoryObject
  indirectcall_map : String → Option String
  getFunction : String → Option (BitVec pointerWidth)

/-- A place where an operand may be rewritten. -/
inductive Hook where
  | symbolic_before_load (address : Operand)
  | symbolic_after_load (address : Operand)
  | symbolic_before_store (address : Operand) (valueType : TypeID)
  | symbolic_after_store (address : Operand)
  | beforeICmp (left right : Operand)
  | symbolic_before_call (name : String) (operands : ℕ → Operand)
  | pickCallee (line : String) (callee : Operand)
  | handleUser_path_at (path : Operand) (dest : ℕ)

/-- Replace an operand by the symbolic pointer of its value. -/
def restoreSymbolic (u : UCState) (op : Operand) (value : Expr) : UCState :=
  match u.state.map_address_symbolic value with
  | some symbolic_pointer => u.un_eval op symbolic_pointer
  | none => u

/-- The `ICmp` case of `beforeExecuteInstruction`, for `ICMP_EQ` and `ICMP_NE`. -/
def beforeICmp (u : UCState) (left right : Operand) : Option UCState := do
  let leftValue ← u.eval left
  let rightValue ← u.eval right
  pure (restoreSymbolic (restoreSymbolic u right rightValue) left leftValue)

/-- The `Call` case of `PathListener::beforeExecuteInstruction` for a call whose target is not known; `line` is the
simplified line of the call.  A function that is not in the module halts the execution. -/
def pickCallee (setup : Setup) (u : UCState) (line : String) (callee : Operand) : UCState :=
  match (setup.indirectcall_map line).bind setup.getFunction with
  | some f_address => u.un_eval callee (.const f_address)
  | none => u

/-- `handleUser_path_at`: the operand of the fourth argument is replaced by a new object, and the call returns 0. -/
def handleUser_path_at (setup : Setup) (u : UCState) (path : Operand) (dest : ℕ) : UCState :=
  let (mo, u) := u.create_mo setup.memory
  (u.un_eval path mo.getBaseExpr).un_eval (.reg dest) (.const 0#32)

/-- The states of a run and what they share. -/
structure Machine where
  states : ℕ → Option ExecutionState
  constantTable : ℕ → Option Expr
  allocated : ℕ

/-- A hook for a state, or other work of the executor. -/
inductive MachineAction where
  | hook (p : ℕ) (h : Hook)
  | execute (states : ℕ → Option ExecutionState) (allocated : ℕ)

/-- The machine at the start of a run. -/
def Machine.start (constants : List (Σ w, BitVec w)) (states : ℕ → Option ExecutionState) (allocated : ℕ) : Machine :=
  ⟨states, bindModuleConstants constants, allocated⟩

/-- A state as the hooks see it. -/
def Machine.view (m : Machine) (p : ℕ) : Option UCState :=
  (m.states p).map fun state => ⟨state, m.constantTable, m.allocated⟩

section

variable [ExprOptions]

/-- One hook. -/
def Hook.run (setup : Setup) (u : UCState) : Hook → Option UCState
  | .symbolic_before_load address => UCListener.symbolic_before_load setup.memory u address
  | .symbolic_after_load address => UCListener.symbolic_after_load u address
  | .symbolic_before_store address valueType => UCListener.symbolic_before_store setup.memory u address valueType
  | .symbolic_after_store address => UCListener.symbolic_after_store u address
  | .beforeICmp left right => UCListener.beforeICmp u left right
  | .symbolic_before_call name operands => UCListener.symbolic_before_call setup.memory u name operands
  | .pickCallee line callee => some (UCListener.pickCallee setup u line callee)
  | .handleUser_path_at path dest => some (UCListener.handleUser_path_at setup u path dest)

/-- One step of a run. -/
def Machine.step (setup : Setup) (m : Machine) : MachineAction → Option Machine
  | .hook p h =>
    (m.view p).bind fun u => (h.run setup u).map fun u =>
      ⟨Function.update m.states p (some u.state), u.constantTable, u.allocated⟩
  | .execute states allocated => some ⟨states, m.constantTable, allocated⟩

end

/-! ### What a hook may write -/

/-- If the operand is a constant, the constant is this value. -/
def Same (u : UCState) (op : Operand) (value : Expr) : Prop := ∀ n, op = .const n → u.constantTable n = some value

/-- If the operand is a constant, its value is not the address of a symbolic pointer (or stands for itself). -/
def Unmapped (u : UCState) (op : Operand) : Prop :=
  ∀ value symbolic_pointer, u.eval op = some value →
    u.state.map_address_symbolic value = some symbolic_pointer → Same u op symbolic_pointer

/-- The hook writes no other value into a constant. -/
def Hook.Keeps (setup : Setup) (u : UCState) : Hook → Prop
  | .symbolic_before_load _ | .symbolic_before_store _ _ | .symbolic_before_call _ _ => True
  | .symbolic_after_load address | .symbolic_after_store address => Unmapped u address
  | .beforeICmp left right => Unmapped u left ∧ Unmapped u right
  | .pickCallee line callee =>
    ∀ f_address, (setup.indirectcall_map line).bind setup.getFunction = some f_address → Same u callee (.const f_address)
  | .handleUser_path_at path _ => Same u path (setup.memory u.allocated).getBaseExpr

/-- The step writes no other value into a constant. -/
def MachineAction.Keeps (setup : Setup) (m : Machine) : MachineAction → Prop
  | .hook p h => ∀ u, m.view p = some u → h.Keeps setup u
  | .execute _ _ => True

section Table

variable {setup : Setup} {u u' : UCState} {op : Operand} {value : Expr}

theorem constantTable_un_eval_iff : (u.un_eval op value).constantTable = u.constantTable ↔ Same u op value := by
  cases op with
  | const n =>
    show Function.update u.constantTable n (some value) = u.constantTable ↔ _
    rw [Function.update_eq_self_iff, eq_comm]
    constructor
    · intro h k hk
      cases hk
      exact h
    · intro h
      exact h n rfl
  | reg n =>
    refine iff_of_true ?_ ?_
    · unfold UCState.un_eval
      cases u.state.stack with
      | nil => rfl
      | cons sf rest => rfl
    · intro k hk
      cases hk

theorem restoreSymbolic_iff (h : u.eval op = some value) :
    (restoreSymbolic u op value).constantTable = u.constantTable ↔ Unmapped u op := by
  unfold restoreSymbolic
  split
  · rename_i symbolic hmap
    rw [constantTable_un_eval_iff]
    constructor
    · intro hsame v s hv hs
      rw [h] at hv
      cases hv
      rw [hmap] at hs
      cases hs
      exact hsame
    · intro hun
      exact hun value symbolic h hmap
  · rename_i hmap
    refine iff_of_true rfl ?_
    intro v s hv hs
    rw [h] at hv
    cases hv
    rw [hmap] at hs
    cases hs

theorem symbolic_after_iff {address : Operand} (h : symbolic_after u address = some u') :
    u'.constantTable = u.constantTable ↔ Unmapped u address := by
  obtain ⟨base, hbase, h⟩ := Option.bind_eq_some_iff.1 h
  have hu : u' = restoreSymbolic u address base := by
    rw [restoreSymbolic]
    cases hmap : u.state.map_address_symbolic base with
    | some symbolic_pointer =>
      rw [hmap] at h
      cases h
      rfl
    | none =>
      rw [hmap] at h
      cases h
      rfl
  rw [hu, restoreSymbolic_iff hbase]

/-- A constant that has been replaced is still replaced after the other operand of a comparison. -/
theorem restoreSymbolic_const {n : ℕ} {symbolic_pointer otherValue : Expr} {other : Operand}
    (hn : u.constantTable n = some symbolic_pointer)
    (hother : other = .const n → u.state.map_address_symbolic otherValue = some symbolic_pointer) :
    (restoreSymbolic u other otherValue).constantTable n = some symbolic_pointer := by
  unfold restoreSymbolic
  split
  · rename_i s hs
    cases other with
    | const k =>
      show Function.update u.constantTable k (some s) n = some symbolic_pointer
      by_cases hk : n = k
      · subst hk
        rw [hother rfl] at hs
        cases hs
        rw [Function.update_self]
      · rw [Function.update_of_ne hk, hn]
    | reg k =>
      have hreg : (u.un_eval (.reg k) s).constantTable = u.constantTable :=
        constantTable_un_eval_iff.2 fun j hj => by cases hj
      rw [hreg, hn]
  · exact hn

/-- Only the registers and the table change. -/
theorem map_address_symbolic_un_eval :
    (u.un_eval op value).state.map_address_symbolic = u.state.map_address_symbolic := by
  cases op with
  | const n => rfl
  | reg n =>
    unfold UCState.un_eval
    cases u.state.stack with
    | nil => rfl
    | cons sf rest => rfl

theorem map_address_symbolic_restoreSymbolic :
    (restoreSymbolic u op value).state.map_address_symbolic = u.state.map_address_symbolic := by
  unfold restoreSymbolic
  split
  · exact map_address_symbolic_un_eval
  · rfl

theorem beforeICmp_iff {left right : Operand} (h : beforeICmp u left right = some u') :
    u'.constantTable = u.constantTable ↔ Unmapped u left ∧ Unmapped u right := by
  obtain ⟨leftValue, hl, h⟩ := Option.bind_eq_some_iff.1 h
  obtain ⟨rightValue, hr, h⟩ := Option.bind_eq_some_iff.1 h
  cases h
  constructor
  · intro htable
    refine ⟨?_, ?_⟩
    -- the left operand is written last
    · intro value s hv hs n hn
      rw [hl] at hv
      cases hv
      rw [← htable, restoreSymbolic, map_address_symbolic_restoreSymbolic, hs, hn]
      exact Function.update_self ..
    · intro value s hv hs n hn
      rw [hr] at hv
      cases hv
      rw [← htable]
      refine restoreSymbolic_const ?_ ?_
      · rw [restoreSymbolic, hs, hn]
        exact Function.update_self ..
      · intro hleft
        rw [map_address_symbolic_restoreSymbolic]
        rw [hleft] at hl
        rw [hn] at hr
        rw [hr] at hl
        cases hl
        exact hs
  · rintro ⟨hleft, hright⟩
    have h₁ := (restoreSymbolic_iff hr).2 hright
    generalize hu : restoreSymbolic u right rightValue = u₁ at h₁ ⊢
    have hmap : u₁.state.map_address_symbolic = u.state.map_address_symbolic := by
      rw [← hu]
      exact map_address_symbolic_restoreSymbolic
    rw [← h₁, restoreSymbolic, hmap]
    cases hs : u.state.map_address_symbolic leftValue with
    | some s =>
      refine constantTable_un_eval_iff.2 ?_
      intro n hn
      rw [h₁]
      exact hleft leftValue s hl hs n hn
    | none => rfl

/-- Every constant of the table is a constant expression. -/
def AllConstant (table : ℕ → Option Expr) : Prop := ∀ n value, table n = some value → value.isConstant = true

theorem allConstant_bindModuleConstants (constants : List (Σ w, BitVec w)) :
    AllConstant (bindModuleConstants constants) := by
  intro n value h
  obtain ⟨c, -, rfl⟩ := Option.map_eq_some_iff.1 h
  rfl

/-- An operand with a symbolic value is a register. -/
theorem same_of_symbolic (hall : AllConstant u.constantTable) {base : Expr} (hbase : u.eval op = some base)
    (hsym : ¬ base.isConstant = true) (value : Expr) : Same u op value := by
  intro n hn
  subst hn
  exact absurd (hall n base hbase) hsym

theorem symbolic_before_constantTable {memory : ℕ → MemoryObject} {address : Operand} {ty : TypeID}
    (hall : AllConstant u.constantTable) (h : symbolic_before memory u address ty = some u') :
    u'.constantTable = u.constantTable := by
  obtain ⟨base, hbase, h⟩ := Option.bind_eq_some_iff.1 h
  split at h
  · cases h
    rfl
  rename_i hsym
  split at h
  · cases h
    exact constantTable_un_eval_iff.2 (same_of_symbolic hall hbase hsym _)
  simp only [find_equalsymaddr, Bool.false_eq_true, if_false] at h
  split at h
  · cases h
    show ((u.create_mo memory).2.un_eval address _).constantTable = (u.create_mo memory).2.constantTable
    refine constantTable_un_eval_iff.2 ?_
    intro n hn
    exact same_of_symbolic hall hbase hsym _ n hn
  · cases h
    rfl

variable [ExprOptions]

theorem bindFollowing_constantTable (n : ℕ) (base address : Expr) (u : UCState) :
    (bindFollowing n base address u).constantTable = u.constantTable := by
  induction n generalizing base address u with
  | zero => rfl
  | succ n ih =>
    rw [bindFollowing, ih]
    rfl

theorem bindNewObject_constantTable (memory : ℕ → MemoryObject) (u : UCState) (base : Expr) (size : UInt32) :
    (bindNewObject memory u base size).2.constantTable = u.constantTable := by
  unfold bindNewObject
  rw [bindFollowing_constantTable]
  rfl

theorem create_symaddr_object_constantTable {memory : ℕ → MemoryObject} {base address : Expr} {size : UInt32}
    (h : create_symaddr_object memory u base size = some (address, u')) :
    u'.constantTable = u.constantTable ∧ (base.isConstant = true → address = base) := by
  unfold create_symaddr_object at h
  split at h
  · cases h
    exact ⟨rfl, fun _ => rfl⟩
  rename_i hsym
  refine ⟨?_, fun hc => absurd hc hsym⟩
  split at h
  · obtain ⟨addr, -, h⟩ := Option.bind_eq_some_iff.1 h
    split at h
    · cases h
      rfl
    · have hu : u' = (bindNewObject memory (u.eraseAddress base) base size).2 :=
        (congrArg Prod.snd (Option.some.inj h)).symm
      rw [hu, bindNewObject_constantTable]
      rfl
  · have hu : u' = (bindNewObject memory u base size).2 := (congrArg Prod.snd (Option.some.inj h)).symm
    rw [hu, bindNewObject_constantTable]

theorem concretizeArgument_constantTable {memory : ℕ → MemoryObject} {arg : Operand} {size : UInt32}
    (hall : AllConstant u.constantTable) (h : concretizeArgument memory u arg size = some u') :
    u'.constantTable = u.constantTable := by
  obtain ⟨base, hbase, h⟩ := Option.bind_eq_some_iff.1 h
  obtain ⟨⟨address, u₁⟩, hcreate, h⟩ := Option.bind_eq_some_iff.1 h
  cases h
  obtain ⟨htable, haddr⟩ := create_symaddr_object_constantTable hcreate
  rw [← htable]
  refine constantTable_un_eval_iff.2 ?_
  intro n hn
  subst hn
  rw [htable, haddr (hall n base hbase)]
  exact hbase

theorem concretizeArguments_constantTable {memory : ℕ → MemoryObject} {args : List (Operand × UInt32)}
    (hall : AllConstant u.constantTable) (h : concretizeArguments memory u args = some u') :
    u'.constantTable = u.constantTable := by
  induction args generalizing u with
  | nil =>
    cases h
    rfl
  | cons p args ih =>
    obtain ⟨u₁, h₁, h₂⟩ := Option.bind_eq_some_iff.1 h
    have htable := concretizeArgument_constantTable hall h₁
    rw [← htable] at hall ⊢
    exact ih hall h₂

/-! ### The table over a run -/

/-- **One hook** keeps the table iff it writes no other value into a constant. -/
theorem hook_keeps_iff {h : Hook} (hall : AllConstant u.constantTable) (hrun : h.run setup u = some u') :
    u'.constantTable = u.constantTable ↔ h.Keeps setup u := by
  cases h with
  | symbolic_before_load address => exact iff_of_true (symbolic_before_constantTable hall hrun) trivial
  | symbolic_before_store address ty => exact iff_of_true (symbolic_before_constantTable hall hrun) trivial
  | symbolic_before_call name operands => exact iff_of_true (concretizeArguments_constantTable hall hrun) trivial
  | symbolic_after_load address => exact symbolic_after_iff hrun
  | symbolic_after_store address => exact symbolic_after_iff hrun
  | beforeICmp left right => exact beforeICmp_iff hrun
  | pickCallee line callee =>
    cases hrun
    rw [Hook.Keeps, pickCallee]
    generalize (setup.indirectcall_map line).bind setup.getFunction = found
    cases found with
    | none =>
      refine iff_of_true rfl ?_
      intro f hf
      cases hf
    | some f =>
      rw [constantTable_un_eval_iff]
      constructor
      · intro hsame f' hf'
        cases hf'
        exact hsame
      · intro hsame
        exact hsame f rfl
  | handleUser_path_at path dest =>
    cases hrun
    have hdest : ∀ v : UCState, (v.un_eval (.reg dest) (.const 0#32)).constantTable = v.constantTable := fun v =>
      constantTable_un_eval_iff.2 fun n hn => by cases hn
    unfold handleUser_path_at
    rw [hdest]
    exact constantTable_un_eval_iff (u := (u.create_mo setup.memory).2)

/-- What every state reads for a constant is what the module has for it. -/
def Machine.ConstantsKept (constants : List (Σ w, BitVec w)) (m : Machine) : Prop :=
  m.constantTable = bindModuleConstants constants ∧
    ∀ p u, m.view p = some u → ∀ n, u.eval (.const n) = bindModuleConstants constants n

omit [ExprOptions] in
theorem constantsKept_iff {constants : List (Σ w, BitVec w)} {m : Machine} :
    m.ConstantsKept constants ↔ m.constantTable = bindModuleConstants constants := by
  refine ⟨fun h => h.1, fun h => ⟨h, ?_⟩⟩
  intro p u hu n
  obtain ⟨state, -, rfl⟩ := Option.map_eq_some_iff.1 hu
  show m.constantTable n = _
  rw [h]

/-- One step keeps the constants iff it writes no other value into one. -/
theorem step_kept_iff {constants : List (Σ w, BitVec w)} {m m' : Machine} {a : MachineAction}
    (hm : m.ConstantsKept constants) (h : m.step setup a = some m') :
    m'.ConstantsKept constants ↔ a.Keeps setup m := by
  rw [constantsKept_iff] at hm ⊢
  cases a with
  | hook p hook =>
    obtain ⟨u, hu, h⟩ := Option.bind_eq_some_iff.1 h
    obtain ⟨u', hrun, rfl⟩ := Option.map_eq_some_iff.1 h
    have hut : u.constantTable = bindModuleConstants constants := by
      obtain ⟨state, -, rfl⟩ := Option.map_eq_some_iff.1 hu
      exact hm
    have hall : AllConstant u.constantTable := by
      rw [hut]
      exact allConstant_bindModuleConstants constants
    show u'.constantTable = bindModuleConstants constants ↔ ∀ u, m.view p = some u → hook.Keeps setup u
    rw [← hut, hook_keeps_iff hall hrun, hu]
    constructor
    · intro hk v hv
      cases hv
      exact hk
    · intro hk
      exact hk u rfl
  | execute states allocated =>
    cases h
    exact iff_of_true hm trivial

/-- **The constants over a run.**  A run keeps the constants of the module, for every state, in every machine it reaches
iff none of its steps writes another value into one. -/
theorem constants_kept_iff (setup : Setup) (constants : List (Σ w, BitVec w)) (states : ℕ → Option ExecutionState)
    (allocated : ℕ) (actions : List MachineAction) :
    (∀ x ∈ transitions (Machine.step setup) (Machine.start constants states allocated) actions,
      x.2.2.ConstantsKept constants) ↔
    ∀ x ∈ transitions (Machine.step setup) (Machine.start constants states allocated) actions,
      x.2.1.Keeps setup x.1 :=
  transitions_invariant_iff (fun _ _ _ hm h => step_kept_iff hm h) (constantsKept_iff.2 rfl) actions

end Table

/-! ### A global whose cell is overwritten -/

/-- The object that the model of `user_path_at` makes. -/
def pathObject : MemoryObject :=
  ⟨0x200000#64, 16, none, MemoryObject.sixteen_lt, MemoryObject.sixteen_le, MemoryObject.symsize_none⟩

/-- Nothing is configured. -/
def plainSetup : Setup := ⟨fun _ => pathObject, fun _ => none, fun _ => none⟩

/-- The module has the address of a global among its constants; two states run. -/
def globalStart : Machine :=
  Machine.start [⟨64, 0x1000#64⟩] (fun p => if p < 2 then some (.init "main" 0 p) else none) 0

/-- State 0 calls `user_path_at` with the global as its fourth argument.  State 1 reads the address of the new object for
the global from then on. -/
theorem userPath_overwrites :
    let _ : ExprOptions := ⟨false, true⟩
    (globalStart.view 1).bind (·.eval (.const 0)) = some (.const 0x1000#64) ∧
      ∃ m, globalStart.step plainSetup (.hook 0 (.handleUser_path_at (.const 0) 3)) = some m ∧
        (m.view 1).bind (·.eval (.const 0)) = some (.const 0x200000#64) ∧ ¬ m.ConstantsKept [⟨64, 0x1000#64⟩] := by
  intro _
  refine ⟨rfl, _, rfl, rfl, ?_⟩
  intro h
  have hexpr : Expr.const 0x200000#64 = Expr.const 0x1000#64 := Option.some.inj (congrFun h.1 0)
  exact absurd hexpr (by decide)

end SymBisect.UCListener
