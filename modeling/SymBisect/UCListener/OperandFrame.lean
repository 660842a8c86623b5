import SymBisect.UCListener.PointerMaps

/-!
# What the hooks leave in the address operand

A load or store whose address is symbolic is executed at a concrete address; the hook after it looks the address up in
`map_address_symbolic` and puts the pointer that it finds there into the operand.  It does so for every address, whether or
not the hook before the instruction has rewritten the operand.

* `access_frame_iff`: when one load or store leaves its operand alone.
* `framed_iff`: the same for the loads and stores of a run.
-/

namespace SymBisect

open Lib Expr

namespace UCListener

/-- A load or store: its address operand, the type that the first hook looks at (a pointer for a load), and what the
instruction does to the state that goes on.  It writes memory, constraints and the register of its result. -/
structure Access where
  address : Operand
  ty : TypeID
  execute : UCState → UCState
  execute_maps : ∀ u, (execute u).state.pointerMaps = u.state.pointerMaps
  execute_address : ∀ u, (execute u).eval address = u.eval address

variable {memory : ℕ → MemoryObject} {u u' : UCState}

/-- The hook, the instruction and the hook after it. -/
def access (memory : ℕ → MemoryObject) (u : UCState) (x : Access) : Option UCState :=
  (symbolic_before memory u x.address x.ty).bind fun u => symbolic_after (x.execute u) x.address

/-- The reverse lookup of the address gives the pointer, or nothing where nothing was rewritten. -/
def Restored (u : UCState) (x : Access) : Prop :=
  ∀ base, u.eval x.address = some base →
    if base.isConstant then (u.state.map_address_symbolic base).getD base = base
    else
      match u.state.map_symbolic_address base with
      | some real_address => (u.state.map_address_symbolic real_address).getD real_address = base
      | none => x.ty = .integer ∨ x.ty = .pointer ∨ (u.state.map_address_symbolic base).getD base = base

/-! ### The operand -/

theorem eval_un_eval {op : Operand} {base : Expr} (h : u.eval op = some base) (value : Expr) :
    (u.un_eval op value).eval op = some value := by
  cases op with
  | const n => exact Function.update_self ..
  | reg n =>
    unfold UCState.eval at h
    unfold UCState.un_eval UCState.eval
    cases hstack : u.state.stack with
    | nil =>
      rw [hstack] at h
      cases h
    | cons sf rest => exact Function.update_self ..

/-- The second hook. -/
theorem eval_symbolic_after {op : Operand} {base : Expr} (h : u.eval op = some base) :
    ∃ u', symbolic_after u op = some u' ∧ u'.eval op = some ((u.state.map_address_symbolic base).getD base) := by
  unfold symbolic_after
  rw [h]
  show ∃ u', (match u.state.map_address_symbolic base with
    | some symbolic => some (u.un_eval op symbolic)
    | none => some u) = some u' ∧ _
  cases u.state.map_address_symbolic base with
  | none => exact ⟨u, rfl, h⟩
  | some symbolic => exact ⟨_, rfl, eval_un_eval h symbolic⟩

/-- The first hook: what it leaves in the operand, and in the reverse map at that address. -/
theorem eval_symbolic_before {op : Operand} {ty : TypeID} {base : Expr} (hbase : u.eval op = some base)
    (h : symbolic_before memory u op ty = some u') : ∃ address, u'.eval op = some address ∧
      ((u'.state.map_address_symbolic address).getD address = base ↔
        if base.isConstant then (u.state.map_address_symbolic base).getD base = base
        else
          match u.state.map_symbolic_address base with
          | some real_address => (u.state.map_address_symbolic real_address).getD real_address = base
          | none => ty = .integer ∨ ty = .pointer ∨ (u.state.map_address_symbolic base).getD base = base) := by
  unfold symbolic_before at h
  rw [hbase] at h
  change (if base.isConstant = true then some u else match u.state.map_symbolic_address base with
    | some real_address => some (u.un_eval op real_address)
    | none => if ty = .integer ∨ ty = .pointer then
        some (((u.create_mo memory).2.un_eval op (memory u.allocated).getBaseExpr).bindAddress base
          (memory u.allocated).getBaseExpr)
      else some u) = some u' at h
  by_cases hconst : base.isConstant = true
  · rw [if_pos hconst] at h ⊢
    obtain rfl := Option.some.inj h
    exact ⟨base, hbase, Iff.rfl⟩
  · rw [if_neg hconst] at h ⊢
    cases hbound : u.state.map_symbolic_address base with
    | some real_address =>
      rw [hbound] at h
      obtain rfl := Option.some.inj h
      refine ⟨real_address, eval_un_eval hbase real_address, ?_⟩
      have hmaps := congrArg PairedMap.bwd (pointerMaps_un_eval u op real_address)
      rw [show (u.un_eval op real_address).state.map_address_symbolic = u.state.map_address_symbolic from hmaps]
    | none =>
      rw [hbound] at h
      by_cases hty : ty = .integer ∨ ty = .pointer
      · rw [if_pos hty] at h
        obtain rfl := Option.some.inj h
        refine ⟨(memory u.allocated).getBaseExpr, ?_, iff_of_true ?_ (hty.imp_right .inl)⟩
        · exact eval_un_eval (u := (u.create_mo memory).2) hbase _
        · have hmap : (((u.create_mo memory).2.un_eval op (memory u.allocated).getBaseExpr).bindAddress base
              (memory u.allocated).getBaseExpr).state.map_address_symbolic (memory u.allocated).getBaseExpr = some base :=
            Function.update_self ..
          rw [hmap]
          rfl
      · rw [if_neg hty] at h
        obtain rfl := Option.some.inj h
        refine ⟨base, hbase, ?_⟩
        rw [← or_assoc, or_iff_right hty]

/-- **When a load or store leaves its operand alone.** -/
theorem access_frame_iff {x : Access} (h : access memory u x = some u') :
    u'.eval x.address = u.eval x.address ↔ Restored u x := by
  obtain ⟨u₁, hbefore, hafter⟩ := Option.bind_eq_some_iff.1 h
  cases hbase : u.eval x.address with
  | none =>
    unfold symbolic_before at hbefore
    rw [hbase] at hbefore
    cases hbefore
  | some base =>
    obtain ⟨address, haddress, hiff⟩ := eval_symbolic_before hbase hbefore
    have hexecuted : (x.execute u₁).eval x.address = some address := (x.execute_address u₁).trans haddress
    obtain ⟨u₂, hu₂, heval⟩ := eval_symbolic_after hexecuted
    obtain rfl : u₂ = u' := Option.some.inj (hu₂.symm.trans hafter)
    have hmaps : (x.execute u₁).state.map_address_symbolic = u₁.state.map_address_symbolic :=
      congrArg PairedMap.bwd (x.execute_maps u₁)
    rw [heval, hmaps, Option.some.injEq, hiff]
    unfold Restored
    rw [hbase]
    simp only [Option.some.injEq, forall_eq']

/-! ### Runs -/

section Run

variable [ExprOptions]

/-- A load or store, or another step. -/
inductive Event where
  | access (x : Access)
  | other (action : Action)

/-- A step of a run. -/
def eventStep (memory : ℕ → MemoryObject) (u : UCState) : Event → Option UCState
  | .access x => access memory u x
  | .other action => step memory u action

/-- A load or store leaves its operand alone. -/
def Framed : UCState × Event × UCState → Prop
  | (u, .access x, u') => u'.eval x.address = u.eval x.address
  | (_, .other _, _) => True

/-- What the maps have to be for a load or store. -/
def MapsRestore : UCState × Event × UCState → Prop
  | (u, .access x, _) => Restored u x
  | (_, .other _, _) => True

theorem transitions_eq (events : List Event) :
    ∀ t ∈ transitions (eventStep memory) u events, eventStep memory t.1 t.2.1 = some t.2.2 := by
  induction events generalizing u with
  | nil => exact fun t ht => absurd ht List.not_mem_nil
  | cons event events ih =>
    intro t ht
    rw [transitions] at ht
    cases hstep : eventStep memory u event with
    | none =>
      rw [hstep] at ht
      exact absurd ht List.not_mem_nil
    | some v =>
      rw [hstep] at ht
      obtain rfl | ht := List.mem_cons.1 ht
      · exact hstep
      · exact ih t ht

/-- **The operands of a run.**  From any state on, every load and store leaves its operand alone iff at each of them the
reverse map gives the pointer back. -/
theorem framed_iff (memory : ℕ → MemoryObject) (u : UCState) (events : List Event) :
    (∀ t ∈ transitions (eventStep memory) u events, Framed t) ↔
      ∀ t ∈ transitions (eventStep memory) u events, MapsRestore t := by
  refine forall₂_congr fun t ht => ?_
  have hstep := transitions_eq events t ht
  obtain ⟨v, event, v'⟩ := t
  cases event with
  | access x => exact access_frame_iff hstep
  | other action => exact Iff.rfl

end Run

/-! ### A load after `memset` -/

theorem eval_un_eval_of_ne {n m : ℕ} (h : n ≠ m) (u : UCState) (value : Expr) :
    (u.un_eval (.reg m) value).eval (.reg n) = u.eval (.reg n) := by
  unfold UCState.un_eval
  cases hstack : u.state.stack with
  | nil => rfl
  | cons sf rest =>
    show Function.update sf.locals m (some value) n = _
    rw [Function.update_of_ne h]
    unfold UCState.eval
    rw [hstack]

/-- A load through register 1 into register 2. -/
def loadRegister : Access where
  address := .reg 1
  ty := .pointer
  execute u := u.un_eval (.reg 2) (.const 0#64)
  execute_maps u := pointerMaps_un_eval u (.reg 2) (.const 0#64)
  execute_address u := eval_un_eval_of_ne (by decide) u (.const 0#64)

/-- `memset` through the pointer in register 1, and then a load through it. -/
def memsetThenLoad : List Event := [.other (.symbolic_before_call "memset" fun _ => .reg 1), .access loadRegister]

/-- Binding addresses leaves the registers alone. -/
theorem eval_bindFollowing [ExprOptions] (n : ℕ) (base address : Expr) (u : UCState) (op : Operand) :
    (bindFollowing n base address u).eval op = u.eval op := by
  induction n generalizing base address u with
  | zero => rfl
  | succ n ih =>
    rw [bindFollowing, ih]
    cases op with
    | const m => rfl
    | reg m => rfl

theorem eval_bindNewObject [ExprOptions] (memory : ℕ → MemoryObject) (u : UCState) (base : Expr) (size : UInt32)
    (op : Operand) : (bindNewObject memory u base size).2.eval op = u.eval op := by
  unfold bindNewObject
  rw [eval_bindFollowing]
  cases op with
  | const m => rfl
  | reg m => rfl

/-- After the `memset` the register holds the address of the object, and the reverse map has the pointer for it. -/
theorem memset_concretizes [ExprOptions] :
    ∃ u, eventStep spacedMemory insideFirst (.other (.symbolic_before_call "memset" fun _ => .reg 1)) = some u ∧
      u.eval (.reg 1) = some (spacedMemory 0).getBaseExpr ∧
      u.state.map_address_symbolic (spacedMemory 0).getBaseExpr = some symbolicPointer := by
  have hcreate : create_symaddr_object spacedMemory insideFirst symbolicPointer 4096 =
      some (bindNewObject spacedMemory insideFirst symbolicPointer 4096) := rfl
  have hargs : concretizedArguments "memset" = [(1, 4096)] := by decide
  have heval : insideFirst.eval (.reg 1) = some symbolicPointer := rfl
  have hfst : (bindNewObject spacedMemory insideFirst symbolicPointer 4096).1 = (spacedMemory 0).getBaseExpr := rfl
  have hconcretize : ∀ r, create_symaddr_object spacedMemory insideFirst symbolicPointer 4096 = some r →
      concretizeArguments spacedMemory insideFirst [(.reg 1, 4096)] = some (r.2.un_eval (.reg 1) r.1) := by
    intro r hr
    simp only [concretizeArguments, concretizeArgument, heval, hr, Option.bind_eq_bind, Option.bind_some, Option.pure_def]
  have hstep : eventStep spacedMemory insideFirst (.other (.symbolic_before_call "memset" fun _ => .reg 1)) =
      some ((bindNewObject spacedMemory insideFirst symbolicPointer 4096).2.un_eval (.reg 1)
        (bindNewObject spacedMemory insideFirst symbolicPointer 4096).1) := by
    show concretizeArguments spacedMemory insideFirst ((concretizedArguments "memset").map fun p => (.reg 1, p.2)) = _
    rw [hargs]
    exact hconcretize _ hcreate
  have hbound : (bindNewObject spacedMemory insideFirst symbolicPointer 4096).2.eval (.reg 1) = some symbolicPointer :=
    (eval_bindNewObject ..).trans heval
  have hinv : insideFirst.state.pointerMaps.Inverse := by
    simp [PairedMap.Inverse, insideFirst, ExecutionState.pointerMaps, ExecutionState.init, ExprMap.empty]
  have hkeeps : Keeps insideFirst (bindNewObject spacedMemory insideFirst symbolicPointer 4096).2 :=
    bindNewObject_keeps hinv symbolicPointer_hasWidth ⟨fun _ _ => 0, symbolicPointer_defined _⟩
      fun _ _ => ⟨fun _ h => absurd h.symm (Option.some_ne_none _), fun _ h => absurd h.symm (Option.some_ne_none _)⟩
  have hfwd : (bindNewObject spacedMemory insideFirst symbolicPointer 4096).2.state.pointerMaps.fwd symbolicPointer =
      some (spacedMemory 0).getBaseExpr := by
    rw [pointerMaps_bindNewObject]
    exact PairedMap.bindAll_fwd_of_mem (block_pairwise symbolicPointer_hasWidth ⟨fun _ _ => 0, symbolicPointer_defined _⟩
      (spacedMemory 0).getBaseExpr_hasWidth ⟨fun _ _ => 0, trivial⟩ 4096)
      (List.mem_map.2 ⟨0, List.mem_range.2 (by decide), rfl⟩)
  have hmap : ∀ (v : UCState) (address value : Expr), v.state.pointerMaps.bwd address = some symbolicPointer →
      (v.un_eval (.reg 1) value).state.map_address_symbolic address = some symbolicPointer := by
    intro v address value h
    exact (congrFun (congrArg PairedMap.bwd (pointerMaps_un_eval v (.reg 1) value)) address).trans h
  refine ⟨_, hstep, ?_, hmap _ _ _ ((hkeeps.1 _ _).1 hfwd)⟩
  rw [eval_un_eval hbound, hfst]

/-- The load puts the symbolic pointer into the register, which held a concrete address. -/
theorem memsetThenLoad_not_framed :
    let _ : ExprOptions := ⟨false, true⟩
    ¬∀ t ∈ transitions (eventStep spacedMemory) insideFirst memsetThenLoad, Framed t := by
  intro _ hframed
  obtain ⟨u, hmemset, heval, hmap⟩ := memset_concretizes
  have hbefore : symbolic_before spacedMemory u (.reg 1) .pointer = some u := by
    unfold symbolic_before
    rw [heval]
    rfl
  have hexecuted : (loadRegister.execute u).eval (.reg 1) = some (spacedMemory 0).getBaseExpr :=
    (loadRegister.execute_address u).trans heval
  obtain ⟨u', hafter, -⟩ := eval_symbolic_after hexecuted
  have hload : eventStep spacedMemory u (.access loadRegister) = some u' := by
    show (symbolic_before spacedMemory u (.reg 1) .pointer).bind _ = _
    rw [hbefore]
    exact hafter
  have hmem : (u, Event.access loadRegister, u') ∈ transitions (eventStep spacedMemory) insideFirst memsetThenLoad := by
    unfold memsetThenLoad
    rw [transitions, hmemset]
    show _ ∈ _ :: transitions _ u _
    rw [transitions, hload]
    exact List.mem_cons_of_mem _ List.mem_cons_self
  have hrestored : Restored u loadRegister := (access_frame_iff hload).1 (hframed _ hmem)
  have hconst : (spacedMemory 0).getBaseExpr.isConstant = true := rfl
  have hback := hrestored _ heval
  rw [if_pos hconst, hmap] at hback
  exact Expr.noConfusion hback

end UCListener

end SymBisect
