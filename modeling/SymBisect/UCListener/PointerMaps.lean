import SymBisect.UCListener.SymbolicPointer
import SymBisect.Lib.Run

/-!
# The pointer maps over a run

When do `map_symbolic_address` and `map_address_symbolic` stay inverse to each other, and when does a
pointer keep its address?

`create_symaddr_object` binds `size` consecutive pointers without looking at what they are bound to.
Binding a block keeps the maps inverse and keeps the older bindings when every pair of the block fits
(`Lib.PairedMap.Fits`): the pointer is unbound or bound to that very address, and the address is
unused or used by that very pointer.  A pair that does not fit occurs when

* a pointer inside the block was dereferenced before the base was;
* the object of the base is gone, so that the base is bound a second time (its old address stays in
  `map_address_symbolic`);
* the memory manager reuses an address of an object that is gone.
-/

namespace SymBisect

open Lib Expr

namespace UCListener

section Block

variable [ExprOptions]

/-- `e` after `i` rounds of the loop: `e + 1 + … + 1`. -/
def addOnes (e : Expr) : ℕ → Expr
  | 0 => e
  | i + 1 => addOnes (addOne e) i

/-- The pairs that `create_symaddr_object` binds for an object of `size` bytes. -/
def block (base address : Expr) (size : UInt32) : List (Expr × Expr) :=
  (List.range (size.toNat - 1 + 1)).map fun i => (addOnes base i, addOnes address i)

theorem addOne_computes {e : Expr} (h : e.HasWidth pointerWidth) :
    e.Computes₁ (fun x : BitVec pointerWidth => x + 1#64) (addOne e) := by
  have hadd := AddExpr.create_computes h (hasWidth_const (1#64))
  exact ⟨hadd.hasWidth, fun d => hadd.denotes d (denotes_const _) nofun⟩

theorem addOnes_denotes {e : Expr} (h : e.HasWidth pointerWidth) {a : Assignment}
    {v : BitVec pointerWidth} (d : e.Denotes a v) (i : ℕ) :
    (addOnes e i).Denotes a (v + BitVec.ofNat pointerWidth i) := by
  induction i generalizing e v with
  | zero => simpa [addOnes] using d
  | succ i ih =>
    have hone := addOne_computes h
    have hi := ih hone.hasWidth (hone.denotes d)
    have hval : v + 1#64 + BitVec.ofNat pointerWidth i =
        v + BitVec.ofNat pointerWidth (i + 1) := by
      rw [BitVec.add_assoc, Nat.add_comm i 1, BitVec.ofNat_add]
    rw [hval] at hi
    exact hi

/-- Addresses less than `2 ^ 64` apart are different expressions. -/
theorem addOnes_ne {e : Expr} (h : e.HasWidth pointerWidth) (hd : ∃ a, e.Defined a) {i j : ℕ}
    (hi : i < 2 ^ pointerWidth) (hj : j < 2 ^ pointerWidth) (hij : i ≠ j) :
    addOnes e i ≠ addOnes e j := by
  obtain ⟨a, ha⟩ := hd
  intro heq
  have di := addOnes_denotes h (.self ha pointerWidth) i
  have dj := addOnes_denotes h (.self ha pointerWidth) j
  rw [heq] at di
  have hval := congrArg BitVec.toNat (add_left_cancel (di.value.symm.trans dj.value))
  rw [BitVec.toNat_ofNat, BitVec.toNat_ofNat, Nat.mod_eq_of_lt hi, Nat.mod_eq_of_lt hj] at hval
  exact hij hval

theorem block_pairwise {base address : Expr} (hb : base.HasWidth pointerWidth)
    (hbd : ∃ a, base.Defined a) (ha : address.HasWidth pointerWidth) (had : ∃ a, address.Defined a)
    (size : UInt32) :
    (block base address size).Pairwise fun p q => p.1 ≠ q.1 ∧ p.2 ≠ q.2 := by
  have hsize := size.toNat_lt
  refine List.pairwise_map.2 ((List.pairwise_lt_range (n := size.toNat - 1 + 1)).imp_of_mem ?_)
  intro i j hi hj hij
  have hj' := List.mem_range.1 hj
  have hjlt : j < 2 ^ pointerWidth := by
    simp only [pointerWidth]
    omega
  exact ⟨addOnes_ne hb hbd (hij.trans hjlt) hjlt hij.ne,
    addOnes_ne ha had (hij.trans hjlt) hjlt hij.ne⟩

theorem pointerMaps_bindFollowing (n : ℕ) (base address : Expr) (u : UCState) :
    (bindFollowing n base address u).state.pointerMaps =
      u.state.pointerMaps.bindAll
        ((List.range n).map fun i => (addOnes base (i + 1), addOnes address (i + 1))) := by
  induction n generalizing base address u with
  | zero => rfl
  | succ n ih =>
    rw [bindFollowing, ih, List.range_succ_eq_map, List.map_cons, List.map_map]
    rfl

/-- Making an object binds its block. -/
theorem pointerMaps_bindNewObject (memory : ℕ → MemoryObject) (u : UCState) (base : Expr)
    (size : UInt32) :
    (bindNewObject memory u base size).2.state.pointerMaps =
      u.state.pointerMaps.bindAll (block base (memory u.allocated).getBaseExpr size) := by
  unfold bindNewObject block
  rw [pointerMaps_bindFollowing, List.range_succ_eq_map, List.map_cons, List.map_map]
  rfl

end Block

/-! ### The steps of a run -/

/-- What happens to a state: a hook of the listener, or other work of the executor and of the listeners,
which leaves the pointer maps alone. -/
inductive Action where
  | symbolic_before_load (address : Operand)
  | symbolic_after_load (address : Operand)
  | symbolic_before_store (address : Operand) (valueType : TypeID)
  | symbolic_after_store (address : Operand)
  | symbolic_before_call (name : String) (operands : ℕ → Operand)
  | execute (stack : List StackFrame) (addressSpace : AddressSpace) (constraints : ConstraintSet)
      (constantTable : ℕ → Option Expr)

section Run

variable {memory : ℕ → MemoryObject} {u u' : UCState}

/-- The maps of `u'` are inverse and keep every binding of `u`. -/
def Keeps (u u' : UCState) : Prop :=
  u'.state.pointerMaps.Inverse ∧ u.state.pointerMaps.Extends u'.state.pointerMaps

theorem Keeps.of_eq (h : u.state.pointerMaps.Inverse)
    (heq : u'.state.pointerMaps = u.state.pointerMaps) : Keeps u u' := by
  unfold Keeps
  rw [heq]
  exact ⟨h, .refl _⟩

theorem pointerMaps_un_eval (u : UCState) (op : Operand) (value : Expr) :
    (u.un_eval op value).state.pointerMaps = u.state.pointerMaps := by
  cases op with
  | const n => rfl
  | reg n =>
    unfold UCState.un_eval
    cases u.state.stack with
    | nil => rfl
    | cons sf rest => rfl

/-- A load or store through `address` binds its pointer to an unused address, if it binds it. -/
def CleanBefore (memory : ℕ → MemoryObject) (u : UCState) (address : Operand) (ty : TypeID) : Prop :=
  ∀ base, u.eval address = some base → base.isConstant = false →
    u.state.map_symbolic_address base = none → ty = .integer ∨ ty = .pointer →
    u.state.pointerMaps.Fits base (memory u.allocated).getBaseExpr

/-- What a hook before a load or a store does to the maps: nothing, or it binds the pointer to a new object. -/
theorem symbolic_before_maps {address : Operand} {ty : TypeID} (h : symbolic_before memory u address ty = some u') :
    u'.state.pointerMaps = u.state.pointerMaps ∨ ∃ base, u.eval address = some base ∧ base.isConstant = false ∧
      u.state.map_symbolic_address base = none ∧ (ty = .integer ∨ ty = .pointer) ∧
      u'.state.pointerMaps = u.state.pointerMaps.bind base (memory u.allocated).getBaseExpr := by
  obtain ⟨base, hbase, h⟩ := Option.bind_eq_some_iff.1 h
  split at h
  · cases h
    exact .inl rfl
  rename_i hconst
  split at h
  · cases h
    exact .inl (pointerMaps_un_eval ..)
  rename_i hnone
  simp only [find_equalsymaddr, Bool.false_eq_true, if_false] at h
  split at h
  · rename_i hty
    cases h
    refine .inr ⟨base, hbase, Bool.eq_false_iff.2 hconst, hnone, hty, ?_⟩
    have hun := pointerMaps_un_eval (u.create_mo memory).2 address (memory u.allocated).getBaseExpr
    exact congrArg (fun m : PairedMap Expr Expr => m.bind base (memory u.allocated).getBaseExpr) hun
  · cases h
    exact .inl rfl

theorem symbolic_before_keeps {address : Operand} {ty : TypeID} (hinv : u.state.pointerMaps.Inverse)
    (hclean : CleanBefore memory u address ty) (h : symbolic_before memory u address ty = some u') :
    Keeps u u' := by
  obtain heq | ⟨base, hbase, hconst, hnone, hty, hmaps⟩ := symbolic_before_maps h
  · exact .of_eq hinv heq
  · have hfits := hclean base hbase hconst hnone hty
    unfold Keeps
    exact hmaps ▸ ⟨PairedMap.bind_inverse hinv hfits, PairedMap.bind_extends hfits⟩

theorem symbolic_after_maps {address : Operand} (h : symbolic_after u address = some u') :
    u'.state.pointerMaps = u.state.pointerMaps := by
  obtain ⟨base, -, h⟩ := Option.bind_eq_some_iff.1 h
  split at h
  · cases h
    exact pointerMaps_un_eval ..
  · cases h
    rfl

variable [ExprOptions]

/-- One step of a run. -/
def step (memory : ℕ → MemoryObject) (u : UCState) : Action → Option UCState
  | .symbolic_before_load address => UCListener.symbolic_before_load memory u address
  | .symbolic_after_load address => UCListener.symbolic_after_load u address
  | .symbolic_before_store address valueType =>
    UCListener.symbolic_before_store memory u address valueType
  | .symbolic_after_store address => UCListener.symbolic_after_store u address
  | .symbolic_before_call name operands => UCListener.symbolic_before_call memory u name operands
  | .execute stack addressSpace constraints constantTable =>
    some { u with
      state := { u.state with stack := stack, addressSpace := addressSpace, constraints := constraints }
      constantTable := constantTable }

/-- `create_symaddr_object` makes an object for `base`: it is symbolic, and no bound object holds its
address. -/
def MakesObject (u : UCState) (base : Expr) : Prop :=
  base.isConstant = false ∧ ∀ address addr, u.state.map_symbolic_address base = some address →
    constantAddress address = some addr → u.state.addressSpace.resolveOne addr = none

/-- The block that is bound for the argument, if one is, fits pair by pair.  Its base is a pointer that
has a value. -/
def CleanArgument (memory : ℕ → MemoryObject) (u : UCState) (arg : Operand) (size : UInt32) : Prop :=
  ∀ base, u.eval arg = some base → MakesObject u base →
    base.HasWidth pointerWidth ∧ (∃ a, base.Defined a) ∧
      ∀ p ∈ block base (memory u.allocated).getBaseExpr size, u.state.pointerMaps.Fits p.1 p.2

/-- The arguments are clean one after the other. -/
def CleanArguments (memory : ℕ → MemoryObject) : UCState → List (Operand × UInt32) → Prop
  | _, [] => True
  | u, (arg, size) :: args => CleanArgument memory u arg size ∧
      ∀ u', concretizeArgument memory u arg size = some u' → CleanArguments memory u' args

/-- Everything that the step binds fits. -/
def Clean (memory : ℕ → MemoryObject) (u : UCState) : Action → Prop
  | .symbolic_before_load address => CleanBefore memory u address .pointer
  | .symbolic_before_store address valueType => CleanBefore memory u address valueType
  | .symbolic_before_call name operands =>
    CleanArguments memory u ((concretizedArguments name).map fun p => (operands p.1, p.2))
  | _ => True

theorem bindNewObject_keeps {base : Expr} {size : UInt32} (hinv : u.state.pointerMaps.Inverse)
    (hw : base.HasWidth pointerWidth) (hd : ∃ a, base.Defined a)
    (hfits : ∀ p ∈ block base (memory u.allocated).getBaseExpr size,
      u.state.pointerMaps.Fits p.1 p.2) :
    Keeps u (bindNewObject memory u base size).2 := by
  unfold Keeps
  rw [pointerMaps_bindNewObject]
  exact PairedMap.bindAll_inverse_extends hinv
    (block_pairwise hw hd (memory u.allocated).getBaseExpr_hasWidth ⟨fun _ _ => 0, trivial⟩ size) hfits

/-- The erased binding of the base is overwritten by the block. -/
theorem pointerMaps_bindNewObject_erase (u : UCState) (base : Expr) (size : UInt32) :
    (bindNewObject memory (u.eraseAddress base) base size).2.state.pointerMaps =
      (bindNewObject memory u base size).2.state.pointerMaps := by
  rw [pointerMaps_bindNewObject, pointerMaps_bindNewObject]
  unfold block
  rw [List.range_succ_eq_map, List.map_cons]
  have herase := PairedMap.bind_eraseFwd u.state.pointerMaps base (memory u.allocated).getBaseExpr
  exact congrArg (fun m : PairedMap Expr Expr => m.bindAll (List.map
    (fun i => (addOnes base i, addOnes (memory u.allocated).getBaseExpr i))
    (List.map Nat.succ (List.range (size.toNat - 1))))) herase

/-- What `create_symaddr_object` does to the maps: nothing, or it binds the block of a new object. -/
theorem create_symaddr_object_cases {base address : Expr} {size : UInt32}
    (h : create_symaddr_object memory u base size = some (address, u')) :
    u' = u ∨ MakesObject u base ∧
      u'.state.pointerMaps = (bindNewObject memory u base size).2.state.pointerMaps := by
  unfold create_symaddr_object at h
  split at h
  · cases h
    exact .inl rfl
  rename_i hconst
  have hsym : base.isConstant = false := Bool.eq_false_iff.2 hconst
  cases hbound : u.state.map_symbolic_address base with
  | some real =>
    rw [hbound] at h
    obtain ⟨addr, haddr, h⟩ := Option.bind_eq_some_iff.1 h
    cases hres : u.state.addressSpace.resolveOne addr with
    | some mo =>
      rw [hres] at h
      cases h
      exact .inl rfl
    | none =>
      rw [hres] at h
      have hu : u' = (bindNewObject memory (u.eraseAddress base) base size).2 :=
        (congrArg Prod.snd (Option.some.inj h)).symm
      refine .inr ⟨⟨hsym, fun address' addr' h₁ h₂ => ?_⟩, ?_⟩
      · rw [hbound] at h₁
        cases h₁
        rw [haddr] at h₂
        cases h₂
        exact hres
      · rw [hu, pointerMaps_bindNewObject_erase]
  | none =>
    rw [hbound] at h
    have hu : u' = (bindNewObject memory u base size).2 :=
      (congrArg Prod.snd (Option.some.inj h)).symm
    refine .inr ⟨⟨hsym, fun address' addr' h₁ => ?_⟩, by rw [hu]⟩
    rw [hbound] at h₁
    cases h₁

theorem concretizeArgument_keeps {arg : Operand} {size : UInt32} (hinv : u.state.pointerMaps.Inverse)
    (hclean : CleanArgument memory u arg size) (h : concretizeArgument memory u arg size = some u') :
    Keeps u u' := by
  obtain ⟨base, hbase, h⟩ := Option.bind_eq_some_iff.1 h
  obtain ⟨⟨address, u₁⟩, hcreate, h⟩ := Option.bind_eq_some_iff.1 h
  cases h
  unfold Keeps
  rw [pointerMaps_un_eval]
  rcases create_symaddr_object_cases hcreate with rfl | ⟨hmakes, hmaps⟩
  · exact ⟨hinv, .refl _⟩
  · obtain ⟨hw, hd, hfits⟩ := hclean base hbase hmakes
    rw [hmaps]
    exact bindNewObject_keeps hinv hw hd hfits

theorem concretizeArguments_keeps {args : List (Operand × UInt32)}
    (hinv : u.state.pointerMaps.Inverse) (hclean : CleanArguments memory u args)
    (h : concretizeArguments memory u args = some u') : Keeps u u' := by
  induction args generalizing u with
  | nil =>
    cases h
    exact .of_eq hinv rfl
  | cons p args ih =>
    obtain ⟨u₁, h₁, h₂⟩ := Option.bind_eq_some_iff.1 h
    obtain ⟨hinv₁, hext₁⟩ := concretizeArgument_keeps hinv hclean.1 h₁
    obtain ⟨hinv₂, hext₂⟩ := ih hinv₁ (hclean.2 u₁ h₁) h₂
    exact ⟨hinv₂, hext₁.trans hext₂⟩

/-- A clean step keeps the maps inverse, and every binding. -/
theorem step_keeps {action : Action} (hinv : u.state.pointerMaps.Inverse)
    (hclean : Clean memory u action) (h : step memory u action = some u') : Keeps u u' := by
  cases action with
  | symbolic_before_load address => exact symbolic_before_keeps hinv hclean h
  | symbolic_after_load address => exact .of_eq hinv (symbolic_after_maps h)
  | symbolic_before_store address valueType => exact symbolic_before_keeps hinv hclean h
  | symbolic_after_store address => exact .of_eq hinv (symbolic_after_maps h)
  | symbolic_before_call name operands => exact concretizeArguments_keeps hinv hclean h
  | execute stack addressSpace constraints constantTable =>
    cases h
    exact .of_eq hinv rfl

/-- In every state reached from `u`, the maps are inverse, and a pointer that was bound on the way is
bound to the same address still. -/
def MapsStable (memory : ℕ → MemoryObject) (guard : UCState → Action → Prop) (u : UCState) : Prop :=
  ∀ v w, Run (step memory) guard u v → Run (step memory) guard v w →
    (∀ e a, w.state.map_symbolic_address e = some a ↔ w.state.map_address_symbolic a = some e) ∧
    ∀ e a, v.state.map_symbolic_address e = some a → w.state.map_symbolic_address e = some a

/-- **Clean runs keep the pointer maps inverse and every binding.** -/
theorem mapsStable_of_clean (hinv : u.state.pointerMaps.Inverse) :
    MapsStable memory (Clean memory) u := by
  intro v w huv hvw
  have hkeep : ∀ t a t', t.state.pointerMaps.Inverse → Clean memory t a → step memory t a = some t' →
      t'.state.pointerMaps.Inverse ∧ t.state.pointerMaps.Extends t'.state.pointerMaps :=
    fun _ _ _ hI hg h => step_keeps hI hg h
  have hstep := fun t a t' hI hg h => (hkeep t a t' hI hg h).1
  have hv := huv.invariant hstep hinv
  refine ⟨hvw.invariant hstep hv, ?_⟩
  exact hvw.relation (R := fun t t' => t.state.pointerMaps.Extends t'.state.pointerMaps)
    (fun t => .refl t.state.pointerMaps) (fun _ _ _ => .trans) hkeep hv

/-! ### The keys of `map_address_symbolic` -/

/-- The keys of `map_address_symbolic` are constants. -/
def ConstantKeys (u : UCState) : Prop :=
  ∀ key pointer, u.state.map_address_symbolic key = some pointer → key.isConstant = true

omit [ExprOptions] in
theorem ConstantKeys.bindAll (h : ConstantKeys u) (ps : List (Expr × Expr)) (hps : ∀ q ∈ ps, q.2.isConstant = true)
    (hmaps : u'.state.pointerMaps = u.state.pointerMaps.bindAll ps) : ConstantKeys u' := by
  intro key pointer hkey
  have hbwd : u'.state.pointerMaps.bwd key = some pointer := hkey
  rw [hmaps] at hbwd
  obtain ⟨q, hq, rfl⟩ | hold := PairedMap.bindAll_bwd_cases hbwd
  · exact hps q hq
  · exact h key pointer hold

omit [ExprOptions] in
theorem ConstantKeys.of_eq (h : ConstantKeys u) (heq : u'.state.pointerMaps = u.state.pointerMaps) : ConstantKeys u' :=
  h.bindAll [] nofun heq

theorem addOnes_isConstant (c : BitVec pointerWidth) (i : ℕ) : (addOnes (.const c) i).isConstant = true := by
  induction i generalizing c with
  | zero => rfl
  | succ i ih =>
    have hone : addOne (.const c) = .const (c + 1#64) := by
      rw [addOne, AddExpr.create_const_left, AddExpr.createConst, BitVec.setWidth_eq]
    rw [addOnes, hone]
    exact ih _

theorem concretizeArguments_constantKeys {args : List (Operand × UInt32)} (h : ConstantKeys u)
    (hargs : concretizeArguments memory u args = some u') : ConstantKeys u' := by
  induction args generalizing u with
  | nil =>
    cases hargs
    exact h
  | cons arg args ih =>
    obtain ⟨u₁, h₁, h₂⟩ := Option.bind_eq_some_iff.1 hargs
    refine ih ?_ h₂
    obtain ⟨base, -, h₁⟩ := Option.bind_eq_some_iff.1 h₁
    obtain ⟨⟨address, u₀⟩, hcreate, h₁⟩ := Option.bind_eq_some_iff.1 h₁
    cases h₁
    obtain rfl | ⟨-, hmaps⟩ := create_symaddr_object_cases hcreate
    · exact h.of_eq (pointerMaps_un_eval ..)
    · rw [pointerMaps_bindNewObject] at hmaps
      refine h.bindAll _ (fun q hq => ?_) ((pointerMaps_un_eval ..).trans hmaps)
      obtain ⟨i, -, rfl⟩ := List.mem_map.1 hq
      exact addOnes_isConstant _ i

/-- No step gives `map_address_symbolic` another key than the address of a byte of an object. -/
theorem step_constantKeys {action : Action} (h : ConstantKeys u) (hstep : step memory u action = some u') :
    ConstantKeys u' := by
  have hbefore : ∀ {address ty}, symbolic_before memory u address ty = some u' → ConstantKeys u' := by
    intro address ty hstep
    obtain heq | ⟨base, -, -, -, -, hmaps⟩ := symbolic_before_maps hstep
    · exact h.of_eq heq
    · exact h.bindAll [(base, (memory u.allocated).getBaseExpr)] (List.forall_mem_singleton.2 rfl) hmaps
  cases action with
  | symbolic_before_load address => exact hbefore hstep
  | symbolic_after_load address => exact h.of_eq (symbolic_after_maps hstep)
  | symbolic_before_store address valueType => exact hbefore hstep
  | symbolic_after_store address => exact h.of_eq (symbolic_after_maps hstep)
  | symbolic_before_call name operands => exact concretizeArguments_constantKeys h hstep
  | execute stack addressSpace constraints constantTable =>
    cases hstep
    exact h

/-- In every state of a run that begins with an empty map, the keys are constants. -/
theorem run_constantKeys {guard : UCState → Action → Prop} (hempty : u.state.map_address_symbolic = ExprMap.empty)
    (hrun : Run (step memory) guard u u') : ConstantKeys u' := by
  refine hrun.invariant (I := ConstantKeys) (fun _ _ _ h _ hstep => step_constantKeys h hstep) fun key pointer hkey => ?_
  rw [hempty] at hkey
  cases hkey

end Run

/-! ### A pointer inside the block is dereferenced first -/

theorem pointerArray_lt : 8 < 2 ^ 32 := by decide

/-- The array of the 8 bytes of a symbolic pointer argument. -/
def pointerArray : Array := ⟨0, "input_0", 8, [], pointerArray_lt, .inl rfl⟩

/-- Byte `i` of the pointer. -/
def pointerByte (i : ℕ) : Expr := .read (.root pointerArray) (.const (BitVec.ofNat 32 i))

/-- `(ReadLSB w64 0 input_0)`. -/
def symbolicPointer : Expr :=
  .concat (pointerByte 7) (.concat (pointerByte 6) (.concat (pointerByte 5) (.concat (pointerByte 4)
    (.concat (pointerByte 3) (.concat (pointerByte 2) (.concat (pointerByte 1) (pointerByte 0)))))))

theorem pointerByte_hasWidth (i : ℕ) : (pointerByte i).HasWidth 8 := ⟨⟨trivial, trivial, rfl⟩, rfl⟩

theorem pointerByte_defined (i : ℕ) (a : Assignment) : (pointerByte i).Defined a := by
  refine ⟨trivial, ?_⟩
  simp [UpdateList.DefinedAt, pointerArray, Array.isConstantArray, Array.isSymbolicArray]

theorem symbolicPointer_hasWidth : symbolicPointer.HasWidth pointerWidth :=
  (pointerByte_hasWidth 7).concat <| (pointerByte_hasWidth 6).concat <|
    (pointerByte_hasWidth 5).concat <| (pointerByte_hasWidth 4).concat <|
    (pointerByte_hasWidth 3).concat <| (pointerByte_hasWidth 2).concat <|
    (pointerByte_hasWidth 1).concat (pointerByte_hasWidth 0)

theorem symbolicPointer_defined (a : Assignment) : symbolicPointer.Defined a :=
  ⟨pointerByte_defined 7 a, pointerByte_defined 6 a, pointerByte_defined 5 a, pointerByte_defined 4 a,
    pointerByte_defined 3 a, pointerByte_defined 2 a, pointerByte_defined 1 a, pointerByte_defined 0 a⟩

/-- Objects of 8192 bytes, the `n`-th at `0x100000 * (n + 1)`, as long as they fit. -/
def spacedMemory (n : ℕ) : MemoryObject where
  address := BitVec.ofNat 64 (0x100000 * (n % 1024 + 1))
  size := 8192
  symsize := none
  size_lt := by decide
  address_add_size := by
    rw [BitVec.toNat_ofNat, Nat.mod_eq_of_lt]
    all_goals
      have := Nat.mod_lt n (show 0 < 1024 by decide)
      simp only [pointerWidth]
      omega
  symsize_hasWidth := MemoryObject.symsize_none

section
variable [ExprOptions]

/-- Register 0 holds `p + 1` and register 1 holds `p`. -/
def insideFirst : UCState where
  state := { ExecutionState.init "main" 0 0 with
    stack := [⟨none, "main", fun n => if n = 0 then some (addOne symbolicPointer) else some symbolicPointer⟩] }
  constantTable := fun _ => none
  allocated := 0

end

theorem addOne_symbolicPointer [ExprOptions] :
    addOne symbolicPointer = .bin .add (.const (1#64)) symbolicPointer := by
  unfold addOne symbolicPointer
  rw [AddExpr.create.eq_def]
  simp [addExprCreatePartial, addExprCreatePartialR]

/-- The state after the load through `p + 1` has begun. -/
def insideFirstLoaded [ExprOptions] : UCState :=
  (((insideFirst.create_mo spacedMemory).2.un_eval (.reg 0) (spacedMemory 0).getBaseExpr).bindAddress
    (addOne symbolicPointer) (spacedMemory 0).getBaseExpr)

theorem insideFirst_load [ExprOptions] :
    step spacedMemory insideFirst (.symbolic_before_load (.reg 0)) = some insideFirstLoaded := by
  have hconst : (addOne symbolicPointer).isConstant = false := by
    rw [addOne_symbolicPointer]
    rfl
  simp only [step, symbolic_before_load, symbolic_before, UCState.eval, insideFirst, if_true]
  simp [hconst, ExecutionState.init, ExprMap.empty, find_equalsymaddr]
  rfl

theorem insideFirst_memset [ExprOptions] :
    ∃ u, step spacedMemory insideFirstLoaded (.symbolic_before_call "memset" fun _ => .reg 1) = some u ∧
      u.state.pointerMaps = insideFirstLoaded.state.pointerMaps.bindAll
        (block symbolicPointer (spacedMemory 1).getBaseExpr 4096) := by
  have hne : symbolicPointer ≠ addOne symbolicPointer := by
    rw [addOne_symbolicPointer]
    nofun
  have hconst : symbolicPointer.isConstant = false := rfl
  have hunbound : insideFirstLoaded.state.map_symbolic_address symbolicPointer = none :=
    Function.update_of_ne hne ..
  have heval : insideFirstLoaded.eval (.reg 1) = some symbolicPointer := rfl
  have hargs : concretizedArguments "memset" = [(1, 4096)] := by decide
  have hcreate : create_symaddr_object spacedMemory insideFirstLoaded symbolicPointer 4096 =
      some (bindNewObject spacedMemory insideFirstLoaded symbolicPointer 4096) := by
    simp only [create_symaddr_object, hconst, hunbound, Bool.false_eq_true, if_false]
  refine ⟨(bindNewObject spacedMemory insideFirstLoaded symbolicPointer 4096).2.un_eval (.reg 1)
    (bindNewObject spacedMemory insideFirstLoaded symbolicPointer 4096).1, ?_, ?_⟩
  · simp only [step, symbolic_before_call, hargs, List.map_cons, List.map_nil, concretizeArguments,
      concretizeArgument, heval, hcreate, Option.bind_eq_bind, Option.bind_some, Option.pure_def]
  · rw [pointerMaps_un_eval, pointerMaps_bindNewObject]
    rfl

/-- A load through `p + 1` binds it; a `memset` at `p` then gives it another address. -/
theorem insideFirst_not_mapsStable :
    let _ : ExprOptions := ⟨false, true⟩
    insideFirst.state.pointerMaps.Inverse ∧ ¬MapsStable spacedMemory (fun _ _ => True) insideFirst := by
  intro _
  refine ⟨by simp [PairedMap.Inverse, insideFirst, ExecutionState.pointerMaps, ExecutionState.init,
    ExprMap.empty], ?_⟩
  intro hstable
  obtain ⟨u, hset, hmaps⟩ := insideFirst_memset
  have hbefore : insideFirstLoaded.state.map_symbolic_address (addOne symbolicPointer) =
      some (spacedMemory 0).getBaseExpr := Function.update_self ..
  have hafter : u.state.pointerMaps.fwd (addOne symbolicPointer) = some (spacedMemory 0).getBaseExpr :=
    (hstable _ _ (.single trivial insideFirst_load) (.single trivial hset)).2 _ _ hbefore
  have hmem : (addOne symbolicPointer, addOne (spacedMemory 1).getBaseExpr) ∈
      block symbolicPointer (spacedMemory 1).getBaseExpr 4096 :=
    List.mem_map.2 ⟨1, List.mem_range.2 (by decide), rfl⟩
  have hblock := PairedMap.bindAll_fwd_of_mem (m := insideFirstLoaded.state.pointerMaps)
    (block_pairwise symbolicPointer_hasWidth ⟨fun _ _ => 0, symbolicPointer_defined _⟩
      (spacedMemory 1).getBaseExpr_hasWidth ⟨fun _ _ => 0, trivial⟩ 4096) hmem
  rw [← hmaps, hafter] at hblock
  have hval := (addOne_computes (spacedMemory 1).getBaseExpr_hasWidth).denotes
    ((spacedMemory 1).getBaseExpr_denotes fun _ _ => 0)
  rw [← Option.some.inj hblock] at hval
  exact absurd hval.const_eq (by decide)

/-- The load alone is clean. -/
theorem mapsStable_of_clean_insideFirst :
    let _ : ExprOptions := ⟨false, true⟩
    Clean spacedMemory insideFirst (.symbolic_before_load (.reg 0)) ∧
      MapsStable spacedMemory (Clean spacedMemory) insideFirst := by
  intro _
  refine ⟨fun base _ _ _ _ => ⟨nofun, nofun⟩, mapsStable_of_clean ?_⟩
  simp [PairedMap.Inverse, insideFirst, ExecutionState.pointerMaps, ExecutionState.init, ExprMap.empty]

end UCListener

end SymBisect
