import SymBisect.UCListener.OutOfBounds

/-!
# What an unflagged access guarantees

With a correct solver, `OOB_check` flags an access exactly when the address names no object or some
assignment of the path condition fails the check of the object it found (`OOB_check_OOBW`).

The check is sound for an object of constant size: the object does not wrap around the address
space, so an address below it has an offset above its size.  For an object with a symbolic size the
end `offset + bytes` is compared after it was computed modulo `2 ^ 64`, so an access that starts
below the object or ends beyond the address space can pass.
-/

namespace SymBisect

open Expr ConstraintSet

/-- What the solver may be asked about: the constraints are booleans, and the symbolic sizes evaluate
wherever the path condition holds. -/
structure ExecutionState.WellFormed (state : ExecutionState) : Prop where
  isBool : state.constraints.IsBool
  symsize_defined : ∀ mo ∈ state.addressSpace.objects, ∀ s ∈ mo.symsize, state.constraints.Defines s

/-- `e` is a pointer-sized value that evaluates wherever the path condition holds. -/
structure ExecutionState.HasPointer (state : ExecutionState) (e : Expr) : Prop where
  hasWidth : e.HasWidth pointerWidth
  defined : state.constraints.Defines e

theorem ExecutionState.WellFormed.setOOBW {state : ExecutionState} (h : state.WellFormed) (b : Bool) :
    ({ state with OOBW := b } : ExecutionState).WellFormed :=
  ⟨h.isBool, h.symsize_defined⟩

theorem ExecutionState.HasPointer.setOOBW {state : ExecutionState} {e : Expr} (h : state.HasPointer e)
    (b : Bool) : ({ state with OOBW := b } : ExecutionState).HasPointer e :=
  ⟨h.hasWidth, h.defined⟩

namespace UCListener

/-- The meaning of the check that `OOB_check` asks about, at the address `p`. -/
def PassesCheck (mo : MemoryObject) (a : Assignment) (p : BitVec pointerWidth) (bytes : ℕ) : Prop :=
  match mo.symsize with
  | some s =>
    (p - mo.address + BitVec.ofNat pointerWidth bytes).toNat ≤ (s.eval a pointerWidth).toNat
  | none => bytes ≤ mo.size ∧ (p - mo.address).toNat < (mo.size - bytes + 1) % 2 ^ 32

section Check

variable [ExprOptions] {mo : MemoryObject} {addr : Expr} {a : Assignment}

theorem boundsCheck_hasWidth (mo : MemoryObject) (h : addr.HasWidth pointerWidth) (bytes : ℕ) :
    (boundsCheck mo addr bytes).HasWidth 1 := by
  have hoff := mo.getOffsetExpr_computes h
  unfold boundsCheck
  split
  · rename_i s hs
    have hadd := AddExpr.create_computes hoff.hasWidth
      (hasWidth_const (BitVec.ofNat pointerWidth bytes))
    exact (UleExpr.create_computes hadd.hasWidth (mo.symsize_hasWidth s hs)).hasWidth
  · exact (mo.getBoundsCheckOffset_computes bytes hoff.hasWidth).hasWidth

theorem boundsCheck_denotes (h : addr.HasWidth pointerWidth) (bytes : ℕ)
    (hd : addr.Defined a) (hs : ∀ s ∈ mo.symsize, s.Defined a) :
    ∃ b : Bool, (boundsCheck mo addr bytes).Denotes a (BitVec.ofBool b) ∧
      (b = true ↔ PassesCheck mo a (addr.eval a pointerWidth) bytes) := by
  have hoff := mo.getOffsetExpr_computes h
  have doff := hoff.denotes (.self hd pointerWidth)
  unfold boundsCheck PassesCheck
  cases hsym : mo.symsize with
  | some s =>
    have hadd := AddExpr.create_computes hoff.hasWidth
      (hasWidth_const (BitVec.ofNat pointerWidth bytes))
    have hule := UleExpr.create_computes hadd.hasWidth (mo.symsize_hasWidth s hsym)
    have dadd := hadd.denotes doff (denotes_const _) nofun
    refine ⟨_, hule.denotes dadd (.self (hs s hsym) _), ?_⟩
    exact decide_eq_true_iff
  | none =>
    exact ⟨_, (mo.getBoundsCheckOffset_computes bytes hoff.hasWidth).denotes doff,
      decide_eq_true_iff⟩

end Check

section Spec

variable [ExprOptions] [APIntHash] {ts : TimingSolver} {state : ExecutionState} {addr : Expr}

/-- Why `OOB_check` sets the flag. -/
def Flags (state : ExecutionState) (addr : Expr) (bytes : ℕ) : Prop :=
  match state.addressSpace.resolveOne (extract_baseaddr addr).getZExtValue with
  | none => True
  | some mo => ∃ a, Satisfies a state.constraints ∧
      ¬PassesCheck mo a (addr.eval a pointerWidth) bytes

/-- A check changes nothing but the flag. -/
theorem OOB_check_eq (ts : TimingSolver) (state : ExecutionState) (addr : Expr) (bytes : ℕ) :
    ∃ b, OOB_check ts state addr bytes = { state with OOBW := b } := by
  unfold OOB_check
  split
  · exact ⟨true, rfl⟩
  split
  · exact ⟨state.OOBW, rfl⟩
  split
  · exact ⟨state.OOBW, rfl⟩
  · exact ⟨true, rfl⟩

/-- **The verdict of `OOB_check`.** -/
theorem OOB_check_OOBW (hts : ts.Correct) (hst : state.WellFormed)
    (hsat : state.constraints.Satisfiable) (haddr : state.HasPointer addr) (bytes : ℕ) :
    (OOB_check ts state addr bytes).OOBW = true ↔ state.OOBW = true ∨ Flags state addr bytes := by
  unfold OOB_check Flags
  cases hmo : state.addressSpace.resolveOne (extract_baseaddr addr).getZExtValue with
  | none => exact iff_of_true rfl (.inr trivial)
  | some mo =>
    obtain ⟨b, hb, hiff⟩ := TimingSolver.mustBeTrue_decides hts hst.isBool hsat
      (boundsCheck_hasWidth mo haddr.hasWidth bytes) fun a ha =>
        boundsCheck_denotes haddr.hasWidth bytes (haddr.defined a ha) fun s hs =>
          hst.symsize_defined mo (AddressSpace.resolveOne_spec hmo).1 s hs a ha
    dsimp only
    rw [hb, ← hiff]
    cases b with
    | true => simp
    | false => simp

end Spec

/-! ### Soundness of one access -/

/-- The accessed bytes, at mathematical offsets from the object's base, lie inside the object. -/
def InBounds (mo : MemoryObject) (a : Assignment) (p : BitVec pointerWidth) (bytes : ℕ) : Prop :=
  ∀ i < bytes, 0 ≤ (p.toNat : ℤ) - mo.address.toNat + i ∧
    (p.toNat : ℤ) - mo.address.toNat + i < mo.sizeAt a

/-- The access starts below the object, or its end leaves the 64-bit offsets. -/
def Wraps (mo : MemoryObject) (p : BitVec pointerWidth) (bytes : ℕ) : Prop :=
  0 < bytes ∧
    (p.toNat < mo.address.toNat ∨ 2 ^ pointerWidth ≤ p.toNat - mo.address.toNat + bytes)

section InBounds

variable {mo : MemoryObject} {a : Assignment} {p : BitVec pointerWidth} {bytes : ℕ}

/-- The check of an object of constant size is sound. -/
theorem inBounds_of_passesCheck (hsize : mo.symsize = none) (h : PassesCheck mo a p bytes) :
    InBounds mo a p bytes := by
  simp only [PassesCheck, hsize] at h
  obtain ⟨hle, hlt⟩ := h
  have hspace := mo.address_add_size
  have hmod : (mo.size - bytes + 1) % 2 ^ 32 ≤ mo.size - bytes + 1 := Nat.mod_le _ _
  intro i hi
  simp only [MemoryObject.sizeAt, hsize]
  by_cases hge : mo.address.toNat ≤ p.toNat
  · rw [BitVec.toNat_sub_of_ge hge] at hlt
    omega
  · -- an address below the object has an offset of at least the space above the object
    rw [BitVec.toNat_sub_of_lt' (by omega)] at hlt
    omega

/-- A passed check of an object of symbolic size bounds the access exactly when nothing wrapped. -/
theorem inBounds_iff_not_wraps {s : Expr} (hsize : mo.symsize = some s) (hb : bytes < 2 ^ 32)
    (h : PassesCheck mo a p bytes) : InBounds mo a p bytes ↔ ¬Wraps mo p bytes := by
  simp only [PassesCheck, hsize] at h
  have hs := (s.eval a pointerWidth).isLt
  have hbytes : (BitVec.ofNat pointerWidth bytes).toNat = bytes := by
    rw [BitVec.toNat_ofNat, Nat.mod_eq_of_lt (hb.trans (by decide))]
  rw [BitVec.toNat_add, hbytes] at h
  unfold InBounds Wraps
  simp only [MemoryObject.sizeAt, hsize]
  constructor
  · rintro hin ⟨hpos, hwrap⟩
    have hfirst := hin 0 hpos
    have hlast := hin (bytes - 1) (by omega)
    omega
  · intro hno i hi
    have hge : mo.address.toNat ≤ p.toNat := by
      by_contra hlt
      exact hno ⟨by omega, .inl (by omega)⟩
    have hend : p.toNat - mo.address.toNat + bytes < 2 ^ pointerWidth := by
      by_contra hge'
      exact hno ⟨by omega, .inr (by omega)⟩
    rw [BitVec.toNat_sub_of_ge hge, Nat.mod_eq_of_lt hend] at h
    omega

end InBounds

section Sound

variable [ExprOptions] [APIntHash] {ts : TimingSolver} {state : ExecutionState} {addr : Expr}

/-- An access that `OOB_check` does not flag lies inside the object, under every assignment of the
path condition. -/
def AccessSound (ts : TimingSolver) (state : ExecutionState) (addr : Expr) (bytes : ℕ) : Prop :=
  (OOB_check ts state addr bytes).OOBW = false →
    ∀ mo, state.addressSpace.resolveOne (extract_baseaddr addr).getZExtValue = some mo →
      ∀ a, Satisfies a state.constraints → InBounds mo a (addr.eval a pointerWidth) bytes

/-- For an object of symbolic size whose check holds everywhere, no assignment of the path condition
makes the access wrap. -/
def WrapFree (state : ExecutionState) (addr : Expr) (bytes : ℕ) : Prop :=
  ∀ mo, state.addressSpace.resolveOne (extract_baseaddr addr).getZExtValue = some mo →
    ∀ s, mo.symsize = some s →
      (∀ a, Satisfies a state.constraints →
        (addr.eval a pointerWidth - mo.address + BitVec.ofNat pointerWidth bytes).toNat ≤
          (s.eval a pointerWidth).toNat) →
      ∀ a, Satisfies a state.constraints → ¬Wraps mo (addr.eval a pointerWidth) bytes

/-- **An unflagged access is in bounds exactly when it cannot wrap.** -/
theorem accessSound_iff_wrapFree (hts : ts.Correct) (hst : state.WellFormed)
    (haddr : state.HasPointer addr) (hflag : state.OOBW = false) (bytes : ℕ) (hb : bytes < 2 ^ 32) :
    AccessSound ts state addr bytes ↔ WrapFree state addr bytes := by
  by_cases hsat : state.constraints.Satisfiable
  · have hspec := OOB_check_OOBW hts hst hsat haddr bytes
    have hunflagged : (OOB_check ts state addr bytes).OOBW = false ↔ ¬Flags state addr bytes := by
      rw [← Bool.not_eq_true, hspec]
      simp [hflag]
    unfold AccessSound WrapFree
    rw [hunflagged]
    constructor
    · intro hsound mo hmo s hs hall a ha
      have hpass : ∀ a, Satisfies a state.constraints →
          PassesCheck mo a (addr.eval a pointerWidth) bytes := by
        intro a ha
        simpa only [PassesCheck, hs] using hall a ha
      have hnf : ¬Flags state addr bytes := by
        simp only [Flags, hmo]
        rintro ⟨a, ha, hnot⟩
        exact hnot (hpass a ha)
      exact (inBounds_iff_not_wraps hs hb (hpass a ha)).1 (hsound hnf mo hmo a ha)
    · intro hfree hnf mo hmo a ha
      have hpass : ∀ a, Satisfies a state.constraints →
          PassesCheck mo a (addr.eval a pointerWidth) bytes := by
        simp only [Flags, hmo] at hnf
        push Not at hnf
        exact hnf
      cases hs : mo.symsize with
      | none => exact inBounds_of_passesCheck hs (hpass a ha)
      | some s =>
        refine (inBounds_iff_not_wraps hs hb (hpass a ha)).2 (hfree mo hmo s hs ?_ a ha)
        intro a ha
        simpa only [PassesCheck, hs] using hpass a ha
  · have hnone : ∀ a, ¬Satisfies a state.constraints := fun a ha => hsat ⟨a, ha⟩
    exact iff_of_true (fun _ _ _ a ha => (hnone a ha).elim) fun _ _ _ _ _ a ha => (hnone a ha).elim

end Sound

/-! ### A negative offset into an object of symbolic size -/

/-- The byte at index 0 of a one-byte symbolic array. -/
def symbolicByte (ptr : ℕ) : Expr := .read (.root ⟨ptr, "input", 1, [], Array.oneByte_lt, Array.oneByte_values⟩) (.const 0#32)

theorem symbolicByte_hasWidth (ptr : ℕ) : (symbolicByte ptr).HasWidth 8 :=
  ⟨⟨trivial, trivial, rfl⟩, rfl⟩

theorem symbolicByte_denotes (ptr : ℕ) (a : Assignment) :
    (symbolicByte ptr).Denotes a (a ⟨ptr, "input", 1, [], Array.oneByte_lt, Array.oneByte_values⟩ 0) := by
  refine ⟨⟨trivial, ?_⟩, ?_⟩
  · simp [UpdateList.DefinedAt, Array.isConstantArray, Array.isSymbolicArray]
  · simp [symbolicByte, Expr.eval, UpdateList.evalAt, Array.initialValue]

/-- An object at `0x200000` whose size is a symbolic byte. -/
def symsizeObject : MemoryObject where
  address := 0x200000#64
  size := 16
  symsize := some (.zext (symbolicByte 1) 64)
  size_lt := MemoryObject.sixteen_lt
  address_add_size := MemoryObject.sixteen_le
  symsize_hasWidth := by
    rintro s ⟨⟩
    exact (symbolicByte_hasWidth 1).zext (by decide)

/-- The only object is `symsizeObject`, and the path condition says that the symbolic byte 0 is
`0xff`. -/
def negativeOffsetState : ExecutionState :=
  { ExecutionState.init "main" 0 0 with
    addressSpace := ⟨[symsizeObject], List.pairwise_singleton _ _⟩
    constraints := [.cmp .eq (.const 0xff#8) (symbolicByte 0)] }

/-- The object's base plus the sign-extended byte 0, which is -1. -/
def negativeOffsetAddress : Expr := .bin .add (.const 0x200000#64) (.sext (symbolicByte 0) 64)

theorem negativeOffsetState_wellFormed : negativeOffsetState.WellFormed := by
  refine ⟨?_, ?_⟩
  · intro c hc
    rw [List.mem_singleton.1 hc]
    exact (hasWidth_const 0xff#8).cmp (symbolicByte_hasWidth 0)
  · intro mo hmo s hs a ha
    rw [List.mem_singleton.1 hmo] at hs
    cases hs
    exact (symbolicByte_denotes 1 a).defined

theorem negativeOffsetAddress_hasPointer :
    negativeOffsetState.HasPointer negativeOffsetAddress :=
  ⟨(hasWidth_const _).bin ((symbolicByte_hasWidth 0).sext (by decide)),
    fun a _ => ⟨trivial, (symbolicByte_denotes 0 a).defined, nofun⟩⟩

theorem negativeOffsetAddress_eval {a : Assignment}
    (ha : Satisfies a negativeOffsetState.constraints) :
    negativeOffsetAddress.eval a pointerWidth = 0x1fffff#64 := by
  have h := ha _ (List.mem_singleton_self _)
  obtain ⟨dc, db, hv⟩ := h.cmp_inv (hasWidth_const 0xff#8)
  have hbyte : (symbolicByte 0).eval a 8 = 0xff#8 := by
    rw [← dc.const_eq] at hv
    by_contra hne
    have hf : (0xff#8 == (symbolicByte 0).eval a 8) = false := by
      rw [beq_eq_false_iff_ne]
      exact fun h => hne h.symm
    rw [CmpOp.apply, hf] at hv
    exact absurd hv (by decide)
  have hval : negativeOffsetAddress.Denotes a
      (BinOp.add.apply 0x200000#64 ((0xff#8).signExtend 64)) :=
    (denotes_const 0x200000#64).bin ((symbolicByte_hasWidth 0).sext (by decide))
      (Denotes.sext 64 (symbolicByte_hasWidth 0) ⟨db.defined, hbyte⟩) nofun
  exact hval.value.trans (by decide)

theorem negativeOffsetAddress_resolves [APIntHash] :
    negativeOffsetState.addressSpace.resolveOne (extract_baseaddr negativeOffsetAddress).getZExtValue =
      some symsizeObject := by
  simp [negativeOffsetState, negativeOffsetAddress, symbolicByte, symsizeObject, extract_baseaddr,
    separateConstantAndSymbolic, ConstantExpr.insert, ConstantExpr.getZExtValue,
    AddressSpace.resolveOne, AddressSpace.lookup_previous, pointerWidth]

/-- The byte below the object is accessed, and the state is not flagged. -/
theorem negativeOffset_not_accessSound :
    let _ : ExprOptions := ⟨false, true⟩
    let _ : APIntHash := ⟨fun _ => 0⟩
    ¬AccessSound TimingSolver.exact negativeOffsetState negativeOffsetAddress 1 := by
  intro _ _ hsound
  have hsat : Satisfies (fun _ _ => 0xff#8) negativeOffsetState.constraints := by
    intro c hc
    rw [List.mem_singleton.1 hc]
    exact (denotes_const 0xff#8).cmp (hasWidth_const 0xff#8) (symbolicByte_denotes 0 _)
  have hspec := OOB_check_OOBW TimingSolver.exact_correct negativeOffsetState_wellFormed
    ⟨_, hsat⟩ negativeOffsetAddress_hasPointer 1
  have hunflagged : ¬Flags negativeOffsetState negativeOffsetAddress 1 := by
    simp only [Flags, negativeOffsetAddress_resolves]
    rintro ⟨a, ha, hnot⟩
    refine hnot ?_
    rw [negativeOffsetAddress_eval ha]
    simp [PassesCheck, symsizeObject, pointerWidth]
  have hclear : (OOB_check TimingSolver.exact negativeOffsetState negativeOffsetAddress 1).OOBW =
      false := by
    rw [← Bool.not_eq_true, hspec, not_or]
    exact ⟨Bool.false_ne_true, hunflagged⟩
  have hbounds := hsound hclear symsizeObject negativeOffsetAddress_resolves _ hsat
  rw [negativeOffsetAddress_eval hsat] at hbounds
  unfold InBounds at hbounds
  obtain ⟨hbelow, -⟩ := hbounds 0 Nat.one_pos
  simp [symsizeObject, pointerWidth] at hbelow

theorem accessSound_iff_wrapFree_negativeOffset :
    let _ : ExprOptions := ⟨false, true⟩
    let _ : APIntHash := ⟨fun _ => 0⟩
    AccessSound TimingSolver.exact negativeOffsetState negativeOffsetAddress 1 ↔
      WrapFree negativeOffsetState negativeOffsetAddress 1 := by
  intro _ _
  exact accessSound_iff_wrapFree TimingSolver.exact_correct negativeOffsetState_wellFormed
    negativeOffsetAddress_hasPointer rfl 1 (by decide)

end UCListener

end SymBisect
