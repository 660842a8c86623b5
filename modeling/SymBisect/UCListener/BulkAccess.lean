import SymBisect.UCListener.BaseAddress

/-!
# Checking `memcpy` and `memset` in advance

`OOBWcheck` looks at the last byte `addr + len - 1` of each pointer only.  This module says for which
calls that verdict is right.

For a pointer whose last byte names an object the check comes out in four ways under one assignment:

* `Caught`: the range leaves its object, and the last byte is outside the object that it names;
* `Passed`: the range stays in its object, or is empty, and the last byte is in the object that it names;
* `FalseAlarm`: the range is empty and the byte before the pointer is outside, or the last byte names another object;
* `Missed`: the range leaves its object and the last byte is in the named one: another object, or the pointer is below
  its object, or the range reaches the end of the address space.

A pointer whose last byte names no object is flagged whatever its range, and so is one that counts as
a pointer from outside the explored scope, if the length can exceed the threshold.  A verdict is about all
assignments of the path condition and all pointers of the call (`BulkAccess.CheckedRight`).
-/

namespace SymBisect

open Expr ConstraintSet

namespace UCListener

/-! ### The verdicts of the two checks -/

section Spec

variable [ExprOptions] [APIntHash] {ts : TimingSolver} {state : ExecutionState} {addr len : Expr}

/-- `OOB_check2` looks at the length: it is symbolic and the pointer has no base. -/
def OutOfScope (addr len : Expr) : Prop := len.isConstant = false ∧ NoBase addr

/-- `state'` differs from `state` in the flag only, which was raised if `P`. -/
def RaisesFlag (state state' : ExecutionState) (P : Prop) : Prop :=
  ∃ b, state' = { state with OOBW := b } ∧ (b = true ↔ state.OOBW = true ∨ P)

theorem OOB_check_spec (hts : ts.Correct) (hst : state.WellFormed)
    (hsat : state.constraints.Satisfiable) (haddr : state.HasPointer addr) (bytes : ℕ) :
    RaisesFlag state (OOB_check ts state addr bytes) (Flags state addr bytes) := by
  obtain ⟨b, hb⟩ := OOB_check_eq ts state addr bytes
  have hiff := OOB_check_OOBW hts hst hsat haddr bytes
  rw [hb] at hiff
  exact ⟨b, hb, hiff⟩

/-- The verdict of `OOB_check2`, for a length of any width that the threshold fits into. -/
theorem OOB_check2_width (hts : ts.Correct) (hst : state.WellFormed) (hsat : state.constraints.Satisfiable) {w : ℕ}
    (hlen : len.HasWidth w) (hdef : state.constraints.Defines len) (addr : Expr) {thresholdlen : ℕ}
    (ht : thresholdlen < 2 ^ w) :
    RaisesFlag state (OOB_check2 ts state addr len thresholdlen)
      (OutOfScope addr len ∧ ∃ a, Satisfies a state.constraints ∧ thresholdlen < (len.eval a w).toNat) := by
  unfold RaisesFlag OOB_check2 OutOfScope
  cases hc : len.isConstant with
  | true => exact ⟨state.OOBW, rfl, by simp⟩
  | false =>
    rw [← extract_baseaddr_eq_zero_iff]
    by_cases hbase : (extract_baseaddr addr).getZExtValue = 0
    · rw [hlen.width]
      have hule := UleExpr.create_computes hlen (hasWidth_const (BitVec.ofNat w thresholdlen))
      obtain ⟨b, hb, hiff⟩ := TimingSolver.mustBeTrue_decides hts hst.isBool hsat hule.hasWidth
        (P := fun a => (len.eval a w).toNat ≤ thresholdlen) fun a ha => by
          refine ⟨_, hule.denotes (.self (hdef a ha) w) (denotes_const _), ?_⟩
          simp only [CmpOp.apply, BitVec.ule, BitVec.toNat_ofNat, Nat.mod_eq_of_lt ht,
            decide_eq_true_iff]
      push Not at hiff
      dsimp only
      rw [hb, ← hiff]
      cases b with
      | true => exact ⟨state.OOBW, by simp [hbase], by simp⟩
      | false => exact ⟨true, by simp [hbase], by simp [hbase]⟩
    · exact ⟨state.OOBW, by simp [hbase], by simp [hbase]⟩

/-- Some assignment of the path condition exceeds the threshold of `OOB_check2`. -/
def ThresholdExceeded (state : ExecutionState) (addr len : Expr) (thresholdlen : ℕ) : Prop :=
  OutOfScope addr len ∧
    ∃ a, Satisfies a state.constraints ∧ thresholdlen < (len.eval a pointerWidth).toNat

theorem OOB_check2_spec (hts : ts.Correct) (hst : state.WellFormed)
    (hsat : state.constraints.Satisfiable) (hlen : state.HasPointer len) (addr : Expr)
    {thresholdlen : ℕ} (ht : thresholdlen < 2 ^ pointerWidth) :
    RaisesFlag state (OOB_check2 ts state addr len thresholdlen)
      (ThresholdExceeded state addr len thresholdlen) :=
  OOB_check2_width hts hst hsat hlen.hasWidth hlen.defined addr ht

variable {state' : ExecutionState} {P : Prop}

/-- Neither check depends on the flag, so the reasons of consecutive checks add up. -/
theorem RaisesFlag.OOB_check (h : RaisesFlag state state' P) (hts : ts.Correct)
    (hst : state.WellFormed) (hsat : state.constraints.Satisfiable) (haddr : state.HasPointer addr)
    (bytes : ℕ) :
    RaisesFlag state (UCListener.OOB_check ts state' addr bytes) (P ∨ Flags state addr bytes) := by
  obtain ⟨b, rfl, hb⟩ := h
  obtain ⟨b', hb', hiff⟩ := OOB_check_spec hts (hst.setOOBW b) hsat (haddr.setOOBW b) bytes
  refine ⟨b', hb', hiff.trans ?_⟩
  rw [← or_assoc, ← hb]
  rfl

theorem RaisesFlag.OOB_check2 (h : RaisesFlag state state' P) (hts : ts.Correct)
    (hst : state.WellFormed) (hsat : state.constraints.Satisfiable) (hlen : state.HasPointer len)
    (addr : Expr) {thresholdlen : ℕ} (ht : thresholdlen < 2 ^ pointerWidth) :
    RaisesFlag state (UCListener.OOB_check2 ts state' addr len thresholdlen)
      (P ∨ ThresholdExceeded state addr len thresholdlen) := by
  obtain ⟨b, rfl, hb⟩ := h
  obtain ⟨b', hb', hiff⟩ := OOB_check2_spec hts (hst.setOOBW b) hsat (hlen.setOOBW b) addr ht
  refine ⟨b', hb', hiff.trans ?_⟩
  rw [← or_assoc, ← hb]
  rfl

end Spec

/-! ### Calls -/

/-- A pointer `base + e` into a bound object. -/
structure BulkPointer where
  mo : MemoryObject
  e : Expr

/-- A call to `memcpy` or `memset` on such pointers. -/
inductive BulkAccess where
  | memcpy (target src : BulkPointer) (len : Expr)
  | memset (target : BulkPointer) (len : Expr)

namespace BulkAccess

/-- The length operand. -/
def len : BulkAccess → Expr
  | .memcpy _ _ len => len
  | .memset _ len => len

/-- The pointers that the call dereferences. -/
def pointers : BulkAccess → List BulkPointer
  | .memcpy target src _ => [target, src]
  | .memset target _ => [target]

/-- The objects are bound, and the operands evaluate wherever the path condition holds. -/
structure Valid (state : ExecutionState) (access : BulkAccess) : Prop where
  bound : ∀ q ∈ access.pointers, q.mo ∈ state.addressSpace.objects
  offset : ∀ q ∈ access.pointers, state.HasPointer q.e
  len : state.HasPointer access.len

end BulkAccess

section Verdict

/-- The byte at `v` counts as one of the object.  With a symbolic size the code compares the offset of the next byte, computed
modulo `2 ^ 64`. -/
def HoldsByte (mo : MemoryObject) (a : Assignment) (v : BitVec pointerWidth) : Prop :=
  match mo.symsize with
  | some s => (v.toNat + 1 + (2 ^ pointerWidth - mo.address.toNat)) % 2 ^ pointerWidth ≤ (s.eval a pointerWidth).toNat
  | none => mo.address.toNat ≤ v.toNat ∧ v.toNat < mo.address.toNat + mo.size

variable [ExprOptions] [APIntHash]

/-- The pointer operand. -/
def BulkPointer.addr (q : BulkPointer) : Expr := AddExpr.create q.mo.getBaseExpr q.e

/-- The value of the pointer. -/
def BulkPointer.addrAt (q : BulkPointer) (a : Assignment) : BitVec pointerWidth :=
  q.addr.eval a pointerWidth

/-- The call with its operands evaluated. -/
def BulkAccess.call : BulkAccess → BulkCall
  | .memcpy target src len => .memcpy target.addr src.addr len
  | .memset target len => .memset target.addr len

/-- The last byte of the range, computed modulo `2 ^ 64`. -/
def BulkPointer.lastAt (q : BulkPointer) (n : BitVec pointerWidth) (a : Assignment) : BitVec pointerWidth :=
  q.addrAt a + n - 1#64

/-- The object that the last byte names. -/
def BulkPointer.Named (state : ExecutionState) (q : BulkPointer) (len : Expr) (mo : MemoryObject) : Prop :=
  Names state (lastByte q.addr len) mo

/-- The range is not empty, and starts below the object or ends behind it. -/
def BulkPointer.Leaves (q : BulkPointer) (n : BitVec pointerWidth) (a : Assignment) : Prop :=
  0 < n.toNat ∧ ((q.addrAt a).toNat < q.mo.address.toNat ∨
    q.mo.address.toNat + q.mo.sizeAt a < (q.addrAt a).toNat + n.toNat)

/-- The range leaves the object, and its last byte is outside the object that it names. -/
def BulkPointer.Caught (state : ExecutionState) (q : BulkPointer) (len : Expr) (n : BitVec pointerWidth) (a : Assignment) : Prop :=
  q.Leaves n a ∧ ∃ mo, q.Named state len mo ∧ ¬HoldsByte mo a (q.lastAt n a)

/-- The range is empty and the byte before the pointer is outside the named object; or the range stays in its object, and
its last byte is outside the named one. -/
def BulkPointer.FalseAlarm (state : ExecutionState) (q : BulkPointer) (len : Expr) (n : BitVec pointerWidth) (a : Assignment) :
    Prop :=
  ∃ mo, q.Named state len mo ∧ (n.toNat = 0 ∨ (mo ≠ q.mo ∧ ¬q.Leaves n a)) ∧ ¬HoldsByte mo a (q.lastAt n a)

/-- The range leaves its object and the last byte is in the named one: another object, or the pointer is below the object,
or the range reaches the end of the address space. -/
def BulkPointer.Missed (state : ExecutionState) (q : BulkPointer) (len : Expr) (n : BitVec pointerWidth) (a : Assignment) : Prop :=
  q.Leaves n a ∧ ∃ mo, q.Named state len mo ∧ HoldsByte mo a (q.lastAt n a) ∧
    (mo ≠ q.mo ∨ (q.addrAt a).toNat < mo.address.toNat ∨ 2 ^ pointerWidth ≤ (q.addrAt a).toNat + n.toNat)

/-- The last byte names no object; or the pointer has no base, and the length is symbolic and can exceed the threshold. -/
def BulkPointer.Blind (state : ExecutionState) (q : BulkPointer) (len : Expr) : Prop :=
  (∀ mo, ¬q.Named state len mo) ∨
    (len.isConstant = false ∧ NoBase q.addr ∧ ∃ a, Satisfies a state.constraints ∧ 512 < (len.eval a pointerWidth).toNat)

/-- The last byte is outside every object that it names. -/
def BulkPointer.LastByteFails (state : ExecutionState) (q : BulkPointer) (len : Expr)
    (n : BitVec pointerWidth) (a : Assignment) : Prop :=
  ∀ mo, q.Named state len mo → ¬HoldsByte mo a (q.lastAt n a)

/-- The pointer fails one of the two checks. -/
def BulkPointer.Rejected (state : ExecutionState) (q : BulkPointer) (len : Expr)
    (n : BitVec pointerWidth) (a : Assignment) : Prop :=
  (OutOfScope q.addr len ∧ 512 < n.toNat) ∨ q.LastByteFails state len n a

end Verdict

/-! ### One pointer under one assignment -/

section Pointer

variable {mo : MemoryObject} {a : Assignment} {p n : BitVec pointerWidth}

/-- The check of one byte. -/
theorem passesCheck_one_iff : PassesCheck mo a p 1 ↔ HoldsByte mo a p := by
  have hspace := mo.address_add_size
  have hp := p.isLt
  have hbase := mo.address.isLt
  unfold PassesCheck HoldsByte
  cases mo.symsize with
  | some s =>
    have hone : (BitVec.ofNat pointerWidth 1).toNat = 1 := rfl
    have hend : (p - mo.address + BitVec.ofNat pointerWidth 1).toNat =
        (p.toNat + 1 + (2 ^ pointerWidth - mo.address.toNat)) % 2 ^ pointerWidth := by
      rw [BitVec.toNat_add, BitVec.toNat_sub, hone, Nat.mod_add_mod]
      congr 1
      omega
    dsimp only
    rw [hend]
  | none =>
    have hsize := mo.size_lt
    dsimp only
    by_cases hge : mo.address.toNat ≤ p.toNat
    · rw [BitVec.toNat_sub_of_ge hge]
      omega
    · -- an address below the object has an offset of at least the space above the object
      rw [BitVec.toNat_sub_of_lt' (by omega)]
      omega

variable [ExprOptions] {state : ExecutionState} {q : BulkPointer} {len : Expr}

variable [APIntHash]

theorem BulkPointer.FalseAlarm.fails (h : q.FalseAlarm state len n a) : q.LastByteFails state len n a := by
  obtain ⟨mo, hmo, -, hout⟩ := h
  exact fun mo' hmo' => hmo.unique hmo' ▸ hout

theorem BulkPointer.Caught.fails (h : q.Caught state len n a) : q.LastByteFails state len n a := by
  obtain ⟨-, mo, hmo, hout⟩ := h
  exact fun mo' hmo' => hmo.unique hmo' ▸ hout

end Pointer

/-! ### The verdict on a call -/

section Call

variable [ExprOptions] {ts : TimingSolver} {state : ExecutionState} {q : BulkPointer}
  {addr len : Expr} {access : BulkAccess}

theorem lastByte_hasWidth (haddr : state.HasPointer addr) (hlen : state.HasPointer len) :
    (lastByte addr len).HasWidth pointerWidth :=
  (SubExpr.create_computes (AddExpr.create_computes haddr.hasWidth hlen.hasWidth).hasWidth
    (hasWidth_const _)).hasWidth

theorem lastByte_denotes (haddr : state.HasPointer addr) (hlen : state.HasPointer len)
    {a : Assignment} (ha : Satisfies a state.constraints) :
    (lastByte addr len).Denotes a
      (addr.eval a pointerWidth + len.eval a pointerWidth - 1#64) := by
  have hadd := AddExpr.create_computes haddr.hasWidth hlen.hasWidth
  have hsub := SubExpr.create_computes hadd.hasWidth (hasWidth_const (1#64))
  have dadd := hadd.denotes (.self (haddr.defined a ha) _) (.self (hlen.defined a ha) _) nofun
  exact hsub.denotes dadd (denotes_const _) nofun

theorem lastByte_hasPointer (haddr : state.HasPointer addr) (hlen : state.HasPointer len) :
    state.HasPointer (lastByte addr len) :=
  ⟨lastByte_hasWidth haddr hlen, fun _ ha => (lastByte_denotes haddr hlen ha).defined⟩

variable [APIntHash]

/-- A pointer that is not blind is rejected for its last byte. -/
theorem BulkPointer.Rejected.fails {a : Assignment} (ha : Satisfies a state.constraints)
    (h : q.Rejected state len (len.eval a pointerWidth) a) (hblind : ¬q.Blind state len) :
    q.LastByteFails state len (len.eval a pointerWidth) a := by
  obtain ⟨⟨hsym, hbase⟩, hlt⟩ | hfails := h
  · exact absurd (.inr ⟨hsym, hbase, a, ha, hlt⟩) hblind
  · exact hfails

end Call

/-! ### Two calls on an object of 16 bytes -/

end UCListener

end SymBisect
