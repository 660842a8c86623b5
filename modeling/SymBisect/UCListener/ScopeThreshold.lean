import SymBisect.UCListener.BulkAccess

/-!
# The threshold for objects from outside the explored scope

`OOBWcheck` looks at the length of a `memcpy` or `memset`, and at the first index of a `getelementptr`, when the pointer names
no object.  For a bulk call the check of the last byte follows, which does not find an object either and raises the flag.

* `bulkOOBW`, `indexOOBW`: what raises the flag, for pointers without a base.
* `flaggedByThreshold_iff`: for pointers without a base, when the flag is raised for too large a length or index only.
-/

namespace SymBisect

open Expr ConstraintSet

namespace UCListener

section Code

variable [ExprOptions] [APIntHash]

/-- The `GetElementPtr` case of `OOBWcheck`. -/
def OOBWcheckIndex (ts : TimingSolver) (state : ExecutionState) (baseaddr index : Expr) : ExecutionState :=
  if state.OOBW then state else OOB_check2 ts state baseaddr index 16

/-- What `OOBWcheck` is asked about, with evaluated operands. -/
inductive ScopeAccess where
  | bulk (call : BulkCall)
  | gep (baseaddr index : Expr)

/-- `OOBWcheck`. -/
def OOBWcheckAccess (ts : TimingSolver) (state : ExecutionState) : ScopeAccess → ExecutionState
  | .bulk call => OOBWcheck ts state call
  | .gep baseaddr index => OOBWcheckIndex ts state baseaddr index

end Code

/-! ### What is asked of it -/

/-- The length of a call. -/
def BulkCall.len : BulkCall → Expr
  | .memcpy _ _ len => len
  | .memset _ len => len

/-- The pointers of a call. -/
def BulkCall.pointers : BulkCall → List Expr
  | .memcpy targetaddr srcaddr _ => [targetaddr, srcaddr]
  | .memset targetaddr _ => [targetaddr]

/-- The operands are as the code expects them, and evaluate wherever the path condition holds; no pointer has a base.  The
length of a call is symbolic; the constant 16 fits into the type of an index. -/
inductive ScopeAccess.Valid (state : ExecutionState) : ScopeAccess → Prop
  | bulk {call : BulkCall} (pointers : ∀ addr ∈ call.pointers, state.HasPointer addr ∧ NoBase addr)
      (len : state.HasPointer call.len) (symbolic : call.len.isConstant = false) : Valid state (.bulk call)
  | gep {baseaddr index : Expr} {w : ℕ} (base : NoBase baseaddr) (width : index.HasWidth w)
      (defined : state.constraints.Defines index) (fits : 16 < 2 ^ w) : Valid state (.gep baseaddr index)

/-- The length can exceed 512, or the index 16. -/
def ScopeAccess.CanExceed (state : ExecutionState) : ScopeAccess → Prop
  | .bulk call => ∃ a, Satisfies a state.constraints ∧ 512 < (call.len.eval a pointerWidth).toNat
  | .gep _ index => ∃ a, Satisfies a state.constraints ∧ 16 < (index.eval a index.getWidth).toNat

section Spec

variable [APIntHash]

/-- The last byte `addr + len - 1` names an object, and is in it under every assignment. -/
def LastByteInside [ExprOptions] (state : ExecutionState) (addr len : Expr) : Prop :=
  ∃ mo, Names state (lastByte addr len) mo ∧ ∀ a, Satisfies a state.constraints →
    HoldsByte mo a (addr.eval a pointerWidth + len.eval a pointerWidth - 1#64)

/-- Where the threshold alone decides: the length of a call can exceed it, or the last byte of every pointer is inside an
object; an index that can exceed it is not a constant. -/
def ScopeAccess.Decided [ExprOptions] (state : ExecutionState) : ScopeAccess → Prop
  | .bulk call => (ScopeAccess.bulk call).CanExceed state ∨ ∀ addr ∈ call.pointers, LastByteInside state addr call.len
  | .gep baseaddr index => (ScopeAccess.gep baseaddr index).CanExceed state → index.isConstant = false

variable {addr : Expr}

variable [ExprOptions] {ts : TimingSolver} {state : ExecutionState} {len : Expr} {access : ScopeAccess}

omit [ExprOptions] [APIntHash] in
theorem thresholdExceeded_iff (hsym : len.isConstant = false) (hbase : NoBase addr) : ThresholdExceeded state addr len 512 ↔
    ∃ a, Satisfies a state.constraints ∧ 512 < (len.eval a pointerWidth).toNat :=
  and_iff_right ⟨hsym, hbase⟩

/-- The check of the last byte raises the flag unless the byte is inside an object. -/
theorem flags_iff_not_lastByteInside (haddr : state.HasPointer addr) (hlen : state.HasPointer len) :
    Flags state (lastByte addr len) 1 ↔ ¬LastByteInside state addr len := by
  unfold Flags LastByteInside
  simp only [names_iff]
  cases state.addressSpace.resolveOne (extract_baseaddr (lastByte addr len)).getZExtValue with
  | none => exact iff_of_true trivial nofun
  | some mo =>
    rw [← not_iff_not, not_not]
    simp only [Option.some.injEq, exists_eq_left', not_exists, not_and, not_not]
    refine forall_congr' fun a => forall_congr' fun ha => ?_
    rw [(lastByte_denotes haddr hlen ha).value, passesCheck_one_iff]

/-- The flag after the check of an index. -/
theorem indexOOBW (hts : ts.Correct) (hst : state.WellFormed) (hsat : state.constraints.Satisfiable)
    (hflag : state.OOBW = false) {baseaddr index : Expr} {w : ℕ} (hbase : NoBase baseaddr) (hwidth : index.HasWidth w)
    (hdef : state.constraints.Defines index) (hfits : 16 < 2 ^ w) :
    (OOBWcheckIndex ts state baseaddr index).OOBW = true ↔
      index.isConstant = false ∧ ∃ a, Satisfies a state.constraints ∧ 16 < (index.eval a w).toNat := by
  obtain ⟨b, hb, hiff⟩ := OOB_check2_width hts hst hsat hwidth hdef baseaddr hfits
  have hres : OOBWcheckIndex ts state baseaddr index = { state with OOBW := b } := by
    unfold OOBWcheckIndex
    rw [hflag, if_neg Bool.false_ne_true]
    exact hb
  rw [hres]
  refine hiff.trans ?_
  rw [hflag, or_iff_right Bool.false_ne_true, OutOfScope, and_iff_left hbase]

/-- **What raises the flag for a call**: its length, compared with the threshold, and the last byte of a pointer. -/
theorem bulkOOBW (hts : ts.Correct) (hst : state.WellFormed) (hsat : state.constraints.Satisfiable)
    (hflag : state.OOBW = false) (call : BulkCall) (hpointers : ∀ addr ∈ call.pointers, state.HasPointer addr ∧ NoBase addr)
    (hlen : state.HasPointer call.len) (hsym : call.len.isConstant = false) :
    (OOBWcheck ts state call).OOBW = true ↔
      (ScopeAccess.bulk call).CanExceed state ∨ ¬∀ addr ∈ call.pointers, LastByteInside state addr call.len := by
  have ht : 512 < 2 ^ pointerWidth := by decide
  cases call with
  | memset targetaddr len =>
    obtain ⟨htarget, hbase⟩ := hpointers _ (List.mem_singleton_self _)
    have h₁ := OOB_check2_spec hts hst hsat hlen targetaddr ht
    obtain ⟨b, hb, hiff⟩ := h₁.OOB_check hts hst hsat (lastByte_hasPointer htarget hlen) 1
    have hres : OOBWcheck ts state (.memset targetaddr len) = { state with OOBW := b } := by
      simp only [OOBWcheck, hflag, Bool.false_eq_true, if_false]
      exact hb
    rw [hres]
    refine hiff.trans ?_
    rw [hflag, or_iff_right Bool.false_ne_true, thresholdExceeded_iff hsym hbase, flags_iff_not_lastByteInside htarget hlen]
    simp only [BulkCall.pointers, List.forall_mem_singleton]
    exact Iff.rfl
  | memcpy targetaddr srcaddr len =>
    obtain ⟨htarget, htargetBase⟩ := hpointers _ List.mem_cons_self
    obtain ⟨hsrc, hsrcBase⟩ := hpointers _ (List.mem_cons_of_mem _ (List.mem_singleton_self _))
    have hzero : isZeroLength len = false := by
      cases len with
      | const v => cases hsym
      | _ => rfl
    have h₁ := OOB_check2_spec hts hst hsat hlen srcaddr ht
    have h₂ := h₁.OOB_check2 hts hst hsat hlen targetaddr ht
    have h₃ := h₂.OOB_check hts hst hsat (lastByte_hasPointer htarget hlen) 1
    obtain ⟨b, hb, hiff⟩ := h₃.OOB_check hts hst hsat (lastByte_hasPointer hsrc hlen) 1
    have hres : OOBWcheck ts state (.memcpy targetaddr srcaddr len) = { state with OOBW := b } := by
      simp only [OOBWcheck, hflag, hzero, Bool.false_eq_true, if_false]
      exact hb
    rw [hres]
    refine hiff.trans ?_
    rw [hflag, or_iff_right Bool.false_ne_true, thresholdExceeded_iff hsym hsrcBase, thresholdExceeded_iff hsym htargetBase,
      or_self, flags_iff_not_lastByteInside htarget hlen, flags_iff_not_lastByteInside hsrc hlen, or_assoc, ← not_and_or]
    simp only [BulkCall.pointers]
    rw [List.forall_mem_cons, List.forall_mem_singleton]
    exact Iff.rfl

/-- The flag is raised exactly when the length or the index can exceed the threshold. -/
def ScopeAccess.FlaggedByThreshold (ts : TimingSolver) (state : ExecutionState) (access : ScopeAccess) : Prop :=
  (OOBWcheckAccess ts state access).OOBW = true ↔ access.CanExceed state

/-- **When only the threshold counts.**  Of a call the last byte is checked as well, and of a constant index nothing. -/
theorem flaggedByThreshold_iff (hts : ts.Correct) (hst : state.WellFormed) (hsat : state.constraints.Satisfiable)
    (hflag : state.OOBW = false) (hvalid : access.Valid state) :
    access.FlaggedByThreshold ts state ↔ access.Decided state := by
  cases hvalid with
  | @bulk call hpointers hlen hsym =>
    refine (iff_congr (bulkOOBW hts hst hsat hflag _ hpointers hlen hsym) Iff.rfl).trans ?_
    show _ ↔ (ScopeAccess.bulk call).CanExceed state ∨ _
    constructor
    · intro hiff
      by_contra hnot
      obtain ⟨hexceed, hinside⟩ := not_or.1 hnot
      exact hexceed (hiff.1 (.inr hinside))
    · rintro (hexceed | hinside)
      · exact iff_of_true (.inl hexceed) hexceed
      · exact or_iff_left (not_not.2 hinside)
  | @gep baseaddr index w hbase hwidth hdef hfits =>
    have hexceed : (ScopeAccess.gep baseaddr index).CanExceed state ↔
        ∃ a, Satisfies a state.constraints ∧ 16 < (index.eval a w).toNat := by
      show (∃ a, Satisfies a state.constraints ∧ 16 < (index.eval a index.getWidth).toNat) ↔ _
      rw [hwidth.width]
    show (_ ↔ _) ↔ ((ScopeAccess.gep baseaddr index).CanExceed state → _)
    rw [hexceed]
    exact (iff_congr (indexOOBW hts hst hsat hflag hbase hwidth hdef hfits) Iff.rfl).trans and_iff_right_iff_imp

end Spec

/-! ### A short `memset`, and a long one -/

/-- No object, and no constraints. -/
def noObjectState : ExecutionState := ExecutionState.init "main" 0 0

/-- A symbolic byte, as a pointer and as a length. -/
def byteOperand : Expr := .zext (symbolicByte 0) pointerWidth

/-- Two symbolic bytes, as a length. -/
def wordOperand : Expr := .zext (.concat (symbolicByte 0) (symbolicByte 1)) pointerWidth

theorem noObjectState_wellFormed : noObjectState.WellFormed := ⟨nofun, nofun⟩

theorem byteOperand_hasPointer : noObjectState.HasPointer byteOperand :=
  ⟨by decide, fun a _ => (symbolicByte_denotes 0 a).defined⟩

theorem byteOperand_noBase : NoBase byteOperand := fun _ h => h.elim

theorem wordOperand_hasPointer : noObjectState.HasPointer wordOperand :=
  ⟨by decide, fun a _ => ⟨(symbolicByte_denotes 0 a).defined, (symbolicByte_denotes 1 a).defined⟩⟩

/-- `memset(p, c, n)` where the length is a byte. -/
def shortMemset : ScopeAccess := .bulk (.memset byteOperand byteOperand)

/-- `memset(p, c, n)` where the length is two bytes. -/
def longMemset : ScopeAccess := .bulk (.memset byteOperand wordOperand)

theorem longMemset_valid : longMemset.Valid noObjectState :=
  .bulk (List.forall_mem_singleton.2 ⟨byteOperand_hasPointer, byteOperand_noBase⟩) wordOperand_hasPointer rfl

theorem shortMemset_cannotExceed : ¬shortMemset.CanExceed noObjectState := by
  rintro ⟨a, -, hlt⟩
  have hbyte : (byteOperand.eval a pointerWidth).toNat ≤ 255 := by
    unfold byteOperand
    rw [Expr.eval, BitVec.toNat_setWidth]
    exact (Nat.mod_le _ _).trans (Nat.le_of_lt_succ (BitVec.isLt _))
  exact absurd hlt (by show ¬512 < (byteOperand.eval a pointerWidth).toNat; omega)

/-- The flag is raised, although the length is at most 255. -/
theorem shortMemset_flagged :
    let _ : ExprOptions := ⟨false, true⟩
    let _ : APIntHash := ⟨fun _ => 0⟩
    ¬shortMemset.FlaggedByThreshold TimingSolver.exact noObjectState := by
  intro _ _ hright
  refine shortMemset_cannotExceed (hright.1 ?_)
  refine (bulkOOBW TimingSolver.exact_correct noObjectState_wellFormed ⟨fun _ _ => 0#8, nofun⟩ rfl
    (.memset byteOperand byteOperand) (List.forall_mem_singleton.2 ⟨byteOperand_hasPointer, byteOperand_noBase⟩)
    byteOperand_hasPointer rfl).2 (.inr fun hinside => ?_)
  -- there is no object at all
  obtain ⟨mo, hmo, -⟩ := hinside byteOperand (List.mem_singleton_self _)
  exact List.not_mem_nil (AddressSpace.resolveOne_spec (names_iff.1 hmo)).1

/-- A length of two bytes can exceed the threshold, so the flag is raised rightly. -/
theorem longMemset_flaggedByThreshold :
    let _ : ExprOptions := ⟨false, true⟩
    let _ : APIntHash := ⟨fun _ => 0⟩
    longMemset.FlaggedByThreshold TimingSolver.exact noObjectState := by
  intro _ _
  refine (flaggedByThreshold_iff TimingSolver.exact_correct noObjectState_wellFormed ⟨fun _ _ => 0#8, nofun⟩ rfl
    longMemset_valid).2 (.inl ⟨fun _ _ => 255#8, nofun, ?_⟩)
  decide

end UCListener

end SymBisect
