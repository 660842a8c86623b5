import SymBisect.Expr.Evaluator

/-!
# Inverting an index expression

`AssignmentGenerator::generatePartialAssignment` of `lib/Expr/AssignmentGenerator.cpp` looks for bytes of one array under which an
expression has a given value.  It walks down to the operand that is not constant, with one rule for each operator that says what
to ask of the operand, and binds the array that is read at the end.

* `asked`: what the rules ask of the operand, on bit vectors; `Undone` and `UndoneLeft` say when that is right.
* `Invertible`: every rule on the way is right at the value it meets, and the bytes fall where the read looks for them.
* `generatePartialAssignment_evaluates`: then the expression has the value under the assignment.

The shifts call `createShlExpr` and `createLShrExpr` with the operands the other way round (`scaledRead_differs`), a sum with a
negative constant and a difference from a constant ask for the wrong value, and `Not` asks for the value itself.
-/

namespace SymBisect

open Expr

namespace AssignmentGenerator

section

variable [ExprOptions]

/-! ### The helpers that build expressions -/

def createSubExpr (l r : Expr) : Expr := SubExpr.create r l

def createAddExpr (l r : Expr) : Expr := AddExpr.create r l

def createMulExpr (l r : Expr) : Expr := MulExpr.create r l

def createDivRem (l r : Expr) (sign : Bool) : Expr := if sign then SRemExpr.create r l else URemExpr.create r l

def createDivExpr (l r : Expr) (sign : Bool) : Expr := if sign then SDivExpr.create r l else UDivExpr.create r l

def createShlExpr (l r : Expr) : Expr := ShlExpr.create r l

def createLShrExpr (l r : Expr) : Expr := LShrExpr.create r l

def createAndExpr (l r : Expr) : Expr := AndExpr.create r l

/-- `createExtractExpr`, with the assertion of `ExtractExpr::create`. -/
def createExtractExpr (l r : Expr) : Option Expr :=
  if 0 < l.getWidth ∧ l.getWidth ≤ r.getWidth then some (ExtractExpr.create r 0 l.getWidth) else none

def createExtendExpr (l r : Expr) : Expr :=
  match l with
  | .zext _ w => ZExtExpr.create r w
  | l => SExtExpr.create r l.getWidth

/-! ### Reads -/

/-- `isReadExprAtOffset`; `base` is the index of the first read.  All reads are byte reads. -/
def isReadExprAtOffset (e base offset : Expr) : Bool :=
  match e with
  | .read _ index => SubExpr.create index base == offset
  | _ => false

/-- The loop of `hasOrderedReads`, over the reads after the first. -/
def orderedReads (base : Expr) (offset : Expr) : Expr → Option (UpdateList × Expr)
  | .concat l r =>
    let offset := AddExpr.create offset (.const (BitVec.ofInt base.getWidth (-1)))
    if isReadExprAtOffset l base offset then orderedReads base offset r else none
  | .read updates index =>
    let offset := AddExpr.create offset (.const (BitVec.ofInt base.getWidth (-1)))
    if isReadExprAtOffset (.read updates index) base offset then some (updates, index) else none
  | _ => none

/-- `hasOrderedReads`: the last read of a chain of reads whose indices go down by one. -/
def hasOrderedReads : Expr → Option (UpdateList × Expr)
  | .concat (.read _ base) r => orderedReads base (.const (0 : BitVec base.getWidth)) r
  | _ => none

/-- `getByteValue`: the bytes of a constant, the lowest first. -/
def getByteValue : Expr → List (BitVec 8)
  | .const (w := w) value => (List.range (w / 8)).map fun i => value.extractLsb' (8 * i) 8
  | _ => []

/-- `getIndexedValue`: the array as a sequence of values, all zero but the one that holds `index`.  Nothing is returned when the
assertion on the index fails, or when the division by the number of bytes does. -/
def getIndexedValue {w : ℕ} (c_val : List (BitVec 8)) (index : BitVec w) (size : ℕ) : Option (List (BitVec 8)) :=
  if index = BitVec.intMin w ∨ c_val = [] then none
  else
    some ((List.range (size / c_val.length)).flatMap fun i =>
      if i = index.toNat / c_val.length then c_val else List.replicate c_val.length 0)

/-- The case `Read`; `otherwise` is the call for an index that is not constant. -/
def readAssignment (root : Array) (index val : Expr) (a : Bindings) (otherwise : Option Bindings) : Option Bindings :=
  match index with
  | .const index =>
    if root.isSymbolicArray then
      (getIndexedValue (getByteValue val) index root.size).bind fun c_value =>
        if c_value = [] then none
        else if (a.find root).isSome then none
        else some ((root, c_value) :: a)
    else some a
  | _ => otherwise

/-! ### The walk -/

/-- What the operator asks of the operand beside the constant `kid_val`.  The constructors assert that the widths agree. -/
def operandValue (op : BinOp) (kid_val val : Expr) (sign : Bool) : Option Expr :=
  if kid_val.getWidth ≠ val.getWidth then none
  else match op with
    | .add =>
      -- really bad hack to support those cases in which KLEE creates Add expressions with negative values
      if !ExprEvaluator.isZero (ExtractExpr.create kid_val (kid_val.getWidth - 1) 1) then some (createAddExpr kid_val val)
      else some (createSubExpr kid_val val)
    | .sub => some (createAddExpr kid_val val)
    | .mul =>
      if ExprEvaluator.isZero kid_val then none
      else if !ExprEvaluator.isZero (createDivRem kid_val val sign) then none
      else some (createDivExpr kid_val val sign)
    | .udiv | .sdiv => some (createMulExpr kid_val val)
    | .lshr => some (createShlExpr val kid_val)
    | .shl => some (createLShrExpr val kid_val)
    | .and => some (createAndExpr kid_val val)
    | _ => none

/-- The operators whose constant may stand on the left. -/
def eitherSide : BinOp → Bool
  | .lshr | .shl => false
  | _ => true

mutual

/-- `helperGenerateAssignment`; nothing is returned when the source returns false or stops at an assertion.  The parameter `width`
is only passed on. -/
def helperGenerateAssignment : Expr → Expr → Bool → Bindings → Option Bindings
  | .bin op l r, val, sign, a =>
    if l.isConstant && eitherSide op then
      (operandValue op l val sign).bind fun val => helperGenerateAssignment r val sign a
    else if r.isConstant then
      (operandValue op r val sign).bind fun val => helperGenerateAssignment l val sign a
    else none
  | .not e, val, sign, a => helperGenerateAssignment e val sign a
  | .zext src _, val, _, a => (createExtractExpr src val).bind fun val => helperGenerateAssignment src val false a
  | .sext src _, val, _, a => (createExtractExpr src val).bind fun val => helperGenerateAssignment src val true a
  | .concat l r, val, sign, a =>
    if (hasOrderedReads (.concat l r)).isSome then helperBase r val sign a else none
  | .extract e _ _, val, sign, a => helperGenerateAssignment e (createExtendExpr e val) sign a
  | .read updates index, val, sign, a =>
    readAssignment updates.getRoot index val a (helperGenerateAssignment index val sign a)
  | _, _, _, _ => none

/-- The call on the read that `hasOrderedReads` returns: the last one of the chain. -/
def helperBase : Expr → Expr → Bool → Bindings → Option Bindings
  | .concat _ r, val, sign, a => helperBase r val sign a
  | .read updates index, val, sign, a =>
    readAssignment updates.getRoot index val a (helperGenerateAssignment index val sign a)
  | _, _, _, _ => none

end

/-- `generatePartialAssignment`. -/
def generatePartialAssignment (e val : Expr) (a : Bindings) : Option Bindings := helperGenerateAssignment e val false a

end

/-! ### The condition -/

section

variable {w : ℕ}

/-- What the rule of an operator asks of the operand beside the constant `k`, for the value `v`. -/
def asked (op : BinOp) (sign : Bool) (k v : BitVec w) : BitVec w :=
  match op with
  | .add => if k.msb then v + k else v - k
  | .sub => v + k
  | .mul => if sign then v.sdiv k else v / k
  | .udiv | .sdiv => v * k
  | .lshr => k <<< v
  | .shl => k >>> v
  | .and => v &&& k
  | _ => v

/-- The rule is right at `v` for the constant `k` on the right. -/
def Undone (op : BinOp) (k v : BitVec w) : Prop :=
  match op with
  | .add => k.msb = true → k + k = 0
  | .sub | .mul => True
  | .udiv => k ≠ 0 ∧ v * k / k = v
  | .sdiv => k ≠ 0 ∧ (v * k).sdiv k = v
  | .lshr => (k <<< v) >>> k = v
  | .shl => (k >>> v) <<< k = v
  | .and => v &&& k = v
  | _ => False

/-- The rule is right at `v` for the constant `k` on the left. -/
def UndoneLeft (op : BinOp) (k v : BitVec w) : Prop :=
  match op with
  | .add => k.msb = true → k + k = 0
  | .sub => v + v = 0
  | .mul => True
  | .udiv => v * k ≠ 0 ∧ k / (v * k) = v
  | .sdiv => v * k ≠ 0 ∧ k.sdiv (v * k) = v
  | .and => v &&& k = v
  | _ => False

/-- The `n` bytes of `v` are where the reads look for them from the index `b` on: an array without constants has room for the
whole value at a multiple of its size, and constants are the bytes already. -/
def Supplied (arr : Array) (b n : ℕ) (v : BitVec w) : Prop :=
  if arr.isSymbolicArray then v = 0 ∨ (n ∣ b ∧ b + n ≤ arr.size)
  else ∀ j < n, arr.constantValues[b + j]? = some (v.extractLsb' (8 * j) 8)

/-- Whatever the bytes are, no update is at the index `b`. -/
def Misses (b : BitVec 32) : UpdateList → Prop
  | .root _ => True
  | .extend next index _ =>
    (index.Plain ∧ ∀ asg : Assignment, index.Defined asg ∧ index.eval asg 32 ≠ b) ∧ Misses b next

/-- `n` reads of one array, joined, at constant indices that no update of theirs is at; `b` is the last index. -/
inductive ReadsOf (arr : Array) : Expr → BitVec 32 → ℕ → Prop
  | one {updates : UpdateList} (b : BitVec 32) (hroot : updates.getRoot = arr) (hmiss : Misses b updates) :
      ReadsOf arr (.read updates (.const b)) b 1
  | more {updates : UpdateList} {r : Expr} {b : BitVec 32} {n : ℕ} (i : BitVec 32) (hroot : updates.getRoot = arr)
      (hmiss : Misses i updates) (h : ReadsOf arr r b n) : ReadsOf arr (.concat (.read updates (.const i)) r) b (n + 1)

/-- Every rule on the way from the expression to the reads is right at the value it meets. -/
inductive Invertible : Bool → Expr → {w : ℕ} → BitVec w → Prop
  | right {sign : Bool} {op : BinOp} {l : Expr} {w : ℕ} {k v : BitVec w} (hrule : Undone op k v)
      (h : Invertible sign l (asked op sign k v)) : Invertible sign (.bin op l (.const k)) v
  | left {sign : Bool} {op : BinOp} {r : Expr} {w : ℕ} {k v : BitVec w} (hrule : UndoneLeft op k v)
      (h : Invertible sign r (asked op sign k v)) : Invertible sign (.bin op (.const k) r) v
  | zext {sign : Bool} {src : Expr} {w : ℕ} {v : BitVec w} (hsmall : v.toNat < 2 ^ src.getWidth)
      (h : Invertible false src (v.setWidth src.getWidth)) : Invertible sign (.zext src w) v
  | sext {sign : Bool} {src : Expr} {w : ℕ} {v : BitVec w} (hsmall : (v.setWidth src.getWidth).signExtend w = v)
      (h : Invertible true src (v.setWidth src.getWidth)) : Invertible sign (.sext src w) v
  | extractZExt {sign : Bool} {src : Expr} {n off w : ℕ} {v : BitVec w} (hbits : (v.setWidth n).extractLsb' off w = v)
      (h : Invertible sign (.zext src n) (v.setWidth n)) : Invertible sign (.extract (.zext src n) off w) v
  | extract {sign : Bool} {e : Expr} {off w : ℕ} {v : BitVec w} (hkind : ∀ src n, e ≠ .zext src n)
      (hbits : (v.signExtend e.getWidth).extractLsb' off w = v) (h : Invertible sign e (v.signExtend e.getWidth)) :
      Invertible sign (.extract e off w) v
  | reads {sign : Bool} {e : Expr} {arr : Array} {b : BitVec 32} {n w : ℕ} {v : BitVec w} (hreads : ReadsOf arr e b n)
      (hsupplied : Supplied arr b.toNat n v) : Invertible sign e v

/-! ### One rule -/

theorem extractLsb'_top (k : BitVec w) : (k.extractLsb' (w - 1) 1 == 0) = !k.msb := by
  rw [BitVec.msb_eq_getLsbD_last, Bool.eq_iff_iff, beq_iff_eq, Bool.not_eq_true']
  constructor
  · intro h
    have hbit := congrArg (fun x => BitVec.getLsbD x 0) h
    simpa using hbit
  · intro h
    apply BitVec.eq_of_getLsbD_eq
    intro i hi
    obtain rfl : i = 0 := by omega
    simpa using h

theorem mul_sdiv_of_srem {k v : BitVec w} (h : v.srem k = 0) : v.sdiv k * k = v := by
  have hrem : v.toInt.tmod k.toInt = 0 := by
    rw [← BitVec.toInt_srem, h]
    exact BitVec.toInt_zero
  have hdiv : v.sdiv k = BitVec.ofInt w (v.toInt.tdiv k.toInt) := by
    apply BitVec.eq_of_toInt_eq
    rw [BitVec.toInt_sdiv, BitVec.toInt_ofInt]
  have hproduct : v.toInt.tdiv k.toInt * k.toInt = v.toInt := Int.tdiv_mul_cancel (Int.dvd_of_tmod_eq_zero hrem)
  calc v.sdiv k * k = BitVec.ofInt w (v.toInt.tdiv k.toInt) * BitVec.ofInt w k.toInt := by rw [hdiv, BitVec.ofInt_toInt]
    _ = BitVec.ofInt w v.toInt := by rw [← BitVec.ofInt_mul, hproduct]
    _ = v := BitVec.ofInt_toInt

theorem mul_udiv_of_umod {k v : BitVec w} (h : v % k = 0) : v / k * k = v := by
  apply BitVec.eq_of_toNat_eq
  have hrem : v.toNat % k.toNat = 0 := by
    rw [← BitVec.toNat_umod, h]
    rfl
  have hproduct := Nat.div_mul_cancel (Nat.dvd_of_mod_eq_zero hrem)
  rw [BitVec.toNat_mul, BitVec.toNat_udiv, hproduct, Nat.mod_eq_of_lt v.isLt]

/-- The rule for a product asks for nothing unless the value is a multiple of the constant. -/
def Divides (op : BinOp) (sign : Bool) (k v : BitVec w) : Prop :=
  op = .mul → k ≠ 0 ∧ (if sign then v.srem k else v % k) = 0

theorem Divides.mul_asked {sign : Bool} {k v : BitVec w} (h : Divides .mul sign k v) : asked .mul sign k v * k = v := by
  obtain ⟨-, hrem⟩ := h rfl
  cases sign with
  | false => exact mul_udiv_of_umod hrem
  | true => exact mul_sdiv_of_srem hrem

theorem apply_add_asked {sign : Bool} {k v : BitVec w} (h : k.msb = true → k + k = 0) : asked .add sign k v + k = v := by
  unfold asked
  by_cases hmsb : k.msb = true
  · rw [if_pos hmsb, add_assoc, h hmsb, add_zero]
  · rw [if_neg hmsb, sub_add_cancel]

theorem and_asked {k v : BitVec w} (h : v &&& k = v) : v &&& k &&& k = v := by
  rw [h, h]

/-- **A rule with the constant on the right.** -/
theorem Undone.apply {op : BinOp} {sign : Bool} {k v : BitVec w} (h : Undone op k v) (hdvd : Divides op sign k v) :
    op.apply (asked op sign k v) k = v ∧ (op.isDivision = true → k ≠ 0) := by
  cases op with
  | add => exact ⟨apply_add_asked h, fun hdiv => absurd hdiv (by decide)⟩
  | sub => exact ⟨add_sub_cancel_right v k, fun hdiv => absurd hdiv (by decide)⟩
  | mul => exact ⟨hdvd.mul_asked, fun hdiv => absurd hdiv (by decide)⟩
  | udiv => exact ⟨h.2, fun _ => h.1⟩
  | sdiv => exact ⟨h.2, fun _ => h.1⟩
  | and => exact ⟨and_asked h, fun hdiv => absurd hdiv (by decide)⟩
  | shl => exact ⟨h, fun hdiv => absurd hdiv (by decide)⟩
  | lshr => exact ⟨h, fun hdiv => absurd hdiv (by decide)⟩
  | urem => cases h
  | srem => cases h
  | or => cases h
  | xor => cases h
  | ashr => cases h

/-- **A rule with the constant on the left.** -/
theorem UndoneLeft.apply {op : BinOp} {sign : Bool} {k v : BitVec w} (h : UndoneLeft op k v) (hdvd : Divides op sign k v) :
    op.apply k (asked op sign k v) = v ∧ (op.isDivision = true → asked op sign k v ≠ 0) := by
  cases op with
  | add => exact ⟨(BitVec.add_comm _ _).trans (apply_add_asked h), fun hdiv => absurd hdiv (by decide)⟩
  | sub =>
    have hneg : k - (v + k) = v := by
      rw [sub_add_cancel_right]
      exact neg_eq_of_add_eq_zero_left h
    exact ⟨hneg, fun hdiv => absurd hdiv (by decide)⟩
  | mul => exact ⟨(BitVec.mul_comm _ _).trans hdvd.mul_asked, fun hdiv => absurd hdiv (by decide)⟩
  | udiv => exact ⟨h.2, fun _ => h.1⟩
  | sdiv => exact ⟨h.2, fun _ => h.1⟩
  | and => exact ⟨(BitVec.and_comm _ _).trans (and_asked h), fun hdiv => absurd hdiv (by decide)⟩
  | shl => cases h
  | lshr => cases h
  | urem => cases h
  | srem => cases h
  | or => cases h
  | xor => cases h
  | ashr => cases h

section

variable [ExprOptions]

omit [ExprOptions] in
theorem isZero_extract_top (k : BitVec w) :
    ExprEvaluator.isZero (ExtractExpr.create (.const k) ((Expr.const k).getWidth - 1) 1) = !k.msb := by
  rw [← extractLsb'_top k, ExtractExpr.create, ExtractExpr.createAux]
  by_cases hw : 1 = (Expr.const k).getWidth
  · rw [if_pos hw]
    obtain rfl : 1 = w := hw
    show (k == 0) = (k.extractLsb' 0 1 == 0)
    rw [BitVec.extractLsb'_eq_self]
  · rw [if_neg hw]
    rfl

theorem createAddExpr_const (k v : BitVec w) : createAddExpr (.const k) (.const v) = .const (v + k) := by
  rw [createAddExpr, AddExpr.create_const_left, AddExpr.createConst, BitVec.setWidth_eq]

theorem createSubExpr_const (k v : BitVec w) : createSubExpr (.const k) (.const v) = .const (v - k) := by
  rw [createSubExpr, SubExpr.create_const_left, SubExpr.createConst, BitVec.setWidth_eq]

omit [ExprOptions] in
/-- `BCREATE` on two constants. -/
theorem bcreate_const (op : BinOp) (create : Expr → Expr → Expr) (x y : BitVec w) :
    bcreate op create (.const x) (.const y) = .const (op.apply x y) := by
  show Expr.const (op.apply x (y.setWidth w)) = _
  rw [BitVec.setWidth_eq]

omit [ExprOptions] in
/-- `BCREATE_R` on two constants. -/
theorem bcreateR_const (op : BinOp) (createPartial : {w : ℕ} → Expr → BitVec w → Expr)
    (createPartialR : {w : ℕ} → BitVec w → Expr → Expr) (create : Expr → Expr → Expr) (x y : BitVec w) :
    bcreateR op createPartial createPartialR create (.const x) (.const y) = .const (op.apply x y) := by
  show Expr.const (op.apply x (y.setWidth w)) = _
  rw [BitVec.setWidth_eq]

omit [ExprOptions] in
theorem createDivRem_const (k v : BitVec w) (sign : Bool) :
    createDivRem (.const k) (.const v) sign = .const (if sign then v.srem k else v % k) := by
  cases sign with
  | false => rw [createDivRem, if_neg Bool.false_ne_true, URemExpr.create, bcreate_const]; rfl
  | true => rw [createDivRem, if_pos rfl, SRemExpr.create, bcreate_const]; rfl

omit [ExprOptions] in
theorem createDivExpr_const (k v : BitVec w) (sign : Bool) :
    createDivExpr (.const k) (.const v) sign = .const (asked .mul sign k v) := by
  cases sign with
  | false => rw [createDivExpr, if_neg Bool.false_ne_true, UDivExpr.create, bcreate_const]; rfl
  | true => rw [createDivExpr, if_pos rfl, SDivExpr.create, bcreate_const]; rfl

/-- **The rules on constants.** -/
theorem operandValue_const {op : BinOp} {sign : Bool} {k v : BitVec w} {val : Expr}
    (h : operandValue op (.const k) (.const v) sign = some val) :
    val = .const (asked op sign k v) ∧ Divides op sign k v := by
  have hother : op ≠ .mul → Divides op sign k v := fun hne heq => absurd heq hne
  have hwidth : ¬(Expr.const k).getWidth ≠ (Expr.const v).getWidth := not_not_intro rfl
  cases op with
  | add =>
    rw [operandValue, if_neg hwidth] at h
    simp only [isZero_extract_top, Bool.not_not, createAddExpr_const, createSubExpr_const] at h
    refine ⟨?_, hother (by decide)⟩
    unfold asked
    by_cases hmsb : k.msb = true
    · rw [if_pos hmsb] at h ⊢
      exact (Option.some.inj h).symm
    · rw [if_neg hmsb] at h ⊢
      exact (Option.some.inj h).symm
  | sub =>
    rw [operandValue, if_neg hwidth, createAddExpr_const] at h
    exact ⟨(Option.some.inj h).symm, hother (by decide)⟩
  | mul =>
    rw [operandValue, if_neg hwidth, createDivRem_const, createDivExpr_const] at h
    by_cases hk : ExprEvaluator.isZero (.const k) = true
    · rw [if_pos hk] at h
      cases h
    · rw [if_neg hk] at h
      by_cases hrem : (!ExprEvaluator.isZero (.const (if sign then v.srem k else v % k))) = true
      · rw [if_pos hrem] at h
        cases h
      · rw [if_neg hrem] at h
        refine ⟨(Option.some.inj h).symm, fun _ => ⟨fun hzero => hk (beq_iff_eq.2 hzero), ?_⟩⟩
        rw [Bool.not_eq_true, Bool.not_eq_false'] at hrem
        exact beq_iff_eq.1 hrem
  | udiv =>
    rw [operandValue, if_neg hwidth, createMulExpr, MulExpr.create, bcreateR_const] at h
    exact ⟨(Option.some.inj h).symm, hother (by decide)⟩
  | sdiv =>
    rw [operandValue, if_neg hwidth, createMulExpr, MulExpr.create, bcreateR_const] at h
    exact ⟨(Option.some.inj h).symm, hother (by decide)⟩
  | lshr =>
    rw [operandValue, if_neg hwidth, createShlExpr, ShlExpr.create, bcreate_const] at h
    exact ⟨(Option.some.inj h).symm, hother (by decide)⟩
  | shl =>
    rw [operandValue, if_neg hwidth, createLShrExpr, LShrExpr.create, bcreate_const] at h
    exact ⟨(Option.some.inj h).symm, hother (by decide)⟩
  | and =>
    rw [operandValue, if_neg hwidth, createAndExpr, AndExpr.create, bcreateR_const] at h
    exact ⟨(Option.some.inj h).symm, hother (by decide)⟩
  | _ =>
    rw [operandValue, if_neg hwidth] at h
    · cases h
    all_goals exact fun heq => by cases heq

end

/-! ### The bytes at the end of the way -/

theorem flatMap_chunks {α : Type*} {f : ℕ → List α} {n : ℕ} (hf : ∀ i, (f i).length = n) (hn : 0 < n) (m p : ℕ) :
    ((List.range m).flatMap f)[p]? = if p / n < m then (f (p / n))[p % n]? else none := by
  have hlength : ∀ m, ((List.range m).flatMap f).length = m * n := by
    intro m
    induction m with
    | zero => rw [Nat.zero_mul]; rfl
    | succ m ih =>
      rw [List.range_succ, List.flatMap_append, List.length_append, ih, List.flatMap_singleton, hf]
      ring
  induction m with
  | zero => rfl
  | succ m ih =>
    rw [List.range_succ, List.flatMap_append, List.flatMap_singleton]
    by_cases hp : p < m * n
    · have hm : p / n < m := (Nat.div_lt_iff_lt_mul hn).2 hp
      rw [List.getElem?_append_left (by rw [hlength]; exact hp), ih, if_pos hm, if_pos (by omega)]
    · rw [List.getElem?_append_right (by rw [hlength]; omega), hlength]
      by_cases hlast : p < (m + 1) * n
      · have hm : p / n = m := by
          apply Nat.div_eq_of_lt_le
          · omega
          · exact hlast
        have hmod := Nat.div_add_mod p n
        rw [hm, Nat.mul_comm] at hmod
        rw [if_pos (by omega), hm]
        congr 1
        omega
      · have hm : ¬p / n < m + 1 := by
          rw [Nat.div_lt_iff_lt_mul hn]
          exact hlast
        rw [if_neg hm]
        apply List.getElem?_eq_none
        rw [hf]
        have hsum : (m + 1) * n = m * n + n := by ring
        omega

theorem getByteValue_length (v : BitVec w) : (getByteValue (.const v)).length = w / 8 := by
  rw [getByteValue, List.length_map, List.length_range]

theorem getByteValue_getElem? (v : BitVec w) {j : ℕ} (h : j < w / 8) :
    (getByteValue (.const v))[j]? = some (v.extractLsb' (8 * j) 8) := by
  rw [getByteValue, List.getElem?_map, List.getElem?_range h, Option.map_some]

/-- The byte at a place of the bytes that are bound. -/
theorem getIndexedValue_getD {v : BitVec w} {b : BitVec 32} {size : ℕ} {bytes : List (BitVec 8)}
    (h : getIndexedValue (getByteValue (.const v)) b size = some bytes) (p : ℕ) :
    0 < w / 8 ∧ bytes.getD p 0 =
      if p / (w / 8) < size / (w / 8) ∧ p / (w / 8) = b.toNat / (w / 8) then v.extractLsb' (8 * (p % (w / 8))) 8 else 0 := by
  unfold getIndexedValue at h
  by_cases hbad : b = BitVec.intMin 32 ∨ getByteValue (.const v) = []
  · rw [if_pos hbad] at h
    cases h
  · rw [if_neg hbad, getByteValue_length] at h
    have hn : 0 < w / 8 := by
      rw [← getByteValue_length v, List.length_pos_iff]
      exact fun hnil => hbad (.inr hnil)
    refine ⟨hn, ?_⟩
    have hchunk : ∀ i, (if i = b.toNat / (w / 8) then getByteValue (.const v) else List.replicate (w / 8) 0).length = w / 8 := by
      intro i
      by_cases hi : i = b.toNat / (w / 8)
      · rw [if_pos hi, getByteValue_length]
      · rw [if_neg hi, List.length_replicate]
    rw [← Option.some.inj h, List.getD_eq_getElem?_getD, flatMap_chunks hchunk hn]
    have hmod := Nat.mod_lt p hn
    by_cases hlt : p / (w / 8) < size / (w / 8)
    · rw [if_pos hlt]
      by_cases hi : p / (w / 8) = b.toNat / (w / 8)
      · rw [if_pos hi, if_pos ⟨hlt, hi⟩, getByteValue_getElem? v hmod, Option.getD_some]
      · rw [if_neg hi, if_neg fun hboth => hi hboth.2, List.getElem?_replicate, if_pos hmod, Option.getD_some]
    · rw [if_neg hlt, if_neg fun hboth => hlt hboth.1, Option.getD_none]

variable {arr : Array} {a a' : Bindings} {otherwise : Option Bindings}

theorem read_denotes {b : Bindings} {i : BitVec 32} {x : BitVec 8} (hdef : arr.isConstantArray = true → i.toNat < arr.size)
    (hval : arr.initialValue b.toAssignment i.toNat = x) :
    (Expr.read (.root arr) (.const i)).Denotes b.toAssignment x := by
  have hindex : (Expr.const i).eval b.toAssignment 32 = i := (denotes_const i).value
  refine ⟨⟨trivial, ?_⟩, ?_⟩
  · rw [hindex]
    exact hdef
  · rw [Expr.eval, hindex, BitVec.setWidth_eq]
    exact hval

/-- Updates at other indices are passed over. -/
theorem Misses.evalAt_eq {asg : Assignment} {i : BitVec 32} (updates : UpdateList) (hmiss : Misses i updates)
    (hdef : (UpdateList.root updates.getRoot).DefinedAt asg i.toNat) :
    updates.DefinedAt asg i.toNat ∧ updates.evalAt asg i.toNat = updates.getRoot.initialValue asg i.toNat := by
  match updates with
  | .root arr => exact ⟨hdef, rfl⟩
  | .extend next index value =>
    obtain ⟨⟨-, hother⟩, hmiss⟩ := hmiss
    obtain ⟨hindex, hne⟩ := hother asg
    have hne : (index.eval asg 32).toNat ≠ i.toNat := fun heq => hne (BitVec.eq_of_toNat_eq heq)
    obtain ⟨hnext, hvalue⟩ := Misses.evalAt_eq next hmiss hdef
    rw [UpdateList.DefinedAt, UpdateList.evalAt, if_neg hne, if_neg hne]
    exact ⟨⟨hindex, hnext⟩, hvalue⟩

theorem Misses.denotes {updates : UpdateList} {asg : Assignment} {i : BitVec 32} {x : BitVec 8} (hmiss : Misses i updates)
    (hroot : updates.getRoot = arr) (h : (Expr.read (.root arr) (.const i)).Denotes asg x) :
    (Expr.read updates (.const i)).Denotes asg x := by
  subst hroot
  have hindex : (Expr.const i).eval asg 32 = i := (denotes_const i).value
  have hbase := h.defined.2
  have hvalue := h.value
  rw [Expr.eval, BitVec.setWidth_eq, hindex] at hvalue
  rw [hindex] at hbase
  obtain ⟨hdef, heval⟩ := hmiss.evalAt_eq updates hbase
  refine ⟨⟨trivial, ?_⟩, ?_⟩
  · rw [hindex]
    exact hdef
  · rw [Expr.eval, hindex, BitVec.setWidth_eq, heval]
    exact hvalue

theorem toNat_add_ofNat {b : BitVec 32} {j size : ℕ} (hsize : size < 2 ^ 32) (h : b.toNat + j < size) :
    (b + BitVec.ofNat 32 j).toNat = b.toNat + j := by
  rw [BitVec.toNat_add, BitVec.toNat_ofNat, Nat.add_mod_mod]
  exact Nat.mod_eq_of_lt (by omega)

/-- **The end of the way**: every read from the index on finds its byte. -/
theorem readAssignment_supplies {b : BitVec 32} {v : BitVec w} {n : ℕ}
    (h : readAssignment arr (.const b) (.const v) a otherwise = some a') (hn : w / 8 = n) (hs : Supplied arr b.toNat n v)
    {j : ℕ} (hj : j < n) :
    (Expr.read (.root arr) (.const (b + BitVec.ofNat 32 j))).Denotes a'.toAssignment (v.extractLsb' (8 * j) 8) := by
  subst hn
  rw [readAssignment] at h
  unfold Supplied at hs
  by_cases hsym : arr.isSymbolicArray = true
  · rw [if_pos hsym] at h hs
    have hnone : arr.constantValues = [] := List.isEmpty_iff.1 hsym
    obtain ⟨bytes, hbytes, h⟩ := Option.bind_eq_some_iff.1 h
    have hbound : a' = (arr, bytes) :: a := by
      by_cases hnil : bytes = []
      · rw [if_pos hnil] at h
        cases h
      · rw [if_neg hnil] at h
        by_cases hfound : (a.find arr).isSome = true
        · rw [if_pos hfound] at h
          cases h
        · rw [if_neg hfound] at h
          exact (Option.some.inj h).symm
    have hvalue : ∀ p, arr.initialValue a'.toAssignment p = bytes.getD p 0 := by
      intro p
      rw [Array.initialValue, hnone, List.getElem?_nil]
      show a'.byte arr p = bytes.getD p 0
      rw [Bindings.byte_eq_getD, hbound, Bindings.find, List.lookup_cons_self, Option.getD_some]
    refine read_denotes ?_ ?_
    · intro hconst
      rw [Array.isConstantArray, hsym] at hconst
      cases hconst
    · obtain ⟨hpos, hget⟩ := getIndexedValue_getD hbytes (b + BitVec.ofNat 32 j).toNat
      rw [hvalue, hget]
      cases hs with
      | inl hzero =>
        subst hzero
        have hbyte : ∀ o, (0 : BitVec w).extractLsb' o 8 = 0 := fun o => BitVec.extractLsb'_zero
        rw [hbyte, hbyte, ite_self]
      | inr hroom =>
        obtain ⟨⟨q, hq⟩, hfit⟩ := hroom
        rw [toNat_add_ofNat arr.size_lt (by omega), hq, Nat.mul_add_div hpos, Nat.div_eq_of_lt hj, Nat.mul_div_cancel_left _ hpos,
          Nat.mul_add_mod, Nat.mod_eq_of_lt hj, Nat.add_zero, if_pos]
        refine ⟨?_, rfl⟩
        have hle : (q + 1) * (w / 8) ≤ arr.size := by
          rw [add_mul, one_mul, Nat.mul_comm q, ← hq]
          exact hfit
        exact (Nat.le_div_iff_mul_le hpos).2 hle
  · rw [if_neg hsym] at h hs
    obtain rfl := Option.some.inj h
    have hget := hs j hj
    have hlt : b.toNat + j < arr.size := by
      obtain ⟨hlength, -⟩ := List.getElem?_eq_some_iff.1 hget
      cases arr.constantValues_size with
      | inl hnil => exact absurd (List.isEmpty_iff.2 hnil) hsym
      | inr hsize => rwa [hsize] at hlength
    refine read_denotes ?_ ?_
    · intro _
      rw [toNat_add_ofNat arr.size_lt hlt]
      exact hlt
    · rw [toNat_add_ofNat arr.size_lt hlt, Array.initialValue, hget]

/-! ### Chains of reads -/

section

variable [ExprOptions]

theorem isReadExprAtOffset_const {updates : UpdateList} {i i₀ offset : BitVec 32}
    (h : isReadExprAtOffset (.read updates (.const i)) (.const i₀) (.const offset) = true) : i - i₀ = offset := by
  rw [isReadExprAtOffset, SubExpr.create_const_left, SubExpr.createConst, BitVec.setWidth_eq, beq_iff_eq] at h
  cases h
  rfl

omit [ExprOptions] in
theorem ReadsOf.width {e : Expr} {b : BitVec 32} {n : ℕ} (h : ReadsOf arr e b n) : e.getWidth = 8 * n := by
  induction h with
  | one b hroot hmiss => rfl
  | more i hroot hmiss h ih =>
    rw [getWidth, ih]
    show 8 + _ = _
    ring

omit [ExprOptions] in
theorem ReadsOf.pos {e : Expr} {b : BitVec 32} {n : ℕ} (h : ReadsOf arr e b n) : 0 < n := by
  cases h with
  | one => exact Nat.one_pos
  | more => exact Nat.succ_pos _

omit [ExprOptions] in
theorem append_extractLsb' {m n : ℕ} (x : BitVec (m + n)) : x.extractLsb' n m ++ x.extractLsb' 0 n = x := by
  apply BitVec.eq_of_getLsbD_eq
  intro i hi
  rw [BitVec.getLsbD_append]
  by_cases hlt : i < n
  · rw [if_pos hlt, BitVec.getLsbD_extractLsb', decide_eq_true hlt, Bool.true_and, Nat.zero_add]
  · have hhigh : i - n < m := by omega
    rw [if_neg hlt, BitVec.getLsbD_extractLsb', decide_eq_true hhigh, Bool.true_and, Nat.add_sub_cancel' (by omega)]

omit [ExprOptions] in
/-- One more read in front. -/
theorem concat_read_denotes {updates : UpdateList} {r : Expr} {b i : BitVec 32} {n : ℕ} {asg : Assignment}
    (hreads : ReadsOf arr r b n) (hwf : (Expr.concat (.read updates (.const i)) r).WF) {x : BitVec w}
    (hw : w = 8 * (n + 1)) (hread : (Expr.read updates (.const i)).Denotes asg (x.extractLsb' (8 * n) 8))
    (hr : r.Denotes asg (x.extractLsb' 0 (8 * n))) : (Expr.concat (.read updates (.const i)) r).Denotes asg x := by
  obtain rfl : w = 8 + 8 * n := by omega
  have hreadWidth : (Expr.read updates (.const i)).HasWidth 8 := ⟨hwf.1, rfl⟩
  have hconcat := Denotes.concat hreadWidth ⟨hwf.2, hreads.width⟩ hread hr
  rwa [append_extractLsb'] at hconcat

theorem create_offset (i₀ offset : BitVec 32) :
    AddExpr.create (.const offset) (.const (BitVec.ofInt (Expr.const i₀).getWidth (-1))) = .const (offset - 1) := by
  rw [AddExpr.create_const_left, AddExpr.createConst]
  show Expr.const (offset + (BitVec.ofInt 32 (-1)).setWidth 32) = _
  rw [BitVec.setWidth_eq, sub_eq_add_neg]
  rfl

/-- **A chain that `hasOrderedReads` accepts** has the value whose bytes are read. -/
theorem ReadsOf.denotes {r : Expr} {b i₀ : BitVec 32} {n : ℕ} (hreads : ReadsOf arr r b n) (hwf : r.WF)
    {offset : BitVec 32} (h : (orderedReads (.const i₀) (.const offset) r).isSome = true) :
    b + BitVec.ofNat 32 n = i₀ + offset ∧
      ∀ {asg : Assignment} {w : ℕ} {x : BitVec w}, w = 8 * n →
        (∀ j < n, (Expr.read (.root arr) (.const (b + BitVec.ofNat 32 j))).Denotes asg (x.extractLsb' (8 * j) 8)) →
        r.Denotes asg x := by
  induction hreads generalizing offset with
  | @one updates b hroot hmiss =>
    rw [orderedReads, create_offset] at h
    by_cases hat : isReadExprAtOffset (.read updates (.const b)) (.const i₀) (.const (offset - 1)) = true
    · have hindex := isReadExprAtOffset_const hat
      refine ⟨?_, ?_⟩
      · rw [sub_eq_sub_iff_add_eq_add] at hindex
        rw [add_comm i₀]
        exact hindex
      · intro asg w x hw hbytes
        obtain rfl : w = 8 := hw
        have hread := hbytes 0 Nat.one_pos
        have hzero : b + BitVec.ofNat 32 0 = b := add_zero b
        rw [hzero, Nat.mul_zero, BitVec.extractLsb'_eq_self] at hread
        exact hmiss.denotes hroot hread
    · rw [if_neg hat] at h
      cases h
  | @more updates r' b' n' i hroot hmiss hr ih =>
    rw [orderedReads, create_offset] at h
    by_cases hat : isReadExprAtOffset (.read updates (.const i)) (.const i₀) (.const (offset - 1)) = true
    · rw [if_pos hat] at h
      obtain ⟨hlast, hrest⟩ := ih hwf.2 h
      have hindex := isReadExprAtOffset_const hat
      have hi : b' + BitVec.ofNat 32 n' = i := by
        rw [hlast, ← hindex, add_sub_cancel]
      refine ⟨?_, ?_⟩
      · rw [BitVec.ofNat_add, ← add_assoc, hlast, add_assoc]
        congr 1
        exact sub_add_cancel offset 1
      · intro asg w x hw hbytes
        refine concat_read_denotes hr hwf hw ?_ (hrest rfl ?_)
        · have hread := hbytes n' (Nat.lt_succ_self n')
          rw [hi] at hread
          exact hmiss.denotes hroot hread
        · intro j hj
          rw [BitVec.extractLsb'_extractLsb'_of_le (by omega)]
          exact hbytes j (Nat.lt_succ_of_lt hj)
    · rw [if_neg hat] at h
      cases h

/-! ### The whole way -/

omit [ExprOptions] in
theorem extract_const_low (v : BitVec w) (k : ℕ) : ExtractExpr.create (.const v) 0 k = .const (v.setWidth k) := by
  rw [ExtractExpr.create, ExtractExpr.createAux]
  by_cases hk : k = (Expr.const v).getWidth
  · rw [if_pos hk]
    obtain rfl : k = w := hk
    rw [BitVec.setWidth_eq]
  · rw [if_neg hk]
    have hlow : v.extractLsb' 0 k = v.setWidth k := by
      apply BitVec.eq_of_getLsbD_eq
      intro i hi
      rw [BitVec.getLsbD_extractLsb', BitVec.getLsbD_setWidth, Nat.zero_add]
    rw [← hlow]

omit [ExprOptions] in
theorem zext_const {v : BitVec w} {n : ℕ} (h : w ≤ n) : ZExtExpr.create (.const v) n = .const (v.setWidth n) := by
  rw [ZExtExpr.create]
  by_cases hn : n = (Expr.const v).getWidth
  · rw [if_pos hn]
    obtain rfl : n = w := hn
    rw [BitVec.setWidth_eq]
  · have hle : (Expr.const v).getWidth ≤ n := h
    rw [if_neg hn, if_neg (by omega)]

omit [ExprOptions] in
theorem sext_const {v : BitVec w} {n : ℕ} (h : w ≤ n) : SExtExpr.create (.const v) n = .const (v.signExtend n) := by
  rw [SExtExpr.create]
  by_cases hn : n = (Expr.const v).getWidth
  · rw [if_pos hn]
    obtain rfl : n = w := hn
    rw [BitVec.signExtend_eq]
  · have hle : (Expr.const v).getWidth ≤ n := h
    rw [if_neg hn, if_neg (by omega)]

omit [ExprOptions] in
theorem createExtractExpr_const {src val : Expr} {v : BitVec w} (h : createExtractExpr src (.const v) = some val) :
    val = .const (v.setWidth src.getWidth) := by
  unfold createExtractExpr at h
  by_cases hfit : 0 < src.getWidth ∧ src.getWidth ≤ (Expr.const v).getWidth
  · rw [if_pos hfit, extract_const_low] at h
    exact (Option.some.inj h).symm
  · rw [if_neg hfit] at h
    cases h

omit [ExprOptions] in
theorem createExtendExpr_of_ne {l : Expr} (hkind : ∀ src n, l ≠ .zext src n) (r : Expr) :
    createExtendExpr l r = SExtExpr.create r l.getWidth := by
  cases l with
  | zext src n => exact absurd rfl (hkind src n)
  | _ => rfl

/-- A constant is not inverted. -/
theorem helperGenerateAssignment_const {k : ℕ} (c : BitVec k) (val : Expr) (sign : Bool) :
    helperGenerateAssignment (.const c) val sign a = none := by
  rw [helperGenerateAssignment]
  all_goals
    intros
    rename_i heq
    cases heq

theorem ReadsOf.helperBase_eq {r : Expr} {b : BitVec 32} {n : ℕ} (hreads : ReadsOf arr r b n) (val : Expr) (sign : Bool) :
    helperBase r val sign a = readAssignment arr (.const b) val a (helperGenerateAssignment (.const b) val sign a) := by
  induction hreads with
  | one b hroot hmiss => rw [helperBase, hroot]
  | more i hroot hmiss hr ih => rw [helperBase]; exact ih

/-- **The walk.** -/
theorem Invertible.denotes {sign : Bool} {e : Expr} {v : BitVec w} (hinv : Invertible sign e v) (he : e.HasWidth w)
    (h : helperGenerateAssignment e (.const v) sign a = some a') : e.Denotes a'.toAssignment v := by
  induction hinv with
  | @right sign op l w k v hrule hl ih =>
    rw [helperGenerateAssignment] at h
    by_cases hleft : (l.isConstant && eitherSide op) = true
    · rw [if_pos hleft] at h
      obtain ⟨val, -, hval⟩ := Option.bind_eq_some_iff.1 h
      rw [helperGenerateAssignment_const] at hval
      cases hval
    · have hconst : (Expr.const k).isConstant = true := rfl
      rw [if_neg hleft, if_pos hconst] at h
      obtain ⟨val, hoperand, hval⟩ := Option.bind_eq_some_iff.1 h
      obtain ⟨rfl, hdvd⟩ := operandValue_const hoperand
      obtain ⟨happly, hdiv⟩ := hrule.apply hdvd
      have hden : (Expr.bin op l (.const k)).Denotes a'.toAssignment (op.apply (asked op sign k v) k) :=
        Denotes.bin (hasWidth_const k) (ih he.bin_left hval) (denotes_const k) hdiv
      rwa [happly] at hden
  | @left sign op r w k v hrule hr ih =>
    rw [helperGenerateAssignment] at h
    by_cases hside : eitherSide op = true
    · have hconst : (Expr.const k).isConstant = true := rfl
      rw [hside, Bool.and_true, if_pos hconst] at h
      obtain ⟨val, hoperand, hval⟩ := Option.bind_eq_some_iff.1 h
      obtain ⟨rfl, hdvd⟩ := operandValue_const hoperand
      obtain ⟨happly, hdiv⟩ := hrule.apply hdvd
      have hden : (Expr.bin op (.const k) r).Denotes a'.toAssignment (op.apply k (asked op sign k v)) :=
        Denotes.bin he.bin_right (denotes_const k) (ih he.bin_right hval) hdiv
      rwa [happly] at hden
    · cases op with
      | lshr => cases hrule
      | shl => cases hrule
      | _ => exact absurd rfl hside
  | @zext sign src w v hsmall hsrc ih =>
    rw [helperGenerateAssignment] at h
    obtain ⟨val, hextract, hval⟩ := Option.bind_eq_some_iff.1 h
    obtain rfl := createExtractExpr_const hextract
    have hden := Denotes.zext (w := w) w ⟨he.wf.1, rfl⟩ (ih ⟨he.wf.1, rfl⟩ hval)
    have hback : (v.setWidth src.getWidth).setWidth w = v := by
      apply BitVec.eq_of_toNat_eq
      rw [BitVec.toNat_setWidth, BitVec.toNat_setWidth, Nat.mod_eq_of_lt hsmall, Nat.mod_eq_of_lt v.isLt]
    rwa [hback] at hden
  | @sext sign src w v hsmall hsrc ih =>
    rw [helperGenerateAssignment] at h
    obtain ⟨val, hextract, hval⟩ := Option.bind_eq_some_iff.1 h
    obtain rfl := createExtractExpr_const hextract
    have hden := Denotes.sext (w := w) w ⟨he.wf.1, rfl⟩ (ih ⟨he.wf.1, rfl⟩ hval)
    rwa [hsmall] at hden
  | @extractZExt sign src n off w v hbits hsrc ih =>
    have hsrcWidth : (Expr.zext src n).HasWidth n := ⟨he.wf.1, rfl⟩
    have hle : w ≤ n := (Nat.le_add_left w off).trans (he.width ▸ he.wf.2)
    rw [helperGenerateAssignment, createExtendExpr, zext_const hle] at h
    have hden := Denotes.extract (w := w) off w hsrcWidth (ih hsrcWidth h)
    rwa [hbits] at hden
  | @extract sign e off w v hkind hbits hsrc ih =>
    have hle : w ≤ e.getWidth := (Nat.le_add_left w off).trans (he.width ▸ he.wf.2)
    rw [helperGenerateAssignment, createExtendExpr_of_ne hkind, sext_const hle] at h
    have hden := Denotes.extract (w := w) off w ⟨he.wf.1, rfl⟩ (ih ⟨he.wf.1, rfl⟩ h)
    rwa [hbits] at hden
  | @reads sign e arr b n w v hreads hsupplied =>
    have hn : w = 8 * n := he.width.symm.trans hreads.width
    have hbytes : w / 8 = n := by omega
    cases hreads with
    | @one updates _ hroot hmiss =>
      obtain rfl : w = 8 := hn
      rw [helperGenerateAssignment, hroot] at h
      have hread := readAssignment_supplies h hbytes hsupplied Nat.one_pos
      have hzero : b + BitVec.ofNat 32 0 = b := add_zero b
      rw [hzero, Nat.mul_zero, BitVec.extractLsb'_eq_self] at hread
      exact hmiss.denotes hroot hread
    | @more updates r _ m i hroot hmiss hr =>
      rw [helperGenerateAssignment, hr.helperBase_eq] at h
      by_cases hordered : (hasOrderedReads (.concat (.read updates (.const i)) r)).isSome = true
      · rw [if_pos hordered] at h
        have hafter : (orderedReads (.const i) (.const (0 : BitVec 32)) r).isSome = true := hordered
        obtain ⟨hlast, hrest⟩ := hr.denotes he.wf.2 hafter
        have hi : b + BitVec.ofNat 32 m = i := hlast.trans (add_zero i)
        have hread : ∀ j < m + 1, (Expr.read (.root arr) (.const (b + BitVec.ofNat 32 j))).Denotes a'.toAssignment
            (v.extractLsb' (8 * j) 8) := fun j hj => readAssignment_supplies h hbytes hsupplied hj
        refine concat_read_denotes hr he.wf hn ?_ (hrest rfl ?_)
        · have htop := hread m (Nat.lt_succ_self m)
          rw [hi] at htop
          exact hmiss.denotes hroot htop
        · intro j hj
          rw [BitVec.extractLsb'_extractLsb'_of_le (by omega)]
          exact hread j (Nat.lt_succ_of_lt hj)
      · rw [if_neg hordered] at h
        cases h

/-! No wrapped constant is visited on the way: the evaluator goes from the reads to the indices of their updates only. -/

open ExprEvaluator

/-- The walk past the updates visits their indices. -/
theorem Misses.not_walkVisitsSome {i : BitVec 32} (updates : UpdateList) (hmiss : Misses i updates) (hwf : updates.WF) :
    ¬WalkVisitsSome (fun arr p => .const (a.byte arr p)) WrapsConstant updates i.toNat := by
  match updates with
  | .root arr => exact id
  | .extend next index value =>
    obtain ⟨⟨hplain, hother⟩, hmiss⟩ := hmiss
    obtain ⟨hnext, hiwf, hiw, -⟩ := hwf
    obtain ⟨hdef, hne⟩ := hother a.toAssignment
    obtain ⟨v, hv, hden⟩ := Bindings.evaluate_eq ⟨hiwf, hiw⟩ hplain hdef
    rw [Bindings.evaluate, visit_eq] at hv
    rw [WalkVisitsSome, hv]
    rintro (hvis | hvis)
    · exact ExprEvaluator.not_visitsSome hplain hvis
    · have hne : v.toNat ≠ i.toNat := fun heq => hne (hden.value.trans (BitVec.eq_of_toNat_eq heq))
      simp only [if_neg hne] at hvis
      exact Misses.not_walkVisitsSome next hmiss hnext hvis

theorem ReadsOf.not_visitsSome {e : Expr} {b : BitVec 32} {n : ℕ} (h : ReadsOf arr e b n) (hwf : e.WF) :
    ¬VisitsSome (fun arr p => .const (a.byte arr p)) WrapsConstant e := by
  have hread : ∀ {updates : UpdateList} {i : BitVec 32}, Misses i updates → updates.WF →
      ¬VisitsSome (fun arr p => .const (a.byte arr p)) WrapsConstant (.read updates (.const i)) := by
    intro updates i hmiss hwf
    rw [VisitsSome, visitWith]
    rintro (hwraps | hindex | hwalk)
    · exact hwraps
    · exact hindex
    · exact hmiss.not_walkVisitsSome updates hwf hwalk
  induction h with
  | one b hroot hmiss => exact hread hmiss hwf.1
  | more i hroot hmiss h ih =>
    rw [VisitsSome]
    rintro (hwraps | hfirst | hrest)
    · exact hwraps
    · exact hread hmiss hwf.1.1 hfirst
    · exact ih hwf.2 hrest

theorem Invertible.not_visitsSome {sign : Bool} {e : Expr} {v : BitVec w} (hinv : Invertible sign e v) (hwf : e.WF) :
    ¬VisitsSome (fun arr p => .const (a.byte arr p)) WrapsConstant e := by
  induction hinv with
  | right hrule h ih =>
    rw [VisitsSome]
    rintro (hwraps | hl | hconst)
    · exact hwraps
    · exact ih hwf.1 hl
    · exact hconst
  | left hrule h ih =>
    rw [VisitsSome]
    rintro (hwraps | hconst | hr)
    · exact hwraps
    · exact hconst
    · exact ih hwf.2.1 hr
  | zext hsmall h ih | sext hsmall h ih | extractZExt hbits h ih | extract hkind hbits h ih =>
    rw [VisitsSome]
    rintro (hwraps | hsrc)
    · exact hwraps
    · exact ih hwf.1 hsrc
  | reads hreads hsupplied => exact hreads.not_visitsSome hwf

/-- **An assignment that is generated gives the expression its value** where every rule on the way is right. -/
theorem generatePartialAssignment_evaluates {e : Expr} {v : BitVec w} (he : e.HasWidth w) (hinv : Invertible false e v)
    (h : generatePartialAssignment e (.const v) a = some a') : a'.evaluate e = .const v := by
  have hden := hinv.denotes he h
  obtain ⟨x, hx, hvalue⟩ := Bindings.evaluate_eq_of_not_visitsSome he (hinv.not_visitsSome he.wf) hden.defined
  rw [hx, ← hvalue.value, hden.value]

end

end

theorem fourBytes_lt : 4 < 2 ^ 32 := by decide

theorem fourBytes_values : ([] : List (BitVec 8)) = [] ∨ ([] : List (BitVec 8)).length = 4 := .inl rfl

/-- Four symbolic bytes. -/
def indexArray : Array := ⟨0, "x", 4, [], fourBytes_lt, fourBytes_values⟩

def indexByte (i : BitVec 32) : Expr := .read (.root indexArray) (.const i)

/-- The first byte, read behind a write to the second one. -/
def lowestByte : Expr := .read (.extend (.root indexArray) (.const 1#32) (.const 255#8)) (.const 0#32)

/-- The number in the four bytes, `x`. -/
def indexWord : Expr := .concat (indexByte 3) (.concat (indexByte 2) (.concat (indexByte 1) lowestByte))

/-- `5 + 4 * x`. -/
def linearRead : Expr := .bin .add (.const 5#32) (.bin .mul (.const 4#32) indexWord)

theorem linearRead_evaluates : let _ : ExprOptions := ⟨false, true⟩
    generatePartialAssignment linearRead (.const 25#32) [] = some [(indexArray, [5, 0, 0, 0])] ∧
      Bindings.evaluate [(indexArray, [5, 0, 0, 0])] linearRead = .const 25#32 := by
  intro _
  have hlowest : ReadsOf indexArray lowestByte 0 1 :=
    .one 0 rfl ⟨⟨fun src hsrc => by simp [subexprs] at hsrc, fun asg => ⟨trivial, by simp [Expr.eval]⟩⟩, trivial⟩
  have hreads : ReadsOf indexArray (.concat (indexByte 2) (.concat (indexByte 1) lowestByte)) 0 3 :=
    .more _ rfl trivial (.more _ rfl trivial hlowest)
  have hinv : Invertible false linearRead 25#32 := by
    refine .left (fun hmsb => by cases hmsb) (.left trivial ?_)
    exact .reads (.more _ rfl trivial hreads) (.inr ⟨⟨0, rfl⟩, by decide⟩)
  have hsum : operandValue .add (.const 5#32) (.const 25#32) false = some (.const 20#32) := by
    have hwidth : ¬(Expr.const 5#32).getWidth ≠ (Expr.const 25#32).getWidth := not_not_intro rfl
    rw [operandValue, if_neg hwidth]
    simp only [isZero_extract_top, createSubExpr_const]
    rfl
  have hproduct : operandValue .mul (.const 4#32) (.const 20#32) false = some (.const 5#32) := by decide
  have hordered : (hasOrderedReads indexWord).isSome = true := by
    simp [hasOrderedReads, indexWord, indexByte, lowestByte, orderedReads, isReadExprAtOffset, SubExpr.create_const_left,
      SubExpr.createConst, AddExpr.create_const_left, AddExpr.createConst, getWidth]
  have hbytes : readAssignment indexArray (.const 0#32) (.const 5#32) [] none = some [(indexArray, [5, 0, 0, 0])] := by decide
  have hgen : generatePartialAssignment linearRead (.const 25#32) [] = some [(indexArray, [5, 0, 0, 0])] := by
    have hword : helperGenerateAssignment indexWord (.const 5#32) false [] = some [(indexArray, [5, 0, 0, 0])] := by
      unfold indexWord at hordered ⊢
      rw [helperGenerateAssignment, if_pos hordered, hreads.helperBase_eq]
      exact hbytes
    rw [generatePartialAssignment, linearRead, helperGenerateAssignment]
    show ((operandValue .add (.const 5#32) (.const 25#32) false).bind fun val => _) = _
    rw [hsum, Option.bind_some, helperGenerateAssignment]
    show ((operandValue .mul (.const 4#32) (.const 20#32) false).bind fun val => _) = _
    rw [hproduct]
    exact hword
  exact ⟨hgen, generatePartialAssignment_evaluates (by decide) hinv hgen⟩

/-- `x << 2`, where `x` is the first byte. -/
def scaledRead : Expr := .bin .shl (.zext (indexByte 0) 32) (.const 2#32)

theorem scaledRead_differs : let _ : ExprOptions := ⟨false, true⟩
    ¬∀ (e : Expr) (w : ℕ) (v : BitVec w) (a a' : Bindings), e.HasWidth w →
      generatePartialAssignment e (.const v) a = some a' → a'.evaluate e = .const v := by
  intro _ h
  have hgen : generatePartialAssignment scaledRead (.const 4#32) [] = some [(indexArray, [0, 0, 0, 0])] := by
    decide +kernel
  have hfour := h scaledRead 32 4#32 [] _ (by decide) hgen
  have hzero : Bindings.evaluate [(indexArray, [0, 0, 0, 0])] scaledRead = .const 0#32 := by decide +kernel
  rw [hzero] at hfour
  exact absurd hfour (by decide)

end AssignmentGenerator

end SymBisect
