import Mathlib

/-!
# Overflow intrinsics as plain instructions

`IntrinsicCleanerPass::runOnBasicBlock` of `lib/Module/IntrinsicCleaner.cpp` replaces the intrinsics with overflow and the saturating
ones by arithmetic, comparisons and selections.

* `Value`: what the builder makes, with its meaning `Value.eval`.
* `result_ext_eq`: in twice the width the operations do not wrap, so the range of the exact result decides the overflow.
* `withOverflow_spec`, `saturating_spec`: the sequences that are substituted.
* `intrinsics_lowered`: both families, at every width.
-/

namespace SymBisect

namespace IntrinsicCleaner

/-- The comparisons of `icmp` that are used. -/
inductive Predicate where
  | ugt
  | ult
  | sgt
  | slt
  deriving DecidableEq, Repr

def Predicate.eval {w : ℕ} (x y : BitVec w) : Predicate → Bool
  | ugt => y.ult x
  | ult => x.ult y
  | sgt => y.slt x
  | slt => x.slt y

/-- The binary instructions that are used. -/
inductive BinaryOp where
  | add
  | sub
  | mul
  | and
  | or
  | xor
  deriving DecidableEq, Repr

def BinaryOp.eval {w : ℕ} (x y : BitVec w) : BinaryOp → BitVec w
  | add => x + y
  | sub => x - y
  | mul => x * y
  | and => x &&& y
  | or => x ||| y
  | xor => x ^^^ y

/-- The values of a function at their widths; an operand is a value from elsewhere. -/
inductive Value : ℕ → Type where
  | operand {w : ℕ} (name : ℕ) : Value w
  | constant {w : ℕ} (value : BitVec w) : Value w
  | zext {w : ℕ} (v : Value w) (n : ℕ) : Value n
  | sext {w : ℕ} (v : Value w) (n : ℕ) : Value n
  | trunc {w : ℕ} (v : Value w) (n : ℕ) : Value n
  | binary {w : ℕ} (op : BinaryOp) (x y : Value w) : Value w
  | icmp {w : ℕ} (p : Predicate) (x y : Value w) : Value 1
  | not {w : ℕ} (v : Value w) : Value w
  | select {w : ℕ} (c : Value 1) (x y : Value w) : Value w

/-- The value, with those of the operands. -/
def Value.eval (env : (w : ℕ) → ℕ → BitVec w) : {w : ℕ} → Value w → BitVec w
  | w, operand name => env w name
  | _, constant value => value
  | _, zext v n => (v.eval env).setWidth n
  | _, sext v n => (v.eval env).signExtend n
  | _, trunc v n => (v.eval env).setWidth n
  | _, binary op x y => op.eval (x.eval env) (y.eval env)
  | _, icmp p x y => BitVec.ofBool (p.eval (x.eval env) (y.eval env))
  | _, not v => ~~~(v.eval env)
  | _, select c x y => if c.eval env = 1 then x.eval env else y.eval env

/-- `IntegerType::get` of `APInt::getMaxValue(bw)` and the like. -/
def maxValue (w : ℕ) : Value w := .constant (BitVec.allOnes w)

/-- `APInt::getSignedMaxValue(bw)`. -/
def signedMaxValue (w : ℕ) : Value w := .constant (BitVec.intMax w)

/-- `APInt::getSignedMinValue(bw)`. -/
def signedMinValue (w : ℕ) : Value w := .constant (BitVec.intMin w)

/-! ### The substitutions -/

/-- The intrinsics `*_with_overflow`. -/
inductive WithOverflow where
  | sadd_with_overflow
  | ssub_with_overflow
  | smul_with_overflow
  | uadd_with_overflow
  | usub_with_overflow
  | umul_with_overflow
  deriving DecidableEq, Repr

/-- The instruction in twice the width. -/
def WithOverflow.op : WithOverflow → BinaryOp
  | sadd_with_overflow | uadd_with_overflow => .add
  | ssub_with_overflow | usub_with_overflow => .sub
  | smul_with_overflow | umul_with_overflow => .mul

def WithOverflow.signed : WithOverflow → Bool
  | sadd_with_overflow | ssub_with_overflow | smul_with_overflow => true
  | uadd_with_overflow | usub_with_overflow | umul_with_overflow => false

/-- The result and the overflow that are put into the result structure. -/
def WithOverflow.lower {w : ℕ} (id : WithOverflow) (op1 op2 : Value w) : Value w × Value 1 :=
  let bw2 := w * 2
  if id.signed then
    let result_ext := .binary id.op (.sext op1 bw2) (.sext op2 bw2)
    let int_max := .sext (signedMaxValue w) bw2
    let int_min := .sext (signedMinValue w) bw2
    let overflow := .binary .or (.icmp .sgt result_ext int_max) (.icmp .slt result_ext int_min)
    (.trunc result_ext w, overflow)
  else
    let result_ext := .binary id.op (.zext op1 bw2) (.zext op2 bw2)
    let int_max := .zext (maxValue w) bw2
    (.trunc result_ext w, .icmp .ugt result_ext int_max)

/-- The saturating intrinsics. -/
inductive Saturating where
  | sadd_sat
  | ssub_sat
  | uadd_sat
  | usub_sat
  deriving DecidableEq, Repr

def Saturating.lower {w : ℕ} (op1 op2 : Value w) : Saturating → Value w
  | usub_sat =>
    let result := .binary .sub op1 op2
    let overflow := .icmp .ult op1 op2
    let saturated := .constant 0
    .select overflow saturated result
  | uadd_sat =>
    let result := .binary .add op1 op2
    let overflow := .icmp .ult result op1
    let saturated := maxValue w
    .select overflow saturated result
  | ssub_sat =>
    let result := .binary .sub op1 op2
    let zero := .constant 0
    let sign1 := .icmp .slt op1 zero
    let sign2 := .icmp .slt op2 zero
    let signR := .icmp .slt result zero
    let saturated := .select sign2 (signedMaxValue w) (signedMinValue w)
    let overflow := .binary .xor sign1 signR
    let overflow := .binary .and overflow (.binary .xor sign1 sign2)
    .select overflow saturated result
  | sadd_sat =>
    let result := .binary .add op1 op2
    let zero := .constant 0
    let sign1 := .icmp .slt op1 zero
    let sign2 := .icmp .slt op2 zero
    let signR := .icmp .slt result zero
    let saturated := .select sign2 (signedMinValue w) (signedMaxValue w)
    let overflow := .binary .xor sign1 signR
    let overflow := .binary .and overflow (.not (.binary .xor sign1 sign2))
    .select overflow saturated result

/-! ### What the intrinsics mean -/

/-- The least value of a width. -/
def least (signed : Bool) (w : ℕ) : ℤ := if signed then -2 ^ (w - 1) else 0

/-- The greatest value of a width. -/
def greatest (signed : Bool) (w : ℕ) : ℤ := if signed then 2 ^ (w - 1) - 1 else 2 ^ w - 1

/-- A value, read with or without sign. -/
def read {w : ℕ} (signed : Bool) (x : BitVec w) : ℤ := if signed then x.toInt else x.toNat

/-- The result fits the width. -/
def Fits (signed : Bool) (w : ℕ) (z : ℤ) : Prop := least signed w ≤ z ∧ z ≤ greatest signed w

instance (signed : Bool) (w : ℕ) (z : ℤ) : Decidable (Fits signed w z) := inferInstanceAs (Decidable (_ ∧ _))

/-- The result, or the end of the range that it is beyond. -/
def clamp (signed : Bool) (w : ℕ) (z : ℤ) : ℤ := max (least signed w) (min z (greatest signed w))

/-- The exact result. -/
def WithOverflow.exact {w : ℕ} (x y : BitVec w) : WithOverflow → ℤ
  | sadd_with_overflow => x.toInt + y.toInt
  | ssub_with_overflow => x.toInt - y.toInt
  | smul_with_overflow => x.toInt * y.toInt
  | uadd_with_overflow => x.toNat + y.toNat
  | usub_with_overflow => x.toNat - y.toNat
  | umul_with_overflow => x.toNat * y.toNat

def Saturating.signed : Saturating → Bool
  | sadd_sat | ssub_sat => true
  | uadd_sat | usub_sat => false

def Saturating.exact {w : ℕ} (x y : BitVec w) : Saturating → ℤ
  | sadd_sat => x.toInt + y.toInt
  | ssub_sat => x.toInt - y.toInt
  | uadd_sat => x.toNat + y.toNat
  | usub_sat => x.toNat - y.toNat

section Widths

variable {w n : ℕ} {x y : BitVec w} {z : ℤ}

theorem two_pow_pred (hw : 0 < w) : (2 : ℤ) ^ w = 2 * 2 ^ (w - 1) := by
  rw [← pow_succ', Nat.sub_add_cancel hw]

theorem two_pow_double (hw : 0 < w) : (2 : ℤ) ^ (w * 2 - 1) = 2 * (2 ^ (w - 1) * 2 ^ (w - 1)) := by
  rw [← pow_add, ← pow_succ']
  congr 1
  omega

theorem setWidth_ofInt (h : w ≤ n) (z : ℤ) : (BitVec.ofInt n z).setWidth w = BitVec.ofInt w z := by
  refine BitVec.eq_of_toNat_eq ?_
  have hdvd : ((2 ^ w : ℕ) : ℤ) ∣ ((2 ^ n : ℕ) : ℤ) := Int.natCast_dvd_natCast.2 (pow_dvd_pow 2 h)
  have hpos : (0 : ℤ) ≤ z % ((2 ^ n : ℕ) : ℤ) := Int.emod_nonneg _ (by positivity)
  rw [BitVec.toNat_setWidth, BitVec.toNat_ofInt, BitVec.toNat_ofInt, ← Int.emod_emod_of_dvd z hdvd, Int.toNat_emod hpos (by positivity)]
  rfl

theorem ofInt_sub (a b : ℤ) : BitVec.ofInt w (a - b) = BitVec.ofInt w a - BitVec.ofInt w b := by
  rw [sub_eq_add_neg, BitVec.ofInt_add, BitVec.ofInt_neg, ← sub_eq_add_neg]

theorem zext_eq_ofInt (n : ℕ) (x : BitVec w) : x.setWidth n = BitVec.ofInt n (x.toNat : ℤ) := by
  rw [BitVec.ofInt_natCast]
  refine BitVec.eq_of_toNat_eq ?_
  rw [BitVec.toNat_setWidth, BitVec.toNat_ofNat]

theorem sext_eq_ofInt (h : w ≤ n) (x : BitVec w) : x.signExtend n = BitVec.ofInt n x.toInt := by
  rw [← BitVec.toInt_signExtend_of_le h, BitVec.ofInt_toInt]

theorem toInt_bounds (x : BitVec w) : -(2 : ℤ) ^ (w - 1) ≤ x.toInt ∧ x.toInt < 2 ^ (w - 1) :=
  ⟨BitVec.le_toInt x, BitVec.toInt_lt⟩

theorem toNat_bounds (x : BitVec w) : (0 : ℤ) ≤ x.toNat ∧ (x.toNat : ℤ) < 2 ^ w := by
  refine ⟨Int.natCast_nonneg _, ?_⟩
  exact_mod_cast x.isLt

/-- **In twice the width** the instruction computes the exact result. -/
theorem result_ext_eq (id : WithOverflow) (x y : BitVec w) :
    (if id.signed = true then id.op.eval (x.signExtend (w * 2)) (y.signExtend (w * 2))
      else id.op.eval (x.setWidth (w * 2)) (y.setWidth (w * 2))) = BitVec.ofInt (w * 2) (id.exact x y) := by
  have hle : w ≤ w * 2 := by omega
  rw [sext_eq_ofInt hle, sext_eq_ofInt hle, zext_eq_ofInt (w * 2), zext_eq_ofInt (w * 2)]
  cases id with
  | sadd_with_overflow => exact (BitVec.ofInt_add _ _).symm
  | ssub_with_overflow => exact (ofInt_sub _ _).symm
  | smul_with_overflow => exact (BitVec.ofInt_mul _ _).symm
  | uadd_with_overflow => exact (BitVec.ofInt_add _ _).symm
  | usub_with_overflow => exact (ofInt_sub _ _).symm
  | umul_with_overflow => exact (BitVec.ofInt_mul _ _).symm

/-- A signed result fits twice the width. -/
theorem exact_signed_bounds (hw : 0 < w) {id : WithOverflow} (hid : id.signed = true) (x y : BitVec w) :
    -(2 : ℤ) ^ (w * 2 - 1) ≤ id.exact x y ∧ id.exact x y < 2 ^ (w * 2 - 1) := by
  obtain ⟨hxl, hxh⟩ := toInt_bounds x
  obtain ⟨hyl, hyh⟩ := toInt_bounds y
  have hH : (1 : ℤ) ≤ 2 ^ (w - 1) := one_le_pow₀ (by norm_num)
  rw [two_pow_double hw]
  generalize (2 : ℤ) ^ (w - 1) = H at *
  have hHH : H ≤ H * H := le_mul_of_one_le_left (by omega) hH
  cases id with
  | sadd_with_overflow =>
    show -(2 * (H * H)) ≤ x.toInt + y.toInt ∧ x.toInt + y.toInt < 2 * (H * H)
    constructor
    · linarith
    · linarith
  | ssub_with_overflow =>
    show -(2 * (H * H)) ≤ x.toInt - y.toInt ∧ x.toInt - y.toInt < 2 * (H * H)
    constructor
    · linarith
    · linarith
  | smul_with_overflow =>
    have habs : |x.toInt * y.toInt| ≤ H * H := by
      rw [abs_mul]
      exact mul_le_mul (abs_le.2 ⟨hxl, hxh.le⟩) (abs_le.2 ⟨hyl, hyh.le⟩) (abs_nonneg _) (by omega)
    obtain ⟨hlow, hhigh⟩ := abs_le.1 habs
    show -(2 * (H * H)) ≤ x.toInt * y.toInt ∧ x.toInt * y.toInt < 2 * (H * H)
    constructor
    · linarith
    · linarith
  | uadd_with_overflow => cases hid
  | usub_with_overflow => cases hid
  | umul_with_overflow => cases hid

/-- An unsigned result is below twice the width, and above the negated maximum. -/
theorem exact_unsigned_bounds {id : WithOverflow} (hid : id.signed = false) (x y : BitVec w) :
    -(2 : ℤ) ^ w < id.exact x y ∧ id.exact x y < 2 ^ w * 2 ^ w := by
  obtain ⟨hxl, hxh⟩ := toNat_bounds x
  obtain ⟨hyl, hyh⟩ := toNat_bounds y
  generalize (2 : ℤ) ^ w = W at *
  cases id with
  | uadd_with_overflow =>
    show -W < (x.toNat : ℤ) + y.toNat ∧ (x.toNat : ℤ) + y.toNat < W * W
    constructor
    · omega
    · have hsquare : 0 ≤ (W - 1) * (W - 1) := mul_self_nonneg (W - 1)
      nlinarith
  | usub_with_overflow =>
    show -W < (x.toNat : ℤ) - y.toNat ∧ (x.toNat : ℤ) - y.toNat < W * W
    constructor
    · omega
    · have hsquare : W ≤ W * W := le_mul_of_one_le_left (by omega) (by omega)
      omega
  | umul_with_overflow =>
    show -W < (x.toNat : ℤ) * y.toNat ∧ (x.toNat : ℤ) * y.toNat < W * W
    constructor
    · have hprod : 0 ≤ (x.toNat : ℤ) * y.toNat := mul_nonneg hxl hyl
      omega
    · exact mul_lt_mul'' hxh hyh hxl hyl
  | sadd_with_overflow => cases hid
  | ssub_with_overflow => cases hid
  | smul_with_overflow => cases hid

/-- The comparisons with the ends of the signed range. -/
theorem signed_overflow (hw : 0 < w) (hlow : -(2 : ℤ) ^ (w * 2 - 1) ≤ z) (hhigh : z < 2 ^ (w * 2 - 1)) :
    (((BitVec.intMax w).signExtend (w * 2)).slt (BitVec.ofInt (w * 2) z) ||
      (BitVec.ofInt (w * 2) z).slt ((BitVec.intMin w).signExtend (w * 2))) = !decide (Fits true w z) := by
  have hz : (BitVec.ofInt (w * 2) z).toInt = z := BitVec.toInt_ofInt_eq_self (by omega) hlow hhigh
  have hle : w ≤ w * 2 := by omega
  rw [BitVec.slt_eq_decide, BitVec.slt_eq_decide, hz, BitVec.toInt_signExtend_of_le hle, BitVec.toInt_signExtend_of_le hle,
    BitVec.toInt_intMax, BitVec.toInt_intMin_of_pos hw]
  have hfits : Fits true w z ↔ -(2 : ℤ) ^ (w - 1) ≤ z ∧ z ≤ 2 ^ (w - 1) - 1 := Iff.rfl
  rw [Bool.eq_iff_iff, Bool.or_eq_true, decide_eq_true_iff, decide_eq_true_iff, Bool.not_eq_true', decide_eq_false_iff_not, hfits]
  omega

/-- The comparison with the end of the unsigned range. -/
theorem unsigned_overflow (hw : 0 < w) (hlow : -(2 : ℤ) ^ w < z) (hhigh : z < 2 ^ w * 2 ^ w) :
    ((BitVec.allOnes w).setWidth (w * 2)).ult (BitVec.ofInt (w * 2) z) = !decide (Fits false w z) := by
  have hW : (2 : ℤ) ≤ 2 ^ w := by
    have hpred := two_pow_pred hw
    have hone : (1 : ℤ) ≤ 2 ^ (w - 1) := one_le_pow₀ (by norm_num)
    omega
  have hsquare : 2 * (2 : ℤ) ^ w ≤ 2 ^ w * 2 ^ w := mul_le_mul_of_nonneg_right hW (by positivity)
  have hones : (((BitVec.allOnes w).setWidth (w * 2)).toNat : ℤ) = 2 ^ w - 1 := by
    have hlt : 2 ^ w - 1 < 2 ^ (w * 2) := lt_of_lt_of_le (Nat.sub_lt (Nat.two_pow_pos w) Nat.one_pos)
      (Nat.pow_le_pow_right (by decide) (by omega))
    rw [BitVec.toNat_setWidth, BitVec.toNat_allOnes, Nat.mod_eq_of_lt hlt, Nat.cast_sub (Nat.two_pow_pos w)]
    norm_cast
  have hmod : ((BitVec.ofInt (w * 2) z).toNat : ℤ) = z % (2 ^ w * 2 ^ w) := by
    have hpow : ((2 ^ (w * 2) : ℕ) : ℤ) = 2 ^ w * 2 ^ w := by
      rw [Nat.cast_pow, pow_mul, Nat.cast_ofNat]
      ring
    rw [BitVec.toNat_ofInt, hpow, Int.toNat_of_nonneg (Int.emod_nonneg _ (by positivity))]
  have hfits : Fits false w z ↔ 0 ≤ z ∧ z ≤ 2 ^ w - 1 := Iff.rfl
  rw [BitVec.ult_eq_decide, Bool.eq_iff_iff, decide_eq_true_iff, Bool.not_eq_true', decide_eq_false_iff_not, hfits, ← Int.ofNat_lt, hones,
    hmod]
  generalize hN : (2 : ℤ) ^ w * 2 ^ w = N at *
  generalize (2 : ℤ) ^ w = W at *
  by_cases hneg : z < 0
  · -- a borrow leaves a value near the end of twice the width
    have hwrap : z % N = z + N := by
      rw [← Int.add_emod_right, Int.emod_eq_of_lt (by omega) (by omega)]
    rw [hwrap]
    omega
  · rw [Int.emod_eq_of_lt (by omega) hhigh]
    omega

/-- **The intrinsics with overflow**: the wrapped result, and whether the exact one does not fit. -/
theorem withOverflow_spec (hw : 0 < w) (id : WithOverflow) (env : (w : ℕ) → ℕ → BitVec w) (op1 op2 : Value w) :
    (id.lower op1 op2).1.eval env = BitVec.ofInt w (id.exact (op1.eval env) (op2.eval env)) ∧
      (id.lower op1 op2).2.eval env = BitVec.ofBool (!decide (Fits id.signed w (id.exact (op1.eval env) (op2.eval env)))) := by
  have hext := result_ext_eq id (op1.eval env) (op2.eval env)
  have hle : w ≤ w * 2 := by omega
  rw [WithOverflow.lower]
  cases hid : id.signed with
  | true =>
    obtain ⟨hlow, hhigh⟩ := exact_signed_bounds hw hid (op1.eval env) (op2.eval env)
    rw [hid, if_pos rfl] at hext
    have hvalue : (Value.binary id.op (.sext op1 (w * 2)) (.sext op2 (w * 2))).eval env = _ := hext
    refine ⟨?_, ?_⟩
    · show ((Value.binary id.op (.sext op1 (w * 2)) (.sext op2 (w * 2))).eval env).setWidth w = _
      rw [hvalue, setWidth_ofInt hle]
    · show BitVec.ofBool (BitVec.slt _ ((Value.binary id.op (.sext op1 (w * 2)) (.sext op2 (w * 2))).eval env)) |||
        BitVec.ofBool (BitVec.slt ((Value.binary id.op (.sext op1 (w * 2)) (.sext op2 (w * 2))).eval env) _) = _
      rw [hvalue, BitVec.ofBool_or_ofBool]
      exact congrArg BitVec.ofBool (signed_overflow hw hlow hhigh)
  | false =>
    obtain ⟨hlow, hhigh⟩ := exact_unsigned_bounds hid (op1.eval env) (op2.eval env)
    rw [hid, if_neg Bool.false_ne_true] at hext
    have hvalue : (Value.binary id.op (.zext op1 (w * 2)) (.zext op2 (w * 2))).eval env = _ := hext
    refine ⟨?_, ?_⟩
    · show ((Value.binary id.op (.zext op1 (w * 2)) (.zext op2 (w * 2))).eval env).setWidth w = _
      rw [hvalue, setWidth_ofInt hle]
    · show BitVec.ofBool (BitVec.ult _ ((Value.binary id.op (.zext op1 (w * 2)) (.zext op2 (w * 2))).eval env)) = _
      rw [hvalue]
      exact congrArg BitVec.ofBool (unsigned_overflow hw hlow hhigh)

/-! ### Saturation -/

/-- The wrapped sum, from the exact one. -/
theorem bmod_eq {H z : ℤ} {m : ℕ} (hm : (m : ℤ) = 2 * H) (hlow : -(2 * H) ≤ z) (hhigh : z < 2 * H) :
    z.bmod m = if z < -H then z + 2 * H else if H ≤ z then z - 2 * H else z := by
  by_cases hbelow : z < -H
  · rw [if_pos hbelow, ← Int.add_bmod_right, hm]
    exact Int.bmod_eq_of_le (by omega) (by omega)
  · rw [if_neg hbelow]
    by_cases habove : H ≤ z
    · rw [if_pos habove, ← Int.sub_bmod_right, hm]
      exact Int.bmod_eq_of_le (by omega) (by omega)
    · rw [if_neg habove]
      exact Int.bmod_eq_of_le (by omega) (by omega)

theorem ofBool_eq_one (b : Bool) : BitVec.ofBool b = 1 ↔ b = true := by
  cases b with
  | false => decide
  | true => decide

/-- A selection on a comparison. -/
theorem select_ofBool (b : Bool) (x y : BitVec w) : (if BitVec.ofBool b = 1 then x else y) = if b = true then x else y := by
  simp only [ofBool_eq_one]

theorem slt_zero (x : BitVec w) : x.slt 0 = decide (x.toInt < 0) := by
  have hzero : (0 : BitVec w).toInt = 0 := BitVec.toInt_zero
  rw [BitVec.slt_eq_decide, hzero]

/-- **Saturation without sign**: a borrow, or a sum that is below its first operand. -/
theorem unsigned_saturated (x y : BitVec w) :
    ((if x.ult y = true then 0 else x - y : BitVec w).toNat : ℤ) = clamp false w ((x.toNat : ℤ) - y.toNat) ∧
      ((if (x + y).ult x = true then BitVec.allOnes w else x + y : BitVec w).toNat : ℤ) = clamp false w ((x.toNat : ℤ) + y.toNat) := by
  obtain ⟨hxl, hxh⟩ := toNat_bounds x
  obtain ⟨hyl, hyh⟩ := toNat_bounds y
  have hclamp : ∀ z : ℤ, clamp false w z = max 0 (min z (2 ^ w - 1)) := fun z => rfl
  have hcast : ((2 ^ w : ℕ) : ℤ) = 2 ^ w := by norm_cast
  refine ⟨?_, ?_⟩
  · rw [hclamp, BitVec.ult_eq_decide]
    by_cases hlt : x.toNat < y.toNat
    · have hzero : ((0 : BitVec w).toNat : ℤ) = 0 := by
        rw [show (0 : BitVec w).toNat = 0 from BitVec.toNat_zero]
        rfl
      rw [decide_eq_true hlt, if_pos rfl, hzero]
      omega
    · rw [decide_eq_false hlt, if_neg Bool.false_ne_true, BitVec.toNat_sub_of_le (Nat.le_of_not_lt hlt)]
      omega
  · have hsum : (x + y).toNat = if x.toNat + y.toNat < 2 ^ w then x.toNat + y.toNat else x.toNat + y.toNat - 2 ^ w := by
      rw [BitVec.toNat_add]
      by_cases hfit : x.toNat + y.toNat < 2 ^ w
      · rw [if_pos hfit, Nat.mod_eq_of_lt hfit]
      · have hx := x.isLt
        have hy := y.isLt
        rw [if_neg hfit, Nat.mod_eq_sub_mod (Nat.le_of_not_lt hfit), Nat.mod_eq_of_lt (by omega)]
    rw [hclamp, BitVec.ult_eq_decide, hsum]
    by_cases hfit : x.toNat + y.toNat < 2 ^ w
    · have hnot : ¬x.toNat + y.toNat < x.toNat := by omega
      rw [if_pos hfit, decide_eq_false hnot, if_neg Bool.false_ne_true, hsum, if_pos hfit]
      omega
    · have hy := y.isLt
      have hlt : x.toNat + y.toNat - 2 ^ w < x.toNat := by omega
      have hpos := Nat.two_pow_pos w
      rw [if_neg hfit, decide_eq_true hlt, if_pos rfl, BitVec.toNat_allOnes]
      omega

/-- The signs decide: only operands of different signs can leave the range, and then the result has the sign of the second one. -/
theorem saturate_sub {H a b : ℤ} (hal : -H ≤ a) (hah : a < H) (hbl : -H ≤ b) (hbh : b < H) {r : ℤ}
    (hr : r = if a - b < -H then a - b + 2 * H else if H ≤ a - b then a - b - 2 * H else a - b) :
    (if ((decide (a < 0) ^^ decide (r < 0)) && (decide (a < 0) ^^ decide (b < 0))) = true then
      if decide (b < 0) = true then H - 1 else -H else r) = max (-H) (min (a - b) (H - 1)) := by
  by_cases hlow : a - b < -H
  · rw [if_pos hlow] at hr
    rw [decide_eq_true (show a < 0 by omega), decide_eq_false (show ¬r < 0 by omega), decide_eq_false (show ¬b < 0 by omega)]
    show -H = _
    omega
  · rw [if_neg hlow] at hr
    by_cases hhigh : H ≤ a - b
    · rw [if_pos hhigh] at hr
      rw [decide_eq_false (show ¬a < 0 by omega), decide_eq_true (show r < 0 by omega), decide_eq_true (show b < 0 by omega)]
      show H - 1 = _
      omega
    · rw [if_neg hhigh] at hr
      have hfalse : ((decide (a < 0) ^^ decide (r < 0)) && (decide (a < 0) ^^ decide (b < 0))) = false := by
        by_cases ha : a < 0
        · by_cases hb : b < 0
          · rw [decide_eq_true ha, decide_eq_true hb, Bool.xor_self, Bool.and_false]
          · rw [decide_eq_true ha, decide_eq_true (show r < 0 by omega), Bool.xor_self, Bool.false_and]
        · by_cases hb : b < 0
          · rw [decide_eq_false ha, decide_eq_false (show ¬r < 0 by omega), Bool.xor_self, Bool.false_and]
          · rw [decide_eq_false ha, decide_eq_false hb, Bool.xor_self, Bool.and_false]
      rw [hfalse, if_neg Bool.false_ne_true, hr]
      omega

theorem saturate_add {H a b : ℤ} (hal : -H ≤ a) (hah : a < H) (hbl : -H ≤ b) (hbh : b < H) {r : ℤ}
    (hr : r = if a + b < -H then a + b + 2 * H else if H ≤ a + b then a + b - 2 * H else a + b) :
    (if ((decide (a < 0) ^^ decide (r < 0)) && !(decide (a < 0) ^^ decide (b < 0))) = true then
      if decide (b < 0) = true then -H else H - 1 else r) = max (-H) (min (a + b) (H - 1)) := by
  by_cases hlow : a + b < -H
  · rw [if_pos hlow] at hr
    rw [decide_eq_true (show a < 0 by omega), decide_eq_false (show ¬r < 0 by omega), decide_eq_true (show b < 0 by omega)]
    show -H = _
    omega
  · rw [if_neg hlow] at hr
    by_cases hhigh : H ≤ a + b
    · rw [if_pos hhigh] at hr
      rw [decide_eq_false (show ¬a < 0 by omega), decide_eq_true (show r < 0 by omega), decide_eq_false (show ¬b < 0 by omega)]
      show H - 1 = _
      omega
    · rw [if_neg hhigh] at hr
      have hfalse : ((decide (a < 0) ^^ decide (r < 0)) && !(decide (a < 0) ^^ decide (b < 0))) = false := by
        by_cases ha : a < 0
        · by_cases hb : b < 0
          · rw [decide_eq_true ha, decide_eq_true (show r < 0 by omega), Bool.xor_self, Bool.false_and]
          · rw [decide_eq_true ha, decide_eq_false hb, Bool.xor_false, Bool.not_true, Bool.and_false]
        · by_cases hb : b < 0
          · rw [decide_eq_false ha, decide_eq_true hb, Bool.xor_true, Bool.not_false, Bool.not_true, Bool.and_false]
          · rw [decide_eq_false ha, decide_eq_false (show ¬r < 0 by omega), Bool.xor_self, Bool.false_and]
      rw [hfalse, if_neg Bool.false_ne_true, hr]
      omega

/-- **Saturation with sign**: the result is on the wrong side of zero for its operands. -/
theorem signed_saturated (hw : 0 < w) (x y : BitVec w) :
    (if ((x.slt 0 ^^ (x - y).slt 0) && (x.slt 0 ^^ y.slt 0)) = true then
        if y.slt 0 = true then BitVec.intMax w else BitVec.intMin w else x - y).toInt = clamp true w (x.toInt - y.toInt) ∧
      (if ((x.slt 0 ^^ (x + y).slt 0) && !(x.slt 0 ^^ y.slt 0)) = true then
        if y.slt 0 = true then BitVec.intMin w else BitVec.intMax w else x + y).toInt = clamp true w (x.toInt + y.toInt) := by
  obtain ⟨hxl, hxh⟩ := toInt_bounds x
  obtain ⟨hyl, hyh⟩ := toInt_bounds y
  have hm : ((2 ^ w : ℕ) : ℤ) = 2 * 2 ^ (w - 1) := by
    rw [Nat.cast_pow, Nat.cast_ofNat, two_pow_pred hw]
  have hclamp : ∀ z : ℤ, clamp true w z = max (-2 ^ (w - 1)) (min z (2 ^ (w - 1) - 1)) := fun z => rfl
  have hsub : (x - y).toInt = _ := BitVec.toInt_sub.trans (bmod_eq hm (by omega) (by omega))
  have hadd : (x + y).toInt = _ := (BitVec.toInt_add x y).trans (bmod_eq hm (by omega) (by omega))
  rw [hclamp, hclamp, slt_zero, slt_zero, slt_zero, slt_zero]
  refine ⟨?_, ?_⟩
  · rw [apply_ite BitVec.toInt, apply_ite BitVec.toInt, BitVec.toInt_intMax, BitVec.toInt_intMin_of_pos hw]
    exact saturate_sub hxl hxh hyl hyh hsub
  · rw [apply_ite BitVec.toInt, apply_ite BitVec.toInt, BitVec.toInt_intMax, BitVec.toInt_intMin_of_pos hw]
    exact saturate_add hxl hxh hyl hyh hadd

/-- **The saturating intrinsics**: the exact result, or the end of the range that it is beyond. -/
theorem saturating_spec (hw : 0 < w) (id : Saturating) (env : (w : ℕ) → ℕ → BitVec w) (op1 op2 : Value w) :
    read id.signed ((id.lower op1 op2).eval env) = clamp id.signed w (id.exact (op1.eval env) (op2.eval env)) := by
  cases id with
  | usub_sat =>
    show ((if BitVec.ofBool ((op1.eval env).ult (op2.eval env)) = 1 then 0 else op1.eval env - op2.eval env : BitVec w).toNat : ℤ) = _
    rw [select_ofBool]
    exact (unsigned_saturated (op1.eval env) (op2.eval env)).1
  | uadd_sat =>
    show ((if BitVec.ofBool ((op1.eval env + op2.eval env).ult (op1.eval env)) = 1 then BitVec.allOnes w
      else op1.eval env + op2.eval env : BitVec w).toNat : ℤ) = _
    rw [select_ofBool]
    exact (unsigned_saturated (op1.eval env) (op2.eval env)).2
  | ssub_sat =>
    have hsigned := (signed_saturated hw (op1.eval env) (op2.eval env)).1
    rw [← select_ofBool (BitVec.slt _ 0), ← select_ofBool, ← BitVec.ofBool_and_ofBool, ← BitVec.ofBool_xor_ofBool,
      ← BitVec.ofBool_xor_ofBool] at hsigned
    exact hsigned
  | sadd_sat =>
    have hsigned := (signed_saturated hw (op1.eval env) (op2.eval env)).2
    rw [← select_ofBool (BitVec.slt _ 0), ← select_ofBool, ← BitVec.ofBool_and_ofBool, ← BitVec.not_ofBool, ← BitVec.ofBool_xor_ofBool,
      ← BitVec.ofBool_xor_ofBool] at hsigned
    exact hsigned

end Widths

/-- **The intrinsics are lowered exactly.**  At every width the substituted instructions for the intrinsics with overflow compute the
wrapped result, and the overflow is set if and only if the exact result does not fit; those for the saturating ones compute the exact
result clamped to the range. -/
theorem intrinsics_lowered {w : ℕ} (hw : 0 < w) (env : (w : ℕ) → ℕ → BitVec w) (op1 op2 : Value w) :
    (∀ id : WithOverflow, (id.lower op1 op2).1.eval env = BitVec.ofInt w (id.exact (op1.eval env) (op2.eval env)) ∧
      ((id.lower op1 op2).2.eval env = 1 ↔ ¬Fits id.signed w (id.exact (op1.eval env) (op2.eval env)))) ∧
      ∀ id : Saturating, read id.signed ((id.lower op1 op2).eval env) = clamp id.signed w (id.exact (op1.eval env) (op2.eval env)) := by
  refine ⟨?_, fun id => saturating_spec hw id env op1 op2⟩
  intro id
  obtain ⟨hresult, hoverflow⟩ := withOverflow_spec hw id env op1 op2
  refine ⟨hresult, ?_⟩
  rw [hoverflow, ofBool_eq_one, Bool.not_eq_true', decide_eq_false_iff_not]

theorem intrinsics_lowered_one :
    (∀ id : WithOverflow, (id.lower (.constant (1 : BitVec 1)) (.constant 1)).1.eval (fun _ _ => 0) =
        BitVec.ofInt 1 (id.exact ((Value.constant (1 : BitVec 1)).eval fun _ _ => 0) ((Value.constant (1 : BitVec 1)).eval fun _ _ => 0)) ∧
      ((id.lower (.constant (1 : BitVec 1)) (.constant 1)).2.eval (fun _ _ => 0) = 1 ↔
        ¬Fits id.signed 1 (id.exact ((Value.constant (1 : BitVec 1)).eval fun _ _ => 0) ((Value.constant (1 : BitVec 1)).eval fun _ _ => 0)))) ∧
      ∀ id : Saturating, read id.signed ((id.lower (.constant (1 : BitVec 1)) (.constant 1)).eval fun _ _ => 0) =
        clamp id.signed 1 (id.exact ((Value.constant (1 : BitVec 1)).eval fun _ _ => 0) ((Value.constant (1 : BitVec 1)).eval fun _ _ => 0)) :=
  intrinsics_lowered (by decide) (fun _ _ => 0) (.constant 1) (.constant 1)

end IntrinsicCleaner

end SymBisect
