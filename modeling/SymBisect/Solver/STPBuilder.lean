import Mathlib
import SymBisect.Solver.ConstantDivision

/-!
# Multiplication and division by a constant

The functions of `lib/Solver/STPBuilder.cpp` that build a product or a quotient with a constant from shifts, additions and
subtractions.  An expression of the solver stands for its value here.

* `constructMulByConstant_eq`: the sum of shifted operands is the product, at every width.
* `constructUDivByConstant_eq`, `constructSDivByConstant_eq`: the quotients of 32-bit values.
* `constant_division`: all of it, with the recoding of the factor.

A failed assertion returns `none`.
-/

namespace SymBisect

open Lib ConstantDivision

namespace STPBuilder

variable {w : ℕ}

/-! ### Shifts -/

/-- `bvRightShift`. -/
def bvRightShift (expr : BitVec w) (shift : ℕ) : BitVec w :=
  if shift = 0 then expr
  else if shift ≥ w then 0
  else ((0 : BitVec shift) ++ expr.extractLsb' shift (w - shift)).setWidth w

/-- `bvLeftShift`. -/
def bvLeftShift (expr : BitVec w) (shift : ℕ) : BitVec w :=
  if shift = 0 then expr
  else if shift ≥ w then 0
  else (expr.extractLsb' 0 (w - shift) ++ (0 : BitVec shift)).setWidth w

/-- The cases of `bvVarRightShift`, from the largest shift down. -/
def rightShiftCases {b : ℕ} (expr : BitVec w) (shift_ext : BitVec b) : ℕ → BitVec w → BitVec w
  | 0, res => res
  | i + 1, res => rightShiftCases expr shift_ext i (if shift_ext = BitVec.ofNat b i then bvRightShift expr i else res)

/-- `bvVarRightShift`. -/
def bvVarRightShift {s : ℕ} (expr : BitVec w) (shift : BitVec s) : BitVec w :=
  let shift_ext := shift.extractLsb' 0 w.size
  let res := rightShiftCases expr shift_ext w 0
  if shift < BitVec.ofNat s w then res else 0

theorem bvRightShift_eq (expr : BitVec w) (shift : ℕ) : bvRightShift expr shift = expr >>> shift := by
  refine BitVec.eq_of_getLsbD_eq ?_
  intro i hi
  rw [bvRightShift, BitVec.getLsbD_ushiftRight]
  by_cases hzero : shift = 0
  · rw [if_pos hzero, hzero, Nat.zero_add]
  · rw [if_neg hzero]
    by_cases hover : shift ≥ w
    · have hbit : expr.getLsbD (shift + i) = false := BitVec.getLsbD_of_ge expr _ (by omega)
      rw [if_pos hover, hbit]
      exact BitVec.getLsbD_zero
    · rw [if_neg hover, BitVec.getLsbD_setWidth, decide_eq_true hi, Bool.true_and, BitVec.getLsbD_append]
      by_cases hlow : i < w - shift
      · rw [if_pos hlow, BitVec.getLsbD_extractLsb', decide_eq_true hlow, Bool.true_and]
      · have hbit : expr.getLsbD (shift + i) = false := BitVec.getLsbD_of_ge expr _ (by omega)
        rw [if_neg hlow, hbit]
        exact BitVec.getLsbD_zero

theorem bvLeftShift_eq (expr : BitVec w) (shift : ℕ) : bvLeftShift expr shift = expr <<< shift := by
  refine BitVec.eq_of_getLsbD_eq ?_
  intro i hi
  rw [bvLeftShift, BitVec.getLsbD_shiftLeft, decide_eq_true hi, Bool.true_and]
  by_cases hzero : shift = 0
  · rw [if_pos hzero, hzero, decide_eq_false (Nat.not_lt_zero i), Bool.not_false, Bool.true_and, Nat.sub_zero]
  · rw [if_neg hzero]
    by_cases hover : shift ≥ w
    · rw [if_pos hover, decide_eq_true (lt_of_lt_of_le hi hover), Bool.not_true, Bool.false_and]
      exact BitVec.getLsbD_zero
    · rw [if_neg hover, BitVec.getLsbD_setWidth, decide_eq_true hi, Bool.true_and, BitVec.getLsbD_append]
      by_cases hlow : i < shift
      · rw [if_pos hlow, decide_eq_true hlow, Bool.not_true, Bool.false_and]
        exact BitVec.getLsbD_zero
      · rw [if_neg hlow, decide_eq_false hlow, Bool.not_false, Bool.true_and, BitVec.getLsbD_extractLsb',
          decide_eq_true (show i - shift < w - shift by omega), Bool.true_and, Nat.zero_add]

/-- The case of the shift is taken, whatever comes after it. -/
theorem rightShiftCases_eq {b : ℕ} (expr : BitVec w) (shift_ext : BitVec b) (n : ℕ) (res : BitVec w) (hn : n ≤ 2 ^ b) :
    rightShiftCases expr shift_ext n res = if shift_ext.toNat < n then expr >>> shift_ext.toNat else res := by
  induction n generalizing res with
  | zero => rw [rightShiftCases, if_neg (Nat.not_lt_zero _)]
  | succ n ih =>
    have hlt : n < 2 ^ b := hn
    have hcase : shift_ext = BitVec.ofNat b n ↔ shift_ext.toNat = n := by
      rw [← BitVec.toNat_inj, BitVec.toNat_ofNat, Nat.mod_eq_of_lt hlt]
    rw [rightShiftCases, ih _ hlt.le]
    by_cases hbelow : shift_ext.toNat < n
    · rw [if_pos hbelow, if_pos (Nat.lt_succ_of_lt hbelow)]
    · rw [if_neg hbelow]
      by_cases heq : shift_ext.toNat = n
      · rw [if_pos (hcase.2 heq), bvRightShift_eq, if_pos (by omega), heq]
      · rw [if_neg (mt hcase.1 heq), if_neg (by omega)]

/-- **A shift by a variable amount.** -/
theorem bvVarRightShift_eq {s : ℕ} (expr : BitVec w) (shift : BitVec s) (hw : w < 2 ^ s) :
    bvVarRightShift expr shift = expr >>> shift.toNat := by
  have hsize : w < 2 ^ w.size := Nat.lt_size_self w
  rw [bvVarRightShift, rightShiftCases_eq _ _ _ _ hsize.le, BitVec.extractLsb'_toNat, Nat.shiftRight_zero]
  by_cases hlt : shift < BitVec.ofNat s w
  · have hnat : shift.toNat < w := by
      rwa [BitVec.lt_def, BitVec.toNat_ofNat, Nat.mod_eq_of_lt hw] at hlt
    rw [if_pos hlt, Nat.mod_eq_of_lt (hnat.trans hsize), if_pos hnat]
  · have hnat : w ≤ shift.toNat := by
      rwa [BitVec.not_lt, BitVec.le_def, BitVec.toNat_ofNat, Nat.mod_eq_of_lt hw] at hlt
    rw [if_neg hlt]
    exact (BitVec.ushiftRight_eq_zero hnat).symm

/-! ### Products -/

/-- The loop of `constructMulByConstant`, with the bits below `j` still to come. -/
def mulLoop (expr : BitVec w) (add sub : BitVec 64) : ℕ → Option (BitVec w) → Option (Option (BitVec w))
  | 0, res => some res
  | j + 1, res =>
    let bit := BitVec.twoPow 64 j
    if add &&& bit ≠ 0 ∨ sub &&& bit ≠ 0 then
      if add &&& bit ≠ 0 ∧ sub &&& bit ≠ 0 then none
      else
        let op := bvLeftShift expr j
        if add &&& bit ≠ 0 then
          match res with
          | some res => mulLoop expr add sub j (some (res + op))
          | none => mulLoop expr add sub j (some op)
        else
          match res with
          | some res => mulLoop expr add sub j (some (res - op))
          | none => mulLoop expr add sub j (some (-op))
    else mulLoop expr add sub j res

/-- `bits64::truncateToNBits`. -/
def truncateToNBits (x : BitVec 64) (n : ℕ) : Option (BitVec 64) :=
  if 0 < n ∧ n ≤ 64 then some (x &&& (BitVec.allOnes 64 >>> (64 - n))) else none

/-- `constructMulByConstant`. -/
def constructMulByConstant (expr : BitVec w) (x : BitVec 64) : Option (BitVec w) := do
  let (add, sub) ← ComputeMultConstants64 x
  let add ← truncateToNBits add w
  let sub ← truncateToNBits sub w
  let res ← mulLoop expr add sub 64 none
  return res.getD 0

section Products

variable {add sub : BitVec 64} {j : ℕ}

/-- The bit at a place, as a number. -/
theorem mod_two_pow_succ (x : BitVec 64) (j : ℕ) :
    x.toNat % 2 ^ (j + 1) = x.toNat % 2 ^ j + if x.getLsbD j = true then 2 ^ j else 0 := by
  rw [Nat.mod_pow_succ, ← BitVec.testBit_toNat, Nat.testBit_eq_decide_div_mod_eq]
  by_cases hbit : x.toNat / 2 ^ j % 2 = 1
  · rw [decide_eq_true hbit, if_pos rfl, hbit, Nat.mul_one]
  · have hzero : x.toNat / 2 ^ j % 2 = 0 := by omega
    rw [decide_eq_false hbit, if_neg Bool.false_ne_true, hzero, Nat.mul_zero]

theorem ofNat_two_pow (w j : ℕ) : BitVec.ofNat w (2 ^ j) = BitVec.twoPow w j := by
  refine BitVec.eq_of_toNat_eq ?_
  rw [BitVec.toNat_ofNat, BitVec.toNat_twoPow]

theorem mul_bit (expr : BitVec w) (x : BitVec 64) (j : ℕ) :
    expr * BitVec.ofNat w (x.toNat % 2 ^ (j + 1)) =
      expr * BitVec.ofNat w (x.toNat % 2 ^ j) + if x.getLsbD j = true then bvLeftShift expr j else 0 := by
  rw [mod_two_pow_succ, BitVec.ofNat_add, mul_add]
  by_cases hbit : x.getLsbD j = true
  · rw [if_pos hbit, if_pos hbit, ofNat_two_pow, bvLeftShift_eq, BitVec.shiftLeft_eq_mul_twoPow]
  · rw [if_neg hbit, if_neg hbit]
    exact congrArg _ (mul_zero expr)

/-- **The sum of the shifted operands.** -/
theorem mulLoop_spec (expr : BitVec w) (hdisjoint : ∀ i, add.getLsbD i = true → sub.getLsbD i = false) (hj : j ≤ 64)
    (res : Option (BitVec w)) :
    ∃ res', mulLoop expr add sub j res = some res' ∧
      res'.getD 0 = res.getD 0 + expr * BitVec.ofNat w (add.toNat % 2 ^ j) - expr * BitVec.ofNat w (sub.toNat % 2 ^ j) := by
  induction j generalizing res with
  | zero =>
    refine ⟨res, rfl, ?_⟩
    rw [pow_zero, Nat.mod_one, Nat.mod_one, add_sub_cancel_right]
  | succ j ih =>
    have hj' : j < 64 := hj
    rw [mulLoop, mul_bit, mul_bit]
    simp only [and_twoPow_ne_zero hj']
    by_cases hadd : add.getLsbD j = true
    · have hsub := hdisjoint j hadd
      have hnot : ¬(add.getLsbD j = true ∧ sub.getLsbD j = true) := by
        rw [hsub]
        exact fun hand => Bool.false_ne_true hand.2
      rw [if_pos (.inl hadd), if_neg hnot, if_pos hadd, if_pos hadd, hsub, if_neg Bool.false_ne_true]
      cases res with
      | none =>
        obtain ⟨res', hrun, hres'⟩ := ih hj'.le (some (bvLeftShift expr j))
        refine ⟨res', hrun, ?_⟩
        rw [hres', Option.getD_some, Option.getD_none]
        ring
      | some r =>
        obtain ⟨res', hrun, hres'⟩ := ih hj'.le (some (r + bvLeftShift expr j))
        refine ⟨res', hrun, ?_⟩
        rw [hres', Option.getD_some, Option.getD_some]
        ring
    · by_cases hsub : sub.getLsbD j = true
      · have hnot : ¬(add.getLsbD j = true ∧ sub.getLsbD j = true) := fun hand => hadd hand.1
        rw [if_pos (.inr hsub), if_neg hnot, if_neg hadd, if_neg hadd, if_pos hsub]
        cases res with
        | none =>
          obtain ⟨res', hrun, hres'⟩ := ih hj'.le (some (-bvLeftShift expr j))
          refine ⟨res', hrun, ?_⟩
          rw [hres', Option.getD_some, Option.getD_none]
          ring
        | some r =>
          obtain ⟨res', hrun, hres'⟩ := ih hj'.le (some (r - bvLeftShift expr j))
          refine ⟨res', hrun, ?_⟩
          rw [hres', Option.getD_some, Option.getD_some]
          ring
      · have hnot : ¬(add.getLsbD j = true ∨ sub.getLsbD j = true) := fun hor => hor.elim hadd hsub
        obtain ⟨res', hrun, hres'⟩ := ih hj'.le res
        refine ⟨res', ?_, ?_⟩
        · rw [if_neg hnot]
          exact hrun
        · rw [hres', if_neg hadd, if_neg hsub, add_zero, add_zero]

theorem truncateToNBits_eq (x : BitVec 64) (hw : 0 < w) (hw' : w ≤ 64) :
    ∃ y, truncateToNBits x w = some y ∧ y.toNat = x.toNat % 2 ^ w ∧ ∀ i, y.getLsbD i = true → x.getLsbD i = true := by
  refine ⟨x &&& (BitVec.allOnes 64 >>> (64 - w)), if_pos ⟨hw, hw'⟩, ?_, ?_⟩
  · have hones : (2 ^ 64 - 1) / 2 ^ (64 - w) = 2 ^ w - 1 := by
      have hsplit : 2 ^ 64 = 2 ^ w * 2 ^ (64 - w) := by
        rw [← pow_add]
        congr 1
        omega
      have hpos := Nat.two_pow_pos (64 - w)
      have hpos' := Nat.two_pow_pos w
      refine Nat.div_eq_of_lt_le ?_ ?_
      · rw [hsplit, Nat.sub_mul, Nat.one_mul]
        omega
      · rw [Nat.sub_add_cancel hpos', ← hsplit]
        omega
    rw [BitVec.toNat_and, BitVec.toNat_ushiftRight, BitVec.toNat_allOnes, Nat.shiftRight_eq_div_pow, hones, Nat.and_two_pow_sub_one_eq_mod]
  · intro i hi
    rw [BitVec.getLsbD_and, Bool.and_eq_true] at hi
    exact hi.1

/-- **The product with a constant.** -/
theorem constructMulByConstant_eq (expr : BitVec w) (x : BitVec 64) (hw : 0 < w) (hw' : w ≤ 64) :
    constructMulByConstant expr x = some (expr * x.setWidth w) := by
  obtain ⟨add, sub, hrun, hdiff, hand⟩ := ComputeMultConstants64_spec x
  obtain ⟨a, ha, haval, habits⟩ := truncateToNBits_eq add hw hw'
  obtain ⟨s, hs, hsval, hsbits⟩ := truncateToNBits_eq sub hw hw'
  have hdisjoint : ∀ i, a.getLsbD i = true → s.getLsbD i = false := by
    intro i hi
    have hbit : (add &&& sub).getLsbD i = false := by
      rw [hand]
      exact getLsbD_zero' i
    rw [BitVec.getLsbD_and, habits i hi, Bool.true_and] at hbit
    cases hsi : s.getLsbD i with
    | false => rfl
    | true =>
      rw [hsbits i hsi] at hbit
      cases hbit
  obtain ⟨res, hloop, hres⟩ := mulLoop_spec expr hdisjoint le_rfl none
  rw [constructMulByConstant, hrun]
  show ((truncateToNBits add w).bind fun a => (truncateToNBits sub w).bind fun s => _) = _
  rw [ha, hs]
  show ((mulLoop expr a s 64 none).bind fun res => some (res.getD 0)) = _
  rw [hloop]
  have htrunc : ∀ {y z : BitVec 64}, y.toNat = z.toNat % 2 ^ w → BitVec.ofNat w (y.toNat % 2 ^ 64) = z.setWidth w := by
    intro y z hy
    refine BitVec.eq_of_toNat_eq ?_
    rw [BitVec.toNat_ofNat, Nat.mod_eq_of_lt y.isLt, hy, Nat.mod_mod, BitVec.toNat_setWidth]
  have hsum : add.setWidth w = x.setWidth w + sub.setWidth w := by
    rw [← BitVec.setWidth_add _ _ hw', ← hdiff, sub_add_cancel]
  show some (res.getD 0) = _
  rw [hres, htrunc haval, htrunc hsval, hsum, Option.getD_none]
  congr 1
  ring

end Products

/-! ### Quotients -/

/-- `constructUDivByConstant`, at its width 32. -/
def constructUDivByConstant (expr_n : BitVec 32) (d : BitVec 64) : Option (BitVec 32) := do
  let (mprime, sh1, sh2) := ComputeUDivConstants32 (d.setWidth 32)
  let expr_n_64 : BitVec 64 := (0 : BitVec 32) ++ expr_n
  let t1_64bits ← constructMulByConstant expr_n_64 (mprime.setWidth 64)
  let t1 := t1_64bits.extractLsb' 32 32
  let n_minus_t1 := expr_n - t1
  let shift_sh1 := bvVarRightShift n_minus_t1 sh1
  let plus_t1 := shift_sh1 + t1
  return bvVarRightShift plus_t1 sh2

/-- `constructSDivByConstant`, at its width 32. -/
def constructSDivByConstant (expr_n : BitVec 32) (d : BitVec 64) : Option (BitVec 32) := do
  let (mprime, dsign, shpost) := ComputeSDivConstants32 (d.setWidth 32)
  let mprime_64 := mprime.signExtend 64
  let expr_n_64 := expr_n.signExtend 64
  let mult_64 ← constructMulByConstant expr_n_64 mprime_64
  let mulsh := mult_64.extractLsb' 32 32
  let n_plus_mulsh := expr_n + mulsh
  let extend_npm := n_plus_mulsh.signExtend 64
  let shift_npm := bvVarRightShift extend_npm shpost
  let shift_shpost := shift_npm.extractLsb' 0 32
  let is_signed := expr_n.getLsbD 31
  let xsign_of_n : BitVec 32 := if is_signed then BitVec.allOnes 32 else 0
  let q0 := shift_shpost - xsign_of_n
  let q0_xor_dsign := q0 ^^^ dsign
  return q0_xor_dsign - dsign

section Unsigned

variable {d : BitVec 32}

theorem toNat_pos (hd : d ≠ 0) : 0 < d.toNat := by
  rw [Nat.pos_iff_ne_zero]
  intro hzero
  exact hd (BitVec.eq_of_toNat_eq hzero)

theorem size_le (d : BitVec 32) : (d.toNat - 1).size ≤ 32 :=
  Nat.size_le.2 (lt_of_le_of_lt (Nat.sub_le _ _) d.isLt)

/-- The power of two less the divisor. -/
theorem mid_eq (hd : d ≠ 0) : (exp_base_2 (LOG2_CEIL d) - d).toNat = 2 ^ (d.toNat - 1).size - d.toNat := by
  have hpos := toNat_pos hd
  have hlt := d.isLt
  have hle := le_two_pow_size d.toNat
  rw [LOG2_CEIL_eq hd, exp_base_2_eq ⟨(d.toNat - 1).size, Nat.lt_succ_of_le (size_le d)⟩, BitVec.toNat_sub, BitVec.toNat_ofNat]
  show (2 ^ 32 - d.toNat + 2 ^ (d.toNat - 1).size % 2 ^ 32) % 2 ^ 32 = _
  by_cases hsize : (d.toNat - 1).size = 32
  · rw [hsize]
    omega
  · have hpow : 2 ^ (d.toNat - 1).size < 2 ^ 32 := Nat.pow_lt_pow_right (by decide) (lt_of_le_of_ne (size_le d) hsize)
    rw [Nat.mod_eq_of_lt hpow]
    omega

theorem shifts_eq : ∀ k : Fin 33,
    (if (BitVec.ofNat 32 k.val).slt 1 then BitVec.ofNat 32 k.val else 1).toNat = min k.val 1 ∧
      (if (BitVec.ofNat 32 k.val - 1).slt 0 then 0 else BitVec.ofNat 32 k.val - 1).toNat = k.val - 1 := by decide

/-- **The constants of an unsigned division.** -/
theorem ComputeUDivConstants32_spec (hd : d ≠ 0) :
    (ComputeUDivConstants32 d).1.toNat = 2 ^ 32 * (2 ^ (d.toNat - 1).size - d.toNat) / d.toNat + 1 ∧
      (ComputeUDivConstants32 d).2.1.toNat = min (d.toNat - 1).size 1 ∧ (ComputeUDivConstants32 d).2.2.toNat = (d.toNat - 1).size - 1 := by
  have hpos := toNat_pos hd
  have hlt := d.isLt
  have hle := le_two_pow_size d.toNat
  have hpow := two_pow_size_lt hpos
  have hsize := size_le d
  refine ⟨?_, ?_, ?_⟩
  · have hmid := mid_eq hd
    have hprod : (TWO_TO_THE_32_U64 * (exp_base_2 (LOG2_CEIL d) - d).setWidth 64).toNat =
        2 ^ 32 * (2 ^ (d.toNat - 1).size - d.toNat) := by
      rw [BitVec.toNat_mul, BitVec.toNat_setWidth, hmid]
      show 2 ^ 32 * _ % 2 ^ 64 = _
      rw [Nat.mod_eq_of_lt (a := 2 ^ (d.toNat - 1).size - d.toNat) (by omega), Nat.mod_eq_of_lt (by omega)]
    have hquot : 2 ^ 32 * (2 ^ (d.toNat - 1).size - d.toNat) / d.toNat < 2 ^ 32 - 1 := by
      rw [Nat.div_lt_iff_lt_mul hpos]
      omega
    show (((TWO_TO_THE_32_U64 * (exp_base_2 (LOG2_CEIL d) - d).setWidth 64) / d.setWidth 64 + 1).setWidth 32).toNat = _
    rw [BitVec.toNat_setWidth, BitVec.toNat_add, BitVec.toNat_udiv, hprod, BitVec.toNat_setWidth, Nat.mod_eq_of_lt (a := d.toNat) (by omega)]
    generalize 2 ^ 32 * (2 ^ (d.toNat - 1).size - d.toNat) / d.toNat = q at hquot ⊢
    show (q + 1) % 2 ^ 64 % 2 ^ 32 = _
    omega
  · show (if (LOG2_CEIL d).slt 1 then LOG2_CEIL d else 1).toNat = _
    rw [LOG2_CEIL_eq hd]
    exact (shifts_eq ⟨(d.toNat - 1).size, Nat.lt_succ_of_le hsize⟩).1
  · show (if (LOG2_CEIL d - 1).slt 0 then 0 else LOG2_CEIL d - 1).toNat = _
    rw [LOG2_CEIL_eq hd]
    exact (shifts_eq ⟨(d.toNat - 1).size, Nat.lt_succ_of_le hsize⟩).2

/-- The quotient, before it is cut into 32-bit steps. -/
theorem quotient_steps {n d : ℕ} (hd : 0 < d) (hd' : d < 2 ^ 32) (hn : n < 2 ^ 32) :
    let t1 := (2 ^ 32 * (2 ^ (d - 1).size - d) / d + 1) * n / 2 ^ 32
    t1 ≤ n ∧ ((n - t1) / 2 ^ min (d - 1).size 1 + t1) / 2 ^ ((d - 1).size - 1) = n / d := by
  intro t1
  have hle := le_two_pow_size d
  have hpow := two_pow_size_lt hd
  have hquot : 2 ^ 32 * (2 ^ (d - 1).size - d) / d + 1 ≤ 2 ^ 32 := by
    have hlt : 2 ^ 32 * (2 ^ (d - 1).size - d) / d < 2 ^ 32 := by
      rw [Nat.div_lt_iff_lt_mul hd]
      omega
    omega
  have ht1 : t1 ≤ n := by
    have hmul : (2 ^ 32 * (2 ^ (d - 1).size - d) / d + 1) * n ≤ 2 ^ 32 * n := Nat.mul_le_mul_right n hquot
    exact Nat.div_le_of_le_mul hmul
  refine ⟨ht1, ?_⟩
  by_cases hsize : (d - 1).size = 0
  · -- the divisor is 1
    have hone : d = 1 := by
      rw [hsize, pow_zero] at hle
      omega
    have hzero : t1 = 0 := by
      show (2 ^ 32 * (2 ^ (d - 1).size - d) / d + 1) * n / 2 ^ 32 = 0
      rw [hone]
      show (2 ^ 32 * 0 / 1 + 1) * n / 2 ^ 32 = 0
      omega
    rw [hzero, hsize, hone]
    show ((n - 0) / 2 ^ 0 + 0) / 2 ^ 0 = n / 1
    simp
  · have hmin : min (d - 1).size 1 = 1 := by omega
    have hhalf : (n - t1) / 2 ^ 1 + t1 = (n + t1) / 2 := by omega
    have hsum : n + t1 = n * (2 ^ 32 * 2 ^ (d - 1).size / d + 1) / 2 ^ 32 := by
      have hsplit : 2 ^ 32 * 2 ^ (d - 1).size / d = 2 ^ 32 * (2 ^ (d - 1).size - d) / d + 2 ^ 32 := by
        rw [← Nat.add_mul_div_right _ _ hd, ← Nat.mul_add, Nat.sub_add_cancel hle]
      rw [hsplit, Nat.add_right_comm, Nat.mul_add, Nat.add_mul_div_right _ _ (Nat.two_pow_pos 32), Nat.add_comm n,
        Nat.mul_comm n]
    have hsucc : 2 * 2 ^ ((d - 1).size - 1) = 2 ^ (d - 1).size := by
      rw [← pow_succ']
      congr 1
      omega
    have hbound : d * n < 2 ^ 32 * 2 ^ (d - 1).size := by
      calc d * n ≤ 2 ^ (d - 1).size * n := Nat.mul_le_mul_right n hle
        _ < 2 ^ (d - 1).size * 2 ^ 32 := Nat.mul_lt_mul_of_pos_left hn (Nat.two_pow_pos _)
        _ = 2 ^ 32 * 2 ^ (d - 1).size := Nat.mul_comm _ _
    rw [hmin, hhalf, Nat.div_div_eq_div_mul, hsucc, hsum, Nat.div_div_eq_div_mul]
    exact reciprocal_floor hd hbound

/-- The high word of a product. -/
theorem high_word (n m : BitVec 32) :
    ((((0 : BitVec 32) ++ n : BitVec 64) * (m.setWidth 64).setWidth 64).extractLsb' 32 32).toNat = m.toNat * n.toNat / 2 ^ 32 := by
  have hn : ((0 : BitVec 32) ++ n : BitVec 64).toNat = n.toNat := by
    rw [BitVec.toNat_append]
    show (0 <<< 32) ||| n.toNat = n.toNat
    rw [Nat.zero_shiftLeft, Nat.zero_or]
  have hm : ((m.setWidth 64).setWidth 64).toNat = m.toNat := by
    rw [BitVec.setWidth_eq, BitVec.toNat_setWidth]
    exact Nat.mod_eq_of_lt (m.isLt.trans (by decide))
  have hprod : m.toNat * n.toNat < 2 ^ 64 := by
    calc m.toNat * n.toNat < 2 ^ 32 * 2 ^ 32 := Nat.mul_lt_mul'' m.isLt n.isLt
      _ = 2 ^ 64 := by norm_num
  rw [BitVec.extractLsb'_toNat, BitVec.toNat_mul, hn, hm, Nat.mul_comm n.toNat, Nat.mod_eq_of_lt hprod, Nat.shiftRight_eq_div_pow]
  refine Nat.mod_eq_of_lt ?_
  rw [Nat.div_lt_iff_lt_mul (by decide)]
  exact hprod

/-- **The unsigned quotient.** -/
theorem constructUDivByConstant_eq (n : BitVec 32) (hd : d ≠ 0) : constructUDivByConstant n (d.setWidth 64) = some (n / d) := by
  obtain ⟨hm, hsh1, hsh2⟩ := ComputeUDivConstants32_spec hd
  have hself : (d.setWidth 64).setWidth 32 = d := by
    rw [BitVec.setWidth_setWidth_of_le _ (by decide), BitVec.setWidth_eq]
  obtain ⟨ht1, hquot⟩ := quotient_steps (toNat_pos hd) d.isLt n.isLt
  rw [← hm, ← high_word n (ComputeUDivConstants32 d).1] at ht1 hquot
  rw [constructUDivByConstant, hself]
  show ((constructMulByConstant _ ((ComputeUDivConstants32 d).1.setWidth 64)).bind fun t1_64bits => _) = _
  rw [constructMulByConstant_eq _ _ (by decide) (by decide)]
  show some (bvVarRightShift (bvVarRightShift (n - (((0 : BitVec 32) ++ n : BitVec 64) *
    ((ComputeUDivConstants32 d).1.setWidth 64).setWidth 64).extractLsb' 32 32) (ComputeUDivConstants32 d).2.1 +
      (((0 : BitVec 32) ++ n : BitVec 64) * ((ComputeUDivConstants32 d).1.setWidth 64).setWidth 64).extractLsb' 32 32)
        (ComputeUDivConstants32 d).2.2) = _
  generalize (((0 : BitVec 32) ++ n : BitVec 64) * ((ComputeUDivConstants32 d).1.setWidth 64).setWidth 64).extractLsb' 32 32 = t1
    at ht1 hquot ⊢
  rw [bvVarRightShift_eq _ _ (by decide), bvVarRightShift_eq _ _ (by decide), hsh1, hsh2]
  congr 1
  refine BitVec.eq_of_toNat_eq ?_
  have hsub : (n - t1).toNat = n.toNat - t1.toNat := BitVec.toNat_sub_of_le ht1
  have hhalf : (n.toNat - t1.toNat) / 2 ^ min (d.toNat - 1).size 1 ≤ n.toNat - t1.toNat := Nat.div_le_self _ _
  have hfit : (n.toNat - t1.toNat) / 2 ^ min (d.toNat - 1).size 1 + t1.toNat < 2 ^ 32 := by
    have hlt := n.isLt
    omega
  rw [BitVec.toNat_ushiftRight, BitVec.toNat_add, BitVec.toNat_ushiftRight, hsub, Nat.shiftRight_eq_div_pow, Nat.shiftRight_eq_div_pow,
    Nat.mod_eq_of_lt hfit, hquot, BitVec.toNat_udiv]

end Unsigned

section Signed

variable {d : BitVec 32}

/-- A word of a 64-bit value, as a quotient rounded down. -/
theorem word_eq (v : BitVec 64) {k : ℕ} (hk : k ≤ 32) : BitVec.ofNat 32 (v.toNat / 2 ^ k) = BitVec.ofInt 32 (v.toInt / 2 ^ k) := by
  have hsign : ∃ c : ℤ, v.toInt = v.toNat - 2 ^ 64 * c := by
    rw [BitVec.toInt_eq_toNat_cond]
    by_cases hlow : 2 * v.toNat < 2 ^ 64
    · exact ⟨0, by rw [if_pos hlow, mul_zero, sub_zero]⟩
    · exact ⟨1, by rw [if_neg hlow, mul_one]; norm_num⟩
  obtain ⟨c, hc⟩ := hsign
  have hsplit : (v.toNat : ℤ) - 2 ^ 64 * c = v.toNat + 2 ^ 32 * (-(2 ^ (32 - k) * c)) * 2 ^ k := by
    have hpow : (2 : ℤ) ^ 64 = 2 ^ 32 * 2 ^ (32 - k) * 2 ^ k := by
      rw [mul_assoc, ← pow_add, ← pow_add]
      congr 1
      omega
    rw [hpow]
    ring
  have hdiv : v.toInt / 2 ^ k = ((v.toNat / 2 ^ k : ℕ) : ℤ) + 2 ^ 32 * -(2 ^ (32 - k) * c) := by
    rw [hc, hsplit, Int.add_mul_ediv_right _ _ (by positivity)]
    norm_cast
  refine BitVec.eq_of_toNat_eq ?_
  rw [BitVec.toNat_ofNat, BitVec.toNat_ofInt, hdiv]
  show _ = (((v.toNat / 2 ^ k : ℕ) + 2 ^ 32 * _ : ℤ) % 2 ^ 32).toNat
  rw [Int.add_mul_emod_self_left]
  norm_cast

theorem high_word_eq (v : BitVec 64) : v.extractLsb' 32 32 = BitVec.ofInt 32 (v.toInt / 2 ^ 32) := by
  rw [← word_eq v le_rfl]
  refine BitVec.eq_of_toNat_eq ?_
  rw [BitVec.extractLsb'_toNat, Nat.shiftRight_eq_div_pow, BitVec.toNat_ofNat]

theorem low_word_eq (v : BitVec 64) {k : ℕ} (hk : k ≤ 32) : (v >>> k).extractLsb' 0 32 = BitVec.ofInt 32 (v.toInt / 2 ^ k) := by
  rw [← word_eq v hk]
  refine BitVec.eq_of_toNat_eq ?_
  rw [BitVec.extractLsb'_toNat, BitVec.toNat_ushiftRight, Nat.shiftRight_zero, Nat.shiftRight_eq_div_pow, BitVec.toNat_ofNat]

theorem toInt_signExtend_64 (v : BitVec 32) : (v.signExtend 64).toInt = v.toInt := BitVec.toInt_signExtend_of_le (by decide)

/-- The size of the divisor. -/
theorem ABS_eq (d : BitVec 32) : (ABS (d.signExtend 64)).toNat = d.toInt.natAbs := by
  have hext := toInt_signExtend_64 d
  have hlow := BitVec.le_toInt d
  have hcond := BitVec.toInt_eq_toNat_cond (d.signExtend 64)
  have hlt := (d.signExtend 64).isLt
  rw [hext] at hcond
  rw [ABS, BitVec.slt_eq_decide, hext]
  show (if decide ((0 : ℤ) < d.toInt) = true then _ else _ : BitVec 64).toNat = _
  by_cases hpos : 0 < d.toInt
  · rw [decide_eq_true hpos, if_pos rfl]
    by_cases hcase : 2 * (d.signExtend 64).toNat < 2 ^ 64
    · rw [if_pos hcase] at hcond
      omega
    · rw [if_neg hcase] at hcond
      omega
  · rw [decide_eq_false hpos, if_neg Bool.false_ne_true, BitVec.toNat_neg]
    by_cases hcase : 2 * (d.signExtend 64).toNat < 2 ^ 64
    · rw [if_pos hcase] at hcond
      omega
    · rw [if_neg hcase] at hcond
      omega

theorem natAbs_toInt_le (d : BitVec 32) : d.toInt.natAbs ≤ 2 ^ 31 := by
  have hlow := BitVec.le_toInt d
  have hhigh := BitVec.toInt_lt (x := d)
  norm_num at hlow hhigh
  omega

theorem natAbs_toInt_pos (hd : d ≠ 0) : 0 < d.toInt.natAbs := by
  rw [Int.natAbs_pos]
  intro hzero
  refine hd (BitVec.eq_of_toInt_eq ?_)
  rw [hzero]
  rfl

/-- The logarithm of the divisor, at least 1. -/
def logarithm (d : BitVec 32) : ℕ := max 1 (d.toInt.natAbs - 1).size

theorem logarithm_le (d : BitVec 32) : logarithm d ≤ 31 := by
  have hle := natAbs_toInt_le d
  refine max_le (by decide) (Nat.size_le.2 ?_)
  omega

theorem one_le_logarithm (d : BitVec 32) : 1 ≤ logarithm d := le_max_left _ _

theorem divisor_le (d : BitVec 32) : d.toInt.natAbs ≤ 2 ^ logarithm d :=
  (le_two_pow_size _).trans (Nat.pow_le_pow_right (by decide) (le_max_right _ _))

theorem two_pow_logarithm_lt (h : 2 ≤ d.toInt.natAbs) : 2 ^ logarithm d < 2 * d.toInt.natAbs := by
  have hpos : 1 ≤ (d.toInt.natAbs - 1).size := Nat.size_pos.2 (by omega)
  rw [logarithm, max_eq_right hpos]
  exact two_pow_size_lt (by omega)

theorem cases_eq : ∀ k : Fin 33, (if (1 : BitVec 32) < BitVec.ofNat 32 k.val then BitVec.ofNat 32 k.val else 1) =
    BitVec.ofNat 32 (max 1 k.val) := by decide

theorem sub_one_eq : ∀ k : Fin 32, BitVec.ofNat 32 (k.val + 1) - 1 = BitVec.ofNat 32 k.val := by decide

/-- The logarithm that is computed. -/
theorem log_eq (hd : d ≠ 0) :
    (if ABS (d.signExtend 64) = 0x80000000 then 31
      else if (1 : BitVec 32) < LOG2_CEIL ((ABS (d.signExtend 64)).setWidth 32) then LOG2_CEIL ((ABS (d.signExtend 64)).setWidth 32)
        else 1) = BitVec.ofNat 32 (logarithm d) := by
  have habs := ABS_eq d
  have hle := natAbs_toInt_le d
  have hpos := natAbs_toInt_pos hd
  have hnat : ((ABS (d.signExtend 64)).setWidth 32).toNat = d.toInt.natAbs := by
    rw [BitVec.toNat_setWidth, habs]
    omega
  have hne : (ABS (d.signExtend 64)).setWidth 32 ≠ 0 := by
    intro hzero
    rw [hzero] at hnat
    exact absurd hnat (Nat.ne_of_lt hpos)
  have hsize : (d.toInt.natAbs - 1).size ≤ 31 := Nat.size_le.2 (by omega)
  have hlog : (if (1 : BitVec 32) < LOG2_CEIL ((ABS (d.signExtend 64)).setWidth 32) then LOG2_CEIL ((ABS (d.signExtend 64)).setWidth 32)
      else 1) = BitVec.ofNat 32 (logarithm d) := by
    rw [LOG2_CEIL_eq hne, hnat]
    exact cases_eq ⟨(d.toInt.natAbs - 1).size, by omega⟩
  rw [hlog]
  by_cases hmin : ABS (d.signExtend 64) = 0x80000000
  · have hval : d.toInt.natAbs = 2 ^ 31 := by
      rw [← habs, hmin]
      rfl
    have hlow : 31 ≤ logarithm d := by
      have hdle := divisor_le d
      rw [hval] at hdle
      exact (Nat.pow_le_pow_iff_right (by decide)).1 hdle
    have heq : logarithm d = 31 := le_antisymm (logarithm_le d) hlow
    rw [if_pos hmin, heq]
    rfl
  · rw [if_neg hmin]

/-- The multiplier, before `2 ^ 32` is taken away. -/
def multiplier (d : BitVec 32) : ℕ := 2 ^ 32 * 2 ^ (logarithm d - 1) / d.toInt.natAbs + 1

theorem XSIGN_eq (d : BitVec 32) : XSIGN d = if d.toInt < 0 then BitVec.allOnes 32 else 0 := by
  have hlow := BitVec.le_toInt d
  have hhigh := BitVec.toInt_lt (x := d)
  norm_num at hlow hhigh
  refine BitVec.eq_of_toInt_eq ?_
  rw [XSIGN, BitVec.toInt_sshiftRight, Int.shiftRight_eq_div_pow]
  by_cases hneg : d.toInt < 0
  · rw [if_pos hneg]
    show d.toInt / 2147483648 = -1
    omega
  · rw [if_neg hneg]
    show d.toInt / 2147483648 = 0
    omega

theorem scaled_lt (d : BitVec 32) : 2 ^ 32 * 2 ^ (logarithm d - 1) ≤ 2 ^ 62 := by
  rw [← pow_add]
  refine Nat.pow_le_pow_right (by decide) ?_
  have hle := logarithm_le d
  omega

/-- **The constants of a signed division.** -/
theorem ComputeSDivConstants32_spec (hd : d ≠ 0) :
    (ComputeSDivConstants32 d).1 = BitVec.ofInt 32 ((multiplier d : ℤ) - 2 ^ 32) ∧
      (ComputeSDivConstants32 d).2.1 = (if d.toInt < 0 then BitVec.allOnes 32 else 0) ∧
      (ComputeSDivConstants32 d).2.2 = BitVec.ofNat 32 (logarithm d - 1) := by
  have hle := logarithm_le d
  have hone := one_le_logarithm d
  have hpred : BitVec.ofNat 32 (logarithm d) - 1 = BitVec.ofNat 32 (logarithm d - 1) := by
    have hsub := sub_one_eq ⟨logarithm d - 1, by omega⟩
    rwa [show logarithm d - 1 + 1 = logarithm d by omega] at hsub
  refine ⟨?_, XSIGN_eq d, ?_⟩
  · have hm : (TWO_TO_THE_32_U64 * (exp_base_2 (BitVec.ofNat 32 (logarithm d - 1))).setWidth 64 / ABS (d.signExtend 64) + 1).toNat =
        multiplier d := by
      have hpow : 2 ^ (logarithm d - 1) < 2 ^ 32 := Nat.pow_lt_pow_right (by decide) (by omega)
      have hscaled := scaled_lt d
      have hquot : 2 ^ 32 * 2 ^ (logarithm d - 1) / d.toInt.natAbs ≤ 2 ^ 62 := (Nat.div_le_self _ _).trans hscaled
      rw [exp_base_2_eq ⟨logarithm d - 1, by omega⟩, BitVec.toNat_add, BitVec.toNat_udiv, BitVec.toNat_mul, BitVec.toNat_setWidth,
        BitVec.toNat_ofNat, Nat.mod_eq_of_lt hpow, ABS_eq, multiplier]
      show (2 ^ 32 * (2 ^ (logarithm d - 1) % 2 ^ 64) % 2 ^ 64 / d.toInt.natAbs + 1) % 2 ^ 64 = _
      rw [Nat.mod_eq_of_lt (hpow.trans (by decide)), Nat.mod_eq_of_lt (lt_of_le_of_lt hscaled (by decide))]
      generalize 2 ^ 32 * 2 ^ (logarithm d - 1) / d.toInt.natAbs = q at hquot ⊢
      omega
    show ((TWO_TO_THE_32_U64 * (exp_base_2 (_ - 1)).setWidth 64 / ABS (d.signExtend 64) + 1) - TWO_TO_THE_32_U64).setWidth 32 = _
    rw [log_eq hd, hpred]
    refine BitVec.eq_of_toNat_eq ?_
    rw [BitVec.toNat_setWidth, BitVec.toNat_sub, hm, BitVec.toNat_ofInt]
    show (2 ^ 64 - 2 ^ 32 + multiplier d) % 2 ^ 64 % 2 ^ 32 = (((multiplier d : ℤ) - 2 ^ 32) % 2 ^ 32).toNat
    omega
  · show _ - 1 = _
    rw [log_eq hd, hpred]

/-- The multiplier is at most one above `2 ^ 32`, and that for the divisors 1 and -1 only. -/
theorem multiplier_bounds (hd : d ≠ 0) :
    2 ^ 31 < multiplier d ∧ multiplier d ≤ 2 ^ 32 + 1 ∧ (2 ≤ d.toInt.natAbs → multiplier d ≤ 2 ^ 32) := by
  have hpos := natAbs_toInt_pos hd
  have hsucc : 2 * 2 ^ (logarithm d - 1) = 2 ^ logarithm d := by
    have hone := one_le_logarithm d
    rw [← pow_succ']
    congr 1
    omega
  have hle := divisor_le d
  have hlow : 2 ^ 31 ≤ 2 ^ 32 * 2 ^ (logarithm d - 1) / d.toInt.natAbs := by
    rw [Nat.le_div_iff_mul_le hpos]
    omega
  have hlarge : 2 ≤ d.toInt.natAbs → multiplier d ≤ 2 ^ 32 := by
    intro htwo
    have hlt := two_pow_logarithm_lt htwo
    have hquot : 2 ^ 32 * 2 ^ (logarithm d - 1) / d.toInt.natAbs < 2 ^ 32 := by
      rw [Nat.div_lt_iff_lt_mul hpos]
      omega
    exact hquot
  refine ⟨Nat.lt_succ_of_le hlow, ?_, hlarge⟩
  by_cases htwo : 2 ≤ d.toInt.natAbs
  · exact (hlarge htwo).trans (Nat.le_succ _)
  · have hval : d.toInt.natAbs = 1 := by omega
    have hlog : logarithm d = 1 := by
      rw [logarithm, hval]
      rfl
    rw [multiplier, hval, hlog]
    norm_num

/-- **The quotient**, rounded down and then towards zero. -/
theorem quotient_eq (hd : d ≠ 0) (n : BitVec 32) :
    n.toInt * multiplier d / 2 ^ 32 / 2 ^ (logarithm d - 1) + (if n.toInt < 0 then 1 else 0) = n.toInt.tdiv d.toInt.natAbs := by
  have hpos := natAbs_toInt_pos hd
  have hlow := BitVec.le_toInt n
  have hhigh := BitVec.toInt_lt (x := n)
  norm_num at hlow hhigh
  have hsucc : 2 * 2 ^ (logarithm d - 1) = 2 ^ logarithm d := by
    have hone := one_le_logarithm d
    rw [← pow_succ']
    congr 1
    omega
  have hle := divisor_le d
  have hN : (2 : ℤ) ^ 32 * 2 ^ (logarithm d - 1) = ((2 ^ 32 * 2 ^ (logarithm d - 1) : ℕ) : ℤ) := by norm_cast
  have hbound : ∀ x : ℕ, x ≤ 2 ^ 31 → d.toInt.natAbs * x ≤ 2 ^ 32 * 2 ^ (logarithm d - 1) := by
    intro x hx
    calc d.toInt.natAbs * x ≤ 2 ^ logarithm d * 2 ^ 31 := Nat.mul_le_mul hle hx
      _ = 2 ^ 32 * 2 ^ (logarithm d - 1) := by
        rw [← hsucc]
        ring
  rw [Int.ediv_ediv_of_nonneg (by positivity), hN, multiplier]
  by_cases hneg : n.toInt < 0
  · have hx : n.toInt = -(n.toInt.natAbs : ℤ) := by omega
    rw [if_pos hneg, hx, reciprocal_neg hpos (by omega) (hbound n.toInt.natAbs (by omega)), Int.neg_tdiv,
      sub_add_cancel, Int.ofNat_tdiv]
  · have hx : n.toInt = (n.toInt.natAbs : ℤ) := by omega
    have hstrict : d.toInt.natAbs * n.toInt.natAbs < 2 ^ 32 * 2 ^ (logarithm d - 1) := by
      have hmul := hbound (n.toInt.natAbs + 1) (by omega)
      rw [Nat.mul_add, Nat.mul_one] at hmul
      omega
    have hfloor := reciprocal_floor hpos hstrict
    rw [if_neg hneg, add_zero, hx, ← Int.ofNat_tdiv]
    exact_mod_cast hfloor

/-- The product with the multiplier, of which only the high word is used. -/
theorem toInt_product (hd : d ≠ 0) (n : BitVec 32) :
    (n.signExtend 64 * ((BitVec.ofInt 32 ((multiplier d : ℤ) - 2 ^ 32)).signExtend 64).setWidth 64).toInt =
      n.toInt * ((multiplier d : ℤ) - 2 ^ 32) := by
  obtain ⟨hmlow, hmhigh, -⟩ := multiplier_bounds hd
  have hlow := BitVec.le_toInt n
  have hhigh := BitVec.toInt_lt (x := n)
  norm_num at hlow hhigh hmlow hmhigh
  have hmultiplier : (BitVec.ofInt 32 ((multiplier d : ℤ) - 2 ^ 32)).toInt = (multiplier d : ℤ) - 2 ^ 32 := by
    refine BitVec.toInt_ofInt_eq_self (by decide) ?_ ?_
    · norm_num
      omega
    · norm_num
      omega
  rw [BitVec.setWidth_eq, BitVec.toInt_mul, toInt_signExtend_64, toInt_signExtend_64, hmultiplier]
  have habs : |n.toInt * ((multiplier d : ℤ) - 2 ^ 32)| ≤ 2 ^ 31 * 2 ^ 31 := by
    rw [abs_mul]
    refine mul_le_mul ?_ ?_ (abs_nonneg _) (by positivity)
    · rw [abs_le]
      constructor
      · norm_num
        omega
      · norm_num
        omega
    · rw [abs_le]
      constructor
      · norm_num
        omega
      · norm_num
        omega
  obtain ⟨hplow, hphigh⟩ := abs_le.1 habs
  norm_num at hplow hphigh
  refine Int.bmod_eq_of_le ?_ ?_
  · norm_num
    omega
  · norm_num
    omega

/-- The sum of the dividend and the high word of the product. -/
theorem add_high_word (hd : d ≠ 0) (n : BitVec 32) :
    n + (n.signExtend 64 * ((BitVec.ofInt 32 ((multiplier d : ℤ) - 2 ^ 32)).signExtend 64).setWidth 64).extractLsb' 32 32 =
      BitVec.ofInt 32 (n.toInt * multiplier d / 2 ^ 32) := by
  have hdiv : n.toInt * ((multiplier d : ℤ) - 2 ^ 32) / 2 ^ 32 = n.toInt * multiplier d / 2 ^ 32 - n.toInt := by
    rw [mul_sub, Int.sub_mul_ediv_right _ _ (by decide)]
  rw [high_word_eq, toInt_product hd, hdiv]
  nth_rewrite 1 [← BitVec.ofInt_toInt (x := n)]
  rw [← BitVec.ofInt_add]
  congr 1
  ring

/-- The shift of the sum. -/
theorem shift_sum (hd : d ≠ 0) (n : BitVec 32) :
    ((BitVec.ofInt 32 (n.toInt * multiplier d / 2 ^ 32)).signExtend 64 >>> (logarithm d - 1)).extractLsb' 0 32 =
      BitVec.ofInt 32 (n.toInt * multiplier d / 2 ^ 32 / 2 ^ (logarithm d - 1)) := by
  obtain ⟨-, -, hlarge⟩ := multiplier_bounds hd
  have hlog := logarithm_le d
  rw [low_word_eq _ (by omega), toInt_signExtend_64]
  by_cases htwo : 2 ≤ d.toInt.natAbs
  · -- the sum fits into 32 bits
    have hm := hlarge htwo
    have hlow := BitVec.le_toInt n
    have hhigh := BitVec.toInt_lt (x := n)
    norm_num at hlow hhigh hm
    rw [BitVec.toInt_ofInt_eq_self (by decide)]
    · rw [Int.le_ediv_iff_mul_le (by decide)]
      norm_num
      nlinarith
    · rw [Int.ediv_lt_iff_lt_mul (by decide)]
      norm_num
      nlinarith
  · -- nothing is shifted
    have hval : d.toInt.natAbs = 1 := by
      have hpos := natAbs_toInt_pos hd
      omega
    have hone : logarithm d = 1 := by
      rw [logarithm, hval]
      rfl
    rw [hone, Nat.sub_self, pow_zero, Int.ediv_one, Int.ediv_one, BitVec.ofInt_toInt]

/-- The signs of the dividend and of the divisor. -/
theorem sign_eq (n : BitVec 32) : (if n.getLsbD 31 = true then BitVec.allOnes 32 else 0) = BitVec.ofInt 32 (-if n.toInt < 0 then 1 else 0) := by
  have hmsb : n.getLsbD 31 = decide (n.toInt < 0) := by
    rw [← BitVec.msb_eq_toInt]
    exact (BitVec.msb_eq_getLsbD_last n).symm
  rw [hmsb]
  by_cases hneg : n.toInt < 0
  · rw [decide_eq_true hneg, if_pos rfl, if_pos hneg]
    rfl
  · rw [decide_eq_false hneg, if_neg Bool.false_ne_true, if_neg hneg]
    rfl

theorem xor_sub (q : BitVec 32) (z : ℤ) (hq : q = BitVec.ofInt 32 (z.tdiv d.toInt.natAbs)) :
    (q ^^^ if d.toInt < 0 then BitVec.allOnes 32 else 0) - (if d.toInt < 0 then BitVec.allOnes 32 else 0) =
      BitVec.ofInt 32 (z.tdiv d.toInt) := by
  by_cases hneg : d.toInt < 0
  · have hval : d.toInt = -(d.toInt.natAbs : ℤ) := by omega
    rw [if_pos hneg, BitVec.xor_allOnes, hval, Int.tdiv_neg, BitVec.ofInt_neg, ← hq, BitVec.neg_eq_not_add]
    have hones : BitVec.allOnes 32 = -(1 : BitVec 32) := by decide
    rw [hones, sub_neg_eq_add]
    rfl
  · have hval : d.toInt = (d.toInt.natAbs : ℤ) := by omega
    rw [if_neg hneg, hval, ← hq]
    show (q ^^^ 0) - 0 = q
    rw [sub_zero]
    exact BitVec.xor_zero

/-- **The signed quotient.** -/
theorem constructSDivByConstant_eq (n : BitVec 32) (hd : d ≠ 0) : constructSDivByConstant n (d.setWidth 64) = some (n.sdiv d) := by
  obtain ⟨hm, hdsign, hshpost⟩ := ComputeSDivConstants32_spec hd
  have hself : (d.setWidth 64).setWidth 32 = d := by
    rw [BitVec.setWidth_setWidth_of_le _ (by decide), BitVec.setWidth_eq]
  have hshift : (BitVec.ofNat 32 (logarithm d - 1)).toNat = logarithm d - 1 := by
    have hlog := logarithm_le d
    rw [BitVec.toNat_ofNat]
    omega
  have hsdiv : n.sdiv d = BitVec.ofInt 32 (n.toInt.tdiv d.toInt) := by
    refine BitVec.eq_of_toInt_eq ?_
    rw [BitVec.toInt_sdiv, BitVec.toInt_ofInt]
  rw [constructSDivByConstant, hself]
  show ((constructMulByConstant (n.signExtend 64) ((ComputeSDivConstants32 d).1.signExtend 64)).bind fun mult_64 => _) = _
  rw [constructMulByConstant_eq _ _ (by decide) (by decide), hm]
  show some ((((bvVarRightShift ((n + (n.signExtend 64 *
    ((BitVec.ofInt 32 ((multiplier d : ℤ) - 2 ^ 32)).signExtend 64).setWidth 64).extractLsb' 32 32).signExtend 64)
      (ComputeSDivConstants32 d).2.2).extractLsb' 0 32 - if n.getLsbD 31 = true then BitVec.allOnes 32 else 0) ^^^
        (ComputeSDivConstants32 d).2.1) - (ComputeSDivConstants32 d).2.1) = _
  rw [add_high_word hd, bvVarRightShift_eq _ _ (by decide), hshpost, hshift, shift_sum hd, sign_eq, hdsign, hsdiv]
  congr 1
  refine xor_sub _ n.toInt ?_
  rw [← quotient_eq hd n, BitVec.ofInt_add, BitVec.ofInt_neg, sub_neg_eq_add]

end Signed

/-- **Division and multiplication by constants.**  The two quotients are those of the 32-bit division, unsigned and signed, and
the factor is recoded without a common bit, so the sum of shifts is the product at every width up to 64. -/
theorem constant_division (n d : BitVec 32) (hd : d ≠ 0) (expr : BitVec w) (hw : 0 < w) (hw' : w ≤ 64) (x : BitVec 64) :
    constructUDivByConstant n (d.setWidth 64) = some (n / d) ∧ constructSDivByConstant n (d.setWidth 64) = some (n.sdiv d) ∧
      (∃ add sub, ComputeMultConstants64 x = some (add, sub) ∧ add - sub = x ∧ add &&& sub = 0) ∧
      constructMulByConstant expr x = some (expr * x.setWidth w) :=
  ⟨constructUDivByConstant_eq n hd, constructSDivByConstant_eq n hd, ComputeMultConstants64_spec x,
    constructMulByConstant_eq expr x hw hw'⟩

/-- The smallest dividend by -1. -/
theorem constant_division_min :
    constructUDivByConstant 0x80000000 ((0xffffffff : BitVec 32).setWidth 64) = some (0x80000000 / 0xffffffff) ∧
      constructSDivByConstant 0x80000000 ((0xffffffff : BitVec 32).setWidth 64) = some ((0x80000000 : BitVec 32).sdiv 0xffffffff) ∧
      (∃ add sub, ComputeMultConstants64 7 = some (add, sub) ∧ add - sub = 7 ∧ add &&& sub = 0) ∧
      constructMulByConstant (3 : BitVec 8) 7 = some (3 * (7 : BitVec 64).setWidth 8) :=
  constant_division 0x80000000 0xffffffff (by decide) 3 (by decide) (by decide) 7

end STPBuilder

end SymBisect
