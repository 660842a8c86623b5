import Mathlib
import SymBisect.Lib.BitBounds

/-!
# Intervals of 64-bit values

`ValueRange` of `lib/Solver/FastCexSolver.cpp`: a pair of unsigned 64-bit ends, with an operation for each operator of an
expression.  `ValueRange.Encloses` says that a value lies in the interval and that the interval fits a width; each operation
keeps it.

* `minOR_le`, `le_maxOR`, `minAND_le`, `le_maxAND`: the four scans bound the operation on the values of two intervals.
* `binaryAnd_encloses`, `binaryOr_encloses`, `binaryXor_encloses`, `concat_encloses`: the operations.
* `minSigned_le`, `le_maxSigned`: the signed ends.

A failed assertion and a shift by the full width return `none`.
-/

namespace SymBisect

open Lib

namespace FastCexSolver

/-! ### The scans -/

/-- `(a | m) & -m`. -/
def raise (a m : BitVec 64) : BitVec 64 := (a ||| m) &&& -m

/-- `(b - m) | (m - 1)`. -/
def lower (b m : BitVec 64) : BitVec 64 := (b - m) ||| (m - 1)

/-- `(b & ~m) | (m - 1)`. -/
def clear (b m : BitVec 64) : BitVec 64 := (b &&& ~~~m) ||| (m - 1)

/-- The loop of `minOR`, with the bits below `k` still to be looked at. -/
def minORFrom (b d : BitVec 64) : ℕ → BitVec 64 → BitVec 64 → BitVec 64
  | 0, a, c => a ||| c
  | k + 1, a, c =>
    let m := BitVec.twoPow 64 k
    if ~~~a &&& c &&& m ≠ 0 then
      if raise a m ≤ b then raise a m ||| c else minORFrom b d k a c
    else if a &&& ~~~c &&& m ≠ 0 then
      if raise c m ≤ d then a ||| raise c m else minORFrom b d k a c
    else minORFrom b d k a c

/-- `minOR`. -/
def minOR (a b c d : BitVec 64) : BitVec 64 := minORFrom b d 64 a c

/-- The loop of `maxOR`. -/
def maxORFrom (a c : BitVec 64) : ℕ → BitVec 64 → BitVec 64 → BitVec 64
  | 0, b, d => b ||| d
  | k + 1, b, d =>
    let m := BitVec.twoPow 64 k
    if b &&& d &&& m ≠ 0 then
      if a ≤ lower b m then lower b m ||| d
      else if c ≤ lower d m then b ||| lower d m
      else maxORFrom a c k b d
    else maxORFrom a c k b d

/-- `maxOR`. -/
def maxOR (a b c d : BitVec 64) : BitVec 64 := maxORFrom a c 64 b d

/-- The loop of `minAND`. -/
def minANDFrom (b d : BitVec 64) : ℕ → BitVec 64 → BitVec 64 → BitVec 64
  | 0, a, c => a &&& c
  | k + 1, a, c =>
    let m := BitVec.twoPow 64 k
    if ~~~a &&& ~~~c &&& m ≠ 0 then
      if raise a m ≤ b then raise a m &&& c
      else if raise c m ≤ d then a &&& raise c m
      else minANDFrom b d k a c
    else minANDFrom b d k a c

/-- `minAND`. -/
def minAND (a b c d : BitVec 64) : BitVec 64 := minANDFrom b d 64 a c

/-- The loop of `maxAND`. -/
def maxANDFrom (a c : BitVec 64) : ℕ → BitVec 64 → BitVec 64 → BitVec 64
  | 0, b, d => b &&& d
  | k + 1, b, d =>
    let m := BitVec.twoPow 64 k
    if b &&& ~~~d &&& m ≠ 0 then
      if a ≤ clear b m then clear b m &&& d else maxANDFrom a c k b d
    else if ~~~b &&& d &&& m ≠ 0 then
      if c ≤ clear d m then b &&& clear d m else maxANDFrom a c k b d
    else maxANDFrom a c k b d

/-- `maxAND`. -/
def maxAND (a b c d : BitVec 64) : BitVec 64 := maxANDFrom a c 64 b d

section Scans

variable {a b c d : BitVec 64} {k x y n : ℕ}

theorem mask_ne_zero (hk : k < 64) : a &&& BitVec.twoPow 64 k ≠ 0 ↔ a.toNat.testBit k = true := by
  rw [BitVec.and_twoPow, BitVec.testBit_toNat]
  cases a.getLsbD k with
  | false =>
    simp
  | true =>
    simp only [if_true, iff_true]
    intro h
    have hbit := congrArg (fun v => v.getLsbD k) h
    simp [hk] at hbit

theorem testBit_not (hk : k < 64) : (~~~a).toNat.testBit k = !a.toNat.testBit k := by
  rw [BitVec.testBit_toNat, BitVec.testBit_toNat, BitVec.getLsbD_not, decide_eq_true hk, Bool.true_and]

theorem toNat_twoPow_sub_one (hk : k < 64) : (BitVec.twoPow 64 k - 1).toNat = 2 ^ k - 1 := by
  rw [BitVec.toNat_sub_of_le, BitVec.toNat_twoPow_of_lt hk]
  · rfl
  · rw [BitVec.le_def, BitVec.toNat_twoPow_of_lt hk]
    exact Nat.two_pow_pos k

theorem testBit_raise (hk : k < 64) (i : ℕ) :
    (raise a (BitVec.twoPow 64 k)).toNat.testBit i = ((a.toNat.testBit i || decide (k = i)) && decide (k ≤ i)) := by
  have hneg : (-BitVec.twoPow 64 k).getLsbD i = (decide (i < 64) && decide (k ≤ i)) := by
    rw [BitVec.getLsbD_neg]
    simp only [BitVec.getLsbD_twoPow, hk, decide_true, Bool.true_and, decide_eq_true_eq]
    by_cases hi : i < 64
    · by_cases hki : k < i
      · simp [hi, hki, hki.le, hki.ne]
      · have hle : k ≤ i ↔ k = i := by omega
        simp [hi, hki, hle]
    · have hne : k ≠ i := by omega
      simp [hi, hne]
  rw [raise, BitVec.testBit_toNat, BitVec.getLsbD_and, BitVec.getLsbD_or, hneg, BitVec.getLsbD_twoPow, decide_eq_true hk,
    Bool.true_and, BitVec.testBit_toNat]
  by_cases hi : i < 64
  · rw [decide_eq_true hi, Bool.true_and]
  · have hge : a.getLsbD i = false := BitVec.getLsbD_of_ge a i (not_lt.1 hi)
    have hne : k ≠ i := by omega
    simp [hge, hne]

theorem testBit_clear (hk : k < 64) (i : ℕ) :
    (clear b (BitVec.twoPow 64 k)).toNat.testBit i = ((b.toNat.testBit i && !decide (k = i)) || decide (i < k)) := by
  have hones : (BitVec.twoPow 64 k - 1).getLsbD i = decide (i < k) := by
    rw [← BitVec.testBit_toNat, toNat_twoPow_sub_one hk, Nat.testBit_two_pow_sub_one]
  rw [clear, BitVec.testBit_toNat, BitVec.getLsbD_or, BitVec.getLsbD_and, hones, BitVec.getLsbD_not, BitVec.getLsbD_twoPow,
    decide_eq_true hk, Bool.true_and, BitVec.testBit_toNat]
  by_cases hi : i < 64
  · rw [decide_eq_true hi, Bool.true_and]
  · have hge : b.getLsbD i = false := BitVec.getLsbD_of_ge b i (not_lt.1 hi)
    simp [hge]

/-- Taking away a bit that is set clears it. -/
theorem lower_eq_clear (hk : k < 64) (hb : b.toNat.testBit k = true) :
    lower b (BitVec.twoPow 64 k) = clear b (BitVec.twoPow 64 k) := by
  have hdisjoint : (b &&& ~~~BitVec.twoPow 64 k) &&& BitVec.twoPow 64 k = 0 := by
    rw [BitVec.and_assoc, BitVec.and_comm (~~~_), BitVec.and_not_self]
    exact BitVec.and_zero
  have hsum : (b &&& ~~~BitVec.twoPow 64 k) + BitVec.twoPow 64 k = b := by
    rw [BitVec.add_eq_or_of_and_eq_zero _ _ hdisjoint]
    refine BitVec.eq_of_getLsbD_eq fun i hi => ?_
    rw [BitVec.getLsbD_or, BitVec.getLsbD_and, BitVec.getLsbD_not, BitVec.getLsbD_twoPow, decide_eq_true hi, decide_eq_true hk]
    by_cases hki : k = i
    · subst hki
      rw [← BitVec.testBit_toNat b, hb]
      simp
    · simp [hki]
  rw [lower, clear, BitVec.sub_eq_iff_eq_add.2 hsum.symm]

/-- What the scan needs of the end it raises. -/
theorem raise_shift (hk : k < 64) : (raise a (BitVec.twoPow 64 k)).toNat >>> (k + 1) = a.toNat >>> (k + 1) := by
  refine Nat.eq_of_testBit_eq fun i => ?_
  have hne : k ≠ k + 1 + i := by omega
  have hle : k ≤ k + 1 + i := by omega
  rw [Nat.testBit_shiftRight, Nat.testBit_shiftRight, testBit_raise hk]
  simp [hne, hle]

theorem raise_testBit (hk : k < 64) : (raise a (BitVec.twoPow 64 k)).toNat.testBit k = true := by
  rw [testBit_raise hk]
  simp

theorem raise_mod (hk : k < 64) : (raise a (BitVec.twoPow 64 k)).toNat % 2 ^ k = 0 := by
  refine Nat.eq_of_testBit_eq fun i => ?_
  rw [Nat.testBit_mod_two_pow, testBit_raise hk, Nat.zero_testBit]
  by_cases hi : i < k
  · have hle : ¬k ≤ i := by omega
    simp [hle]
  · simp [hi]

theorem clear_shift (hk : k < 64) : (clear b (BitVec.twoPow 64 k)).toNat >>> (k + 1) = b.toNat >>> (k + 1) := by
  refine Nat.eq_of_testBit_eq fun i => ?_
  have hne : k ≠ k + 1 + i := by omega
  have hle : ¬k + 1 + i < k := by omega
  rw [Nat.testBit_shiftRight, Nat.testBit_shiftRight, testBit_clear hk]
  simp [hne, hle]

theorem clear_testBit (hk : k < 64) : (clear b (BitVec.twoPow 64 k)).toNat.testBit k = false := by
  rw [testBit_clear hk]
  simp

theorem clear_mod (hk : k < 64) : (clear b (BitVec.twoPow 64 k)).toNat % 2 ^ k = 2 ^ k - 1 := by
  refine Nat.eq_of_testBit_eq fun i => ?_
  rw [Nat.testBit_mod_two_pow, testBit_clear hk, Nat.testBit_two_pow_sub_one]
  by_cases hi : i < k
  · simp [hi]
  · simp [hi]

/-- An end that was lowered is smaller. -/
theorem clear_le (hk : k < 64) (hb : b.toNat.testBit k = true) : (clear b (BitVec.twoPow 64 k)).toNat ≤ b.toNat := by
  refine (lt_of_shift_lt (k := k) ?_).le
  rw [shift_succ, shift_succ b.toNat, clear_shift hk, clear_testBit hk, hb]
  simp

theorem raised_away (hk : k < 64) (hax : a.toNat ≤ x) (hxb : x ≤ b.toNat)
    (h : ¬raise a (BitVec.twoPow 64 k) ≤ b) (ha : a.toNat.testBit k = false) : x >>> k = a.toNat >>> k := by
  rw [BitVec.le_def, not_le] at h
  exact shift_eq_of_lt hax (hxb.trans_lt h) (raise_shift hk) ha (raise_testBit hk) (raise_mod hk)

theorem cleared_away (hk : k < 64) (hax : a.toNat ≤ x) (hxb : x ≤ b.toNat)
    (h : ¬a ≤ clear b (BitVec.twoPow 64 k)) (hb : b.toNat.testBit k = true) : x >>> k = b.toNat >>> k := by
  rw [BitVec.le_def, not_le] at h
  exact shift_eq_of_gt hxb (h.trans_le hax) (clear_shift hk) hb (clear_testBit hk) (clear_mod hk)

theorem and_mask_ne_zero (hk : k < 64) :
    a &&& b &&& BitVec.twoPow 64 k ≠ 0 ↔ a.toNat.testBit k = true ∧ b.toNat.testBit k = true := by
  rw [mask_ne_zero hk, BitVec.toNat_and, Nat.testBit_and, Bool.and_eq_true]

theorem testBit_not_eq_true (hk : k < 64) : (~~~a).toNat.testBit k = true ↔ a.toNat.testBit k = false := by
  rw [testBit_not hk, Bool.not_eq_true']

/-- **The smallest disjunction.** -/
theorem minORFrom_le (hk : k ≤ 64) (hax : a.toNat ≤ x) (hxb : x ≤ b.toNat) (hcy : c.toNat ≤ y) (hyd : y ≤ d.toNat)
    (h : Below (· ||| ·) a.toNat c.toNat x y k) : (minORFrom b d k a c).toNat ≤ x ||| y := by
  induction k with
  | zero =>
    rw [minORFrom, BitVec.toNat_or]
    exact h.le bitwise_or
  | succ k ih =>
    have hk' : k < 64 := hk
    rw [minORFrom]
    simp only [and_mask_ne_zero hk', testBit_not_eq_true hk']
    split
    · rename_i hac
      split
      · rw [BitVec.toNat_or]
        exact or_lower h hcy hac.2 (raise_shift hk') (raise_mod hk')
      · rename_i hraise
        refine ih (by omega) (h.step bitwise_or hax hcy ?_ ?_)
        · intro ha hirrelevant
          exact raised_away hk' hax hxb hraise ha
        · intro hc hirrelevant
          rw [hac.2] at hc
          cases hc
    · rename_i hac
      split
      · rename_i hca
        split
        · rw [BitVec.toNat_or, Nat.or_comm, Nat.or_comm x]
          exact or_lower (h.comm Nat.or_comm) hax hca.1 (raise_shift hk') (raise_mod hk')
        · rename_i hraise
          refine ih (by omega) (h.step bitwise_or hax hcy ?_ ?_)
          · intro ha hirrelevant
            rw [hca.1] at ha
            cases ha
          · intro hc hirrelevant
            exact raised_away hk' hcy hyd hraise hc
      · rename_i hca
        refine ih (by omega) (h.step bitwise_or hax hcy ?_ ?_)
        · intro ha hirrelevant
          have hc : c.toNat.testBit k = true := by simpa using hirrelevant
          exact absurd ⟨ha, hc⟩ hac
        · intro hc hirrelevant
          have ha : a.toNat.testBit k = true := by simpa using hirrelevant
          exact absurd ⟨ha, hc⟩ hca

/-- **The largest disjunction.** -/
theorem le_maxORFrom (hk : k ≤ 64) (hax : a.toNat ≤ x) (hxb : x ≤ b.toNat) (hcy : c.toNat ≤ y) (hyd : y ≤ d.toNat)
    (h : Above (· ||| ·) b.toNat d.toNat x y k) : x ||| y ≤ (maxORFrom a c k b d).toNat := by
  induction k with
  | zero =>
    rw [maxORFrom, BitVec.toNat_or]
    exact Below.le h bitwise_or
  | succ k ih =>
    have hk' : k < 64 := hk
    rw [maxORFrom]
    simp only [and_mask_ne_zero hk']
    split
    · rename_i hbd
      rw [lower_eq_clear hk' hbd.1, lower_eq_clear hk' hbd.2]
      split
      · rw [BitVec.toNat_or]
        exact or_upper h hbd.2 (clear_shift hk') (clear_mod hk')
      · rename_i hb
        split
        · rw [BitVec.toNat_or, Nat.or_comm, Nat.or_comm b.toNat]
          exact or_upper (Below.comm Nat.or_comm h) hbd.1 (clear_shift hk') (clear_mod hk')
        · rename_i hd
          refine ih (by omega) (h.step bitwise_or hxb hyd ?_ ?_)
          · intro hbit hirrelevant
            exact cleared_away hk' hax hxb hb hbit
          · intro hbit hirrelevant
            exact cleared_away hk' hcy hyd hd hbit
    · rename_i hbd
      refine ih (by omega) (h.step bitwise_or hxb hyd ?_ ?_)
      · intro hb hirrelevant
        have hd : d.toNat.testBit k = true := by simpa using hirrelevant
        exact absurd ⟨hb, hd⟩ hbd
      · intro hd hirrelevant
        have hb : b.toNat.testBit k = true := by simpa using hirrelevant
        exact absurd ⟨hb, hd⟩ hbd

/-- **The smallest conjunction.** -/
theorem minANDFrom_le (hk : k ≤ 64) (hax : a.toNat ≤ x) (hxb : x ≤ b.toNat) (hcy : c.toNat ≤ y) (hyd : y ≤ d.toNat)
    (h : Below (· &&& ·) a.toNat c.toNat x y k) : (minANDFrom b d k a c).toNat ≤ x &&& y := by
  induction k with
  | zero =>
    rw [minANDFrom, BitVec.toNat_and]
    exact h.le bitwise_and
  | succ k ih =>
    have hk' : k < 64 := hk
    rw [minANDFrom]
    simp only [and_mask_ne_zero hk', testBit_not_eq_true hk']
    split
    · rename_i hac
      split
      · rw [BitVec.toNat_and]
        exact and_lower h hac.2 (raise_shift hk') (raise_mod hk')
      · rename_i ha
        split
        · rw [BitVec.toNat_and, Nat.and_comm, Nat.and_comm x]
          exact and_lower (h.comm Nat.and_comm) hac.1 (raise_shift hk') (raise_mod hk')
        · rename_i hc
          refine ih (by omega) (h.step bitwise_and hax hcy ?_ ?_)
          · intro hbit hirrelevant
            exact raised_away hk' hax hxb ha hbit
          · intro hbit hirrelevant
            exact raised_away hk' hcy hyd hc hbit
    · rename_i hac
      refine ih (by omega) (h.step bitwise_and hax hcy ?_ ?_)
      · intro ha hirrelevant
        have hc : c.toNat.testBit k = false := by simpa using hirrelevant
        exact absurd ⟨ha, hc⟩ hac
      · intro hc hirrelevant
        have ha : a.toNat.testBit k = false := by simpa using hirrelevant
        exact absurd ⟨ha, hc⟩ hac

/-- **The largest conjunction.** -/
theorem le_maxANDFrom (hk : k ≤ 64) (hax : a.toNat ≤ x) (hxb : x ≤ b.toNat) (hcy : c.toNat ≤ y) (hyd : y ≤ d.toNat)
    (h : Above (· &&& ·) b.toNat d.toNat x y k) : x &&& y ≤ (maxANDFrom a c k b d).toNat := by
  induction k with
  | zero =>
    rw [maxANDFrom, BitVec.toNat_and]
    exact Below.le h bitwise_and
  | succ k ih =>
    have hk' : k < 64 := hk
    rw [maxANDFrom]
    simp only [and_mask_ne_zero hk', testBit_not_eq_true hk']
    split
    · rename_i hbd
      split
      · rw [BitVec.toNat_and]
        exact and_upper h hyd hbd.2 (clear_shift hk') (clear_mod hk')
      · rename_i hclear
        refine ih (by omega) (h.step bitwise_and hxb hyd ?_ ?_)
        · intro hb hirrelevant
          exact cleared_away hk' hax hxb hclear hb
        · intro hd hirrelevant
          rw [hbd.2] at hd
          cases hd
    · rename_i hbd
      split
      · rename_i hdb
        split
        · rw [BitVec.toNat_and, Nat.and_comm, Nat.and_comm b.toNat]
          exact and_upper (Below.comm Nat.and_comm h) hxb hdb.1 (clear_shift hk') (clear_mod hk')
        · rename_i hclear
          refine ih (by omega) (h.step bitwise_and hxb hyd ?_ ?_)
          · intro hb hirrelevant
            rw [hdb.1] at hb
            cases hb
          · intro hd hirrelevant
            exact cleared_away hk' hcy hyd hclear hd
      · rename_i hdb
        refine ih (by omega) (h.step bitwise_and hxb hyd ?_ ?_)
        · intro hb hirrelevant
          have hd : d.toNat.testBit k = false := by simpa using hirrelevant
          exact absurd ⟨hb, hd⟩ hbd
        · intro hd hirrelevant
          have hb : b.toNat.testBit k = false := by simpa using hirrelevant
          exact absurd ⟨hb, hd⟩ hdb

/-- The scan for the largest disjunction stays within the width of the ends. -/
theorem maxORFrom_lt (hk : k ≤ 64) (hb : b.toNat < 2 ^ n) (hd : d.toNat < 2 ^ n) : (maxORFrom a c k b d).toNat < 2 ^ n := by
  induction k with
  | zero =>
    rw [maxORFrom, BitVec.toNat_or]
    exact Nat.or_lt_two_pow hb hd
  | succ k ih =>
    have hk' : k < 64 := hk
    rw [maxORFrom]
    simp only [and_mask_ne_zero hk']
    split
    · rename_i hbd
      rw [lower_eq_clear hk' hbd.1, lower_eq_clear hk' hbd.2]
      split
      · rw [BitVec.toNat_or]
        exact Nat.or_lt_two_pow ((clear_le hk' hbd.1).trans_lt hb) hd
      · split
        · rw [BitVec.toNat_or]
          exact Nat.or_lt_two_pow hb ((clear_le hk' hbd.2).trans_lt hd)
        · exact ih (by omega)
    · exact ih (by omega)

theorem maxANDFrom_lt (hk : k ≤ 64) (hb : b.toNat < 2 ^ n) (hd : d.toNat < 2 ^ n) : (maxANDFrom a c k b d).toNat < 2 ^ n := by
  induction k with
  | zero =>
    rw [maxANDFrom, BitVec.toNat_and]
    exact Nat.and_le_left.trans_lt hb
  | succ k ih =>
    have hk' : k < 64 := hk
    have hand : ∀ {u v : BitVec 64}, v.toNat < 2 ^ n → (u &&& v).toNat < 2 ^ n := by
      intro u v hv
      rw [BitVec.toNat_and]
      exact Nat.and_le_right.trans_lt hv
    rw [maxANDFrom]
    simp only [and_mask_ne_zero hk', testBit_not_eq_true hk']
    split
    · split
      · exact hand hd
      · exact ih (by omega)
    · split
      · rename_i hdb
        split
        · exact hand ((clear_le hk' hdb.2).trans_lt hd)
        · exact ih (by omega)
      · exact ih (by omega)

end Scans

end FastCexSolver

/-- `ValueRange`. -/
structure ValueRange where
  m_min : BitVec 64
  m_max : BitVec 64
  deriving DecidableEq, Repr

namespace ValueRange

open FastCexSolver

/-- `ValueRange()`, the empty interval. -/
def empty : ValueRange := ⟨1, 0⟩

/-- `ValueRange(value)`. -/
def fixed (value : BitVec 64) : ValueRange := ⟨value, value⟩

/-- `ValueRange(ce)`, with `APInt::getLimitedValue`: a constant that needs more than 64 bits becomes the largest value. -/
def ofConstant {w : ℕ} (value : BitVec w) : ValueRange := fixed (BitVec.ofNat 64 (min value.toNat (2 ^ 64 - 1)))

/-- `isEmpty`. -/
def isEmpty (r : ValueRange) : Bool := r.m_max < r.m_min

/-- `isFixed`. -/
def isFixed (r : ValueRange) : Bool := r.m_min = r.m_max

/-- `bits64::maxValueOfNBits`. -/
def maxValueOfNBits (n : ℕ) : Option (BitVec 64) :=
  if n ≤ 64 then some (if n = 0 then 0 else BitVec.allOnes 64 >>> (64 - n)) else none

/-- `isFullRange`. -/
def isFullRange (r : ValueRange) (bits : ℕ) : Option Bool := do
  let last ← maxValueOfNBits bits
  return r.m_min = 0 && r.m_max = last

/-- `set_intersection`. -/
def set_intersection (r b : ValueRange) : ValueRange :=
  ⟨if r.m_min ≤ b.m_min then b.m_min else r.m_min, if r.m_max ≤ b.m_max then r.m_max else b.m_max⟩

/-- `set_union`. -/
def set_union (r b : ValueRange) : ValueRange :=
  ⟨if r.m_min ≤ b.m_min then r.m_min else b.m_min, if r.m_max ≤ b.m_max then b.m_max else r.m_max⟩

/-- `mustEqual` of a value. -/
def mustEqualValue (r : ValueRange) (b : BitVec 64) : Bool := r.m_min = r.m_max && r.m_min = b

/-- `mustEqual`. -/
def mustEqual (r b : ValueRange) : Bool := r.isFixed && b.isFixed && r.m_min = b.m_min

/-- `mayEqual`, by `intersects`. -/
def mayEqual (r b : ValueRange) : Bool := !(r.set_intersection b).isEmpty

/-- `min`. -/
def min (r : ValueRange) : Option (BitVec 64) := if r.isEmpty then none else some r.m_min

/-- `max`. -/
def max (r : ValueRange) : Option (BitVec 64) := if r.isEmpty then none else some r.m_max

/-- `binaryAnd`. -/
def binaryAnd (r b : ValueRange) : Option ValueRange :=
  if r.isEmpty || b.isEmpty then none
  else if r.isFixed && b.isFixed then some (fixed (r.m_min &&& b.m_min))
  else some ⟨minAND r.m_min r.m_max b.m_min b.m_max, maxAND r.m_min r.m_max b.m_min b.m_max⟩

/-- `binaryOr`. -/
def binaryOr (r b : ValueRange) : Option ValueRange :=
  if r.isEmpty || b.isEmpty then none
  else if r.isFixed && b.isFixed then some (fixed (r.m_min ||| b.m_min))
  else some ⟨minOR r.m_min r.m_max b.m_min b.m_max, maxOR r.m_min r.m_max b.m_min b.m_max⟩

/-- `bits64::withoutRightmostBit`. -/
def withoutRightmostBit (t : BitVec 64) : BitVec 64 := t &&& (t - 1)

/-- `bits64::isPowerOfTwo`. -/
def isPowerOfTwo (t : BitVec 64) : Bool := t ≠ 0 && withoutRightmostBit t = 0

/-- The loop of `binaryXor`, for a number of rounds. -/
def leftmostBit : ℕ → BitVec 64 → Option (BitVec 64)
  | 0, _ => none
  | rounds + 1, t => if isPowerOfTwo t then some t else leftmostBit rounds (withoutRightmostBit t)

/-- `binaryXor`; each round makes `t` smaller, and on zero the loop does not end. -/
def binaryXor (r b : ValueRange) : Option ValueRange :=
  if r.isFixed && b.isFixed then some (fixed (r.m_min ^^^ b.m_min))
  else do
    let t := r.m_max ||| b.m_max
    let leftmost ← leftmostBit t.toNat t
    return ⟨0, (leftmost <<< 1) - 1⟩

/-- `binaryShiftLeft`. -/
def binaryShiftLeft (r : ValueRange) (bits : ℕ) : ValueRange := ⟨r.m_min <<< bits, r.m_max <<< bits⟩

/-- `concat`. -/
def concat (r b : ValueRange) (bits : ℕ) : Option ValueRange := (r.binaryShiftLeft bits).binaryOr b

/-- `add`, `sub`, `mul`, `udiv`, `sdiv`, `urem` and `srem`: everything of the width. -/
def full (width : ℕ) : Option ValueRange := do
  let last ← maxValueOfNBits width
  return ⟨0, last⟩

/-- `ints::sext` to 64 bits. -/
def sext (l : BitVec 64) (inWidth : ℕ) : BitVec 64 := (l <<< (64 - inWidth)).sshiftRight (64 - inWidth)

/-- The assertion of `minSigned` and `maxSigned`; a shift by the full width or by less than nothing is undefined. -/
def fitsSigned (r : ValueRange) (bits : ℕ) : Bool := 0 < bits && bits < 64 && r.m_min >>> bits = 0 && r.m_max >>> bits = 0

/-- `minSigned`. -/
def minSigned (r : ValueRange) (bits : ℕ) : Option (BitVec 64) :=
  if r.fitsSigned bits then
    let smallest := (1 : BitVec 64) <<< (bits - 1)
    some (if smallest ≤ r.m_max then sext smallest bits else r.m_min)
  else none

/-- `maxSigned`. -/
def maxSigned (r : ValueRange) (bits : ℕ) : Option (BitVec 64) :=
  if r.fitsSigned bits then
    let smallest := (1 : BitVec 64) <<< (bits - 1)
    some (if r.m_min < smallest && smallest ≤ r.m_max then smallest - 1 else sext r.m_max bits)
  else none

/-! ### What an interval encloses -/

/-- The value lies in the interval, and the interval in `n` bits. -/
structure Encloses (r : ValueRange) (n v : ℕ) : Prop where
  le_value : r.m_min.toNat ≤ v
  value_le : v ≤ r.m_max.toNat
  fits : r.m_max.toNat < 2 ^ n

variable {r b : ValueRange} {n m v u : ℕ}

theorem Encloses.isEmpty (h : r.Encloses n v) : r.isEmpty = false := by
  have hle := h.le_value.trans h.value_le
  unfold ValueRange.isEmpty
  rw [decide_eq_false_iff_not, BitVec.lt_def]
  omega

theorem Encloses.value_lt (h : r.Encloses n v) : v < 2 ^ n := h.value_le.trans_lt h.fits

/-- A fixed interval encloses one value. -/
theorem Encloses.eq_of_fixed (h : r.Encloses n v) (hfixed : r.isFixed = true) : r.m_min.toNat = v := by
  have hmin := h.le_value
  have hmax := h.value_le
  rw [← of_decide_eq_true hfixed] at hmax
  omega

theorem fixed_encloses {x : BitVec 64} (hx : x.toNat < 2 ^ n) : (fixed x).Encloses n x.toNat := ⟨le_rfl, le_rfl, hx⟩

theorem min_eq (h : r.Encloses n v) : r.min = some r.m_min := by
  rw [min, h.isEmpty]
  rfl

theorem max_eq (h : r.Encloses n v) : r.max = some r.m_max := by
  rw [max, h.isEmpty]
  rfl

theorem Encloses.mono (h : r.Encloses n v) (hnm : n ≤ m) : r.Encloses m v :=
  ⟨h.le_value, h.value_le, h.fits.trans_le (Nat.pow_le_pow_right Nat.two_pos hnm)⟩

/-! ### The operations -/

theorem maxValueOfNBits_eq (hn : n ≤ 64) : ∃ last, maxValueOfNBits n = some last ∧ last.toNat = 2 ^ n - 1 := by
  rw [maxValueOfNBits, if_pos hn]
  refine ⟨_, rfl, ?_⟩
  by_cases hzero : n = 0
  · rw [if_pos hzero, hzero]
    rfl
  · have hsplit : 2 ^ 64 = 2 ^ (64 - n) * 2 ^ n := by
      rw [← Nat.pow_add]
      congr 1
      omega
    have hpos : 0 < 2 ^ (64 - n) * 2 ^ n := by positivity
    rw [if_neg hzero, BitVec.toNat_ushiftRight, BitVec.toNat_allOnes, Nat.shiftRight_eq_div_pow, hsplit,
      Nat.mul_sub_div 0 _ _ hpos, Nat.zero_div]

theorem full_encloses (hn : n ≤ 64) : ∃ s, full n = some s ∧ ∀ v < 2 ^ n, s.Encloses n v := by
  obtain ⟨last, hlast, htoNat⟩ := maxValueOfNBits_eq hn
  refine ⟨⟨0, last⟩, by rw [full, hlast]; rfl, ?_⟩
  intro v hv
  refine ⟨Nat.zero_le _, ?_, ?_⟩
  · show v ≤ last.toNat
    omega
  · show last.toNat < 2 ^ n
    omega

theorem set_union_encloses_left (h : r.Encloses n v) (hb : b.m_max.toNat < 2 ^ n) : (r.set_union b).Encloses n v := by
  have hmin := h.le_value
  have hmax := h.value_le
  have hfits := h.fits
  unfold set_union
  refine ⟨?_, ?_, ?_⟩
  · simp only [BitVec.le_def]
    split <;> omega
  · simp only [BitVec.le_def]
    split <;> omega
  · simp only [BitVec.le_def]
    split <;> omega

theorem set_union_encloses_right (h : b.Encloses n v) (hr : r.m_max.toNat < 2 ^ n) : (r.set_union b).Encloses n v := by
  have hmin := h.le_value
  have hmax := h.value_le
  have hfits := h.fits
  unfold set_union
  refine ⟨?_, ?_, ?_⟩
  · simp only [BitVec.le_def]
    split <;> omega
  · simp only [BitVec.le_def]
    split <;> omega
  · simp only [BitVec.le_def]
    split <;> omega

theorem mustEqual_eq (h : r.Encloses n v) (hb : b.Encloses m u) (heq : r.mustEqual b = true) : v = u := by
  unfold mustEqual at heq
  rw [Bool.and_eq_true, Bool.and_eq_true] at heq
  obtain ⟨⟨hr, hb'⟩, hmin⟩ := heq
  rw [← h.eq_of_fixed hr, ← hb.eq_of_fixed hb', of_decide_eq_true hmin]

/-- Intervals that cannot be equal enclose different values. -/
theorem mayEqual_of_eq (h : r.Encloses n v) (hb : b.Encloses m v) : r.mayEqual b = true := by
  have hr1 := h.le_value
  have hr2 := h.value_le
  have hb1 := hb.le_value
  have hb2 := hb.value_le
  unfold mayEqual isEmpty set_intersection
  rw [Bool.not_eq_true', decide_eq_false_iff_not, BitVec.lt_def, not_lt]
  simp only [BitVec.le_def]
  split
  · split <;> omega
  · split <;> omega

theorem below_ends {F : ℕ → ℕ → ℕ} (h : r.Encloses n v) (hb : b.Encloses m u) :
    Below F r.m_min.toNat b.m_min.toNat v u 64 :=
  Below.of_lt r.m_min.isLt b.m_min.isLt (h.value_le.trans_lt r.m_max.isLt) (hb.value_le.trans_lt b.m_max.isLt)

theorem above_ends {F : ℕ → ℕ → ℕ} (h : r.Encloses n v) (hb : b.Encloses m u) :
    Above F r.m_max.toNat b.m_max.toNat v u 64 :=
  Below.of_lt (h.value_le.trans_lt r.m_max.isLt) (hb.value_le.trans_lt b.m_max.isLt) r.m_max.isLt b.m_max.isLt

theorem binaryAnd_encloses (h : r.Encloses n v) (hb : b.Encloses n u) :
    ∃ s, r.binaryAnd b = some s ∧ s.Encloses n (v &&& u) := by
  rw [binaryAnd, h.isEmpty, hb.isEmpty]
  simp only [Bool.or_self, Bool.false_eq_true, if_false]
  split
  · rename_i hfixed
    rw [Bool.and_eq_true] at hfixed
    have hvalue : (r.m_min &&& b.m_min).toNat = v &&& u := by
      rw [BitVec.toNat_and, h.eq_of_fixed hfixed.1, hb.eq_of_fixed hfixed.2]
    refine ⟨_, rfl, hvalue ▸ fixed_encloses ?_⟩
    rw [hvalue]
    exact Nat.and_le_left.trans_lt h.value_lt
  · exact ⟨_, rfl, minANDFrom_le le_rfl h.le_value h.value_le hb.le_value hb.value_le (below_ends h hb),
      le_maxANDFrom le_rfl h.le_value h.value_le hb.le_value hb.value_le (above_ends h hb), maxANDFrom_lt le_rfl h.fits hb.fits⟩

theorem binaryOr_encloses (h : r.Encloses n v) (hb : b.Encloses n u) :
    ∃ s, r.binaryOr b = some s ∧ s.Encloses n (v ||| u) := by
  rw [binaryOr, h.isEmpty, hb.isEmpty]
  simp only [Bool.or_self, Bool.false_eq_true, if_false]
  split
  · rename_i hfixed
    rw [Bool.and_eq_true] at hfixed
    have hvalue : (r.m_min ||| b.m_min).toNat = v ||| u := by
      rw [BitVec.toNat_or, h.eq_of_fixed hfixed.1, hb.eq_of_fixed hfixed.2]
    refine ⟨_, rfl, hvalue ▸ fixed_encloses ?_⟩
    rw [hvalue]
    exact Nat.or_lt_two_pow h.value_lt hb.value_lt
  · exact ⟨_, rfl, minORFrom_le le_rfl h.le_value h.value_le hb.le_value hb.value_le (below_ends h hb),
      le_maxORFrom le_rfl h.le_value h.value_le hb.le_value hb.value_le (above_ends h hb), maxORFrom_lt le_rfl h.fits hb.fits⟩

theorem binaryShiftLeft_encloses {bits : ℕ} (h : r.Encloses n v) (hn : n + bits ≤ 64) :
    (r.binaryShiftLeft bits).Encloses (n + bits) (v <<< bits) := by
  have hpow : 2 ^ (n + bits) ≤ 2 ^ 64 := Nat.pow_le_pow_right Nat.two_pos hn
  have hshift : ∀ {x : BitVec 64}, x.toNat < 2 ^ n → (x <<< bits).toNat = x.toNat * 2 ^ bits := by
    intro x hx
    have hlt : x.toNat * 2 ^ bits < 2 ^ (n + bits) := by
      rw [Nat.pow_add]
      exact Nat.mul_lt_mul_of_pos_right hx (Nat.two_pow_pos bits)
    rw [BitVec.toNat_shiftLeft, Nat.shiftLeft_eq, Nat.mod_eq_of_lt (by omega)]
  have hmin := (h.le_value.trans h.value_le).trans_lt h.fits
  unfold binaryShiftLeft
  refine ⟨?_, ?_, ?_⟩
  · rw [hshift hmin, Nat.shiftLeft_eq]
    exact Nat.mul_le_mul_right _ h.le_value
  · rw [hshift h.fits, Nat.shiftLeft_eq]
    exact Nat.mul_le_mul_right _ h.value_le
  · rw [hshift h.fits, Nat.pow_add]
    exact Nat.mul_lt_mul_of_pos_right h.fits (Nat.two_pow_pos bits)

/-- **Concatenation** weighs the left operand by the width it is given. -/
theorem concat_encloses (h : r.Encloses n v) (hb : b.Encloses m u) (hn : n + m ≤ 64) :
    ∃ s, r.concat b m = some s ∧ s.Encloses (n + m) (v <<< m ||| u) :=
  binaryOr_encloses (binaryShiftLeft_encloses h hn) (hb.mono (Nat.le_add_left m n))

/-- The first operand is joined to a zero. -/
theorem concat_zero_encloses (bits : ℕ) (hb : b.Encloses n u) : ∃ s, (fixed 0).concat b bits = some s ∧ s.Encloses n u := by
  have hzero : ((fixed 0).binaryShiftLeft bits) = fixed 0 := by
    have hshift : (0 : BitVec 64) <<< bits = 0 := BitVec.zero_shiftLeft bits
    show (⟨(0 : BitVec 64) <<< bits, (0 : BitVec 64) <<< bits⟩ : ValueRange) = ⟨0, 0⟩
    rw [hshift]
  have hfixed : (fixed 0).Encloses n 0 := fixed_encloses (Nat.two_pow_pos n)
  rw [concat, hzero]
  have hor := binaryOr_encloses hfixed hb
  rwa [Nat.zero_or] at hor

/-! ### Exclusive or -/

theorem testBit_of_between {x k : ℕ} (hle : 2 ^ k ≤ x) (hlt : x < 2 ^ (k + 1)) : x.testBit k = true := by
  have hone : x / 2 ^ k = 1 := by
    rw [Nat.pow_succ] at hlt
    exact Nat.div_eq_of_lt_le (by omega) (by omega)
  rw [Nat.testBit_eq_decide_div_mod_eq, hone]
  rfl

theorem toNat_withoutRightmostBit {t : BitVec 64} (h : t ≠ 0) :
    (withoutRightmostBit t).toNat = t.toNat &&& (t.toNat - 1) := by
  have hpos : 1 ≤ t.toNat := by
    have hne : t.toNat ≠ 0 := fun h0 => h (BitVec.eq_of_toNat_eq h0)
    omega
  have hle : (1 : BitVec 64) ≤ t := by
    rw [BitVec.le_def]
    exact hpos
  rw [withoutRightmostBit, BitVec.toNat_and, BitVec.toNat_sub_of_le hle]
  rfl

/-- The loop keeps the highest bit and ends on it. -/
theorem leftmostBit_eq {rounds k : ℕ} {t : BitVec 64} (hrounds : t.toNat ≤ rounds) (hle : 2 ^ k ≤ t.toNat)
    (hlt : t.toNat < 2 ^ (k + 1)) : ∃ s, leftmostBit rounds t = some s ∧ s.toNat = 2 ^ k := by
  have hpow := Nat.two_pow_pos k
  induction rounds generalizing t with
  | zero => omega
  | succ rounds ih =>
    have hne : t ≠ 0 := by
      intro h
      rw [h] at hle
      exact absurd hle (not_le.2 hpow)
    have hwithout := toNat_withoutRightmostBit hne
    rw [leftmostBit]
    by_cases heq : t.toNat = 2 ^ k
    · have hzero : withoutRightmostBit t = 0 := by
        apply BitVec.eq_of_toNat_eq
        rw [hwithout, heq, Nat.and_two_pow_sub_one_eq_mod, Nat.mod_self]
        rfl
      have hpower : isPowerOfTwo t = true := by
        rw [isPowerOfTwo, hzero, Bool.and_eq_true]
        exact ⟨decide_eq_true hne, decide_eq_true rfl⟩
      rw [if_pos hpower]
      exact ⟨t, rfl, heq⟩
    · have hbit : (t.toNat &&& (t.toNat - 1)).testBit k = true := by
        rw [Nat.testBit_and, testBit_of_between hle hlt, testBit_of_between (by omega) (by omega)]
        rfl
      have hge : 2 ^ k ≤ (withoutRightmostBit t).toNat := by
        rw [hwithout]
        exact Nat.ge_two_pow_of_testBit hbit
      have hsmaller : (withoutRightmostBit t).toNat ≤ t.toNat - 1 := by
        rw [hwithout]
        exact Nat.and_le_right
      have hpower : ¬isPowerOfTwo t = true := by
        intro h
        rw [isPowerOfTwo, Bool.and_eq_true] at h
        have hzero := of_decide_eq_true h.2
        rw [hzero] at hge
        exact absurd hge (not_le.2 hpow)
      rw [if_neg hpower]
      exact ih (by omega) hge (by omega)

theorem binaryXor_encloses (h : r.Encloses n v) (hb : b.Encloses n u) :
    ∃ s, r.binaryXor b = some s ∧ s.Encloses n (v ^^^ u) := by
  unfold binaryXor
  split
  · rename_i hfixed
    rw [Bool.and_eq_true] at hfixed
    have hvalue : (r.m_min ^^^ b.m_min).toNat = v ^^^ u := by
      rw [BitVec.toNat_xor, h.eq_of_fixed hfixed.1, hb.eq_of_fixed hfixed.2]
    refine ⟨_, rfl, hvalue ▸ fixed_encloses ?_⟩
    rw [hvalue]
    exact Nat.xor_lt_two_pow h.value_lt hb.value_lt
  · rename_i hfixed
    have hor : (r.m_max ||| b.m_max).toNat = r.m_max.toNat ||| b.m_max.toNat := BitVec.toNat_or _ _
    have hlt : r.m_max.toNat ||| b.m_max.toNat < 2 ^ n := Nat.or_lt_two_pow h.fits hb.fits
    have hne : r.m_max.toNat ||| b.m_max.toNat ≠ 0 := by
      -- two intervals that end at zero are fixed
      intro hzero
      have hr := h.le_value.trans h.value_le
      have hb' := hb.le_value.trans hb.value_le
      have hleft : r.m_max.toNat ≤ r.m_max.toNat ||| b.m_max.toNat := Nat.left_le_or
      have hright : b.m_max.toNat ≤ r.m_max.toNat ||| b.m_max.toNat := Nat.right_le_or
      refine hfixed ?_
      rw [Bool.and_eq_true]
      refine ⟨decide_eq_true (BitVec.eq_of_toNat_eq ?_), decide_eq_true (BitVec.eq_of_toNat_eq ?_)⟩
      · omega
      · omega
    obtain ⟨k, hle, hlt'⟩ : ∃ k, 2 ^ k ≤ r.m_max.toNat ||| b.m_max.toNat ∧ r.m_max.toNat ||| b.m_max.toNat < 2 ^ (k + 1) :=
      ⟨Nat.log2 _, Nat.log2_self_le hne, Nat.lt_log2_self⟩
    obtain ⟨leftmost, hleftmost, hvalue⟩ := leftmostBit_eq (k := k) (t := r.m_max ||| b.m_max) le_rfl (by omega) (by omega)
    have hk : k < 64 := by
      have hpow : 2 ^ k < 2 ^ 64 := hvalue ▸ leftmost.isLt
      exact (Nat.pow_lt_pow_iff_right (by decide)).1 hpow
    have hkn : k < n := (Nat.pow_lt_pow_iff_right (by decide)).1 (hle.trans_lt hlt)
    have hlast : ((leftmost <<< 1) - 1).toNat = 2 ^ (k + 1) - 1 := by
      have hdouble : (leftmost <<< 1).toNat = 2 ^ (k + 1) % 2 ^ 64 := by
        rw [BitVec.toNat_shiftLeft, Nat.shiftLeft_eq, hvalue, ← Nat.pow_add]
      rw [BitVec.toNat_sub, hdouble]
      by_cases hlast : k = 63
      · rw [hlast]
        rfl
      · have hpow : 2 ^ (k + 1) < 2 ^ 64 := Nat.pow_lt_pow_right (by decide) (by omega)
        have hpos := Nat.two_pow_pos (k + 1)
        have hone : (1 : BitVec 64).toNat = 1 := rfl
        rw [Nat.mod_eq_of_lt hpow, hone]
        omega
    have hwidth : 2 ^ (k + 1) ≤ 2 ^ n := Nat.pow_le_pow_right Nat.two_pos hkn
    have hvu : v ^^^ u < 2 ^ (k + 1) := by
      have hleft : r.m_max.toNat ≤ r.m_max.toNat ||| b.m_max.toNat := Nat.left_le_or
      have hright : b.m_max.toNat ≤ r.m_max.toNat ||| b.m_max.toNat := Nat.right_le_or
      have hv := h.value_le
      have hu := hb.value_le
      exact Nat.xor_lt_two_pow (by omega) (by omega)
    simp only [hleftmost]
    refine ⟨_, rfl, Nat.zero_le _, ?_, ?_⟩
    · rw [hlast]
      omega
    · rw [hlast]
      omega

/-! ### The signed ends -/

/-- A value read as a signed number of `n` bits. -/
theorem toInt_ofNat_eq (hv : v < 2 ^ n) : (BitVec.ofNat n v).toInt = if 2 * v < 2 ^ n then (v : ℤ) else v - (2 ^ n : ℕ) := by
  rw [BitVec.toInt_eq_toNat_cond, BitVec.toNat_ofNat, Nat.mod_eq_of_lt hv]

theorem sext_toInt {l : BitVec 64} (hn : n < 64) (hl : l.toNat < 2 ^ n) :
    (sext l n).toInt = (BitVec.ofNat n l.toNat).toInt := by
  have hsplit : 2 ^ 64 = 2 ^ n * 2 ^ (64 - n) := by
    rw [← Nat.pow_add]
    congr 1
    omega
  have hpos := Nat.two_pow_pos (64 - n)
  have hshift : (l <<< (64 - n)).toNat = l.toNat * 2 ^ (64 - n) := by
    rw [BitVec.toNat_shiftLeft, Nat.shiftLeft_eq, hsplit, Nat.mod_eq_of_lt (Nat.mul_lt_mul_of_pos_right hl hpos)]
  have hiff : 2 * (l.toNat * 2 ^ (64 - n)) < 2 ^ 64 ↔ 2 * l.toNat < 2 ^ n := by
    rw [hsplit, ← Nat.mul_assoc, Nat.mul_lt_mul_right hpos]
  have hne : (2 ^ (64 - n) : ℤ) ≠ 0 := by positivity
  rw [sext, BitVec.toInt_sshiftRight, Int.shiftRight_eq_div_pow, BitVec.toInt_eq_toNat_cond, hshift, toInt_ofNat_eq hl]
  simp only [hiff]
  split
  · push_cast
    exact Int.mul_ediv_cancel _ hne
  · rw [hsplit]
    push_cast
    rw [← sub_mul]
    exact Int.mul_ediv_cancel _ hne

theorem Encloses.fitsSigned (h : r.Encloses n v) (hpos : 0 < n) (hn : n < 64) : r.fitsSigned n = true := by
  have hshift : ∀ {x : BitVec 64}, x.toNat < 2 ^ n → x >>> n = 0 := by
    intro x hx
    apply BitVec.eq_of_toNat_eq
    rw [BitVec.toNat_ushiftRight, Nat.shiftRight_eq_div_pow, Nat.div_eq_of_lt hx]
    rfl
  have hmin := (h.le_value.trans h.value_le).trans_lt h.fits
  simp [ValueRange.fitsSigned, hpos, hn, hshift hmin, hshift h.fits]

theorem smallest_toNat (hpos : 0 < n) (hn : n < 64) : ((1 : BitVec 64) <<< (n - 1)).toNat = 2 ^ (n - 1) := by
  have hpow : 2 ^ (n - 1) < 2 ^ 64 := Nat.pow_lt_pow_right (by decide) (by omega)
  rw [BitVec.toNat_shiftLeft, Nat.shiftLeft_eq]
  have hone : (1 : BitVec 64).toNat = 1 := rfl
  rw [hone, Nat.one_mul, Nat.mod_eq_of_lt hpow]

/-- Below the smallest negative value both readings agree. -/
theorem toInt_of_small {x : BitVec 64} (hpos : 0 < n) (hn : n < 64) (hx : x.toNat < 2 ^ (n - 1)) : x.toInt = x.toNat := by
  have hpow : 2 ^ (n - 1) ≤ 2 ^ 62 := Nat.pow_le_pow_right Nat.two_pos (by omega)
  rw [BitVec.toInt_eq_toNat_cond, if_pos (by omega)]

theorem minSigned_le (h : r.Encloses n v) (hpos : 0 < n) (hn : n < 64) :
    ∃ s, r.minSigned n = some s ∧ s.toInt ≤ (BitVec.ofNat n v).toInt := by
  have hsmallest := smallest_toNat hpos hn
  have hdouble : 2 ^ n = 2 * 2 ^ (n - 1) := by
    rw [← Nat.pow_succ']
    congr 1
    omega
  have hmin := h.le_value
  have hmax := h.value_le
  have hlt := h.value_lt
  rw [minSigned, if_pos (h.fitsSigned hpos hn)]
  refine ⟨_, rfl, ?_⟩
  rw [toInt_ofNat_eq hlt]
  by_cases hsign : (1 : BitVec 64) <<< (n - 1) ≤ r.m_max
  · rw [if_pos hsign, sext_toInt hn (by omega), hsmallest, toInt_ofNat_eq (by omega), if_neg (by omega)]
    split <;> omega
  · rw [if_neg hsign]
    rw [BitVec.le_def, hsmallest] at hsign
    rw [toInt_of_small hpos hn (by omega), if_pos (by omega)]
    exact_mod_cast hmin

theorem le_maxSigned (h : r.Encloses n v) (hpos : 0 < n) (hn : n < 64) :
    ∃ s, r.maxSigned n = some s ∧ (BitVec.ofNat n v).toInt ≤ s.toInt := by
  have hsmallest := smallest_toNat hpos hn
  have hdouble : 2 ^ n = 2 * 2 ^ (n - 1) := by
    rw [← Nat.pow_succ']
    congr 1
    omega
  have hmin := h.le_value
  have hmax := h.value_le
  have hlt := h.value_lt
  have hpow := Nat.two_pow_pos (n - 1)
  rw [maxSigned, if_pos (h.fitsSigned hpos hn)]
  refine ⟨_, rfl, ?_⟩
  rw [toInt_ofNat_eq hlt]
  have hsign : (r.m_min < (1 : BitVec 64) <<< (n - 1) && (1 : BitVec 64) <<< (n - 1) ≤ r.m_max) = true ↔
      r.m_min.toNat < 2 ^ (n - 1) ∧ 2 ^ (n - 1) ≤ r.m_max.toNat := by
    rw [Bool.and_eq_true, decide_eq_true_eq, decide_eq_true_eq, BitVec.lt_def, BitVec.le_def, hsmallest]
  by_cases hboth : r.m_min.toNat < 2 ^ (n - 1) ∧ 2 ^ (n - 1) ≤ r.m_max.toNat
  · have hle : (1 : BitVec 64) ≤ (1 : BitVec 64) <<< (n - 1) := by
      rw [BitVec.le_def, hsmallest]
      exact hpow
    have hlast : ((1 : BitVec 64) <<< (n - 1) - 1).toNat = 2 ^ (n - 1) - 1 := by
      rw [BitVec.toNat_sub_of_le hle, hsmallest]
      rfl
    rw [if_pos (hsign.2 hboth), toInt_of_small hpos hn (by omega), hlast]
    split <;> omega
  · rw [if_neg (mt hsign.1 hboth), sext_toInt hn h.fits, toInt_ofNat_eq h.fits]
    split
    · split <;> omega
    · split <;> omega

end ValueRange

end SymBisect
