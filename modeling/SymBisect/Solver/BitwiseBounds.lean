import Mathlib
import SymBisect.Solver.ValueRange

/-!
# The scans of the bitwise bounds are exact

`minOR`, `maxOR`, `minAND` and `maxAND` of `lib/Solver/FastCexSolver.cpp` bound an operation on the values of two intervals.  Each
scan moves at most one end of one interval, and not out of the interval, so its result is also taken.

* `minORFrom_attained`, `maxORFrom_attained`, `minANDFrom_attained`, `maxANDFrom_attained`: the two values at which the result of
  a scan is taken.
* `bitwise_bounds`: the four results are the least and the greatest values.
-/

namespace SymBisect

open Lib

namespace FastCexSolver

/-- The results of an operation on the values of two intervals. -/
def values (op : BitVec 64 → BitVec 64 → BitVec 64) (a b c d : BitVec 64) : Set (BitVec 64) :=
  {z | ∃ x y, a ≤ x ∧ x ≤ b ∧ c ≤ y ∧ y ≤ d ∧ z = op x y}

section Attained

variable {op : BitVec 64 → BitVec 64 → BitVec 64} {a b c d e : BitVec 64} {k : ℕ}

/-- An end that was raised is greater. -/
theorem le_raise (hk : k < 64) (ha : a.toNat.testBit k = false) : a ≤ raise a (BitVec.twoPow 64 k) := by
  rw [BitVec.le_def]
  refine (lt_of_shift_lt (k := k) ?_).le
  rw [shift_succ, shift_succ (raise a _).toNat, raise_shift hk, raise_testBit hk, ha]
  simp

theorem first_moved (hcd : c ≤ d) (hae : a ≤ e) (heb : e ≤ b) : op e c ∈ values op a b c d :=
  ⟨e, c, hae, heb, BitVec.le_refl c, hcd, rfl⟩

theorem second_moved (hab : a ≤ b) (hce : c ≤ e) (hed : e ≤ d) : op a e ∈ values op a b c d :=
  ⟨a, e, BitVec.le_refl a, hab, hce, hed, rfl⟩

theorem first_lowered (hcd : c ≤ d) (hae : a ≤ e) (heb : e ≤ b) : op e d ∈ values op a b c d :=
  ⟨e, d, hae, heb, hcd, BitVec.le_refl d, rfl⟩

theorem second_lowered (hab : a ≤ b) (hce : c ≤ e) (hed : e ≤ d) : op b e ∈ values op a b c d :=
  ⟨b, e, hab, BitVec.le_refl b, hce, hed, rfl⟩

theorem minORFrom_attained (hk : k ≤ 64) (hab : a ≤ b) (hcd : c ≤ d) : minORFrom b d k a c ∈ values (· ||| ·) a b c d := by
  induction k with
  | zero => exact first_moved hcd (BitVec.le_refl a) hab
  | succ k ih =>
    have hk' : k < 64 := hk
    have hrest := ih (Nat.le_of_succ_le hk)
    rw [minORFrom]
    simp only [and_mask_ne_zero hk', testBit_not_eq_true hk']
    by_cases hac : a.toNat.testBit k = false ∧ c.toNat.testBit k = true
    · rw [if_pos hac]
      by_cases hraise : raise a (BitVec.twoPow 64 k) ≤ b
      · rw [if_pos hraise]
        exact first_moved hcd (le_raise hk' hac.1) hraise
      · rw [if_neg hraise]
        exact hrest
    · rw [if_neg hac]
      by_cases hca : a.toNat.testBit k = true ∧ c.toNat.testBit k = false
      · rw [if_pos hca]
        by_cases hraise : raise c (BitVec.twoPow 64 k) ≤ d
        · rw [if_pos hraise]
          exact second_moved hab (le_raise hk' hca.2) hraise
        · rw [if_neg hraise]
          exact hrest
      · rw [if_neg hca]
        exact hrest

theorem clear_le' (hk : k < 64) (hb : b.toNat.testBit k = true) : clear b (BitVec.twoPow 64 k) ≤ b := by
  rw [BitVec.le_def]
  exact clear_le hk hb

theorem maxORFrom_attained (hk : k ≤ 64) (hab : a ≤ b) (hcd : c ≤ d) : maxORFrom a c k b d ∈ values (· ||| ·) a b c d := by
  induction k with
  | zero => exact first_lowered hcd hab (BitVec.le_refl b)
  | succ k ih =>
    have hk' : k < 64 := hk
    have hrest := ih (Nat.le_of_succ_le hk)
    rw [maxORFrom]
    simp only [and_mask_ne_zero hk']
    by_cases hbd : b.toNat.testBit k = true ∧ d.toNat.testBit k = true
    · rw [if_pos hbd, lower_eq_clear hk' hbd.1, lower_eq_clear hk' hbd.2]
      by_cases hb : a ≤ clear b (BitVec.twoPow 64 k)
      · rw [if_pos hb]
        exact first_lowered hcd hb (clear_le' hk' hbd.1)
      · rw [if_neg hb]
        by_cases hd : c ≤ clear d (BitVec.twoPow 64 k)
        · rw [if_pos hd]
          exact second_lowered hab hd (clear_le' hk' hbd.2)
        · rw [if_neg hd]
          exact hrest
    · rw [if_neg hbd]
      exact hrest

theorem minANDFrom_attained (hk : k ≤ 64) (hab : a ≤ b) (hcd : c ≤ d) : minANDFrom b d k a c ∈ values (· &&& ·) a b c d := by
  induction k with
  | zero => exact first_moved hcd (BitVec.le_refl a) hab
  | succ k ih =>
    have hk' : k < 64 := hk
    have hrest := ih (Nat.le_of_succ_le hk)
    rw [minANDFrom]
    simp only [and_mask_ne_zero hk', testBit_not_eq_true hk']
    by_cases hac : a.toNat.testBit k = false ∧ c.toNat.testBit k = false
    · rw [if_pos hac]
      by_cases ha : raise a (BitVec.twoPow 64 k) ≤ b
      · rw [if_pos ha]
        exact first_moved hcd (le_raise hk' hac.1) ha
      · rw [if_neg ha]
        by_cases hc : raise c (BitVec.twoPow 64 k) ≤ d
        · rw [if_pos hc]
          exact second_moved hab (le_raise hk' hac.2) hc
        · rw [if_neg hc]
          exact hrest
    · rw [if_neg hac]
      exact hrest

theorem maxANDFrom_attained (hk : k ≤ 64) (hab : a ≤ b) (hcd : c ≤ d) : maxANDFrom a c k b d ∈ values (· &&& ·) a b c d := by
  induction k with
  | zero => exact first_lowered hcd hab (BitVec.le_refl b)
  | succ k ih =>
    have hk' : k < 64 := hk
    have hrest := ih (Nat.le_of_succ_le hk)
    rw [maxANDFrom]
    simp only [and_mask_ne_zero hk', testBit_not_eq_true hk']
    by_cases hbd : b.toNat.testBit k = true ∧ d.toNat.testBit k = false
    · rw [if_pos hbd]
      by_cases hclear : a ≤ clear b (BitVec.twoPow 64 k)
      · rw [if_pos hclear]
        exact first_lowered hcd hclear (clear_le' hk' hbd.1)
      · rw [if_neg hclear]
        exact hrest
    · rw [if_neg hbd]
      by_cases hdb : b.toNat.testBit k = false ∧ d.toNat.testBit k = true
      · rw [if_pos hdb]
        by_cases hclear : c ≤ clear d (BitVec.twoPow 64 k)
        · rw [if_pos hclear]
          exact second_lowered hab hclear (clear_le' hk' hdb.2)
        · rw [if_neg hclear]
          exact hrest
      · rw [if_neg hdb]
        exact hrest

end Attained

section Bounds

variable {a b c d x y : BitVec 64}

theorem below_all (F : ℕ → ℕ → ℕ) (a c x y : BitVec 64) : Below F a.toNat c.toNat x.toNat y.toNat 64 :=
  Below.of_lt a.isLt c.isLt x.isLt y.isLt

theorem minOR_le (hax : a ≤ x) (hxb : x ≤ b) (hcy : c ≤ y) (hyd : y ≤ d) : minOR a b c d ≤ x ||| y := by
  rw [BitVec.le_def, BitVec.toNat_or]
  exact minORFrom_le le_rfl hax hxb hcy hyd (below_all _ a c x y)

theorem le_maxOR (hax : a ≤ x) (hxb : x ≤ b) (hcy : c ≤ y) (hyd : y ≤ d) : x ||| y ≤ maxOR a b c d := by
  rw [BitVec.le_def, BitVec.toNat_or]
  exact le_maxORFrom le_rfl hax hxb hcy hyd (below_all _ x y b d)

theorem minAND_le (hax : a ≤ x) (hxb : x ≤ b) (hcy : c ≤ y) (hyd : y ≤ d) : minAND a b c d ≤ x &&& y := by
  rw [BitVec.le_def, BitVec.toNat_and]
  exact minANDFrom_le le_rfl hax hxb hcy hyd (below_all _ a c x y)

theorem le_maxAND (hax : a ≤ x) (hxb : x ≤ b) (hcy : c ≤ y) (hyd : y ≤ d) : x &&& y ≤ maxAND a b c d := by
  rw [BitVec.le_def, BitVec.toNat_and]
  exact le_maxANDFrom le_rfl hax hxb hcy hyd (below_all _ x y b d)

end Bounds

/-- **The bounds are exact.**  The four scans return the least and the greatest values of `x | y` and of `x & y` over all `x` from
`a` to `b` and all `y` from `c` to `d`. -/
theorem bitwise_bounds (a b c d : BitVec 64) (hab : a ≤ b) (hcd : c ≤ d) :
    IsLeast (values (· ||| ·) a b c d) (minOR a b c d) ∧ IsGreatest (values (· ||| ·) a b c d) (maxOR a b c d) ∧
      IsLeast (values (· &&& ·) a b c d) (minAND a b c d) ∧ IsGreatest (values (· &&& ·) a b c d) (maxAND a b c d) := by
  refine ⟨⟨minORFrom_attained le_rfl hab hcd, ?_⟩, ⟨maxORFrom_attained le_rfl hab hcd, ?_⟩,
    ⟨minANDFrom_attained le_rfl hab hcd, ?_⟩, ⟨maxANDFrom_attained le_rfl hab hcd, ?_⟩⟩
  · rintro z ⟨x, y, hax, hxb, hcy, hyd, rfl⟩
    exact minOR_le hax hxb hcy hyd
  · rintro z ⟨x, y, hax, hxb, hcy, hyd, rfl⟩
    exact le_maxOR hax hxb hcy hyd
  · rintro z ⟨x, y, hax, hxb, hcy, hyd, rfl⟩
    exact minAND_le hax hxb hcy hyd
  · rintro z ⟨x, y, hax, hxb, hcy, hyd, rfl⟩
    exact le_maxAND hax hxb hcy hyd

theorem bitwise_bounds_five :
    IsLeast (values (· ||| ·) 3 5 2 9) (minOR 3 5 2 9) ∧ IsGreatest (values (· ||| ·) 3 5 2 9) (maxOR 3 5 2 9) ∧
      IsLeast (values (· &&& ·) 3 5 2 9) (minAND 3 5 2 9) ∧ IsGreatest (values (· &&& ·) 3 5 2 9) (maxAND 3 5 2 9) :=
  bitwise_bounds 3 5 2 9 (by decide) (by decide)

end FastCexSolver

end SymBisect
