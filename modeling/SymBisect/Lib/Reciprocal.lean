import Mathlib

/-!
# Division by a rounded reciprocal

The reciprocal of `d`, scaled by `N` and rounded up, is `N / d + 1`.  A product with it is too large by less than one part in `d`
as long as the factor is below `N / d`, so the quotient is exact.

* `lt_mul_reciprocal`, `mul_reciprocal_le`: the product of `x` lies strictly above `N * (x / d)` and at most at `N * (x / d + 1)`.
* `reciprocal_floor`: rounded down, the scaled product is the quotient.
* `reciprocal_neg`: for a negative factor it is one below the negated quotient.
-/

namespace SymBisect.Lib

variable {N d x : ℕ}

theorem lt_mul_reciprocal (hd : 0 < d) (N : ℕ) : N < d * (N / d + 1) := by
  have hlt := Nat.lt_mul_div_succ N hd
  exact hlt

theorem mul_reciprocal_le (d N x : ℕ) : d * (x * (N / d + 1)) ≤ x * N + d * x := by
  calc d * (x * (N / d + 1)) = x * (d * (N / d)) + d * x := by ring
    _ ≤ x * N + d * x := Nat.add_le_add_right (Nat.mul_le_mul_left x (Nat.mul_div_le N d)) _

/-- A product with the reciprocal is not below the quotient. -/
theorem quotient_le_mul_reciprocal (hd : 0 < d) (N x : ℕ) : x / d * N ≤ x * (N / d + 1) := by
  calc x / d * N ≤ x / d * (d * (N / d + 1)) := Nat.mul_le_mul_left _ (lt_mul_reciprocal hd N).le
    _ = x / d * d * (N / d + 1) := by rw [Nat.mul_assoc]
    _ ≤ x * (N / d + 1) := Nat.mul_le_mul_right _ (Nat.div_mul_le_self x d)

theorem quotient_lt_mul_reciprocal (hd : 0 < d) (hx : 0 < x) (N : ℕ) : x / d * N < x * (N / d + 1) := by
  by_cases hq : x / d = 0
  · rw [hq, Nat.zero_mul]
    exact Nat.mul_pos hx (Nat.succ_pos _)
  · calc x / d * N < x / d * (d * (N / d + 1)) := Nat.mul_lt_mul_of_pos_left (lt_mul_reciprocal hd N) (Nat.pos_of_ne_zero hq)
      _ = x / d * d * (N / d + 1) := by rw [Nat.mul_assoc]
      _ ≤ x * (N / d + 1) := Nat.mul_le_mul_right _ (Nat.div_mul_le_self x d)

theorem succ_le_quotient_mul (hd : 0 < d) (x : ℕ) : x + 1 ≤ d * (x / d + 1) := Nat.lt_mul_div_succ x hd

/-- The error of the reciprocal is not above one unit of the quotient. -/
theorem mul_reciprocal_le_quotient (hd : 0 < d) (hx : d * x ≤ N) : x * (N / d + 1) ≤ (x / d + 1) * N := by
  refine Nat.le_of_mul_le_mul_left ?_ hd
  calc d * (x * (N / d + 1)) ≤ x * N + d * x := mul_reciprocal_le d N x
    _ ≤ x * N + N := Nat.add_le_add_left hx _
    _ = (x + 1) * N := (Nat.succ_mul x N).symm
    _ ≤ d * (x / d + 1) * N := Nat.mul_le_mul_right N (succ_le_quotient_mul hd x)
    _ = d * ((x / d + 1) * N) := Nat.mul_assoc _ _ _

theorem mul_reciprocal_lt_quotient (hd : 0 < d) (hx : d * x < N) : x * (N / d + 1) < (x / d + 1) * N := by
  refine Nat.lt_of_mul_lt_mul_left (a := d) ?_
  calc d * (x * (N / d + 1)) ≤ x * N + d * x := mul_reciprocal_le d N x
    _ < x * N + N := Nat.add_lt_add_left hx _
    _ = (x + 1) * N := (Nat.succ_mul x N).symm
    _ ≤ d * (x / d + 1) * N := Nat.mul_le_mul_right N (succ_le_quotient_mul hd x)
    _ = d * ((x / d + 1) * N) := Nat.mul_assoc _ _ _

/-- **Rounded down**, the scaled product is the quotient. -/
theorem reciprocal_floor (hd : 0 < d) (hx : d * x < N) : x * (N / d + 1) / N = x / d :=
  Nat.div_eq_of_lt_le (quotient_le_mul_reciprocal hd N x) (mul_reciprocal_lt_quotient hd hx)

/-- **For a negative factor** the scaled product, rounded down, is one below the negated quotient. -/
theorem reciprocal_neg (hd : 0 < d) (hx : 0 < x) (hdx : d * x ≤ N) :
    (-(x : ℤ) * ((N / d + 1 : ℕ) : ℤ)) / (N : ℤ) = -((x / d : ℕ) : ℤ) - 1 := by
  have hN : 0 < N := lt_of_lt_of_le (Nat.mul_pos hd hx) hdx
  have hlow : ((x / d * N : ℕ) : ℤ) < ((x * (N / d + 1) : ℕ) : ℤ) := Int.ofNat_lt.2 (quotient_lt_mul_reciprocal hd hx N)
  have hhigh : ((x * (N / d + 1) : ℕ) : ℤ) ≤ (((x / d + 1) * N : ℕ) : ℤ) := Int.ofNat_le.2 (mul_reciprocal_le_quotient hd hdx)
  have hN' : (0 : ℤ) < (N : ℤ) := Int.ofNat_lt.2 hN
  rw [Nat.cast_mul] at hlow hhigh
  rw [Nat.cast_mul (x / d + 1) N, Nat.cast_add, Nat.cast_one] at hhigh
  rw [Nat.cast_mul] at hlow
  refine le_antisymm (Int.lt_add_one_iff.1 ?_) ?_
  · rw [Int.ediv_lt_iff_lt_mul hN']
    calc -(x : ℤ) * ((N / d + 1 : ℕ) : ℤ) = -((x : ℤ) * ((N / d + 1 : ℕ) : ℤ)) := neg_mul _ _
      _ < -(((x / d : ℕ) : ℤ) * (N : ℤ)) := neg_lt_neg hlow
      _ = (-((x / d : ℕ) : ℤ) - 1 + 1) * (N : ℤ) := by ring
  · rw [Int.le_ediv_iff_mul_le hN']
    calc (-((x / d : ℕ) : ℤ) - 1) * (N : ℤ) = -((((x / d : ℕ) : ℤ) + 1) * (N : ℤ)) := by ring
      _ ≤ -((x : ℤ) * ((N / d + 1 : ℕ) : ℤ)) := neg_le_neg hhigh
      _ = -(x : ℤ) * ((N / d + 1 : ℕ) : ℤ) := (neg_mul _ _).symm

end SymBisect.Lib
