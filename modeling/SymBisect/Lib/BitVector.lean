import Mathlib.Data.BitVec
import Mathlib.Tactic.Ring

/-!
# Bit-vector facts

Equations of bit-vector algebra at an arbitrary width that Mathlib and core do not state: the
booleans as one-bit vectors, extensions and their truncation, and equations with a constant moved
to the other side.
-/

namespace BitVec

/-! ### One-bit vectors -/

theorem eq_one_or_zero_of_width_one (x : BitVec 1) : x = 1#1 ∨ x = 0#1 := by
  revert x; decide

theorem ofBool_zero_beq (x : BitVec 1) : BitVec.ofBool (0#1 == x) = ~~~ x := by
  revert x; decide

theorem ofBool_one_beq (x : BitVec 1) : BitVec.ofBool (1#1 == x) = x := by
  revert x; decide

theorem add_eq_xor_of_width_one (x y : BitVec 1) : x + y = x ^^^ y := by
  revert x y; decide

theorem sub_eq_xor_of_width_one (x y : BitVec 1) : x - y = x ^^^ y := by
  revert x y; decide

theorem mul_eq_and_of_width_one (x y : BitVec 1) : x * y = x &&& y := by
  revert x y; decide

theorem one_xor_of_width_one (x : BitVec 1) : 1#1 ^^^ x = ~~~ x := by
  revert x; decide

theorem eq_one_of_ne_zero {y : BitVec 1} (h : y ≠ 0) : y = 1#1 :=
  (eq_one_or_zero_of_width_one y).resolve_right h

/-! ### Extensions -/

/-- Sign extension is injective: truncating back recovers the operand. -/
theorem setWidth_signExtend_self {k w : ℕ} (hk : k ≤ w) (v : BitVec k) :
    (v.signExtend w).setWidth k = v := by
  ext i hi
  rw [BitVec.getElem_setWidth, BitVec.getLsbD_signExtend]
  simp [hi, Nat.lt_of_lt_of_le hi hk]

theorem setWidth_setWidth_self {k w : ℕ} (hk : k ≤ w) (v : BitVec k) :
    (v.setWidth w).setWidth k = v := by
  rw [BitVec.setWidth_setWidth_of_le v hk, BitVec.setWidth_eq]

section Ext

variable {k w : ℕ} {ext : BitVec k → BitVec w}

/-- `(ext(a) == c) == (a == trunc c)` for an extension `ext` whose truncation is the identity, when
`c` is in its range. -/
theorem beq_ext (hinv : ∀ v, (ext v).setWidth k = v) {c : BitVec w}
    (hc : c = ext (c.setWidth k)) (v : BitVec k) : (c.setWidth k == v) = (c == ext v) := by
  rw [Bool.eq_iff_iff, beq_iff_eq, beq_iff_eq]
  constructor
  · rintro rfl
    exact hc
  · intro h
    rw [h, hinv]

/-- An equality with a constant out of the range of `ext` is false. -/
theorem beq_ext_of_ne (hinv : ∀ v, (ext v).setWidth k = v) {c : BitVec w}
    (hc : ¬c = ext (c.setWidth k)) (v : BitVec k) : (c == ext v) = false := by
  rw [beq_eq_false_iff_ne]
  rintro rfl
  exact hc (by rw [hinv])

end Ext

/-! ### Constants across an equation -/

/-- `c0 = c1 + b` iff `c0 - c1 = b`. -/
theorem beq_add_const {w : ℕ} (c k b : BitVec w) : (c - k == b) = (c == k + b) := by
  rw [Bool.eq_iff_iff, beq_iff_eq, beq_iff_eq]
  exact sub_eq_iff_eq_add'

/-- `c0 = c1 - b` iff `c1 - c0 = b`. -/
theorem beq_sub_const {w : ℕ} (c k b : BitVec w) : (k - c == b) = (c == k - b) := by
  rw [Bool.eq_iff_iff, beq_iff_eq, beq_iff_eq]
  constructor
  · rintro rfl; ring
  · rintro rfl; ring

/-! ### Differences as numbers -/

theorem toNat_sub_of_ge {w : ℕ} {x y : BitVec w} (h : y.toNat ≤ x.toNat) :
    (x - y).toNat = x.toNat - y.toNat := by
  have hx := x.isLt
  rw [toNat_sub, show 2 ^ w - y.toNat + x.toNat = (x.toNat - y.toNat) + 2 ^ w by omega,
    Nat.add_mod_right, Nat.mod_eq_of_lt (by omega)]

theorem toNat_sub_of_lt' {w : ℕ} {x y : BitVec w} (h : x.toNat < y.toNat) :
    (x - y).toNat = 2 ^ w - y.toNat + x.toNat := by
  have hy := y.isLt
  rw [toNat_sub, Nat.mod_eq_of_lt (by omega)]

/-! ### Extract and append -/

/-- An extract across the seam of an append is the append of two extracts. -/
theorem extractLsb'_append_across {m n off w k : ℕ} (x : BitVec m) (y : BitVec n) (hoff : off < n)
    (hk : off + w - n + (n - off) = k) :
    (x.extractLsb' 0 (off + w - n) ++ y.extractLsb' off (n - off)).setWidth k =
      (x ++ y).extractLsb' off k := by
  subst hk
  ext i hi
  simp only [setWidth_eq, getElem_append, getElem_extractLsb', getLsbD_append]
  by_cases h : i < n - off
  · simp [h, show off + i < n by omega]
  · simp [h, show ¬off + i < n by omega, show i - (n - off) = off + i - n by omega]

end BitVec
