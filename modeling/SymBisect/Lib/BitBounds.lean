import Mathlib

/-!
# Bounds of bitwise operations on intervals

The smallest and the largest value of `x ||| y` and `x &&& y` for `x` and `y` in two intervals are found by a scan from the
highest bit.  The scan keeps that the operation on the ends is beaten on the bits that were seen, or that both values agree
with the ends there.

* `Below.step`, `Above.step`: a bit at which no end can be moved.
* `or_lower`, `and_lower`, `or_upper`, `and_upper`: a bit at which an end is moved, and the scan stops.
-/

namespace SymBisect.Lib

/-- An operation on each bit, in which a larger bit does not give a smaller one. -/
structure Bitwise (F : ℕ → ℕ → ℕ) (f : Bool → Bool → Bool) : Prop where
  shift : ∀ x y k, F x y >>> k = F (x >>> k) (y >>> k)
  testBit : ∀ x y k, (F x y).testBit k = f (x.testBit k) (y.testBit k)
  mono : ∀ p p' q q', p ≤ p' → q ≤ q' → f p q ≤ f p' q'

theorem bitwise_or : Bitwise (· ||| ·) or where
  shift := fun _ _ _ => Nat.shiftRight_or_distrib
  testBit := fun x y k => Nat.testBit_or x y k
  mono := by decide

theorem bitwise_and : Bitwise (· &&& ·) and where
  shift := fun _ _ _ => Nat.shiftRight_and_distrib
  testBit := fun x y k => Nat.testBit_and x y k
  mono := by decide

theorem shift_succ (x k : ℕ) : x >>> k = 2 * (x >>> (k + 1)) + (x.testBit k).toNat := by
  rw [Nat.shiftRight_succ, Nat.testBit, Nat.and_comm, Nat.and_one_is_mod]
  have hmod : ((x >>> k % 2 != 0) : Bool).toNat = x >>> k % 2 := by
    have hlt := Nat.mod_lt (x >>> k) Nat.two_pos
    interval_cases x >>> k % 2
    · rfl
    · rfl
  rw [hmod]
  omega

theorem shift_le {x y : ℕ} (h : x ≤ y) (k : ℕ) : x >>> k ≤ y >>> k := by
  rw [Nat.shiftRight_eq_div_pow, Nat.shiftRight_eq_div_pow]
  exact Nat.div_le_div_right h

theorem shift_mod (x k : ℕ) : x = x >>> k * 2 ^ k + x % 2 ^ k := by
  rw [Nat.shiftRight_eq_div_pow, Nat.mul_comm]
  exact (Nat.div_add_mod x (2 ^ k)).symm

theorem le_of_shift_eq {x y k : ℕ} (h : x >>> k = y >>> k) (hmod : x % 2 ^ k ≤ y % 2 ^ k) : x ≤ y := by
  rw [shift_mod x k, shift_mod y k, h]
  omega

theorem mod_le_of_shift_eq {x y k : ℕ} (h : x >>> k = y >>> k) (hle : x ≤ y) : x % 2 ^ k ≤ y % 2 ^ k := by
  rw [shift_mod x k, shift_mod y k, h] at hle
  omega

theorem testBit_le_of_shift {x y k : ℕ} (h : x >>> (k + 1) = y >>> (k + 1)) (hle : x ≤ y) :
    x.testBit k ≤ y.testBit k := by
  have hshift := shift_le hle k
  rw [shift_succ x, shift_succ y, h] at hshift
  cases hx : x.testBit k with
  | false => exact Bool.false_le _
  | true =>
    cases hy : y.testBit k with
    | false =>
      rw [hx, hy] at hshift
      simp at hshift
    | true => exact le_rfl

variable {F : ℕ → ℕ → ℕ} {f : Bool → Bool → Bool} {a b c d x y k : ℕ}

/-! ### The scan -/

/-- On the bits from `k` on the operation on the values is larger than on the lower ends, or the values agree with them. -/
def Below (F : ℕ → ℕ → ℕ) (a c x y k : ℕ) : Prop :=
  F a c >>> k < F x y >>> k ∨ x >>> k = a >>> k ∧ y >>> k = c >>> k

/-- On the bits from `k` on the operation on the values is smaller than on the upper ends, or the values agree with them. -/
def Above (F : ℕ → ℕ → ℕ) (b d x y k : ℕ) : Prop := Below F x y b d k

theorem Below.le (h : Below F a c x y k) (hF : Bitwise F f) : F a c >>> k ≤ F x y >>> k := by
  cases h with
  | inl h => exact h.le
  | inr h => rw [hF.shift, hF.shift, h.1, h.2]

theorem Below.of_lt (ha : a < 2 ^ k) (hc : c < 2 ^ k) (hx : x < 2 ^ k) (hy : y < 2 ^ k) : Below F a c x y k := by
  right
  simp only [Nat.shiftRight_eq_div_pow, Nat.div_eq_of_lt, ha, hc, hx, hy, and_self]

theorem testBit_of_shift {x y k : ℕ} (h : x >>> k = y >>> k) : x.testBit k = y.testBit k := by
  rw [Nat.testBit, Nat.testBit, h]

theorem false_true_of_ne {p q : Bool} (h : p ≤ q) (hne : q ≠ p) : p = false ∧ q = true := by
  revert p q
  decide

/-- Of two pairs of bits the larger one has the larger value, unless the bits that differ do not matter. -/
theorem bit_step (mono : ∀ p p' q q', p ≤ p' → q ≤ q' → f p q ≤ f p' q') {p p' q q' : Bool} (hp : p ≤ p') (hq : q ≤ q')
    (hx : p = false → f true q = f false q → p' = p) (hy : q = false → f p true = f p false → q' = q) :
    f p q < f p' q' ∨ p' = p ∧ q' = q := by
  by_cases hpp : p' = p
  · subst hpp
    by_cases hqq : q' = q
    · exact .inr ⟨rfl, hqq⟩
    · obtain ⟨rfl, rfl⟩ := false_true_of_ne hq hqq
      exact .inl (lt_of_le_of_ne (mono _ _ _ _ le_rfl hq) fun heq => hqq (hy rfl heq.symm))
  · obtain ⟨rfl, rfl⟩ := false_true_of_ne hp hpp
    have hlt : f false q < f true q := lt_of_le_of_ne (mono _ _ _ _ hp le_rfl) fun heq => hpp (hx rfl heq.symm)
    exact .inl (lt_of_lt_of_le hlt (mono _ _ _ _ le_rfl hq))

/-- The same, seen from the larger pair: the step of the operation on the negated bits. -/
theorem bit_step_not (mono : ∀ p p' q q', p ≤ p' → q ≤ q' → f p q ≤ f p' q') {p p' q q' : Bool} (hp : p ≤ p') (hq : q ≤ q')
    (hx : p' = true → f true q' = f false q' → p = p') (hy : q' = true → f p' true = f p' false → q = q') :
    f p q < f p' q' ∨ p' = p ∧ q' = q := by
  have hnot : ∀ {u v : Bool}, u ≤ v → (!v) ≤ (!u) := by decide
  have hneg : ∀ {u v : Bool}, (!u) < (!v) → v < u := by decide
  have hstep := bit_step (f := fun u v => !f (!u) (!v))
    (fun _ _ _ _ hu hv => hnot (mono _ _ _ _ (hnot hu) (hnot hv))) (hnot hp) (hnot hq)
    (fun h heq => congrArg not (hx (by simpa using h) (by simpa using heq.symm)))
    (fun h heq => congrArg not (hy (by simpa using h) (by simpa using heq.symm)))
  simp only [Bool.not_not] at hstep
  cases hstep with
  | inl h => exact .inl (hneg h)
  | inr h => exact .inr ⟨(Bool.not_inj h.1).symm, (Bool.not_inj h.2).symm⟩

/-- The scan at bit `k`, from what the bit decides when the higher bits agree. -/
theorem Below.of_bits (hF : Bitwise F f) (h : Below F a c x y (k + 1))
    (hbits : x >>> (k + 1) = a >>> (k + 1) → y >>> (k + 1) = c >>> (k + 1) →
      f (a.testBit k) (c.testBit k) < f (x.testBit k) (y.testBit k) ∨
        x.testBit k = a.testBit k ∧ y.testBit k = c.testBit k) : Below F a c x y k := by
  have hends := shift_succ (F a c) k
  have hvalues := shift_succ (F x y) k
  rw [hF.testBit] at hends hvalues
  cases h with
  | inl h =>
    have hbit := Bool.toNat_le (f (a.testBit k) (c.testBit k))
    left
    omega
  | inr h =>
    have hhigh : F a c >>> (k + 1) = F x y >>> (k + 1) := by
      rw [hF.shift, hF.shift, h.1, h.2]
    cases hbits h.1 h.2 with
    | inl hlt =>
      rw [Bool.lt_iff] at hlt
      rw [hlt.1] at hends
      rw [hlt.2] at hvalues
      left
      rw [hends, hvalues, hhigh]
      exact Nat.lt_succ_self _
    | inr heq =>
      right
      rw [shift_succ x, shift_succ y, h.1, h.2, heq.1, heq.2, ← shift_succ, ← shift_succ]
      exact ⟨rfl, rfl⟩

/-- **A bit at which no lower end is raised**: where the other end makes the bit irrelevant, the values of the interval agree
with the end on the bits from `k` on. -/
theorem Below.step (hF : Bitwise F f) (h : Below F a c x y (k + 1)) (hax : a ≤ x) (hcy : c ≤ y)
    (hx : a.testBit k = false → f true (c.testBit k) = f false (c.testBit k) → x >>> k = a >>> k)
    (hy : c.testBit k = false → f (a.testBit k) true = f (a.testBit k) false → y >>> k = c >>> k) : Below F a c x y k :=
  h.of_bits hF fun hxa hyc => bit_step hF.mono (testBit_le_of_shift hxa.symm hax) (testBit_le_of_shift hyc.symm hcy)
    (fun hp hq => testBit_of_shift (hx hp hq)) (fun hq hp => testBit_of_shift (hy hq hp))

/-- **A bit at which no upper end is lowered.** -/
theorem Above.step (hF : Bitwise F f) (h : Above F b d x y (k + 1)) (hxb : x ≤ b) (hyd : y ≤ d)
    (hx : b.testBit k = true → f true (d.testBit k) = f false (d.testBit k) → x >>> k = b >>> k)
    (hy : d.testBit k = true → f (b.testBit k) true = f (b.testBit k) false → y >>> k = d >>> k) : Above F b d x y k :=
  Below.of_bits hF h fun hbx hdy => bit_step_not hF.mono (testBit_le_of_shift hbx.symm hxb) (testBit_le_of_shift hdy.symm hyd)
    (fun hp hq => testBit_of_shift (hx hp hq)) (fun hq hp => testBit_of_shift (hy hq hp))

theorem Below.comm (hF : ∀ u v, F u v = F v u) (h : Below F a c x y k) : Below F c a y x k := by
  unfold Below at h ⊢
  rw [hF c, hF y, and_comm]
  exact h

/-! ### The bit at which an end is moved -/

theorem lt_of_shift_lt {x y k : ℕ} (h : x >>> k < y >>> k) : x < y := by
  by_contra hle
  exact absurd (shift_le (not_lt.1 hle) k) (not_le.2 h)

theorem le_of_testBit {x y k : ℕ} (h : x >>> (k + 1) = y >>> (k + 1)) (hbit : x.testBit k = y.testBit k)
    (hmod : x % 2 ^ k ≤ y % 2 ^ k) : x ≤ y := by
  refine le_of_shift_eq (k := k) ?_ hmod
  rw [shift_succ, h, hbit, ← shift_succ]

theorem shift_eq_of_lt {a t x k : ℕ} (hax : a ≤ x) (hxt : x < t) (hshift : t >>> (k + 1) = a >>> (k + 1)) (ha : a.testBit k = false)
    (ht : t.testBit k = true) (hmod : t % 2 ^ k = 0) : x >>> k = a >>> k := by
  have hta := shift_succ t k
  have haa := shift_succ a k
  rw [ht, Bool.toNat_true, hshift] at hta
  rw [ha, Bool.toNat_false] at haa
  refine le_antisymm (Nat.le_of_lt_succ ?_) (shift_le hax k)
  have hlt : x >>> k < t >>> k := by
    rw [Nat.shiftRight_eq_div_pow, Nat.div_lt_iff_lt_mul (Nat.two_pow_pos k)]
    have hsplit := shift_mod t k
    omega
  omega

theorem shift_eq_of_gt {b t x k : ℕ} (hxb : x ≤ b) (htx : t < x) (hshift : t >>> (k + 1) = b >>> (k + 1)) (hb : b.testBit k = true)
    (ht : t.testBit k = false) (hmod : t % 2 ^ k = 2 ^ k - 1) : x >>> k = b >>> k := by
  have htb := shift_succ t k
  have hbb := shift_succ b k
  rw [ht, Bool.toNat_false, hshift] at htb
  rw [hb, Bool.toNat_true] at hbb
  refine le_antisymm (shift_le hxb k) ?_
  have hlt : t >>> k < x >>> k := by
    have hpow := Nat.two_pow_pos k
    have hsplit := shift_mod t k
    rw [← Nat.succ_le_iff, Nat.shiftRight_eq_div_pow x, Nat.le_div_iff_mul_le hpow, Nat.succ_mul]
    omega
  omega

/-- The end that was raised, with a one at the bit and zeros below. -/
theorem or_lower {t : ℕ} (h : Below (· ||| ·) a c x y (k + 1)) (hcy : c ≤ y) (hc : c.testBit k = true)
    (hshift : t >>> (k + 1) = a >>> (k + 1)) (hmod : t % 2 ^ k = 0) : t ||| c ≤ x ||| y := by
  have hends : (t ||| c) >>> (k + 1) = (a ||| c) >>> (k + 1) := by
    rw [Nat.shiftRight_or_distrib, Nat.shiftRight_or_distrib, hshift]
  cases h with
  | inl h => exact (lt_of_shift_lt (hends.trans_lt h)).le
  | inr h =>
    have hy : y.testBit k = true := by
      have hle := testBit_le_of_shift h.2.symm hcy
      rw [hc] at hle
      exact Bool.eq_true_of_true_le hle
    refine le_of_testBit (k := k) ?_ ?_ ?_
    · rw [hends, Nat.shiftRight_or_distrib, Nat.shiftRight_or_distrib, h.1, h.2]
    · rw [Nat.testBit_or, Nat.testBit_or, hc, hy, Bool.or_true, Bool.or_true]
    · have hlow : c % 2 ^ k ≤ y % 2 ^ k := by
        refine mod_le_of_shift_eq ?_ hcy
        rw [shift_succ c k, shift_succ y k, h.2, hc, hy]
      rw [Nat.or_mod_two_pow, Nat.or_mod_two_pow, hmod, Nat.zero_or]
      exact hlow.trans Nat.right_le_or

theorem and_lower {t : ℕ} (h : Below (· &&& ·) a c x y (k + 1)) (hc : c.testBit k = false)
    (hshift : t >>> (k + 1) = a >>> (k + 1)) (hmod : t % 2 ^ k = 0) : t &&& c ≤ x &&& y := by
  have hends : (t &&& c) >>> (k + 1) = (a &&& c) >>> (k + 1) := by
    rw [Nat.shiftRight_and_distrib, Nat.shiftRight_and_distrib, hshift]
  have hle : (t &&& c) >>> (k + 1) ≤ (x &&& y) >>> (k + 1) := hends.trans_le (h.le bitwise_and)
  have hbit : (t &&& c) >>> k ≤ (x &&& y) >>> k := by
    rw [shift_succ, shift_succ (x &&& y), Nat.testBit_and, hc, Bool.and_false, Bool.toNat_false]
    omega
  rw [shift_mod (t &&& c) k, shift_mod (x &&& y) k, Nat.and_mod_two_pow, hmod, Nat.zero_and]
  exact (Nat.mul_le_mul_right _ hbit).trans (Nat.le_add_right _ _)

/-- The end that was lowered, with a zero at the bit and ones below. -/
theorem or_upper {t : ℕ} (h : Above (· ||| ·) b d x y (k + 1)) (hd : d.testBit k = true)
    (hshift : t >>> (k + 1) = b >>> (k + 1)) (hmod : t % 2 ^ k = 2 ^ k - 1) : x ||| y ≤ t ||| d := by
  have hends : (t ||| d) >>> (k + 1) = (b ||| d) >>> (k + 1) := by
    rw [Nat.shiftRight_or_distrib, Nat.shiftRight_or_distrib, hshift]
  have hle : (x ||| y) >>> (k + 1) ≤ (t ||| d) >>> (k + 1) := (h.le bitwise_or).trans_eq hends.symm
  have hbit : (x ||| y) >>> k ≤ (t ||| d) >>> k := by
    rw [shift_succ, shift_succ (t ||| d), Nat.testBit_or t, hd, Bool.or_true, Bool.toNat_true]
    have hone := Bool.toNat_le ((x ||| y).testBit k)
    omega
  have hlow : (x ||| y) % 2 ^ k ≤ (t ||| d) % 2 ^ k := by
    have hlt := Nat.mod_lt (x ||| y) (Nat.two_pow_pos k)
    have hge : t % 2 ^ k ≤ (t ||| d) % 2 ^ k := by
      rw [Nat.or_mod_two_pow]
      exact Nat.left_le_or
    omega
  rw [shift_mod (x ||| y) k, shift_mod (t ||| d) k]
  exact Nat.add_le_add (Nat.mul_le_mul_right _ hbit) hlow

theorem and_upper {t : ℕ} (h : Above (· &&& ·) b d x y (k + 1)) (hyd : y ≤ d) (hd : d.testBit k = false)
    (hshift : t >>> (k + 1) = b >>> (k + 1)) (hmod : t % 2 ^ k = 2 ^ k - 1) : x &&& y ≤ t &&& d := by
  have hends : (t &&& d) >>> (k + 1) = (b &&& d) >>> (k + 1) := by
    rw [Nat.shiftRight_and_distrib, Nat.shiftRight_and_distrib, hshift]
  cases h with
  | inl h => exact (lt_of_shift_lt (h.trans_eq hends.symm)).le
  | inr h =>
    have hy : y.testBit k = false := by
      have hle := testBit_le_of_shift h.2.symm hyd
      rw [hd] at hle
      exact Bool.eq_false_of_le_false hle
    refine le_of_testBit (k := k) ?_ ?_ ?_
    · rw [hends, Nat.shiftRight_and_distrib, Nat.shiftRight_and_distrib, h.1, h.2]
    · rw [Nat.testBit_and, Nat.testBit_and, hd, hy, Bool.and_false, Bool.and_false]
    · have hlow : y % 2 ^ k ≤ d % 2 ^ k := by
        refine mod_le_of_shift_eq ?_ hyd
        rw [shift_succ y k, shift_succ d k, h.2, hd, hy]
      have hones : (2 ^ k - 1) &&& (d % 2 ^ k) = d % 2 ^ k := by
        rw [Nat.and_comm, Nat.and_two_pow_sub_one_eq_mod, Nat.mod_mod]
      rw [Nat.and_mod_two_pow, Nat.and_mod_two_pow, hmod, hones]
      exact Nat.and_le_right.trans hlow

end SymBisect.Lib
