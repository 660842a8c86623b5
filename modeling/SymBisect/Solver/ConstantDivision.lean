import Mathlib
import SymBisect.Lib.Reciprocal
import SymBisect.Solver.Z3Builder

/-!
# Constants for division and multiplication

`lib/Solver/ConstantDivision.cpp`: the constants that replace a division by a multiplication, and the recoding of a factor as a
difference of two numbers without common bits.

* `ldz_spec`: the leading zeroes, from the bits that are spread to the right and counted.
* `LOG2_CEIL_eq`, `exp_base_2_eq`: the smallest power of two that is not below a divisor.
* `multLoop_spec`: one run of ones after the other; what is added less what is subtracted and what is left is the factor.

A failed assertion returns `none`.
-/

namespace SymBisect

open Lib

namespace ConstantDivision

/-! ### Powers of two -/

/-- `ones(x)`. -/
def ones (x : BitVec 32) : BitVec 32 :=
  let x := x - ((x >>> 1) &&& 0x55555555)
  let x := ((x >>> 2) &&& 0x33333333) + (x &&& 0x33333333)
  let x := ((x >>> 4) + x) &&& 0x0f0f0f0f
  let x := x + (x >>> 8)
  let x := x + (x >>> 16)
  x &&& 0x0000003f

/-- One line of `ldz`. -/
def spread (n : ℕ) (x : BitVec 32) : BitVec 32 := x ||| x >>> n

/-- `ldz(x)`. -/
def ldz (x : BitVec 32) : BitVec 32 := 32 - ones (spread 16 (spread 8 (spread 4 (spread 2 (spread 1 x)))))

/-- `LOG2_CEIL(x)`. -/
def LOG2_CEIL (x : BitVec 32) : BitVec 32 := 32 - ldz (x - 1)

/-- `exp_base_2(n)`; the shifted bit is 0 from `n = 32` on. -/
def exp_base_2 (n : BitVec 32) : BitVec 32 :=
  let x := ~~~n &&& (n - 32)
  let x := x >>> 31
  x <<< n.toNat

section Powers

variable {x y : BitVec 32} {n : ℕ}

/-- Every bit of `y` says whether there is a bit of `x` at its place or up to `n` places to the left. -/
def Spreads (x y : BitVec 32) (n : ℕ) : Prop := ∀ i, y.getLsbD i = true ↔ ∃ j < n, x.getLsbD (i + j) = true

theorem Spreads.double (h : Spreads x y n) : Spreads x (spread n y) (n + n) := by
  intro i
  rw [spread, BitVec.getLsbD_or, BitVec.getLsbD_ushiftRight, Bool.or_eq_true, h, h]
  constructor
  · intro hor
    cases hor with
    | inl hleft =>
      obtain ⟨j, hj, hx⟩ := hleft
      exact ⟨j, by omega, hx⟩
    | inr hright =>
      obtain ⟨j, hj, hx⟩ := hright
      exact ⟨n + j, by omega, by rwa [← Nat.add_assoc, Nat.add_comm i]⟩
  · intro hex
    obtain ⟨j, hj, hx⟩ := hex
    by_cases hlow : j < n
    · exact .inl ⟨j, hlow, hx⟩
    · refine .inr ⟨j - n, by omega, ?_⟩
      have hidx : n + i + (j - n) = i + j := by omega
      rwa [hidx]

theorem spreads_all (x : BitVec 32) : Spreads x (spread 16 (spread 8 (spread 4 (spread 2 (spread 1 x))))) 32 := by
  have hone : Spreads x x 1 := by
    intro i
    constructor
    · intro hx
      exact ⟨0, Nat.one_pos, hx⟩
    · intro hex
      obtain ⟨j, hj, hx⟩ := hex
      obtain rfl : j = 0 := by omega
      exact hx
  exact hone.double.double.double.double.double

/-- The last bit of a number. -/
theorem testBit_size {m : ℕ} (hm : m ≠ 0) : m.testBit (m.size - 1) = true := by
  have hpos : 0 < m.size := Nat.size_pos.2 (Nat.pos_of_ne_zero hm)
  have hlow : 2 ^ (m.size - 1) ≤ m := Nat.lt_size.1 (by omega)
  have hhigh : m < 2 ^ (m.size - 1 + 1) := by
    rw [Nat.sub_add_cancel hpos]
    exact Nat.lt_size_self m
  have hdiv : m / 2 ^ (m.size - 1) = 1 := by
    refine Nat.div_eq_of_lt_le ?_ ?_
    · rwa [Nat.one_mul]
    · rw [pow_succ] at hhigh
      omega
  rw [Nat.testBit_eq_decide_div_mod_eq, hdiv]
  rfl

theorem size_le_width (x : BitVec 32) : x.toNat.size ≤ 32 := Nat.size_le.2 x.isLt

/-- The bits of a number, spread to the right, are all the bits below its size. -/
theorem spread_eq (x : BitVec 32) :
    spread 16 (spread 8 (spread 4 (spread 2 (spread 1 x)))) = BitVec.ofNat 32 (2 ^ x.toNat.size - 1) := by
  refine BitVec.eq_of_getLsbD_eq ?_
  intro i hi
  rw [BitVec.getLsbD_ofNat, Nat.testBit_two_pow_sub_one, decide_eq_true hi, Bool.true_and, Bool.eq_iff_iff, spreads_all x i,
    decide_eq_true_iff]
  constructor
  · intro hex
    obtain ⟨j, hj, hx⟩ := hex
    rw [← BitVec.testBit_toNat] at hx
    exact Nat.lt_of_le_of_lt (Nat.le_add_right i j) (Nat.lt_size.2 (Nat.ge_two_pow_of_testBit hx))
  · intro hsize
    have hne : x.toNat ≠ 0 := by
      intro hzero
      rw [hzero, Nat.size_zero] at hsize
      exact absurd hsize (Nat.not_lt_zero i)
    have hle := size_le_width x
    refine ⟨x.toNat.size - 1 - i, by omega, ?_⟩
    have hidx : i + (x.toNat.size - 1 - i) = x.toNat.size - 1 := by omega
    rw [hidx, ← BitVec.testBit_toNat]
    exact testBit_size hne

theorem ones_ones : ∀ k : Fin 33, ones (BitVec.ofNat 32 (2 ^ k.val - 1)) = BitVec.ofNat 32 k.val := by decide

/-- **`ldz`.** -/
theorem ldz_spec (x : BitVec 32) : ldz x = 32 - BitVec.ofNat 32 x.toNat.size := by
  rw [ldz, spread_eq, ones_ones ⟨x.toNat.size, Nat.lt_succ_of_le (size_le_width x)⟩]

theorem LOG2_CEIL_eq (hx : x ≠ 0) : LOG2_CEIL x = BitVec.ofNat 32 (x.toNat - 1).size := by
  have hpos : 1 ≤ x.toNat := by
    rw [Nat.one_le_iff_ne_zero]
    intro hzero
    exact hx (BitVec.eq_of_toNat_eq hzero)
  have hsub : (x - 1).toNat = x.toNat - 1 := BitVec.toNat_sub_of_le (show (1 : BitVec 32).toNat ≤ x.toNat from hpos)
  rw [LOG2_CEIL, ldz_spec, hsub, sub_sub_cancel]

theorem exp_base_2_eq : ∀ k : Fin 33, exp_base_2 (BitVec.ofNat 32 k.val) = BitVec.ofNat 32 (2 ^ k.val) := by decide

/-- The size of the number before `d` is the logarithm of `d`, rounded up. -/
theorem le_two_pow_size (d : ℕ) : d ≤ 2 ^ (d - 1).size := by
  have hlt := Nat.lt_size_self (d - 1)
  omega

theorem two_pow_size_lt {d : ℕ} (hd : 0 < d) : 2 ^ (d - 1).size < 2 * d := by
  by_cases hsize : (d - 1).size = 0
  · rw [hsize, pow_zero]
    omega
  · have hlow : 2 ^ ((d - 1).size - 1) ≤ d - 1 := Nat.lt_size.1 (by omega)
    have hsucc : (d - 1).size = (d - 1).size - 1 + 1 := by omega
    rw [hsucc, pow_succ]
    omega

end Powers

/-! ### The constants -/

/-- `TWO_TO_THE_32_U64`. -/
def TWO_TO_THE_32_U64 : BitVec 64 := 0x100000000

/-- `ComputeUDivConstants32`: `mprime`, `sh1` and `sh2`.  The divisor is not 0. -/
def ComputeUDivConstants32 (d : BitVec 32) : BitVec 32 × BitVec 32 × BitVec 32 :=
  let l := LOG2_CEIL d
  let mid := exp_base_2 l - d
  let mprime := (TWO_TO_THE_32_U64 * mid.setWidth 64 / d.setWidth 64 + 1).setWidth 32
  let sh1 := if l.slt 1 then l else 1
  let sh2 := if (l - 1).slt 0 then 0 else l - 1
  (mprime, sh1, sh2)

/-- `ABS(x)`. -/
def ABS (x : BitVec 64) : BitVec 64 := if (0 : BitVec 64).slt x then x else -x

/-- `XSIGN(x)`. -/
def XSIGN (x : BitVec 32) : BitVec 32 := x.sshiftRight 31

/-- `ComputeSDivConstants32`: `mprime`, `dsign` and `shpost`.  The divisor is not 0. -/
def ComputeSDivConstants32 (d : BitVec 32) : BitVec 32 × BitVec 32 × BitVec 32 :=
  let abs_d := ABS (d.signExtend 64)
  let log := LOG2_CEIL (abs_d.setWidth 32)
  let l := if (1 : BitVec 32) < log then log else 1
  let l := if abs_d = 0x80000000 then 31 else l
  let mid := exp_base_2 (l - 1)
  let m := TWO_TO_THE_32_U64 * mid.setWidth 64 / abs_d + 1
  let mprime := (m - TWO_TO_THE_32_U64).setWidth 32
  let dsign := XSIGN d
  let shpost := l - 1
  (mprime, dsign, shpost)

/-! ### The recoding of a factor -/

/-- `bits64::isolateRightmostBit`. -/
def isolateRightmostBit (x : BitVec 64) : BitVec 64 := x &&& -x

/-- `bits64::indexOfSingleBit` with its assertions. -/
def indexOfSingleBit (x : BitVec 64) : Option ℕ :=
  let res := Z3Builder.indexOfSingleBit x.toNat
  if x &&& (x - 1) = 0 ∧ res < 64 ∧ BitVec.twoPow 64 res = x then some res else none

/-- `bits64::indexOfRightmostBit`. -/
def indexOfRightmostBit (x : BitVec 64) : Option ℕ := indexOfSingleBit (isolateRightmostBit x)

/-- `q ? bits64::indexOfSingleBit(q) : 64`. -/
def runEnd (q : BitVec 64) : Option ℕ := if q ≠ 0 then indexOfSingleBit q else some 64

/-- What an iteration that found the ones from `low` to `high` does to `add` and `sub`. -/
def recode (low high : ℕ) (add sub : BitVec 64) : BitVec 64 × BitVec 64 :=
  let lowbit := BitVec.twoPow 64 low
  if high = low + 1 then (add ||| lowbit, sub)
  else
    let (add, sub) :=
      if low ≠ 0 ∧ add &&& (lowbit >>> 1) ≠ 0 then (add ^^^ (lowbit >>> 1), sub ^^^ (lowbit >>> 1)) else (add, sub ||| lowbit)
    (if high ≠ 64 then add ||| BitVec.twoPow 64 high else add, sub)

/-- The loop of `ComputeMultConstants64`; the first argument bounds the iterations. -/
def multLoop : ℕ → BitVec 64 → BitVec 64 → BitVec 64 → Option (BitVec 64 × BitVec 64)
  | 0, _, _, _ => none
  | fuel + 1, x, add, sub =>
    if x = 0 then some (add, sub)
    else do
      let low ← indexOfRightmostBit x
      let lowbit := BitVec.twoPow 64 low
      let p := x + lowbit
      let q := isolateRightmostBit p
      let high ← runEnd q
      multLoop fuel (p ^^^ q) (recode low high add sub).1 (recode low high add sub).2

/-- `ComputeMultConstants64`. -/
def ComputeMultConstants64 (multiplicand : BitVec 64) : Option (BitVec 64 × BitVec 64) := do
  let (add, sub) ← multLoop 65 multiplicand 0 0
  if multiplicand = add - sub then some (add, sub) else none

section Recoding

variable {x add sub : BitVec 64} {k m low high : ℕ}

theorem getLsbD_below (hx : x.toNat = 2 ^ k * m) {i : ℕ} (hi : i < k) : x.getLsbD i = false := by
  rw [← BitVec.testBit_toNat, hx, Nat.testBit_two_pow_mul, decide_eq_false (by omega), Bool.false_and]

theorem getLsbD_first (hx : x.toNat = 2 ^ k * (2 * m + 1)) : x.getLsbD k = true := by
  have hodd : (2 * m + 1).testBit 0 = true := by
    rw [Nat.testBit_zero, decide_eq_true_iff]
    omega
  rw [← BitVec.testBit_toNat, hx, Nat.testBit_two_pow_mul, decide_eq_true le_rfl, Bool.true_and, Nat.sub_self, hodd]

/-- **The rightmost bit.** -/
theorem isolate_eq (hx : x.toNat = 2 ^ k * (2 * m + 1)) : isolateRightmostBit x = BitVec.twoPow 64 k := by
  have hfirst := getLsbD_first hx
  refine BitVec.eq_of_getLsbD_eq ?_
  intro i hi
  rw [isolateRightmostBit, BitVec.getLsbD_and, BitVec.getLsbD_neg, BitVec.getLsbD_twoPow, decide_eq_true hi, Bool.true_and]
  by_cases hlow : i < k
  · have hne : k ≠ i := by omega
    rw [getLsbD_below hx hlow, Bool.false_and, decide_eq_false hne, Bool.and_false]
  · by_cases heq : i = k
    · subst heq
      have hnone : ¬∃ j < i, x.getLsbD j = true := by
        intro hex
        obtain ⟨j, hj, hbit⟩ := hex
        rw [getLsbD_below hx hj] at hbit
        cases hbit
      rw [hfirst, decide_eq_false hnone, decide_eq_true hi, decide_eq_true rfl]
      rfl
    · have hsome : ∃ j < i, x.getLsbD j = true := ⟨k, by omega, hfirst⟩
      have hne : k ≠ i := Ne.symm heq
      rw [decide_eq_true hsome, decide_eq_false hne, Bool.and_false]
      cases x.getLsbD i with
      | false => rfl
      | true => rfl

theorem indexOfSingleBit_twoPow : ∀ k : Fin 64, indexOfSingleBit (BitVec.twoPow 64 k.val) = some k.val := by decide

/-- A number that is not 0 is an odd number at its rightmost bit. -/
theorem exists_odd (hx : x ≠ 0) : ∃ k m, k < 64 ∧ x.toNat = 2 ^ k * (2 * m + 1) := by
  have hne : x.toNat ≠ 0 := by
    intro hzero
    exact hx (BitVec.eq_of_toNat_eq hzero)
  obtain ⟨k, c, hodd, hc⟩ := Nat.exists_eq_two_pow_mul_odd hne
  obtain ⟨m, rfl⟩ := hodd
  refine ⟨k, m, ?_, hc⟩
  by_contra hk
  have hpow : 2 ^ 64 ≤ 2 ^ k := Nat.pow_le_pow_right (by decide) (Nat.le_of_not_lt hk)
  have hle : 2 ^ k ≤ 2 ^ k * (2 * m + 1) := Nat.le_mul_of_pos_right _ (Nat.succ_pos _)
  have hlt := x.isLt
  omega

theorem indexOfRightmostBit_eq (hk : k < 64) (hx : x.toNat = 2 ^ k * (2 * m + 1)) : indexOfRightmostBit x = some k := by
  rw [indexOfRightmostBit, isolate_eq hx]
  exact indexOfSingleBit_twoPow ⟨k, hk⟩

theorem or_twoPow (ha : add.toNat < 2 ^ k) : add ||| BitVec.twoPow 64 k = add + BitVec.twoPow 64 k := by
  refine (BitVec.add_eq_or_of_and_eq_zero _ _ ?_).symm
  rw [BitVec.and_twoPow, ← BitVec.testBit_toNat, Nat.testBit_lt_two_pow ha]
  rfl

theorem toNat_or_twoPow_lt (ha : add.toNat < 2 ^ k) (hk : k < 64) : (add ||| BitVec.twoPow 64 k).toNat < 2 ^ (k + 1) := by
  rw [BitVec.toNat_or, BitVec.toNat_twoPow_of_lt hk]
  refine Nat.or_lt_two_pow ?_ ?_
  · exact ha.trans (Nat.pow_lt_pow_right (by decide) (Nat.lt_succ_self k))
  · exact Nat.pow_lt_pow_right (by decide) (Nat.lt_succ_self k)

theorem xor_twoPow (hk : k < 64) (ha : add.getLsbD k = true) : add ^^^ BitVec.twoPow 64 k = add - BitVec.twoPow 64 k := by
  have hdisjoint : (add ^^^ BitVec.twoPow 64 k) &&& BitVec.twoPow 64 k = 0 := by
    rw [BitVec.and_twoPow, BitVec.getLsbD_xor, ha, BitVec.getLsbD_twoPow, decide_eq_true hk, decide_eq_true rfl]
    rfl
  have hsum : (add ^^^ BitVec.twoPow 64 k) + BitVec.twoPow 64 k = add := by
    rw [BitVec.add_eq_or_of_and_eq_zero _ _ hdisjoint]
    refine BitVec.eq_of_getLsbD_eq ?_
    intro i hi
    rw [BitVec.getLsbD_or, BitVec.getLsbD_xor, BitVec.getLsbD_twoPow, decide_eq_true hk, Bool.true_and]
    by_cases hki : k = i
    · subst hki
      rw [ha, decide_eq_true rfl]
      rfl
    · rw [decide_eq_false hki, Bool.xor_false, Bool.or_false]
  rw [← BitVec.sub_eq_iff_eq_add.2 hsum.symm]

/-- What the loop keeps: `add` and `sub` end below the place `k`, and have no bit in common. -/
structure Recoded (add sub : BitVec 64) (k : ℕ) : Prop where
  add_lt : add.toNat < 2 ^ k
  sub_lt : sub.toNat < 2 ^ k
  disjoint : ∀ i, add.getLsbD i = true → sub.getLsbD i = false

theorem Recoded.mono (h : Recoded add sub k) {n : ℕ} (hkn : k ≤ n) : Recoded add sub n :=
  ⟨h.add_lt.trans_le (Nat.pow_le_pow_right (by decide) hkn), h.sub_lt.trans_le (Nat.pow_le_pow_right (by decide) hkn), h.disjoint⟩

theorem getLsbD_of_lt (hx : x.toNat < 2 ^ k) {i : ℕ} (hi : k ≤ i) : x.getLsbD i = false := by
  rw [← BitVec.testBit_toNat]
  exact Nat.testBit_lt_two_pow (hx.trans_le (Nat.pow_le_pow_right (by decide) hi))

theorem getLsbD_or_twoPow (hk : k < 64) (i : ℕ) : (x ||| BitVec.twoPow 64 k).getLsbD i = (x.getLsbD i || decide (k = i)) := by
  rw [BitVec.getLsbD_or, BitVec.getLsbD_twoPow, decide_eq_true hk, Bool.true_and]

theorem getLsbD_xor_twoPow (hk : k < 64) (i : ℕ) : (x ^^^ BitVec.twoPow 64 k).getLsbD i = (x.getLsbD i ^^ decide (k = i)) := by
  rw [BitVec.getLsbD_xor, BitVec.getLsbD_twoPow, decide_eq_true hk, Bool.true_and]

theorem Recoded.or_add (h : Recoded add sub k) (hk : k < 64) : Recoded (add ||| BitVec.twoPow 64 k) sub (k + 1) := by
  refine ⟨toNat_or_twoPow_lt h.add_lt hk, (h.mono (Nat.le_succ k)).sub_lt, ?_⟩
  intro i hi
  rw [getLsbD_or_twoPow hk, Bool.or_eq_true, decide_eq_true_iff] at hi
  cases hi with
  | inl hbit => exact h.disjoint i hbit
  | inr heq => exact getLsbD_of_lt h.sub_lt heq.le

theorem Recoded.or_sub (h : Recoded add sub k) (hk : k < 64) : Recoded add (sub ||| BitVec.twoPow 64 k) (k + 1) := by
  refine ⟨(h.mono (Nat.le_succ k)).add_lt, toNat_or_twoPow_lt h.sub_lt hk, ?_⟩
  intro i hi
  rw [getLsbD_or_twoPow hk, h.disjoint i hi, Bool.false_or, decide_eq_false_iff_not]
  intro heq
  rw [getLsbD_of_lt h.add_lt heq.le] at hi
  cases hi

/-- The last bit that was added is subtracted instead. -/
theorem Recoded.flip (h : Recoded add sub (k + 1)) (hk : k < 64) (hbit : add.getLsbD k = true) :
    Recoded (add ^^^ BitVec.twoPow 64 k) (sub ^^^ BitVec.twoPow 64 k) (k + 1) := by
  have hpow : (BitVec.twoPow 64 k).toNat < 2 ^ (k + 1) := by
    rw [BitVec.toNat_twoPow_of_lt hk]
    exact Nat.pow_lt_pow_right (by decide) (Nat.lt_succ_self k)
  refine ⟨?_, ?_, ?_⟩
  · rw [BitVec.toNat_xor]
    exact Nat.xor_lt_two_pow h.add_lt hpow
  · rw [BitVec.toNat_xor]
    exact Nat.xor_lt_two_pow h.sub_lt hpow
  · intro i hi
    rw [getLsbD_xor_twoPow hk] at hi ⊢
    by_cases hki : k = i
    · subst hki
      rw [hbit, decide_eq_true rfl] at hi
      cases hi
    · rw [decide_eq_false hki, Bool.xor_false] at hi ⊢
      exact h.disjoint i hi

theorem xor_twoPow_of_not (hk : k < 64) (hs : sub.getLsbD k = false) : sub ^^^ BitVec.twoPow 64 k = sub + BitVec.twoPow 64 k := by
  have hdisjoint : sub &&& BitVec.twoPow 64 k = 0 := by
    rw [BitVec.and_twoPow, hs]
    rfl
  rw [BitVec.add_eq_or_of_and_eq_zero _ _ hdisjoint]
  refine BitVec.eq_of_getLsbD_eq ?_
  intro i hi
  rw [getLsbD_or_twoPow hk, getLsbD_xor_twoPow hk]
  by_cases hki : k = i
  · subst hki
    rw [hs, decide_eq_true rfl]
    rfl
  · rw [decide_eq_false hki, Bool.xor_false, Bool.or_false]

theorem twoPow_succ (k : ℕ) : BitVec.twoPow 64 (k + 1) = BitVec.twoPow 64 k + BitVec.twoPow 64 k := by
  refine BitVec.eq_of_toNat_eq ?_
  rw [BitVec.toNat_add, BitVec.toNat_twoPow, BitVec.toNat_twoPow, ← Nat.add_mod, pow_succ, Nat.mul_two]

theorem twoPow_64 : BitVec.twoPow 64 64 = 0 := rfl

theorem twoPow_shift (hk : k + 1 < 64) : BitVec.twoPow 64 (k + 1) >>> 1 = BitVec.twoPow 64 k := by
  refine BitVec.eq_of_toNat_eq ?_
  rw [BitVec.toNat_ushiftRight, BitVec.toNat_twoPow_of_lt hk, BitVec.toNat_twoPow_of_lt (by omega), Nat.shiftRight_eq_div_pow, pow_succ,
    pow_one, Nat.mul_div_cancel _ Nat.two_pos]

theorem and_twoPow_ne_zero (hk : k < 64) : add &&& BitVec.twoPow 64 k ≠ 0 ↔ add.getLsbD k = true := by
  rw [BitVec.and_twoPow]
  cases add.getLsbD k with
  | false => exact ⟨fun h => absurd rfl h, fun h => absurd h Bool.false_ne_true⟩
  | true =>
    refine ⟨fun _ => rfl, fun _ hzero => ?_⟩
    have hnat := congrArg BitVec.toNat hzero
    rw [if_pos rfl, BitVec.toNat_twoPow_of_lt hk] at hnat
    exact absurd hnat (Nat.two_pow_pos k).ne'

/-- The bit behind the run, unless the run ends the word. -/
theorem Recoded.add_high {n : ℕ} (h : Recoded add sub n) (hn : n ≤ high) (hhigh : high ≤ 64) :
    Recoded (if high ≠ 64 then add ||| BitVec.twoPow 64 high else add) sub (high + 1) ∧
      (if high ≠ 64 then add ||| BitVec.twoPow 64 high else add) = add + BitVec.twoPow 64 high := by
  have hmono := h.mono hn
  by_cases hend : high = 64
  · rw [if_neg (not_not.2 hend), hend, twoPow_64, add_zero]
    rw [hend] at hmono
    exact ⟨hmono.mono (Nat.le_succ 64), rfl⟩
  · have hlt : high < 64 := lt_of_le_of_ne hhigh hend
    rw [if_pos hend]
    exact ⟨hmono.or_add hlt, or_twoPow hmono.add_lt⟩

/-- **One run of ones**: what is added less what is subtracted grows by the run. -/
theorem recode_spec (h : Recoded add sub low) (hlow : low < high) (hhigh : high ≤ 64) :
    Recoded (recode low high add sub).1 (recode low high add sub).2 (high + 1) ∧
      (recode low high add sub).1 - (recode low high add sub).2 + BitVec.twoPow 64 low = add - sub + BitVec.twoPow 64 high := by
  have hlow' : low < 64 := lt_of_lt_of_le hlow hhigh
  rw [recode]
  by_cases hone : high = low + 1
  · rw [if_pos hone]
    refine ⟨(h.or_add hlow').mono (by omega), ?_⟩
    show (add ||| BitVec.twoPow 64 low) - sub + BitVec.twoPow 64 low = _
    rw [or_twoPow h.add_lt, hone, twoPow_succ]
    ring
  · rw [if_neg hone]
    by_cases hflip : low ≠ 0 ∧ add &&& (BitVec.twoPow 64 low >>> 1) ≠ 0
    · -- one bit was added just before the run
      rw [if_pos hflip]
      obtain ⟨k, rfl⟩ := Nat.exists_eq_succ_of_ne_zero hflip.1
      have hk : k < 64 := by omega
      have hbit := hflip.2
      rw [twoPow_shift hlow', and_twoPow_ne_zero hk] at hbit
      obtain ⟨hrecoded, hsum⟩ := (h.flip hk hbit).add_high hlow.le hhigh
      rw [twoPow_shift hlow']
      refine ⟨hrecoded, ?_⟩
      show (if high ≠ 64 then _ else _) - (sub ^^^ BitVec.twoPow 64 k) + BitVec.twoPow 64 (k + 1) = _
      rw [hsum, xor_twoPow hk hbit, xor_twoPow_of_not hk (h.disjoint k hbit), twoPow_succ]
      ring
    · rw [if_neg hflip]
      obtain ⟨hrecoded, hsum⟩ := (h.or_sub hlow').add_high hlow hhigh
      refine ⟨hrecoded, ?_⟩
      show (if high ≠ 64 then _ else _) - (sub ||| BitVec.twoPow 64 low) + BitVec.twoPow 64 low = _
      rw [hsum, or_twoPow h.sub_lt]
      ring

/-- **The run of ones** from the rightmost bit of `x`: where it ends, and what is left behind it. -/
theorem run_spec (hk : k < 64) (hx : x.toNat = 2 ^ k * (2 * m + 1)) :
    ∃ high n, k < high ∧ high ≤ 64 ∧
      runEnd (isolateRightmostBit (x + BitVec.twoPow 64 k)) = some high ∧
      (x + BitVec.twoPow 64 k) ^^^ isolateRightmostBit (x + BitVec.twoPow 64 k) = x + BitVec.twoPow 64 k - BitVec.twoPow 64 high ∧
      ((x + BitVec.twoPow 64 k) ^^^ isolateRightmostBit (x + BitVec.twoPow 64 k)).toNat = 2 ^ (high + 1) * n := by
  have hpow : (BitVec.twoPow 64 k).toNat = 2 ^ k := BitVec.toNat_twoPow_of_lt hk
  have hsum : x.toNat + 2 ^ k = 2 ^ (k + 1) * (m + 1) := by
    rw [hx, pow_succ]
    ring
  by_cases hp : x + BitVec.twoPow 64 k = 0
  · -- the ones reach the end of the word
    refine ⟨64, 0, hk, le_rfl, ?_, ?_, ?_⟩
    · rw [hp]
      rfl
    · rw [hp]
      rfl
    · rw [hp]
      rfl
  · obtain ⟨high, n, hhigh, hodd⟩ := exists_odd hp
    have hisolate := isolate_eq hodd
    have hfirst := getLsbD_first hodd
    have hne : BitVec.twoPow 64 high ≠ 0 := by
      intro hzero
      have hnat := congrArg BitVec.toNat hzero
      rw [BitVec.toNat_twoPow_of_lt hhigh] at hnat
      exact absurd hnat (Nat.two_pow_pos high).ne'
    have hlow : k < high := by
      by_contra hle
      -- below `k + 1` the sum has no bits
      have hmod : (x + BitVec.twoPow 64 k).toNat % 2 ^ (k + 1) = 0 := by
        rw [BitVec.toNat_add, hpow, hsum, Nat.mod_mod_of_dvd _ (Nat.pow_dvd_pow 2 hk), Nat.mul_mod_right]
      have hbit := Nat.testBit_mod_two_pow (x + BitVec.twoPow 64 k).toNat (k + 1) high
      rw [hmod, Nat.zero_testBit, BitVec.testBit_toNat, hfirst, Bool.and_true] at hbit
      exact absurd (of_decide_eq_false hbit.symm) (not_not.2 (by omega))
    refine ⟨high, n, hlow, hhigh.le, ?_, ?_, ?_⟩
    · rw [hisolate, runEnd, if_pos hne]
      exact indexOfSingleBit_twoPow ⟨high, hhigh⟩
    · rw [hisolate, xor_twoPow hhigh hfirst]
    · have hle : BitVec.twoPow 64 high ≤ x + BitVec.twoPow 64 k := by
        rw [BitVec.le_def, BitVec.toNat_twoPow_of_lt hhigh, hodd]
        exact Nat.le_mul_of_pos_right _ (Nat.succ_pos _)
      rw [hisolate, xor_twoPow hhigh hfirst, BitVec.toNat_sub_of_le hle, BitVec.toNat_twoPow_of_lt hhigh, hodd, pow_succ,
        Nat.mul_succ, Nat.add_sub_cancel, Nat.mul_assoc]

/-- **The loop**: it ends, and what is added less what is subtracted is the factor. -/
theorem multLoop_spec (fuel : ℕ) (h : Recoded add sub k) (hx : ∃ n, x.toNat = 2 ^ k * n) (hpos : 0 < fuel) (hfuel : 65 ≤ fuel + k) :
    ∃ add' sub', multLoop fuel x add sub = some (add', sub') ∧ add' - sub' = add - sub + x ∧
      ∀ i, add'.getLsbD i = true → sub'.getLsbD i = false := by
  induction fuel generalizing x add sub k with
  | zero => exact absurd hpos (lt_irrefl 0)
  | succ fuel ih =>
    rw [multLoop]
    by_cases hzero : x = 0
    · refine ⟨add, sub, if_pos hzero, ?_, h.disjoint⟩
      rw [hzero, add_zero]
    · rw [if_neg hzero]
      obtain ⟨low, m, hlow, hodd⟩ := exists_odd hzero
      have hklow : k ≤ low := by
        by_contra hlt
        obtain ⟨n, hn⟩ := hx
        have hbit := getLsbD_first hodd
        rw [getLsbD_below hn (by omega)] at hbit
        cases hbit
      obtain ⟨high, n, hlh, hhigh, hindex, hleft, hrest⟩ := run_spec hlow hodd
      obtain ⟨hrecoded, hsum⟩ := recode_spec (h.mono hklow) hlh hhigh
      obtain ⟨add', sub', hrun, hdiff, hdisjoint⟩ := ih hrecoded ⟨n, hrest⟩ (by omega) (by omega)
      refine ⟨add', sub', ?_, ?_, hdisjoint⟩
      · rw [indexOfRightmostBit_eq hlow hodd]
        show (runEnd (isolateRightmostBit (x + BitVec.twoPow 64 low))).bind _ = _
        rw [hindex]
        exact hrun
      · rw [hdiff, hleft]
        linear_combination hsum

theorem getLsbD_zero' (i : ℕ) : (0 : BitVec 64).getLsbD i = false := BitVec.getLsbD_zero

/-- **`ComputeMultConstants64`** ends, no assertion fails, and the two numbers have no bit in common. -/
theorem ComputeMultConstants64_spec (x : BitVec 64) :
    ∃ add sub, ComputeMultConstants64 x = some (add, sub) ∧ add - sub = x ∧ add &&& sub = 0 := by
  have hstart : Recoded (0 : BitVec 64) 0 0 := by
    refine ⟨Nat.one_pos, Nat.one_pos, ?_⟩
    intro i hi
    rw [getLsbD_zero'] at hi
    cases hi
  obtain ⟨add, sub, hrun, hdiff, hdisjoint⟩ := multLoop_spec 65 hstart ⟨x.toNat, (Nat.one_mul _).symm⟩ (by decide) (by decide)
  have hx : add - sub = x := by rw [hdiff, sub_zero, zero_add]
  refine ⟨add, sub, ?_, hx, ?_⟩
  · rw [ComputeMultConstants64, hrun]
    show (if x = add - sub then some (add, sub) else none) = _
    rw [if_pos hx.symm]
  · refine BitVec.eq_of_getLsbD_eq ?_
    intro i hi
    rw [BitVec.getLsbD_and, getLsbD_zero']
    cases hadd : add.getLsbD i with
    | false => rfl
    | true => rw [hdisjoint i hadd, Bool.and_false]

end Recoding

end ConstantDivision

end SymBisect
