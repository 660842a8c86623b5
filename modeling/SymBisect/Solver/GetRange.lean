import SymBisect.Solver.ValueRange
import SymBisect.Solver.Query
import SymBisect.Lib.BinarySearch

/-!
# The range of an expression

`Solver::getRange` of `lib/Solver/Solver.cpp`: three binary searches, for the number of useful bits, for the minimum and for
the maximum, each a loop of queries to the underlying solver.  The state of the programs is the number of calls made.

* `mustBeTrue_spec`, `mayBeTrue_spec`: what a right and complete solver answers.
* `searchBits_spec`, `minimum_spec`, `searchMax_spec`: the three searches.
* `getRange_exact`: the ends returned are the least and the greatest value.

A failed assertion, that of an unhandled solver failure among them, aborts.
-/

namespace SymBisect

open Lib Expr ConstraintSet

/-- `Query::withExpr`. -/
def Query.withExpr (q : Query) (expr : Expr) : Query := { q with expr := expr }

/-- The unsigned values of the expression under the constraints. -/
def Query.values (q : Query) : Set ℕ :=
  {k | ∃ a, Satisfies a q.constraints ∧ (q.expr.eval a q.expr.getWidth).toNat = k}

/-- `bits64::truncateToNBits`. -/
def truncateToNBits (x : BitVec 64) (n : ℕ) : Option (BitVec 64) :=
  if 0 < n ∧ n ≤ 64 then some (x &&& (BitVec.allOnes 64 >>> (64 - n))) else none

/-- `ConstantExpr::create`; the value has to fit a width of at most 64. -/
def createConstant (v : BitVec 64) (w : ℕ) : Prog ℕ Expr := do
  Prog.assert (w ≤ 64 → some v = truncateToNBits v w)
  pure (.const (v.setWidth w))

namespace Solver

/-- A call to the underlying solver, which does not fail. -/
def call {α : Type} (f : ℕ → Option α) : Prog ℕ α := do
  let n ← Prog.get
  Prog.modify fun n => n + 1
  Prog.unwrap (f n)

/-- `evaluate`. -/
def evaluate (solver : SolverImpl) (q : Query) : Prog ℕ Validity := do
  Prog.assert (q.expr.getWidth = 1)
  -- Maintain invariants implementations expect.
  if q.expr.isConstant then pure (if q.expr.isTrue then .True else .False)
  else call fun n => solver.computeValidity n q

/-- `mustBeTrue`. -/
def mustBeTrue (solver : SolverImpl) (q : Query) : Prog ℕ Bool := do
  Prog.assert (q.expr.getWidth = 1)
  -- Maintain invariants implementations expect.
  if q.expr.isConstant then pure q.expr.isTrue
  else call fun n => solver.computeTruth n q

section
variable [ExprOptions]

/-- `mustBeFalse`. -/
def mustBeFalse (solver : SolverImpl) (q : Query) : Prog ℕ Bool := mustBeTrue solver q.negateExpr

/-- `mayBeTrue`. -/
def mayBeTrue (solver : SolverImpl) (q : Query) : Prog ℕ Bool := do
  let res ← mustBeFalse solver q
  pure !res

/-! ### The searches of `getRange` -/

/-- The search for the number of useful bits: `e >> mid` must be zero. -/
def searchBits (solver : SolverImpl) (q : Query) (width : ℕ) : Prog ℕ (BitVec 64) :=
  search (fun mid => do
    let amount ← createConstant mid width
    let zero ← createConstant 0 width
    mustBeTrue solver (q.withExpr (EqExpr.create (LShrExpr.create q.expr amount) zero)))
    0 (BitVec.ofNat 64 width)

/-- The search for the minimum: `e` may be at most `mid`. -/
def searchMin (solver : SolverImpl) (q : Query) (width : ℕ) (hi : BitVec 64) : Prog ℕ (BitVec 64) :=
  search (fun mid => do
    let bound ← createConstant mid width
    mayBeTrue solver (q.withExpr (UleExpr.create q.expr bound)))
    0 hi

/-- The search for the maximum: `e` must be at most `mid`. -/
def searchMax (solver : SolverImpl) (q : Query) (width : ℕ) (min hi : BitVec 64) : Prog ℕ (BitVec 64) :=
  search (fun mid => do
    let bound ← createConstant mid width
    mustBeTrue solver (q.withExpr (UleExpr.create q.expr bound)))
    min hi

/-- The minimum: the common case of a value that may be zero, then the search. -/
def minimum (solver : SolverImpl) (q : Query) (width : ℕ) (hi : BitVec 64) : Prog ℕ (BitVec 64) := do
  let zero ← createConstant 0 width
  let res ← mayBeTrue solver (q.withExpr (EqExpr.create q.expr zero))
  if res then pure 0 else searchMin solver q width hi

/-- `min` and `max` of `getRange`. -/
def rangeEnds (solver : SolverImpl) (q : Query) (width : ℕ) : Prog ℕ (BitVec 64 × BitVec 64) :=
  if width = 1 then do
    let result ← evaluate solver q
    match result with
    | .True => pure (1, 1)
    | .False => pure (0, 0)
    | .Unknown => pure (0, 1)
  else match q.expr with
    | .const (w := w) v => do
      -- getZExtValue
      Prog.assert (w ≤ 64)
      pure (v.setWidth 64, v.setWidth 64)
    | _ => do
      let bits ← searchBits solver q width
      let hi ← Prog.unwrap (ValueRange.maxValueOfNBits bits.toNat)
      let min ← minimum solver q width hi
      let max ← searchMax solver q width min hi
      pure (min, max)

/-- `getRange`. -/
def getRange (solver : SolverImpl) (q : Query) : Prog ℕ (Expr × Expr) := do
  let width := q.expr.getWidth
  let (min, max) ← rangeEnds solver q width
  let lo ← createConstant min width
  let hi ← createConstant max width
  pure (lo, hi)

end

variable {solver : SolverImpl} {q : Query} {w n : ℕ} {e : Expr} {f : Assignment → Bool} {hi : BitVec 64}

/-! ### Constants -/

theorem truncateToNBits_of_fits {v : BitVec 64} (hpos : 0 < w) (hw : w ≤ 64) (hv : v.toNat < 2 ^ w) :
    truncateToNBits v w = some v := by
  obtain ⟨last, hlast, htoNat⟩ := ValueRange.maxValueOfNBits_eq hw
  rw [ValueRange.maxValueOfNBits, if_pos hw, if_neg (Nat.pos_iff_ne_zero.1 hpos)] at hlast
  rw [truncateToNBits, if_pos ⟨hpos, hw⟩, Option.some.inj hlast]
  congr 1
  apply BitVec.eq_of_toNat_eq
  rw [BitVec.toNat_and, htoNat, Nat.and_two_pow_sub_one_eq_mod, Nat.mod_eq_of_lt hv]

/-- A word that fits makes a constant. -/
theorem createConstant_eq {v : BitVec 64} (hpos : 0 < w) (hw : w ≤ 64) (hv : v.toNat < 2 ^ w) :
    createConstant v w n = (some (.const (v.setWidth w)), n) := by
  have hfits : w ≤ 64 → some v = truncateToNBits v w := fun _ => (truncateToNBits_of_fits hpos hw hv).symm
  refine Prog.bind_of_result (a := ⟨⟩) (t := n) ?_
  rw [Prog.assert, if_pos hfits]
  rfl

theorem toNat_setWidth_of_fits {v : BitVec 64} (hv : v.toNat < 2 ^ w) : (v.setWidth w).toNat = v.toNat := by
  rw [BitVec.toNat_setWidth, Nat.mod_eq_of_lt hv]

/-! ### The query -/

/-- A boolean whose value is `f a` under every assignment that satisfies the constraints. -/
structure Decides (q : Query) (e : Expr) (f : Assignment → Bool) : Prop where
  width : e.HasWidth 1
  denotes : ∀ a, Satisfies a q.constraints → e.Denotes a (BitVec.ofBool (f a))

/-- A boolean with a known value holds when that is true. -/
theorem holds_iff_of_denotes {a : Assignment} {b : Bool} (h : e.Denotes a (BitVec.ofBool b)) :
    e.Holds a ↔ b = true := by
  cases b with
  | true => exact iff_of_true h rfl
  | false => exact iff_of_false (fun hh => absurd (hh.value.symm.trans h.value) (by decide)) Bool.false_ne_true

theorem Decides.holds_iff (h : Decides q e f) {a : Assignment} (ha : Satisfies a q.constraints) :
    e.Holds a ↔ f a = true := holds_iff_of_denotes (h.denotes a ha)

/-- What `getRange` is promised of its query. -/
structure Ranged (q : Query) (w : ℕ) : Prop where
  isBool : q.constraints.IsBool
  satisfiable : q.constraints.Satisfiable
  width : q.expr.HasWidth w
  defines : q.constraints.Defines q.expr

theorem Decides.proper (h : Decides q e f) (hq : Ranged q w) : (q.withExpr e).Proper where
  isBool := hq.isBool
  satisfiable := hq.satisfiable
  width := h.width
  defines a ha := (h.denotes a ha).defined

/-- The unsigned value of the expression. -/
def value (q : Query) (w : ℕ) (a : Assignment) : ℕ := (q.expr.eval a w).toNat

theorem Ranged.denotes (h : Ranged q w) {a : Assignment} (ha : Satisfies a q.constraints) :
    q.expr.Denotes a (q.expr.eval a w) := .self (h.defines a ha) w

/-- The values, under the width of the query. -/
theorem Ranged.mem_values_iff (hq : Ranged q w) {k : ℕ} :
    k ∈ q.values ↔ ∃ a, Satisfies a q.constraints ∧ value q w a = k := by
  unfold Query.values value
  rw [hq.width.width]
  exact Iff.rfl

/-- The searches for the ends stay within the useful bits. -/
theorem middle_fits {mid : BitVec 64} (hfits : hi.toNat < 2 ^ w) (hmid : mid < hi) : mid.toNat < 2 ^ w := by
  have hlt : mid.toNat < hi.toNat := hmid
  exact hlt.trans hfits

/-- The ends fit the width, so they make constants of it. -/
theorem fits_of_mem_values (hq : Ranged q w) {k : ℕ} (hk : k ∈ q.values) : k < 2 ^ w := by
  obtain ⟨a, -, rfl⟩ := hq.mem_values_iff.1 hk
  exact (q.expr.eval a w).isLt

/-- The ends of a constant. -/
theorem rangeEnds_const {v : BitVec w} (hq : Ranged ⟨q.constraints, .const v⟩ w) {k : ℕ} :
    k ∈ Query.values ⟨q.constraints, .const v⟩ ↔ k = v.toNat := by
  rw [hq.mem_values_iff]
  have hvalue : ∀ a, value ⟨q.constraints, .const v⟩ w a = v.toNat := fun a =>
    congrArg BitVec.toNat (denotes_const (a := a) v).value
  constructor
  · rintro ⟨a, -, rfl⟩
    exact hvalue a
  · rintro rfl
    obtain ⟨a, ha⟩ := hq.satisfiable
    exact ⟨a, ha, hvalue a⟩

/-! ### The answers -/

theorem call_spec {α : Type} {f : ℕ → Option α} {P : α → Prop} (hright : ∀ n a, f n = some a → P a)
    (htotal : ∀ n, (f n).isSome = true) : Prog.wp (call f) (fun a _ => P a) (fun _ => False) n := by
  refine Prog.wp_unwrap.2 ⟨fun a ha => hright n a ha, fun hnone => ?_⟩
  have hsome := htotal n
  rw [hnone] at hsome
  exact absurd hsome Bool.false_ne_true

/-- `mustBeTrue` tells whether the expression is valid. -/
theorem mustBeTrue_spec (hc : solver.Correct) (ht : solver.Total) (h : q.Proper) :
    Prog.wp (mustBeTrue solver q) (fun b _ => b = true ↔ q.constraints.Entails q.expr) (fun _ => False) n := by
  refine Prog.wp.bind (Prog.wp_assert.2 ⟨fun _ => rfl, fun hnot => hnot h.width.width⟩)
    fun _ t (ht' : t = n) => ?_
  subst ht'
  by_cases hconst : q.expr.isConstant = true
  · rw [if_pos hconst]
    obtain ⟨constraints, e⟩ := q
    obtain ⟨a, ha⟩ := h.satisfiable
    cases e with
    | const v =>
      exact ⟨fun htrue _ _ => (ConstraintManager.holds_const_iff h.width).2 htrue,
        fun hent => (ConstraintManager.holds_const_iff h.width).1 (hent a ha)⟩
    | _ => cases hconst
  · rw [if_neg hconst]
    exact call_spec (fun n b hb => hc.truth n q h b hb) fun n => ht.truth n q

theorem Decides.mustBeTrue (h : Decides q e f) (hq : Ranged q w) (hc : solver.Correct) (ht : solver.Total) :
    Prog.wp (mustBeTrue solver (q.withExpr e))
      (fun b _ => b = true ↔ ∀ a, Satisfies a q.constraints → f a = true) (fun _ => False) n :=
  (mustBeTrue_spec hc ht (h.proper hq)).mono
    (fun _ _ hb => hb.trans (forall₂_congr fun _ ha => h.holds_iff ha)) fun _ h => h

section
variable [ExprOptions]

/-- `mayBeTrue` tells whether the expression may hold. -/
theorem mayBeTrue_spec (hc : solver.Correct) (ht : solver.Total) (h : q.Proper) :
    Prog.wp (mayBeTrue solver q) (fun b _ => b = true ↔ q.MayHold) (fun _ => False) n := by
  refine (mustBeTrue_spec hc ht h.negateExpr).bind fun b t hb => ?_
  have hiff : b = true ↔ ¬q.MayHold := hb.trans ((Query.entails_iff h.negateExpr).trans
    (not_congr (Query.mayFail_negateExpr h)))
  show (!b) = true ↔ q.MayHold
  cases b with
  | true => exact iff_of_false (by decide) (hiff.1 rfl)
  | false =>
    refine iff_of_true rfl ?_
    by_contra hnot
    exact absurd (hiff.2 hnot) (by decide)

theorem Decides.mayBeTrue (h : Decides q e f) (hq : Ranged q w) (hc : solver.Correct) (ht : solver.Total) :
    Prog.wp (mayBeTrue solver (q.withExpr e))
      (fun b _ => b = true ↔ ∃ a, Satisfies a q.constraints ∧ f a = true) (fun _ => False) n :=
  (mayBeTrue_spec hc ht (h.proper hq)).mono
    (fun _ _ hb => hb.trans (exists_congr fun _ => and_congr_right fun ha => h.holds_iff ha)) fun _ h => h

/-! ### The queries -/

/-- `Eq (LShr e mid) 0`: the value is below `2 ^ mid`. -/
theorem decides_bits (hq : Ranged q w) {mid : BitVec 64} (hv : mid.toNat < 2 ^ w) :
    Decides q (EqExpr.create (LShrExpr.create q.expr (.const (mid.setWidth w)))
      (.const ((0 : BitVec 64).setWidth w))) fun a => value q w a < 2 ^ mid.toNat := by
  have hshift := LShrExpr.create_computes hq.width (hasWidth_const (mid.setWidth w))
  have heq := EqExpr.create_computes hshift.hasWidth (hasWidth_const ((0 : BitVec 64).setWidth w))
  refine ⟨heq.hasWidth, fun a ha => ?_⟩
  have hden := heq.denotes (hshift.denotes (hq.denotes ha) (denotes_const _) nofun) (denotes_const _)
  have hval : CmpOp.eq.apply (BinOp.lshr.apply (q.expr.eval a w) (mid.setWidth w)) ((0 : BitVec 64).setWidth w) =
      decide (value q w a < 2 ^ mid.toNat) := by
    show (q.expr.eval a w >>> mid.setWidth w == (0 : BitVec 64).setWidth w) = _
    rw [Bool.eq_iff_iff, beq_iff_eq, decide_eq_true_iff, ← BitVec.toNat_inj]
    rw [BitVec.ushiftRight_eq', BitVec.toNat_ushiftRight, toNat_setWidth_of_fits hv, Nat.shiftRight_eq_div_pow]
    show _ / _ = ((0 : BitVec 64).setWidth w).toNat ↔ _
    rw [show ((0 : BitVec 64).setWidth w).toNat = 0 by simp, Nat.div_eq_zero_iff]
    exact ⟨fun h => h.resolve_left (Nat.two_pow_pos _).ne', .inr⟩
  rw [hval] at hden
  exact hden

/-- `Eq e 0`. -/
theorem decides_zero (hq : Ranged q w) :
    Decides q (EqExpr.create q.expr (.const ((0 : BitVec 64).setWidth w))) fun a => value q w a = 0 := by
  have heq := EqExpr.create_computes hq.width (hasWidth_const ((0 : BitVec 64).setWidth w))
  refine ⟨heq.hasWidth, fun a ha => ?_⟩
  have hden := heq.denotes (hq.denotes ha) (denotes_const _)
  have hval : CmpOp.eq.apply (q.expr.eval a w) ((0 : BitVec 64).setWidth w) = decide (value q w a = 0) := by
    show (q.expr.eval a w == (0 : BitVec 64).setWidth w) = _
    rw [Bool.eq_iff_iff, beq_iff_eq, decide_eq_true_iff, ← BitVec.toNat_inj]
    rw [show ((0 : BitVec 64).setWidth w).toNat = 0 by simp]
    exact Iff.rfl
  rw [hval] at hden
  exact hden

/-- `Ule e mid`. -/
theorem decides_ule (hq : Ranged q w) {mid : BitVec 64} (hv : mid.toNat < 2 ^ w) :
    Decides q (UleExpr.create q.expr (.const (mid.setWidth w))) fun a => value q w a ≤ mid.toNat := by
  have hule := UleExpr.create_computes hq.width (hasWidth_const (mid.setWidth w))
  refine ⟨hule.hasWidth, fun a ha => ?_⟩
  have hden := hule.denotes (hq.denotes ha) (denotes_const _)
  have hval : CmpOp.ule.apply (q.expr.eval a w) (mid.setWidth w) = decide (value q w a ≤ mid.toNat) := by
    show decide ((q.expr.eval a w).toNat ≤ (mid.setWidth w).toNat) = _
    rw [toNat_setWidth_of_fits hv]
    rfl
  rw [hval] at hden
  exact hden

/-! ### The searches -/

/-- As many bits as are searched for hold every value. -/
theorem searchBits_spec (hc : solver.Correct) (ht : solver.Total) (hq : Ranged q w) (hpos : 0 < w) (hw : w ≤ 64) :
    Prog.wp (searchBits solver q w)
      (fun bits _ => bits.toNat ≤ w ∧ ∀ a, Satisfies a q.constraints → value q w a < 2 ^ bits.toNat)
      (fun _ => False) n := by
  have hwidth : (BitVec.ofNat 64 w).toNat = w := by
    rw [BitVec.toNat_ofNat]
    omega
  refine (wp_search (p := fun k => ∀ a, Satisfies a q.constraints → value q w a < 2 ^ k) ?_ ?_ ?_ ?_ n).mono ?_
    fun _ h => h
  · intro k l hkl hk a ha
    exact (hk a ha).trans_le (Nat.pow_le_pow_right Nat.two_pos hkl)
  · intro mid hmid t
    have hlt : mid.toNat < w := by
      have hlt : mid.toNat < (BitVec.ofNat 64 w).toNat := hmid
      omega
    have hfits : mid.toNat < 2 ^ w := hlt.trans Nat.lt_two_pow_self
    refine Prog.wp.step (createConstant_eq hpos hw hfits) ?_
    refine Prog.wp.step (createConstant_eq hpos hw (Nat.two_pow_pos w)) ?_
    refine ((decides_bits hq hfits).mustBeTrue hq hc ht).mono (fun b _ hb => hb.trans ?_) fun _ h => h
    exact forall₂_congr fun a _ => decide_eq_true_iff
  · exact Nat.zero_le _
  · intro a _
    rw [hwidth]
    exact (q.expr.eval a w).isLt
  · intro bits _ hbits
    have hle : bits.toNat ≤ (BitVec.ofNat 64 w).toNat := hbits.2
    exact ⟨hle.trans_eq hwidth, hbits.1.1.2⟩

/-- The minimum found is the least value, when `hi` bounds the values. -/
theorem minimum_spec (hc : solver.Correct) (ht : solver.Total) (hq : Ranged q w) (hpos : 0 < w) (hw : w ≤ 64)
    (hfits : hi.toNat < 2 ^ w) (hbound : ∀ a, Satisfies a q.constraints → value q w a ≤ hi.toNat) :
    Prog.wp (minimum solver q w hi) (fun min _ => IsLeast q.values min.toNat) (fun _ => False) n := by
  refine Prog.wp.step (createConstant_eq hpos hw (Nat.two_pow_pos w)) ?_
  refine ((decides_zero hq).mayBeTrue hq hc ht).bind fun res t hres => ?_
  cases res with
  | true =>
    obtain ⟨a, ha, hzero⟩ := hres.1 rfl
    exact ⟨hq.mem_values_iff.2 ⟨a, ha, of_decide_eq_true hzero⟩, fun k _ => Nat.zero_le k⟩
  | false =>
    refine (wp_search (p := fun k => ∃ a, Satisfies a q.constraints ∧ value q w a ≤ k) ?_ ?_ ?_ ?_ t).mono ?_
      fun _ h => h
    · intro k l hkl hk
      obtain ⟨a, ha, hle⟩ := hk
      exact ⟨a, ha, hle.trans hkl⟩
    · intro mid hmid u
      have hmidFits := middle_fits hfits hmid
      refine Prog.wp.step (createConstant_eq hpos hw hmidFits) ?_
      refine ((decides_ule hq hmidFits).mayBeTrue hq hc ht).mono (fun b _ hb => hb.trans ?_) fun _ h => h
      exact exists_congr fun a => and_congr_right fun _ => decide_eq_true_iff
    · exact Nat.zero_le _
    · obtain ⟨a, ha⟩ := hq.satisfiable
      exact ⟨a, ha, hbound a ha⟩
    · intro min _ hmin
      have hlower : ∀ a, Satisfies a q.constraints → min.toNat ≤ value q w a := fun a ha =>
        hmin.1.2 ⟨Nat.zero_le _, a, ha, le_rfl⟩
      obtain ⟨-, a, ha, hle⟩ := hmin.1.1
      refine ⟨hq.mem_values_iff.2 ⟨a, ha, le_antisymm hle (hlower a ha)⟩, fun k hk => ?_⟩
      obtain ⟨b, hb, rfl⟩ := hq.mem_values_iff.1 hk
      exact hlower b hb

/-- The maximum found is the greatest value, when `hi` bounds the values and `min` is one. -/
theorem searchMax_spec (hc : solver.Correct) (ht : solver.Total) (hq : Ranged q w) (hpos : 0 < w) (hw : w ≤ 64)
    (hfits : hi.toNat < 2 ^ w) (hbound : ∀ a, Satisfies a q.constraints → value q w a ≤ hi.toNat)
    {min : BitVec 64} (hmin : IsLeast q.values min.toNat) :
    Prog.wp (searchMax solver q w min hi) (fun max _ => IsGreatest q.values max.toNat ∧ max ≤ hi)
      (fun _ => False) n := by
  obtain ⟨a₀, ha₀, hvalue₀⟩ := hq.mem_values_iff.1 hmin.1
  refine (wp_search (p := fun k => ∀ a, Satisfies a q.constraints → value q w a ≤ k) ?_ ?_ ?_ ?_ n).mono ?_
    fun _ h => h
  · intro k l hkl hk a ha
    exact (hk a ha).trans hkl
  · intro mid hmid u
    have hmidFits := middle_fits hfits hmid
    refine Prog.wp.step (createConstant_eq hpos hw hmidFits) ?_
    refine ((decides_ule hq hmidFits).mustBeTrue hq hc ht).mono (fun b _ hb => hb.trans ?_) fun _ h => h
    exact forall₂_congr fun a _ => decide_eq_true_iff
  · show min.toNat ≤ hi.toNat
    rw [← hvalue₀]
    exact hbound a₀ ha₀
  · exact hbound
  · intro max _ hmax
    have hupper : ∀ a, Satisfies a q.constraints → value q w a ≤ max.toNat := hmax.1.1.2
    refine ⟨⟨?_, fun k hk => ?_⟩, hmax.2⟩
    · -- a bound that no value reaches is not the least one
      by_contra hnone
      have hbelow : ∀ a, Satisfies a q.constraints → value q w a < max.toNat := fun a ha =>
        (hupper a ha).lt_of_ne fun heq => hnone (hq.mem_values_iff.2 ⟨a, ha, heq⟩)
      have hpred : max.toNat ≤ max.toNat - 1 := hmax.1.2 ⟨?_, fun a ha => Nat.le_sub_one_of_lt (hbelow a ha)⟩
      · have hpos := hbelow a₀ ha₀
        omega
      · have hlt := hbelow a₀ ha₀
        rw [hvalue₀] at hlt
        exact Nat.le_sub_one_of_lt hlt
    · obtain ⟨a, ha, rfl⟩ := hq.mem_values_iff.1 hk
      exact hupper a ha

/-! ### The range -/

theorem rangeEnds_spec (hc : solver.Correct) (ht : solver.Total) (hq : Ranged q w) (h2 : 2 ≤ w) (hw : w ≤ 64) :
    Prog.wp (rangeEnds solver q w)
      (fun ends _ => IsLeast q.values ends.1.toNat ∧ IsGreatest q.values ends.2.toNat) (fun _ => False) n := by
  have hpos : 0 < w := by omega
  have hne : w ≠ 1 := by omega
  rw [rangeEnds, if_neg hne]
  have hsearch : Prog.wp
      (do
        let bits ← searchBits solver q w
        let hi ← Prog.unwrap (ValueRange.maxValueOfNBits bits.toNat)
        let min ← minimum solver q w hi
        let max ← searchMax solver q w min hi
        pure (min, max))
      (fun ends _ => IsLeast q.values ends.1.toNat ∧ IsGreatest q.values ends.2.toNat) (fun _ => False) n := by
    refine (searchBits_spec hc ht hq hpos hw).bind fun bits t hbits => ?_
    obtain ⟨hle, hbound⟩ := hbits
    obtain ⟨hi, hhi, htoNat⟩ := ValueRange.maxValueOfNBits_eq (hle.trans hw)
    rw [hhi]
    have hfits : hi.toNat < 2 ^ w := by
      have hpow : 2 ^ bits.toNat ≤ 2 ^ w := Nat.pow_le_pow_right Nat.two_pos hle
      have hone := Nat.two_pow_pos bits.toNat
      omega
    have hbound' : ∀ a, Satisfies a q.constraints → value q w a ≤ hi.toNat := by
      intro a ha
      have hlt := hbound a ha
      omega
    refine Prog.wp.step (a := hi) (t := t) rfl ?_
    refine (minimum_spec hc ht hq hpos hw hfits hbound').bind fun min u hmin => ?_
    exact (searchMax_spec hc ht hq hpos hw hfits hbound' hmin).bind fun max _ hmax => ⟨hmin, hmax.1⟩
  obtain ⟨constraints, e⟩ := q
  cases e with
  | const v =>
    obtain rfl := hq.width.const_width
    have hv : (v.setWidth 64).toNat = v.toNat := by
      rw [BitVec.toNat_setWidth, Nat.mod_eq_of_lt (v.isLt.trans_le (Nat.pow_le_pow_right Nat.two_pos hw))]
    refine Prog.wp_bind.2 (Prog.wp_assert.2 ⟨fun _ => ?_, fun hnot => hnot hw⟩)
    show IsLeast _ (v.setWidth 64).toNat ∧ IsGreatest _ (v.setWidth 64).toNat
    have hmem := fun k => rangeEnds_const (q := ⟨constraints, .const v⟩) (k := k) hq
    rw [hv]
    exact ⟨⟨(hmem _).2 rfl, fun k hk => ((hmem k).1 hk).ge⟩, (hmem _).2 rfl, fun k hk => ((hmem k).1 hk).le⟩
  | _ => exact hsearch

/-- **`getRange` returns the range**: with a solver that answers every query correctly it ends, and the constants
it returns are the least and the greatest value of the expression under the constraints. -/
theorem getRange_exact (hc : solver.Correct) (ht : solver.Total) (hq : Ranged q w) (h2 : 2 ≤ w) (hw : w ≤ 64) :
    ∃ (lo hi : BitVec w) (t : ℕ), getRange solver q n = (some (.const lo, .const hi), t) ∧
      IsLeast q.values lo.toNat ∧ IsGreatest q.values hi.toNat := by
  have hpos : 0 < w := by omega
  obtain ⟨⟨min, max⟩, t, hrun, hmin, hmax⟩ := (rangeEnds_spec (n := n) hc ht hq h2 hw).exists_result
  have hlo := fits_of_mem_values hq hmin.1
  have hhi := fits_of_mem_values hq hmax.1
  refine ⟨min.setWidth w, max.setWidth w, t, ?_, ?_, ?_⟩
  · rw [getRange, hq.width.width, Prog.bind_of_result hrun]
    show (createConstant min w >>= fun lo => createConstant max w >>= fun hi => pure (lo, hi)) t = _
    rw [Prog.bind_of_result (createConstant_eq hpos hw hlo), Prog.bind_of_result (createConstant_eq hpos hw hhi)]
    rfl
  · rwa [toNat_setWidth_of_fits hlo]
  · rwa [toNat_setWidth_of_fits hhi]

end

/-- The byte `x[0]`. -/
def byteExpr : Expr := .read (.root ⟨0, "x", 1, [], Array.oneByte_lt, Array.oneByte_values⟩) (.const 0#32)

/-- The byte `x[0]` under the constraint `x[0] < 7`. -/
def smallByteQuery : Query := ⟨[.cmp .ult byteExpr (.const 7#8)], byteExpr⟩

theorem byteExpr_hasWidth : byteExpr.HasWidth 8 := by decide

theorem byteExpr_defined (a : Assignment) : byteExpr.Defined a := by
  simp [byteExpr, Expr.Defined, UpdateList.DefinedAt, Array.isConstantArray, Array.isSymbolicArray]

theorem smallByteQuery_satisfies (a : Assignment) :
    Satisfies a smallByteQuery.constraints ↔ value smallByteQuery 8 a < 7 := by
  have hden : (Expr.cmp .ult byteExpr (.const 7#8)).Denotes a (BitVec.ofBool ((byteExpr.eval a 8).ult 7#8)) :=
    (Denotes.self (byteExpr_defined a) 8).cmp byteExpr_hasWidth (denotes_const _)
  have hholds : (Expr.cmp .ult byteExpr (.const 7#8)).Holds a ↔ value smallByteQuery 8 a < 7 :=
    (holds_iff_of_denotes hden).trans decide_eq_true_iff
  simp [smallByteQuery, ConstraintSet.Satisfies, hholds]

theorem smallByteQuery_ranged : Ranged smallByteQuery 8 where
  isBool := by
    intro c hc
    obtain rfl := List.mem_singleton.1 hc
    decide
  satisfiable := ⟨fun _ _ => 0#8, (smallByteQuery_satisfies _).2 (by decide)⟩
  width := byteExpr_hasWidth
  defines a _ := byteExpr_defined a

/-- The range of `x[0]` under `x[0] < 7`. -/
theorem getRange_smallByteQuery :
    let _ : ExprOptions := ⟨false, true⟩
    ∃ t, getRange .exact smallByteQuery 0 = (some (.const 0#8, .const 6#8), t) := by
  intro _
  have htotal : SolverImpl.exact.Total := ⟨fun _ _ => rfl, fun _ _ => rfl⟩
  obtain ⟨lo, hi, t, hrun, hlo, hhi⟩ :=
    getRange_exact (n := 0) SolverImpl.exact_correct htotal smallByteQuery_ranged (by decide) (by decide)
  have hleast : IsLeast smallByteQuery.values 0 :=
    ⟨smallByteQuery_ranged.mem_values_iff.2 ⟨fun _ _ => 0#8, (smallByteQuery_satisfies _).2 (by decide), by decide⟩,
      fun k _ => Nat.zero_le k⟩
  have hgreatest : IsGreatest smallByteQuery.values 6 := by
    refine ⟨smallByteQuery_ranged.mem_values_iff.2 ⟨fun _ _ => 6#8, (smallByteQuery_satisfies _).2 (by decide), by decide⟩,
      fun k hk => ?_⟩
    obtain ⟨a, ha, rfl⟩ := smallByteQuery_ranged.mem_values_iff.1 hk
    exact Nat.le_of_lt_succ ((smallByteQuery_satisfies a).1 ha)
  obtain rfl : lo = 0#8 := BitVec.eq_of_toNat_eq (hlo.unique hleast)
  obtain rfl : hi = 6#8 := BitVec.eq_of_toNat_eq (hhi.unique hgreatest)
  exact ⟨t, hrun⟩

end Solver

end SymBisect
