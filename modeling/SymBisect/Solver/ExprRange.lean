import Mathlib
import SymBisect.Expr.Reads
import SymBisect.Solver.ValueRange

/-!
# The interval of an expression

`ExprRangeEvaluator::evaluate` of `include/klee/Expr/ExprRangeEvaluator.h` with the intervals of `FastCexSolver`.  Every kind
of expression has its own interval function, and a read joins what the updates at possibly the same index wrote.

* `evalRead_encloses`: a read, by induction on the updates, from what the nodes before may have written.
* `value_in_interval`: the value lies in the interval where each concatenation that `evaluate` comes to has a byte on the right
  and each signed comparison is narrower than 64 bits.

A concatenation shifts the left operand by 8 bits whatever the width of the right one (`threeBytes_outside`).
-/

namespace SymBisect

open ValueRange

/-- The shifts, which have no interval function. -/
def BinOp.isShift : BinOp → Bool
  | .shl | .lshr | .ashr => true
  | _ => false

/-- `Slt` and `Sle`. -/
def CmpOp.isSignedLess : CmpOp → Bool
  | .slt | .sle => true
  | _ => false

/-- The comparisons that the builders rewrite to others. -/
def CmpOp.isUncanonical : CmpOp → Bool
  | .ne | .ugt | .uge | .sgt | .sge => true
  | _ => false

namespace ExprRangeEvaluator

/-- `CexRangeEvaluator::getInitialReadRange`. -/
def getInitialReadRange (array : Array) (index : ValueRange) : Option ValueRange := do
  if array.isConstantArray && index.isFixed then
    let i ← index.min
    if i.toNat < array.size then
      let value ← array.constantValues[i.toNat]?
      return fixed (value.setWidth 64)
  return ⟨0, 255⟩

/-- The arithmetic and bitwise kinds, from the intervals of the operands. -/
def binRange (op : BinOp) (width : ℕ) (left right : ValueRange) : Option ValueRange :=
  match op with
  | .and => left.binaryAnd right
  | .or => left.binaryOr right
  | .xor => left.binaryXor right
  | _ => full width

/-- A comparison of two ends: `yes` decides for true, `no` for false. -/
def decided (yes no : Option Bool) : Option ValueRange := do
  if ← yes then return fixed 1
  if ← no then return fixed 0
  full 1

/-- The comparisons, from the intervals of the operands. -/
def cmpRange (op : CmpOp) (bits : ℕ) (left right : ValueRange) : Option ValueRange :=
  match op with
  | .eq => decided (some (left.mustEqual right)) (some !left.mayEqual right)
  | .ult => decided (do return (← left.max) < (← right.min)) (do return (← right.max) ≤ (← left.min))
  | .ule => decided (do return (← left.max) ≤ (← right.min)) (do return (← right.max) < (← left.min))
  | .slt => decided (do return (← left.maxSigned bits).slt (← right.minSigned bits))
      (do return (← right.maxSigned bits).sle (← left.minSigned bits))
  | .sle => decided (do return (← left.maxSigned bits).sle (← right.minSigned bits))
      (do return (← right.maxSigned bits).slt (← left.minSigned bits))
  | _ => none

mutual

/-- `evaluate`; the operators without an interval function get everything of their width. -/
def evaluate : Expr → Option ValueRange
  | .const v => some (ofConstant v)
  | .notOptimized src => full src.getWidth
  | .read updates index => do
    let i ← evaluate index
    evalRead updates i .empty
  | .select c t f => do
    let cond ← evaluate c
    if cond.mustEqualValue 1 then evaluate t
    else if cond.mustEqualValue 0 then evaluate f
    else
      let whenTrue ← evaluate t
      let whenFalse ← evaluate f
      return whenTrue.set_union whenFalse
  | .concat l r => do
    let left ← evaluate l
    let res ← (fixed 0).concat left 8
    let right ← evaluate r
    res.concat right 8
  | .extract _ _ w => full w
  | .zext _ w => full w
  | .sext _ w => full w
  | .not src => full src.getWidth
  | .bin op l r =>
    if op.isShift then full l.getWidth
    else do
      let left ← evaluate l
      let right ← evaluate r
      binRange op l.getWidth left right
  | .cmp op l r =>
    if op.isUncanonical then none
    else do
      let left ← evaluate l
      let right ← evaluate r
      cmpRange op l.getWidth left right

/-- `evalRead`, from the node at hand, with the interval `res` of the nodes before. -/
def evalRead : UpdateList → ValueRange → ValueRange → Option ValueRange
  | .root array, index, res => do
    let initial ← getInitialReadRange array index
    return res.set_union initial
  | .extend next i value, index, res => do
    let ui ← evaluate i
    if ui.mustEqual index then
      let written ← evaluate value
      return res.set_union written
    else if ui.mayEqual index then
      let written ← evaluate value
      let res := res.set_union written
      if ← res.isFullRange 8 then return res
      else evalRead next index res
    else evalRead next index res

end

/-! ### One node -/

variable {left right : ValueRange} {n m v u : ℕ}

theorem full_encloses_all (hn : n ≤ 64) : ∃ s, full n = some s ∧ ∀ x : BitVec n, s.Encloses n x.toNat := by
  obtain ⟨s, hs, henc⟩ := full_encloses hn
  exact ⟨s, hs, fun x => henc x.toNat x.isLt⟩

theorem ofConstant_encloses {w : ℕ} (x : BitVec w) (hw : w ≤ 64) : (ofConstant x).Encloses w x.toNat := by
  have hlt : x.toNat < 2 ^ 64 := x.isLt.trans_le (Nat.pow_le_pow_right Nat.two_pos hw)
  have hvalue : (BitVec.ofNat 64 (Min.min x.toNat (2 ^ 64 - 1))).toNat = x.toNat := by
    rw [BitVec.toNat_ofNat, Nat.min_eq_left (by omega), Nat.mod_eq_of_lt hlt]
  have henc := fixed_encloses (n := w) (hvalue.trans_lt x.isLt)
  rwa [hvalue] at henc

/-- The operators on the bits, and everything of the width for the others. -/
theorem binRange_encloses (op : BinOp) (hn : n ≤ 64) (x y : BitVec n) (hl : left.Encloses n x.toNat)
    (hr : right.Encloses n y.toNat) :
    ∃ s, binRange op n left right = some s ∧ s.Encloses n (op.apply x y).toNat := by
  have hfull : ∀ z : BitVec n, ∃ s, full n = some s ∧ s.Encloses n z.toNat := by
    intro z
    obtain ⟨s, hs, henc⟩ := full_encloses_all hn
    exact ⟨s, hs, henc z⟩
  cases op with
  | and =>
    rw [BinOp.apply, BitVec.toNat_and]
    exact binaryAnd_encloses hl hr
  | or =>
    rw [BinOp.apply, BitVec.toNat_or]
    exact binaryOr_encloses hl hr
  | xor =>
    rw [BinOp.apply, BitVec.toNat_xor]
    exact binaryXor_encloses hl hr
  | _ => exact hfull _

theorem decided_encloses {p q t : Bool} (hyes : p = true → t = true) (hno : q = true → t = false) :
    ∃ s, decided (some p) (some q) = some s ∧ s.Encloses 1 (BitVec.ofBool t).toNat := by
  cases p with
  | true =>
    rw [hyes rfl]
    exact ⟨_, rfl, fixed_encloses (by decide)⟩
  | false =>
    cases q with
    | true =>
      rw [hno rfl]
      exact ⟨_, rfl, fixed_encloses (by decide)⟩
    | false =>
      obtain ⟨s, hs, henc⟩ := full_encloses_all (n := 1) (by decide)
      exact ⟨s, hs, henc _⟩

/-- **A comparison** that is decided from the ends has that value. -/
theorem cmpRange_encloses {op : CmpOp} (hop : op.isUncanonical = false) (hsigned : op.isSignedLess = true → 0 < n ∧ n < 64)
    (x y : BitVec n) (hl : left.Encloses n x.toNat) (hr : right.Encloses n y.toNat) :
    ∃ s, cmpRange op n left right = some s ∧ s.Encloses 1 (BitVec.ofBool (op.apply x y)).toNat := by
  have hl1 := hl.le_value
  have hl2 := hl.value_le
  have hr1 := hr.le_value
  have hr2 := hr.value_le
  cases op with
  | eq =>
    refine decided_encloses ?_ ?_
    · intro heq
      rw [CmpOp.apply, beq_iff_eq]
      exact BitVec.eq_of_toNat_eq (mustEqual_eq hl hr heq)
    · intro hne
      rw [CmpOp.apply, beq_eq_false_iff_ne]
      intro hxy
      subst hxy
      rw [mayEqual_of_eq hl hr] at hne
      cases hne
  | ult =>
    rw [cmpRange, min_eq hl, max_eq hl, min_eq hr, max_eq hr]
    refine decided_encloses ?_ ?_
    · intro h
      have hlt := BitVec.lt_def.1 (of_decide_eq_true h)
      exact decide_eq_true (by omega)
    · intro h
      have hle := BitVec.le_def.1 (of_decide_eq_true h)
      exact decide_eq_false (by omega)
  | ule =>
    rw [cmpRange, min_eq hl, max_eq hl, min_eq hr, max_eq hr]
    refine decided_encloses ?_ ?_
    · intro h
      have hle := BitVec.le_def.1 (of_decide_eq_true h)
      exact decide_eq_true (by omega)
    · intro h
      have hlt := BitVec.lt_def.1 (of_decide_eq_true h)
      exact decide_eq_false (by omega)
  | slt =>
    obtain ⟨hpos, hn⟩ := hsigned rfl
    obtain ⟨lmin, hlmin, hlmin'⟩ := minSigned_le hl hpos hn
    obtain ⟨lmax, hlmax, hlmax'⟩ := le_maxSigned hl hpos hn
    obtain ⟨rmin, hrmin, hrmin'⟩ := minSigned_le hr hpos hn
    obtain ⟨rmax, hrmax, hrmax'⟩ := le_maxSigned hr hpos hn
    rw [BitVec.ofNat_toNat, BitVec.setWidth_eq] at hlmin' hlmax' hrmin' hrmax'
    rw [cmpRange, hlmin, hlmax, hrmin, hrmax]
    refine decided_encloses ?_ ?_
    · intro h
      have hlt := of_decide_eq_true h
      exact decide_eq_true (by omega)
    · intro h
      have hle := of_decide_eq_true h
      exact decide_eq_false (by omega)
  | sle =>
    obtain ⟨hpos, hn⟩ := hsigned rfl
    obtain ⟨lmin, hlmin, hlmin'⟩ := minSigned_le hl hpos hn
    obtain ⟨lmax, hlmax, hlmax'⟩ := le_maxSigned hl hpos hn
    obtain ⟨rmin, hrmin, hrmin'⟩ := minSigned_le hr hpos hn
    obtain ⟨rmax, hrmax, hrmax'⟩ := le_maxSigned hr hpos hn
    rw [BitVec.ofNat_toNat, BitVec.setWidth_eq] at hlmin' hlmax' hrmin' hrmax'
    rw [cmpRange, hlmin, hlmax, hrmin, hrmax]
    refine decided_encloses ?_ ?_
    · intro h
      have hle := of_decide_eq_true h
      exact decide_eq_true (by omega)
    · intro h
      have hlt := of_decide_eq_true h
      exact decide_eq_false (by omega)
  | ne => cases hop
  | ugt => cases hop
  | uge => cases hop
  | sgt => cases hop
  | sge => cases hop

theorem isFullRange_encloses (h : left.isFullRange 8 = some true) (x : BitVec 8) : left.Encloses 8 x.toNat := by
  have hlt := x.isLt
  have hends : left.m_min = 0 ∧ left.m_max = BitVec.allOnes 64 >>> 56 := by
    simpa [isFullRange, maxValueOfNBits] using h
  refine ⟨?_, ?_, ?_⟩
  · rw [hends.1]
    exact Nat.zero_le _
  · rw [hends.2]
    exact Nat.le_of_lt_succ hlt
  · rw [hends.2]
    decide

/-- The initial bytes of an array that the index may select. -/
theorem getInitialReadRange_encloses {P : Assignment → ℕ} (array : Array) (hindex : ∀ a, left.Encloses 32 (P a)) :
    ∃ s, getInitialReadRange array left = some s ∧ ∀ a, s.Encloses 8 (array.initialValue a (P a)).toNat := by
  have hbyte : ∀ x : BitVec 8, (⟨0, 255⟩ : ValueRange).Encloses 8 x.toNat := by
    intro x
    exact ⟨Nat.zero_le _, Nat.le_of_lt_succ x.isLt, by decide⟩
  unfold getInitialReadRange
  split
  · rename_i hfixed
    rw [Bool.and_eq_true] at hfixed
    rw [min_eq (hindex default)]
    simp only [Option.bind_eq_bind, Option.bind_some]
    split
    · rename_i hsize
      have hlength : array.constantValues.length = array.size := by
        cases array.constantValues_size with
        | inl hempty =>
          rw [Array.isConstantArray, Array.isSymbolicArray, hempty] at hfixed
          cases hfixed.1
        | inr hlength => exact hlength
      have hget : array.constantValues[left.m_min.toNat]? = some (array.constantValues.get ⟨left.m_min.toNat, by omega⟩) :=
        List.getElem?_eq_getElem _
      rw [hget]
      refine ⟨_, rfl, ?_⟩
      intro a
      have hvalue : array.initialValue a (P a) = array.constantValues.get ⟨left.m_min.toNat, by omega⟩ := by
        rw [Array.initialValue, ← (hindex a).eq_of_fixed hfixed.2, hget]
      have hext : (BitVec.setWidth 64 (array.initialValue a (P a))).toNat = (array.initialValue a (P a)).toNat := by
        rw [BitVec.toNat_setWidth]
        exact Nat.mod_eq_of_lt ((array.initialValue a (P a)).isLt.trans (by decide))
      rw [← hvalue]
      exact hext ▸ fixed_encloses (hext ▸ (array.initialValue a (P a)).isLt)
    · exact ⟨_, rfl, fun a => hbyte _⟩
  · exact ⟨_, rfl, fun a => hbyte _⟩

/-! ### The whole expression -/

mutual

/-- What the interval functions need of the expressions that `evaluate` comes to: a byte on the right of a concatenation, a
signed comparison of less than 64 bits, and no comparison that the builders rewrite.  Of an arm whose condition is decided the
other way nothing is asked. -/
def WeighsRight : Expr → Prop
  | .const _ => True
  | .notOptimized _ => True
  | .read updates index => WeighsRight index ∧ ∀ i, evaluate index = some i → UpdatesWeighRight updates i .empty
  | .select c t f =>
    WeighsRight c ∧ ∀ cond, evaluate c = some cond →
      (cond.mustEqualValue 0 = false → WeighsRight t) ∧ (cond.mustEqualValue 1 = false → WeighsRight f)
  | .concat l r => WeighsRight l ∧ WeighsRight r ∧ r.getWidth = 8
  | .extract _ _ _ => True
  | .zext _ _ => True
  | .sext _ _ => True
  | .not _ => True
  | .bin op l r => op.isShift = false → WeighsRight l ∧ WeighsRight r
  | .cmp op l r =>
    WeighsRight l ∧ WeighsRight r ∧ op.isUncanonical = false ∧ (op.isSignedLess = true → 0 < l.getWidth ∧ l.getWidth < 64)

/-- The same of what was written, for the indices in `index` and with the interval `res` of the nodes before: a value that is
written elsewhere is not looked at, and no older node after one that is written there, or once all bytes are possible. -/
def UpdatesWeighRight : UpdateList → ValueRange → ValueRange → Prop
  | .root _, _, _ => True
  | .extend next i value, index, res =>
    WeighsRight i ∧ ∀ ui, evaluate i = some ui →
      (ui.mustEqual index = true → WeighsRight value) ∧
      (ui.mustEqual index = false → ui.mayEqual index = true →
        WeighsRight value ∧ ∀ written, evaluate value = some written → (res.set_union written).isFullRange 8 = some false →
          UpdatesWeighRight next index (res.set_union written)) ∧
      (ui.mustEqual index = false → ui.mayEqual index = false → UpdatesWeighRight next index res)

end

/-- The interval of an expression: it is computed, and encloses the value under every assignment. -/
def Enclosed (e : Expr) : Prop := ∃ s, evaluate e = some s ∧ ∀ a, s.Encloses e.getWidth (e.eval a e.getWidth).toNat

/-- An interval that is the same for all assignments. -/
theorem exists_uniform {o : Option ValueRange} {P : ValueRange → Assignment → Prop}
    (h : ∀ a, ∃ s, o = some s ∧ P s a) : ∃ s, o = some s ∧ ∀ a, P s a := by
  obtain ⟨s, hs, -⟩ := h default
  refine ⟨s, hs, ?_⟩
  intro a
  obtain ⟨s', hs', hP⟩ := h a
  rw [hs] at hs'
  cases hs'
  exact hP

theorem enclosed_full {e : Expr} {w : ℕ} (heval : evaluate e = full w) (hwidth : e.getWidth = w) (hw : w ≤ 64) : Enclosed e := by
  subst hwidth
  obtain ⟨s, hs, henc⟩ := full_encloses_all hw
  exact ⟨s, heval.trans hs, fun a => henc _⟩

theorem enclosed_select {c t f : Expr} (hwidth : t.getWidth = f.getWidth) (hcond : c.getWidth = 1) (hc : Enclosed c)
    (ht : ∀ cond, evaluate c = some cond → cond.mustEqualValue 0 = false → Enclosed t)
    (hf : ∀ cond, evaluate c = some cond → cond.mustEqualValue 1 = false → Enclosed f) : Enclosed (.select c t f) := by
  obtain ⟨cond, hcond', hcenc⟩ := hc
  rw [hcond] at hcenc
  have hvalue : ∀ a x, cond.mustEqualValue x = true → x.toNat = (c.eval a 1).toNat := by
    intro a x hx
    rw [mustEqualValue, Bool.and_eq_true, decide_eq_true_eq, decide_eq_true_eq] at hx
    rw [← hx.2]
    exact (hcenc a).eq_of_fixed (decide_eq_true hx.1)
  have hbranch : ∀ a, (Expr.select c t f).eval a t.getWidth = if c.eval a 1 = 1#1 then t.eval a t.getWidth else f.eval a t.getWidth := by
    intro a
    rw [Expr.eval]
  unfold Enclosed
  rw [evaluate, hcond', Expr.getWidth]
  simp only [Option.bind_eq_bind, Option.bind_some]
  split
  · rename_i hone
    have hzero : cond.mustEqualValue 0 = false := by
      by_contra hzero
      have hval := (hvalue default 1 hone).trans (hvalue default 0 (eq_true_of_ne_false hzero)).symm
      exact absurd hval (by decide)
    obtain ⟨whenTrue, htrue, htenc⟩ := ht cond hcond' hzero
    refine ⟨whenTrue, htrue, ?_⟩
    intro a
    have hcone : c.eval a 1 = 1#1 := BitVec.eq_of_toNat_eq (hvalue a 1 hone).symm
    rw [hbranch, if_pos hcone]
    exact htenc a
  · rename_i hone
    obtain ⟨whenFalse, hfalse, hfenc⟩ := hf cond hcond' (eq_false_of_ne_true hone)
    rw [← hwidth] at hfenc
    split
    · rename_i hzero
      refine ⟨whenFalse, hfalse, ?_⟩
      intro a
      have hval := hvalue a 0 hzero
      have hne : c.eval a 1 ≠ 1#1 := by
        intro h
        rw [h] at hval
        cases hval
      rw [hbranch, if_neg hne]
      exact hfenc a
    · rename_i hzero
      obtain ⟨whenTrue, htrue, htenc⟩ := ht cond hcond' (eq_false_of_ne_true hzero)
      rw [htrue, hfalse]
      refine ⟨_, rfl, ?_⟩
      intro a
      rw [hbranch]
      by_cases hone : c.eval a 1 = 1#1
      · rw [if_pos hone]
        exact set_union_encloses_left (htenc a) (hfenc a).fits
      · rw [if_neg hone]
        exact set_union_encloses_right (hfenc a) (htenc a).fits

/-- The left operand is moved by 8 bits. -/
theorem enclosed_concat {l r : Expr} (hr8 : r.getWidth = 8) (hw : l.getWidth + r.getWidth ≤ 64) (hl : Enclosed l)
    (hr : Enclosed r) : Enclosed (.concat l r) := by
  obtain ⟨left, hleft, hlenc⟩ := hl
  obtain ⟨right, hright, hrenc⟩ := hr
  rw [hr8] at hrenc hw
  have hstep : ∀ a, ∃ s, evaluate (.concat l r) = some s ∧
      s.Encloses (l.getWidth + r.getWidth) ((Expr.concat l r).eval a (l.getWidth + r.getWidth)).toNat := by
    intro a
    obtain ⟨res, hres, hresenc⟩ := concat_zero_encloses 8 (hlenc a)
    obtain ⟨s, hs, henc⟩ := concat_encloses hresenc (hrenc a) hw
    refine ⟨s, ?_, ?_⟩
    · rw [evaluate, hleft, hright]
      simp only [Option.bind_eq_bind, Option.bind_some, hres]
      exact hs
    · rw [Expr.eval, BitVec.setWidth_eq, BitVec.toNat_append, hr8]
      exact henc
  exact exists_uniform hstep

theorem enclosed_bin {op : BinOp} {l r : Expr} (hw : l.getWidth ≤ 64) (hwidth : l.getWidth = r.getWidth)
    (h : op.isShift = false → Enclosed l ∧ Enclosed r) : Enclosed (.bin op l r) := by
  cases hshift : op.isShift with
  | true => exact enclosed_full (w := l.getWidth) (by rw [evaluate, if_pos hshift]) rfl hw
  | false =>
    obtain ⟨⟨left, hleft, hlenc⟩, right, hright, hrenc⟩ := h hshift
    rw [← hwidth] at hrenc
    refine exists_uniform ?_
    intro a
    obtain ⟨s, hs, henc⟩ := binRange_encloses op hw _ _ (hlenc a) (hrenc a)
    refine ⟨s, ?_, ?_⟩
    · rw [evaluate, if_neg (by rw [hshift]; decide), hleft, hright]
      exact hs
    · rw [Expr.eval]
      exact henc

theorem enclosed_cmp {op : CmpOp} {l r : Expr} (hwidth : l.getWidth = r.getWidth) (hop : op.isUncanonical = false)
    (hsigned : op.isSignedLess = true → 0 < l.getWidth ∧ l.getWidth < 64) (hl : Enclosed l) (hr : Enclosed r) :
    Enclosed (.cmp op l r) := by
  obtain ⟨left, hleft, hlenc⟩ := hl
  obtain ⟨right, hright, hrenc⟩ := hr
  rw [← hwidth] at hrenc
  refine exists_uniform ?_
  intro a
  obtain ⟨s, hs, henc⟩ := cmpRange_encloses hop hsigned _ _ (hlenc a) (hrenc a)
  refine ⟨s, ?_, ?_⟩
  · rw [evaluate, if_neg (by rw [hop]; decide), hleft, hright]
    exact hs
  · rw [Expr.getWidth, Expr.eval, BitVec.setWidth_eq]
    exact henc

mutual

/-- **The interval of an expression** encloses its value. -/
theorem evaluate_encloses (e : Expr) (hwf : e.WF) (hnarrow : ∀ s ∈ e.subexprs, s.getWidth ≤ 64) (h : WeighsRight e) :
    Enclosed e := by
  have hself := hnarrow e (Expr.self_mem_subexprs e)
  match e with
  | .const v =>
    refine ⟨_, rfl, ?_⟩
    intro a
    rw [Expr.getWidth, Expr.eval, BitVec.setWidth_eq]
    exact ofConstant_encloses v hself
  | .notOptimized src => exact enclosed_full rfl rfl hself
  | .read updates index =>
    have hsub : ∀ s ∈ index.subexprs, s.getWidth ≤ 64 := fun s hs => hnarrow s (by simp [Expr.subexprs, hs])
    have hupd : ∀ s ∈ updates.subexprs, s.getWidth ≤ 64 := fun s hs => hnarrow s (by simp [Expr.subexprs, hs])
    obtain ⟨i, hi, hienc⟩ := evaluate_encloses index hwf.2.1 hsub h.1
    rw [hwf.2.2] at hienc
    obtain ⟨s, hs, -, henc⟩ := evalRead_encloses updates hwf.1 hupd i _ hienc .empty (by decide) (h.2 i hi)
    refine ⟨s, ?_, ?_⟩
    · rw [evaluate, hi]
      exact hs
    · intro a
      rw [Expr.getWidth, Expr.eval, Array.getRange, BitVec.setWidth_eq]
      exact henc a
  | .select c t f =>
    have hc := evaluate_encloses c hwf.1 (fun s hs => hnarrow s (by simp [Expr.subexprs, hs])) h.1
    refine enclosed_select hwf.2.2.2.2 hwf.2.2.2.1 hc ?_ ?_
    · intro cond hcond hzero
      exact evaluate_encloses t hwf.2.1 (fun s hs => hnarrow s (by simp [Expr.subexprs, hs])) ((h.2 cond hcond).1 hzero)
    · intro cond hcond hone
      exact evaluate_encloses f hwf.2.2.1 (fun s hs => hnarrow s (by simp [Expr.subexprs, hs])) ((h.2 cond hcond).2 hone)
  | .concat l r =>
    have hl := evaluate_encloses l hwf.1 (fun s hs => hnarrow s (by simp [Expr.subexprs, hs])) h.1
    have hr := evaluate_encloses r hwf.2 (fun s hs => hnarrow s (by simp [Expr.subexprs, hs])) h.2.1
    exact enclosed_concat h.2.2 hself hl hr
  | .extract src off w => exact enclosed_full rfl rfl hself
  | .zext src w => exact enclosed_full rfl rfl hself
  | .sext src w => exact enclosed_full rfl rfl hself
  | .not src => exact enclosed_full rfl rfl hself
  | .bin op l r =>
    refine enclosed_bin hself hwf.2.2 fun hshift => ⟨?_, ?_⟩
    · exact evaluate_encloses l hwf.1 (fun s hs => hnarrow s (by simp [Expr.subexprs, hs])) (h hshift).1
    · exact evaluate_encloses r hwf.2.1 (fun s hs => hnarrow s (by simp [Expr.subexprs, hs])) (h hshift).2
  | .cmp op l r =>
    have hl := evaluate_encloses l hwf.1 (fun s hs => hnarrow s (by simp [Expr.subexprs, hs])) h.1
    have hr := evaluate_encloses r hwf.2.1 (fun s hs => hnarrow s (by simp [Expr.subexprs, hs])) h.2.1
    exact enclosed_cmp hwf.2.2 h.2.2.1 h.2.2.2 hl hr

/-- **A read**: what the nodes before may have written stays in the interval, and the byte at the index is in it. -/
theorem evalRead_encloses (updates : UpdateList) (hwf : updates.WF) (hnarrow : ∀ s ∈ updates.subexprs, s.getWidth ≤ 64)
    (index : ValueRange) (P : Assignment → ℕ) (hindex : ∀ a, index.Encloses 32 (P a)) (res : ValueRange)
    (hres : res.m_max.toNat < 2 ^ 8) (h : UpdatesWeighRight updates index res) :
    ∃ s, evalRead updates index res = some s ∧ (∀ v, res.Encloses 8 v → s.Encloses 8 v) ∧
      ∀ a, s.Encloses 8 (updates.evalAt a (P a)).toNat := by
  match updates with
  | .root array =>
    obtain ⟨initial, hinitial, henc⟩ := getInitialReadRange_encloses array hindex
    refine ⟨res.set_union initial, ?_, ?_, ?_⟩
    · rw [evalRead, hinitial]
      rfl
    · intro v hv
      exact set_union_encloses_left hv (henc default).fits
    · intro a
      rw [UpdateList.evalAt]
      exact set_union_encloses_right (henc a) hres
  | .extend next i value =>
    have hsub : ∀ s ∈ next.subexprs, s.getWidth ≤ 64 := fun s hs => hnarrow s (by simp [UpdateList.subexprs, hs])
    obtain ⟨hnext, hi, hiw, hv, hvw⟩ := hwf
    obtain ⟨ui, hui, huienc⟩ :=
      evaluate_encloses i hi (fun s hs => hnarrow s (by simp [UpdateList.subexprs, hs])) h.1
    obtain ⟨hmust, hmay, hother⟩ := h.2 ui hui
    have hvsub : ∀ s ∈ value.subexprs, s.getWidth ≤ 64 := fun s hs => hnarrow s (by simp [UpdateList.subexprs, hs])
    rw [hiw] at huienc
    have hwrote : WeighsRight value → ∃ written, evaluate value = some written ∧ (res.set_union written).m_max.toNat < 2 ^ 8 ∧
        (∀ v, res.Encloses 8 v → (res.set_union written).Encloses 8 v) ∧
        ∀ a, (res.set_union written).Encloses 8 (value.eval a 8).toNat := by
      intro hweighs
      obtain ⟨written, hwritten, hwenc⟩ := evaluate_encloses value hv hvsub hweighs
      rw [hvw] at hwenc
      exact ⟨written, hwritten, (set_union_encloses_right (hwenc default) hres).fits,
        fun v hv => set_union_encloses_left hv (hwenc default).fits, fun a => set_union_encloses_right (hwenc a) hres⟩
    rw [evalRead, hui]
    simp only [Option.bind_eq_bind, Option.bind_some]
    split
    · rename_i heq
      obtain ⟨written, hwritten, -, hkeep, hvalue⟩ := hwrote (hmust heq)
      rw [hwritten]
      refine ⟨_, rfl, hkeep, ?_⟩
      intro a
      rw [UpdateList.evalAt, if_pos (mustEqual_eq (huienc a) (hindex a) heq)]
      exact hvalue a
    · rename_i hne
      split
      · rename_i heq
        obtain ⟨hweighs, holder⟩ := hmay (eq_false_of_ne_true hne) heq
        obtain ⟨written, hwritten, hunion, hkeep, hvalue⟩ := hwrote hweighs
        rw [hwritten, Option.bind_some]
        cases hfull : (res.set_union written).isFullRange 8 with
        | none =>
          cases hfull
        | some isFull =>
          cases isFull with
          | true => exact ⟨_, rfl, hkeep, fun a => isFullRange_encloses hfull _⟩
          | false =>
            obtain ⟨s, hs, hsres, hsenc⟩ :=
              evalRead_encloses next hnext hsub index P hindex _ hunion (holder written hwritten hfull)
            refine ⟨s, hs, fun v hv => hsres v (hkeep v hv), ?_⟩
            intro a
            rw [UpdateList.evalAt]
            split
            · exact hsres _ (hvalue a)
            · exact hsenc a
      · rename_i hnever
        obtain ⟨s, hs, hsres, hsenc⟩ := evalRead_encloses next hnext hsub index P hindex res hres
          (hother (eq_false_of_ne_true hne) (eq_false_of_ne_true hnever))
        refine ⟨s, hs, hsres, ?_⟩
        intro a
        have hindices : (i.eval a 32).toNat ≠ P a := by
          intro heq
          have hpos := hindex a
          rw [← heq] at hpos
          exact hnever (mayEqual_of_eq (huienc a) hpos)
        rw [UpdateList.evalAt, if_neg hindices]
        exact hsenc a

end

/-! ### The claim -/

/-- The value of the expression lies in the computed interval, under every assignment. -/
def InInterval (e : Expr) : Prop :=
  ∃ s, evaluate e = some s ∧ ∀ a, s.m_min.toNat ≤ (e.eval a e.getWidth).toNat ∧ (e.eval a e.getWidth).toNat ≤ s.m_max.toNat

/-- **Values lie in the interval** where every concatenation that `evaluate` comes to has a byte on the right. -/
theorem value_in_interval (e : Expr) (hwf : e.WF) (hnarrow : ∀ s ∈ e.subexprs, s.getWidth ≤ 64) (h : WeighsRight e) :
    InInterval e := by
  obtain ⟨s, hs, henc⟩ := evaluate_encloses e hwf hnarrow h
  exact ⟨s, hs, fun a => ⟨(henc a).le_value, (henc a).value_le⟩⟩

/-- A byte of an array. -/
def rangeByte : Expr := .read (.root ⟨0, "x", 1, [], Array.oneByte_lt, Array.oneByte_values⟩) (.const 0#32)

/-- A value of two bytes. -/
def twoBytes : Expr := .concat rangeByte rangeByte

/-- A value of three bytes: the right operand of the outer concatenation has 16 bits, and the highest byte is moved by 8. -/
def threeBytes : Expr := .concat rangeByte twoBytes

/-- Three bytes joined from the left, with those of `threeBytes` in an arm that is never taken. -/
def deadArm : Expr := .select (.const 1#1) (.concat twoBytes rangeByte) threeBytes

theorem deadArm_in_interval : deadArm.WF ∧ (∀ s ∈ deadArm.subexprs, s.getWidth ≤ 64) ∧ WeighsRight deadArm ∧
    InInterval deadArm := by
  have hwf : deadArm.WF := by decide
  have hnarrow : ∀ s ∈ deadArm.subexprs, s.getWidth ≤ 64 := by decide
  have hbyte : WeighsRight rangeByte := ⟨trivial, fun _ _ => trivial⟩
  have hweighs : WeighsRight deadArm := by
    refine ⟨trivial, ?_⟩
    intro cond hcond
    cases hcond
    exact ⟨fun _ => ⟨⟨hbyte, hbyte, rfl⟩, hbyte, rfl⟩, fun h => absurd h (by decide)⟩
  exact ⟨hwf, hnarrow, hweighs, value_in_interval deadArm hwf hnarrow hweighs⟩

theorem threeBytes_outside : ¬∀ e : Expr, e.WF → (∀ s ∈ e.subexprs, s.getWidth ≤ 64) → InInterval e := by
  intro h
  obtain ⟨s, hs, hvalue⟩ := h threeBytes (by decide) (by decide)
  have hrange : evaluate threeBytes = some ⟨0, 65535⟩ := by decide +kernel
  rw [hrange] at hs
  cases hs
  exact absurd (hvalue fun _ _ => 1).2 (by decide)

end ExprRangeEvaluator

end SymBisect
