import SymBisect.Expr.Create
import SymBisect.Lib.BitVector

/-!
# The constructors preserve meaning

Every `create` function returns an expression of the operator's width that evaluates to the
operator applied to the values of the operands.  One lemma states this for each function of
`Create`, in the order of the layers of its recursion.

`Computes₁`, `BinOp.Computes` and `CmpOp.Computes` pair the typing half with the value half, so a
rewriting rule is analysed once.
-/

namespace SymBisect

open Expr

/-- `e'` is `k` bits wide, and whenever `e` evaluates to `x` it evaluates to `spec x`. -/
structure Expr.Computes₁ {w k : ℕ} (e : Expr) (spec : BitVec w → BitVec k) (e' : Expr) :
    Prop where
  hasWidth : e'.HasWidth k
  denotes : ∀ {a : Assignment} {x : BitVec w}, e.Denotes a x → e'.Denotes a (spec x)

/-- `e'` has width `w` and evaluates to `op` of the operands' values, unless that divides by zero. -/
structure BinOp.Computes (op : BinOp) (w : ℕ) (l r e' : Expr) : Prop where
  hasWidth : e'.HasWidth w
  denotes : ∀ {a : Assignment} {x y : BitVec w}, l.Denotes a x → r.Denotes a y →
    (op.isDivision = true → y ≠ 0) → e'.Denotes a (op.apply x y)

/-- `e'` is a boolean that evaluates to the comparison of the operands' values. -/
structure CmpOp.Computes (op : CmpOp) (w : ℕ) (l r e' : Expr) : Prop where
  hasWidth : e'.HasWidth 1
  denotes : ∀ {a : Assignment} {x y : BitVec w}, l.Denotes a x → r.Denotes a y →
    e'.Denotes a (BitVec.ofBool (op.apply x y))

section Alloc

variable {w : ℕ} {l r : Expr}

/-- `alloc` builds the unsimplified node. -/
theorem BinOp.alloc_computes (op : BinOp) (hl : l.HasWidth w) (hr : r.HasWidth w) :
    op.Computes w l r (.bin op l r) :=
  ⟨hl.bin hr, fun dl dr h => dl.bin hr dr h⟩

theorem CmpOp.alloc_computes (op : CmpOp) (hl : l.HasWidth w) (hr : r.HasWidth w) :
    op.Computes w l r (.cmp op l r) :=
  ⟨hl.cmp hr, fun dl dr => dl.cmp hl dr⟩

/-- A rule that replaces the operation by another with the same value. -/
theorem BinOp.Computes.of_eq {op op' : BinOp} {e' : Expr} (h : op.Computes w l r e')
    (hd : op.isDivision = false)
    (heq : ∀ x y : BitVec w, (op'.isDivision = true → y ≠ 0) → op.apply x y = op'.apply x y) :
    op'.Computes w l r e' := by
  refine ⟨h.hasWidth, fun dl dr hy => ?_⟩
  rw [← heq _ _ hy]
  exact h.denotes dl dr (by simp [hd])

end Alloc

/-! ### The macros -/

section Macros

variable {w : ℕ} {l r : Expr}

theorem bcreateR_computes {op : BinOp}
    {createPartial : {w : ℕ} → Expr → BitVec w → Expr}
    {createPartialR : {w : ℕ} → BitVec w → Expr → Expr} {create : Expr → Expr → Expr}
    (hp : ∀ {l : Expr} {c : BitVec w}, l.HasWidth w →
      l.Computes₁ (fun x : BitVec w => op.apply x c) (createPartial l c))
    (hpR : ∀ {r : Expr} {c : BitVec w}, r.HasWidth w →
      r.Computes₁ (fun y : BitVec w => op.apply c y) (createPartialR c r))
    (hc : op.Computes w l r (create l r)) (hl : l.HasWidth w) (hr : r.HasWidth w) :
    op.Computes w l r (bcreateR op createPartial createPartialR create l r) := by
  unfold bcreateR
  split
  · obtain rfl := hl.const_width
    obtain rfl := hr.const_width
    refine ⟨hasWidth_const _, fun dl dr _ => ?_⟩
    rw [← dl.const_eq, ← dr.const_eq, BitVec.setWidth_eq]
    exact denotes_const _
  · obtain rfl := hl.const_width
    refine ⟨(hpR hr).hasWidth, fun dl dr _ => ?_⟩
    rw [← dl.const_eq]
    exact (hpR hr).denotes dr
  · obtain rfl := hr.const_width
    refine ⟨(hp hl).hasWidth, fun dl dr _ => ?_⟩
    rw [← dr.const_eq]
    exact (hp hl).denotes dl
  · exact hc

theorem bcreate_computes {op : BinOp} {create : Expr → Expr → Expr}
    (hc : op.Computes w l r (create l r)) (hl : l.HasWidth w) (hr : r.HasWidth w) :
    op.Computes w l r (bcreate op create l r) := by
  unfold bcreate
  split
  · obtain rfl := hl.const_width
    obtain rfl := hr.const_width
    refine ⟨hasWidth_const _, fun dl dr _ => ?_⟩
    rw [← dl.const_eq, ← dr.const_eq, BitVec.setWidth_eq]
    exact denotes_const _
  · exact hc

theorem cmpcreate_computes {op : CmpOp} {create : Expr → Expr → Expr}
    (hc : op.Computes w l r (create l r)) (hl : l.HasWidth w) (hr : r.HasWidth w) :
    op.Computes w l r (cmpcreate op create l r) := by
  unfold cmpcreate
  split
  · obtain rfl := hl.const_width
    obtain rfl := hr.const_width
    refine ⟨hasWidth_ofBool _, fun dl dr => ?_⟩
    rw [← dl.const_eq, ← dr.const_eq, BitVec.setWidth_eq]
    exact denotes_ofBool _
  · exact hc

end Macros

/-! ### Conjunction and disjunction -/

section AndOr

variable {w : ℕ} {l r : Expr}

theorem andExprCreatePartial_computes {c : BitVec w} (hl : l.HasWidth w) :
    l.Computes₁ (fun x : BitVec w => x &&& c) (andExprCreatePartial l c) := by
  unfold andExprCreatePartial
  split_ifs with h1 h0
  · exact ⟨hl, fun d => by simpa [h1] using d⟩
  · exact ⟨hasWidth_const _, fun d => by simpa [h0] using denotes_const (0#w)⟩
  · exact ⟨hl.bin (hasWidth_const c), fun d => d.bin (hasWidth_const c) (denotes_const c) nofun⟩

theorem andExprCreatePartialR_computes {c : BitVec w} (hr : r.HasWidth w) :
    r.Computes₁ (fun y : BitVec w => c &&& y) (andExprCreatePartialR c r) := by
  simp only [BitVec.and_comm c]
  exact andExprCreatePartial_computes hr

theorem AndExpr.create_computes (hl : l.HasWidth w) (hr : r.HasWidth w) :
    BinOp.and.Computes w l r (AndExpr.create l r) :=
  bcreateR_computes andExprCreatePartial_computes andExprCreatePartialR_computes
    (BinOp.alloc_computes .and hl hr) hl hr

theorem orExprCreatePartial_computes {c : BitVec w} (hl : l.HasWidth w) :
    l.Computes₁ (fun x : BitVec w => x ||| c) (orExprCreatePartial l c) := by
  unfold orExprCreatePartial
  split_ifs with h1 h0
  · exact ⟨hasWidth_const _, fun d => by simpa [h1] using denotes_const (BitVec.allOnes w)⟩
  · exact ⟨hl, fun d => by simpa [h0] using d⟩
  · exact ⟨hl.bin (hasWidth_const c), fun d => d.bin (hasWidth_const c) (denotes_const c) nofun⟩

theorem orExprCreatePartialR_computes {c : BitVec w} (hr : r.HasWidth w) :
    r.Computes₁ (fun y : BitVec w => c ||| y) (orExprCreatePartialR c r) := by
  simp only [BitVec.or_comm c]
  exact orExprCreatePartial_computes hr

theorem OrExpr.create_computes (hl : l.HasWidth w) (hr : r.HasWidth w) :
    BinOp.or.Computes w l r (OrExpr.create l r) :=
  bcreateR_computes orExprCreatePartial_computes orExprCreatePartialR_computes
    (BinOp.alloc_computes .or hl hr) hl hr

end AndOr

/-! ### Equality -/

section Eq

variable {w : ℕ} {l r : Expr}

theorem eqExprCreate_computes (hl : l.HasWidth w) (hr : r.HasWidth w) :
    CmpOp.eq.Computes w l r (eqExprCreate l r) := by
  unfold eqExprCreate
  split_ifs with h
  · subst h
    refine ⟨hasWidth_ofBool _, fun dl dr => ?_⟩
    have hxy := dl.value.symm.trans dr.value
    subst hxy
    simpa [CmpOp.apply] using denotes_ofBool true
  · exact CmpOp.alloc_computes .eq hl hr

/-- Equality with the constant on the left, not folded. -/
theorem eqExprCreate_const_computes (c : BitVec w) (hr : r.HasWidth w) :
    r.Computes₁ (fun y : BitVec w => BitVec.ofBool (c == y)) (eqExprCreate (.const c) r) :=
  have h := eqExprCreate_computes (hasWidth_const c) hr
  ⟨h.hasWidth, fun d => h.denotes (denotes_const c) d⟩

/-- The disjunction that `TryConstArrayOpt` accumulates. -/
theorem foldl_or_computes {f : ℕ → Expr} {index : Expr} {spec : ℕ → BitVec 32 → Bool}
    (hf : ∀ i, index.Computes₁ (fun v : BitVec 32 => BitVec.ofBool (spec i v)) (f i)) :
    ∀ (is : List ℕ) (res : Expr) (b : BitVec 32 → Bool),
      index.Computes₁ (fun v => BitVec.ofBool (b v)) res →
      index.Computes₁ (fun v => BitVec.ofBool (b v || is.any fun i => spec i v))
        (is.foldl (fun res i => OrExpr.create res (f i)) res) := by
  intro is
  induction is with
  | nil => intro res b h; simpa using h
  | cons i is ih =>
    intro res b h
    have hor := OrExpr.create_computes h.hasWidth (hf i).hasWidth
    have hstep : index.Computes₁ (fun v => BitVec.ofBool (b v || spec i v))
        (OrExpr.create res (f i)) := by
      refine ⟨hor.hasWidth, fun d => ?_⟩
      have := hor.denotes (h.denotes d) ((hf i).denotes d) nofun
      simpa [BinOp.apply] using this
    simpa [List.any_cons, Bool.or_assoc] using ih _ _ hstep

theorem Array.mem_constantIndices {arr : Array} {c : Expr} {i : ℕ} :
    i ∈ arr.constantIndices c ↔ i < arr.size ∧ (arr.constantValues[i]?).map Expr.const = some c := by
  simp [Array.constantIndices]

theorem Array.constantValues_getElem? {arr : Array} (hc : arr.isConstantArray = true) {i : ℕ}
    (hi : i < arr.size) : ∃ v, arr.constantValues[i]? = some v := by
  rcases arr.constantValues_size with h | h
  · simp [Array.isConstantArray, Array.isSymbolicArray, h] at hc
  · exact ⟨_, List.getElem?_eq_getElem (h ▸ hi)⟩

/-- A read of a constant array without updates equals `c` exactly when its index is one of the
positions of `c`. -/
theorem read_root_eq_iff {a : Assignment} {arr : Array} {index : Expr} {c y : BitVec 8}
    (hc : arr.isConstantArray = true) (d : (Expr.read (.root arr) index).Denotes a y) :
    (c == y) = (arr.constantIndices (.const c)).any fun i => BitVec.ofNat 32 i == index.eval a 32 := by
  obtain ⟨⟨-, hlt⟩, hv⟩ := d
  have hi := hlt hc
  obtain ⟨v, hval⟩ := Array.constantValues_getElem? hc hi
  have hy : v = y := by
    simpa [Expr.eval, UpdateList.evalAt, Array.initialValue, hval] using hv
  subst hy
  rw [Bool.eq_iff_iff, List.any_eq_true]
  constructor
  · intro h
    refine ⟨(index.eval a 32).toNat, Array.mem_constantIndices.2 ⟨hi, ?_⟩, by simp⟩
    rw [hval, eq_of_beq h]
    rfl
  · rintro ⟨i, hmem, hi'⟩
    obtain ⟨hsize, hci⟩ := Array.mem_constantIndices.1 hmem
    have hidx : (index.eval a 32).toNat = i := by
      rw [← eq_of_beq hi', BitVec.toNat_ofNat, Nat.mod_eq_of_lt (hsize.trans arr.size_lt)]
    rw [hidx] at hval
    simp only [hval, Option.map_some, Option.some.injEq, Expr.const.injEq, heq_eq_eq,
      true_and] at hci
    simp [hci]

/-- A rule that answers a question about `outer` by one about its operand `inner`. -/
theorem Expr.Computes₁.of_operand {m n k : ℕ} {inner outer e' : Expr} {f : BitVec m → BitVec k}
    {g : BitVec n → BitVec k} (h : inner.Computes₁ f e')
    (hop : ∀ {a : Assignment} {y : BitVec n}, outer.Denotes a y →
      ∃ x : BitVec m, inner.Denotes a x ∧ f x = g y) : outer.Computes₁ g e' := by
  refine ⟨h.hasWidth, fun d => ?_⟩
  obtain ⟨x, dx, hx⟩ := hop d
  rw [← hx]
  exact h.denotes dx

theorem Expr.HasWidth.zext_inv {w n : ℕ} {e : Expr} (h : (Expr.zext e n).HasWidth w) :
    n = w ∧ e.HasWidth e.getWidth ∧ e.getWidth ≤ w :=
  ⟨h.width, ⟨h.wf.1, rfl⟩, h.width ▸ h.wf.2⟩

theorem Expr.HasWidth.sext_inv {w n : ℕ} {e : Expr} (h : (Expr.sext e n).HasWidth w) :
    n = w ∧ e.HasWidth e.getWidth ∧ e.getWidth ≤ w :=
  ⟨h.width, ⟨h.wf.1, rfl⟩, h.width ▸ h.wf.2⟩

/-- The two extension rules of `EqExpr_createPartialR`. -/
theorem eq_ext_computes {k w : ℕ} {src outer e' : Expr} {ext : BitVec k → BitVec w}
    (hinv : ∀ v, (ext v).setWidth k = v)
    (hout : ∀ {a : Assignment} {y : BitVec w}, outer.Denotes a y →
      ∃ v : BitVec k, src.Denotes a v ∧ ext v = y)
    (c : BitVec w)
    (h : src.Computes₁ (fun v : BitVec k => BitVec.ofBool (c.setWidth k == v)) e') :
    outer.Computes₁ (fun y : BitVec w => BitVec.ofBool (c == y))
      (if c = ext (c.setWidth k) then e' else ofBool false) := by
  split_ifs with hc
  · refine h.of_operand fun d => ?_
    obtain ⟨v, dv, rfl⟩ := hout d
    exact ⟨v, dv, by rw [BitVec.beq_ext hinv hc]⟩
  · refine ⟨hasWidth_ofBool _, fun d => ?_⟩
    obtain ⟨v, dv, rfl⟩ := hout d
    rw [BitVec.beq_ext_of_ne hinv hc]
    exact denotes_ofBool false

variable [ExprOptions]

/-- `TryConstArrayOpt` on a constant array without updates. -/
theorem tryConstArrayOpt_computes {c : BitVec w} {updates : UpdateList} {index : Expr}
    (hr : (Expr.read updates index).HasWidth w)
    (hroot : ¬(updates.getRoot.isSymbolicArray = true ∨ updates.getSize ≠ 0))
    (heq : ∀ i, index.Computes₁
      (fun v : BitVec index.getWidth => BitVec.ofBool (BitVec.ofNat index.getWidth i == v))
      (EqExpr.createConst (BitVec.ofNat index.getWidth i) index)) :
    (Expr.read updates index).Computes₁ (fun y : BitVec w => BitVec.ofBool (c == y))
      ((updates.getRoot.constantIndices (.const c)).foldl
        (fun res i => OrExpr.create res (EqExpr.createConst (BitVec.ofNat index.getWidth i) index))
        (ofBool false)) := by
  cases updates with
  | extend next i v => simp [UpdateList.getSize] at hroot
  | root arr =>
    obtain rfl : 8 = w := hr.width
    rw [hr.wf.2.2] at heq ⊢
    have hfold := foldl_or_computes heq (arr.constantIndices (.const c)) (ofBool false)
      (fun _ => false) ⟨hasWidth_ofBool _, fun _ => denotes_ofBool _⟩
    refine hfold.of_operand fun d => ⟨_, .self d.defined.1 32, ?_⟩
    have hconst : arr.isConstantArray = true := by
      simpa [UpdateList.getRoot, UpdateList.getSize, Array.isConstantArray] using hroot
    rw [read_root_eq_iff hconst d, Bool.false_or]

mutual

theorem eqExprCreatePartialR_computes {w : ℕ} (c : BitVec w) {r : Expr} (hr : r.HasWidth w) :
    r.Computes₁ (fun y : BitVec w => BitVec.ofBool (c == y)) (eqExprCreatePartialR c r) := by
  unfold eqExprCreatePartialR
  split
  · rename_i hw
    subst hw
    split
    · rename_i h1
      obtain rfl : c = 1#1 := BitVec.eq_of_toNat_eq h1
      simp only [BitVec.ofBool_one_beq]
      exact ⟨hr, fun d => d⟩
    rename_i h1
    obtain rfl : c = 0#1 :=
      (BitVec.eq_one_or_zero_of_width_one c).resolve_left (by rintro rfl; exact h1 rfl)
    split
    · -- double negation
      rename_i k z right
      split_ifs with hz
      · obtain ⟨rfl, hz⟩ := hz
        obtain rfl : z = 0#1 := BitVec.eq_of_toNat_eq hz
        refine ⟨⟨hr.wf.2.1, hr.wf.2.2.symm⟩, fun d => ?_⟩
        obtain ⟨dz, dr, rfl⟩ := d.cmp_inv (hasWidth_const 0#1)
        rw [← dz.const_eq, CmpOp.apply, BitVec.ofBool_zero_beq, BitVec.ofBool_zero_beq,
          BitVec.not_not]
        exact dr
      · exact eqExprCreate_const_computes _ hr
    · -- De Morgan
      rename_i left right
      rw [hr.bin_left.width, hr.bin_right.width]
      have hcl := EqExpr.createConst_computes 0#1 hr.bin_left
      have hcr := EqExpr.createConst_computes 0#1 hr.bin_right
      have hand := AndExpr.create_computes hcl.hasWidth hcr.hasWidth
      refine ⟨hand.hasWidth, fun d => ?_⟩
      obtain ⟨dl, dr, rfl⟩ := d.bin_inv
      have := hand.denotes (hcl.denotes dl) (hcr.denotes dr) nofun
      simpa only [BinOp.apply, BitVec.ofBool_zero_beq, BitVec.not_or] using this
    · exact eqExprCreate_const_computes _ hr
  · split
    · rename_i src n
      obtain ⟨rfl, hs, hk⟩ := hr.sext_inv
      refine eq_ext_computes (BitVec.setWidth_signExtend_self hk) (fun d => ?_) c
        (EqExpr.createConst_computes _ hs)
      exact ⟨_, .self (e := src) d.defined _, d.value⟩
    · rename_i src n
      obtain ⟨rfl, hs, hk⟩ := hr.zext_inv
      refine eq_ext_computes (BitVec.setWidth_setWidth_self hk) (fun d => ?_) c
        (EqExpr.createConst_computes _ hs)
      exact ⟨_, .self (e := src) d.defined _, d.value⟩
    · rename_i m k b
      obtain rfl := hr.bin_left.const_width
      refine (eqExprCreatePartialR_computes _ hr.bin_right).of_operand fun d => ?_
      obtain ⟨dl, db, hv⟩ := d.bin_inv
      refine ⟨_, db, ?_⟩
      rw [← dl.const_eq] at hv
      rw [BitVec.setWidth_eq, BitVec.beq_add_const, ← hv]
      rfl
    · rename_i m k b
      obtain rfl := hr.bin_left.const_width
      refine (eqExprCreatePartialR_computes _ hr.bin_right).of_operand fun d => ?_
      obtain ⟨dl, db, hv⟩ := d.bin_inv
      refine ⟨_, db, ?_⟩
      rw [← dl.const_eq] at hv
      rw [BitVec.setWidth_eq, BitVec.beq_sub_const, ← hv]
      rfl
    · rename_i updates index
      split_ifs with hopt hroot hmany
      · exact eqExprCreate_const_computes _ hr
      · exact eqExprCreate_const_computes _ hr
      · exact tryConstArrayOpt_computes hr hroot fun i =>
          EqExpr.createConst_computes _ ⟨hr.wf.2.1, rfl⟩
      · exact eqExprCreate_const_computes _ hr
    · exact eqExprCreate_const_computes _ hr
  termination_by (sizeOf r, 0)

theorem EqExpr.createConst_computes {w : ℕ} (c : BitVec w) {e : Expr} (he : e.HasWidth w) :
    e.Computes₁ (fun y : BitVec w => BitVec.ofBool (c == y)) (EqExpr.createConst c e) := by
  unfold EqExpr.createConst
  split
  · obtain rfl := he.const_width
    refine ⟨hasWidth_ofBool _, fun d => ?_⟩
    rw [← d.const_eq, BitVec.setWidth_eq]
    exact denotes_ofBool _
  · exact eqExprCreatePartialR_computes c he
  termination_by (sizeOf e, 1)

end

theorem EqExpr.create_computes (hl : l.HasWidth w) (hr : r.HasWidth w) :
    CmpOp.eq.Computes w l r (EqExpr.create l r) := by
  unfold EqExpr.create
  split
  · obtain rfl := hl.const_width
    have h := EqExpr.createConst_computes ‹_› hr
    refine ⟨h.hasWidth, fun dl dr => ?_⟩
    rw [← dl.const_eq]
    exact h.denotes dr
  · obtain rfl := hr.const_width
    have h := EqExpr.createConst_computes ‹_› hl
    refine ⟨h.hasWidth, fun dl dr => ?_⟩
    rw [← dr.const_eq, CmpOp.apply, Bool.beq_comm]
    exact h.denotes dl
  · exact eqExprCreate_computes hl hr

theorem Expr.createIsZero_computes {e : Expr} (he : e.HasWidth w) :
    e.Computes₁ (fun x : BitVec w => BitVec.ofBool (x == 0)) (createIsZero e) := by
  have h := EqExpr.create_computes he (hasWidth_const 0#w)
  obtain ⟨-, rfl⟩ := he
  exact ⟨h.hasWidth, fun d => h.denotes d (denotes_const _)⟩

theorem NeExpr.create_computes (hl : l.HasWidth w) (hr : r.HasWidth w) :
    CmpOp.ne.Computes w l r (NeExpr.create l r) := by
  have h := EqExpr.create_computes hl hr
  have hn := EqExpr.create_computes (hasWidth_ofBool false) h.hasWidth
  refine ⟨hn.hasWidth, fun dl dr => ?_⟩
  have hnot : ∀ b, BitVec.ofBool (BitVec.ofBool false == BitVec.ofBool b) = BitVec.ofBool (!b) := by
    decide
  have d := hn.denotes (denotes_ofBool false) (h.denotes dl dr)
  rw [CmpOp.apply, hnot] at d
  exact d

end Eq

/-! ### Exclusive or -/

section Xor

variable [ExprOptions] {w : ℕ} {l r : Expr}

theorem xorExprCreatePartialR_computes (c : BitVec w) (hr : r.HasWidth w) :
    r.Computes₁ (fun y : BitVec w => c ^^^ y) (xorExprCreatePartialR c r) := by
  unfold xorExprCreatePartialR
  split_ifs with h0 h1
  · exact ⟨hr, fun d => by simpa [h0] using d⟩
  · -- on booleans `1 ^ r` is `r == 0`
    subst h1
    obtain rfl : c = 1#1 := (BitVec.eq_one_or_zero_of_width_one c).resolve_right h0
    simp only [BitVec.one_xor_of_width_one, ← BitVec.ofBool_zero_beq]
    exact eqExprCreatePartialR_computes 0#1 hr
  · exact ⟨(hasWidth_const c).bin hr, fun d => (denotes_const c).bin hr d nofun⟩

theorem xorExprCreatePartial_computes (c : BitVec w) (hl : l.HasWidth w) :
    l.Computes₁ (fun x : BitVec w => x ^^^ c) (xorExprCreatePartial l c) := by
  simp only [BitVec.xor_comm _ c]
  exact xorExprCreatePartialR_computes c hl

theorem XorExpr.create_computes (hl : l.HasWidth w) (hr : r.HasWidth w) :
    BinOp.xor.Computes w l r (XorExpr.create l r) :=
  bcreateR_computes (xorExprCreatePartial_computes _) (xorExprCreatePartialR_computes _)
    (BinOp.alloc_computes .xor hl hr) hl hr

end Xor

/-! ### Sums and differences -/

section AddSub

variable [ExprOptions] {w : ℕ} {l r : Expr}

mutual

theorem addExprCreatePartialR_computes {w : ℕ} (c : BitVec w) {r : Expr} (hr : r.HasWidth w) :
    r.Computes₁ (fun y : BitVec w => c + y) (addExprCreatePartialR c r) := by
  unfold addExprCreatePartialR
  split_ifs with h1 h0
  · subst h1
    simp only [BitVec.add_eq_xor_of_width_one]
    exact xorExprCreatePartialR_computes c hr
  · exact ⟨hr, fun d => by simpa [h0] using d⟩
  split
  · obtain rfl := hr.bin_left.const_width
    refine (AddExpr.createConst_computes _ hr.bin_right).of_operand fun d => ?_
    obtain ⟨dk, dr, rfl⟩ := d.bin_inv
    refine ⟨_, dr, ?_⟩
    rw [← dk.const_eq, BitVec.setWidth_eq, BitVec.add_assoc, BinOp.apply]
  · obtain rfl := hr.bin_left.const_width
    refine (SubExpr.createConst_computes _ hr.bin_right).of_operand fun d => ?_
    obtain ⟨dk, dr, rfl⟩ := d.bin_inv
    refine ⟨_, dr, ?_⟩
    rw [← dk.const_eq, BitVec.setWidth_eq, add_sub_assoc, BinOp.apply]
  · exact ⟨(hasWidth_const c).bin hr, fun d => (denotes_const c).bin hr d nofun⟩
  termination_by (sizeOf r, 0)

theorem AddExpr.createConst_computes {w : ℕ} (c : BitVec w) {r : Expr} (hr : r.HasWidth w) :
    r.Computes₁ (fun y : BitVec w => c + y) (AddExpr.createConst c r) := by
  unfold AddExpr.createConst
  split
  · obtain rfl := hr.const_width
    refine ⟨hasWidth_const _, fun d => ?_⟩
    rw [← d.const_eq, BitVec.setWidth_eq]
    exact denotes_const _
  · exact addExprCreatePartialR_computes c hr
  termination_by (sizeOf r, 1)

theorem subExprCreatePartialR_computes {w : ℕ} (c : BitVec w) {r : Expr} (hr : r.HasWidth w) :
    r.Computes₁ (fun y : BitVec w => c - y) (subExprCreatePartialR c r) := by
  unfold subExprCreatePartialR
  split_ifs with h1
  · subst h1
    simp only [BitVec.sub_eq_xor_of_width_one]
    exact xorExprCreatePartialR_computes c hr
  split
  · obtain rfl := hr.bin_left.const_width
    refine (SubExpr.createConst_computes _ hr.bin_right).of_operand fun d => ?_
    obtain ⟨dk, dr, rfl⟩ := d.bin_inv
    refine ⟨_, dr, ?_⟩
    rw [← dk.const_eq, BitVec.setWidth_eq, sub_sub, BinOp.apply]
  · obtain rfl := hr.bin_left.const_width
    refine (AddExpr.createConst_computes _ hr.bin_right).of_operand fun d => ?_
    obtain ⟨dk, dr, rfl⟩ := d.bin_inv
    refine ⟨_, dr, ?_⟩
    rw [← dk.const_eq, BitVec.setWidth_eq, BinOp.apply, sub_sub_eq_add_sub, sub_add_eq_add_sub]
  · exact ⟨(hasWidth_const c).bin hr, fun d => (denotes_const c).bin hr d nofun⟩
  termination_by (sizeOf r, 0)

theorem SubExpr.createConst_computes {w : ℕ} (c : BitVec w) {r : Expr} (hr : r.HasWidth w) :
    r.Computes₁ (fun y : BitVec w => c - y) (SubExpr.createConst c r) := by
  unfold SubExpr.createConst
  split
  · obtain rfl := hr.const_width
    refine ⟨hasWidth_const _, fun d => ?_⟩
    rw [← d.const_eq, BitVec.setWidth_eq]
    exact denotes_const _
  · exact subExprCreatePartialR_computes c hr
  termination_by (sizeOf r, 1)

end

theorem addExprCreatePartial_computes (c : BitVec w) (hl : l.HasWidth w) :
    l.Computes₁ (fun x : BitVec w => x + c) (addExprCreatePartial l c) := by
  simp only [BitVec.add_comm _ c]
  exact addExprCreatePartialR_computes c hl

theorem SubExpr.createConstRight_computes (c : BitVec w) (hl : l.HasWidth w) :
    l.Computes₁ (fun x : BitVec w => x - c) (SubExpr.createConstRight l c) := by
  unfold SubExpr.createConstRight
  split
  · obtain rfl := hl.const_width
    refine ⟨hasWidth_const _, fun d => ?_⟩
    rw [← d.const_eq, BitVec.setWidth_eq]
    exact denotes_const _
  · have hneg : (fun x : BitVec w => x - c) = fun x => x + (0 - c) := by
      funext x
      rw [zero_sub, sub_eq_add_neg]
    rw [hneg]
    exact addExprCreatePartial_computes (0 - c) hl

mutual

theorem AddExpr.create_computes {w : ℕ} {l r : Expr} (hl : l.HasWidth w) (hr : r.HasWidth w) :
    BinOp.add.Computes w l r (AddExpr.create l r) := by
  unfold AddExpr.create
  split
  · obtain rfl := hl.const_width
    have h := AddExpr.createConst_computes ‹_› hr
    refine ⟨h.hasWidth, fun dl dr _ => ?_⟩
    rw [← dl.const_eq]
    exact h.denotes dr
  · obtain rfl := hr.const_width
    have h := addExprCreatePartial_computes ‹_› hl
    refine ⟨h.hasWidth, fun dl dr _ => ?_⟩
    rw [← dr.const_eq]
    exact h.denotes dl
  split_ifs with h1
  · obtain rfl : 1 = w := h1.symm.trans hl.width
    exact (BinOp.alloc_computes .xor hl hr).of_eq rfl
      fun x y _ => (BitVec.add_eq_xor_of_width_one x y).symm
  split
  · rename_i k a r
    obtain rfl := hl.bin_left.const_width
    have hin := AddExpr.create_computes hl.bin_right hr
    have hout := AddExpr.createConst_computes k hin.hasWidth
    refine ⟨hout.hasWidth, fun dl dr _ => ?_⟩
    obtain ⟨dk, da, rfl⟩ := dl.bin_inv
    have d := hout.denotes (hin.denotes da dr nofun)
    simpa only [BinOp.apply, ← dk.const_eq, add_assoc] using d
  · rename_i k a r
    obtain rfl := hl.bin_left.const_width
    have hin := SubExpr.create_computes hr hl.bin_right
    have hout := AddExpr.createConst_computes k hin.hasWidth
    refine ⟨hout.hasWidth, fun dl dr _ => ?_⟩
    obtain ⟨dk, da, rfl⟩ := dl.bin_inv
    have d := hout.denotes (hin.denotes dr da nofun)
    simpa only [BinOp.apply, ← dk.const_eq, sub_add_eq_add_sub, add_sub_assoc] using d
  · rename_i k b _ _ _
    obtain rfl := hr.bin_left.const_width
    have hin := AddExpr.create_computes hl hr.bin_right
    have hout := AddExpr.createConst_computes k hin.hasWidth
    refine ⟨hout.hasWidth, fun dl dr _ => ?_⟩
    obtain ⟨dk, db, rfl⟩ := dr.bin_inv
    have d := hout.denotes (hin.denotes dl db nofun)
    simpa only [BinOp.apply, ← dk.const_eq, add_left_comm] using d
  · rename_i k b _ _ _
    obtain rfl := hr.bin_left.const_width
    have hin := SubExpr.create_computes hl hr.bin_right
    have hout := AddExpr.createConst_computes k hin.hasWidth
    refine ⟨hout.hasWidth, fun dl dr _ => ?_⟩
    obtain ⟨dk, db, rfl⟩ := dr.bin_inv
    have d := hout.denotes (hin.denotes dl db nofun)
    simpa only [BinOp.apply, ← dk.const_eq, add_sub_left_comm] using d
  · exact BinOp.alloc_computes .add hl hr
  termination_by sizeOf l + sizeOf r

theorem SubExpr.create_computes {w : ℕ} {l r : Expr} (hl : l.HasWidth w) (hr : r.HasWidth w) :
    BinOp.sub.Computes w l r (SubExpr.create l r) := by
  unfold SubExpr.create
  split
  · obtain rfl := hl.const_width
    have h := SubExpr.createConst_computes ‹_› hr
    refine ⟨h.hasWidth, fun dl dr _ => ?_⟩
    rw [← dl.const_eq]
    exact h.denotes dr
  · obtain rfl := hr.const_width
    have h := SubExpr.createConstRight_computes ‹_› hl
    refine ⟨h.hasWidth, fun dl dr _ => ?_⟩
    rw [← dr.const_eq]
    exact h.denotes dl
  split_ifs with h1 heq
  · obtain rfl : 1 = w := h1.symm.trans hl.width
    exact (BinOp.alloc_computes .xor hl hr).of_eq rfl
      fun x y _ => (BitVec.sub_eq_xor_of_width_one x y).symm
  · subst heq
    rw [hl.width]
    refine ⟨hasWidth_const _, fun dl dr _ => ?_⟩
    have hxy := dl.value.symm.trans dr.value
    subst hxy
    rw [BinOp.apply, sub_self]
    exact denotes_const 0#w
  split
  · rename_i k a _
    obtain rfl := hl.bin_left.const_width
    have hin := SubExpr.create_computes hl.bin_right hr
    have hout := AddExpr.createConst_computes k hin.hasWidth
    refine ⟨hout.hasWidth, fun dl dr _ => ?_⟩
    obtain ⟨dk, da, rfl⟩ := dl.bin_inv
    have d := hout.denotes (hin.denotes da dr nofun)
    simpa only [BinOp.apply, ← dk.const_eq, add_sub_assoc] using d
  · rename_i k a _
    obtain rfl := hl.bin_left.const_width
    have hin := AddExpr.create_computes hl.bin_right hr
    have hout := SubExpr.createConst_computes k hin.hasWidth
    refine ⟨hout.hasWidth, fun dl dr _ => ?_⟩
    obtain ⟨dk, da, rfl⟩ := dl.bin_inv
    have d := hout.denotes (hin.denotes da dr nofun)
    simpa only [BinOp.apply, ← dk.const_eq, sub_sub] using d
  · rename_i k b _ _ _
    obtain rfl := hr.bin_left.const_width
    have hin := SubExpr.create_computes hl hr.bin_right
    have hout := SubExpr.createConstRight_computes k hin.hasWidth
    refine ⟨hout.hasWidth, fun dl dr _ => ?_⟩
    obtain ⟨dk, db, rfl⟩ := dr.bin_inv
    have d := hout.denotes (hin.denotes dl db nofun)
    simpa only [BinOp.apply, ← dk.const_eq, sub_sub, add_comm] using d
  · rename_i k b _ _ _
    obtain rfl := hr.bin_left.const_width
    have hin := AddExpr.create_computes hl hr.bin_right
    have hout := SubExpr.createConstRight_computes k hin.hasWidth
    refine ⟨hout.hasWidth, fun dl dr _ => ?_⟩
    obtain ⟨dk, db, rfl⟩ := dr.bin_inv
    have d := hout.denotes (hin.denotes dl db nofun)
    simpa only [BinOp.apply, ← dk.const_eq, sub_sub_eq_add_sub] using d
  · exact BinOp.alloc_computes .sub hl hr
  termination_by sizeOf l + sizeOf r

end

end AddSub

/-! ### Products, quotients and shifts -/

section MulDivShift

variable {w : ℕ} {l r : Expr}

theorem mulExprCreatePartialR_computes (c : BitVec w) (hr : r.HasWidth w) :
    r.Computes₁ (fun y : BitVec w => c * y) (mulExprCreatePartialR c r) := by
  unfold mulExprCreatePartialR
  split_ifs with h1 hc h0
  · subst h1
    simp only [BitVec.mul_eq_and_of_width_one]
    exact andExprCreatePartialR_computes hr
  · have hw : 1 % 2 ^ w = 1 := Nat.mod_eq_of_lt (hc ▸ c.isLt)
    obtain rfl : c = 1#w := BitVec.eq_of_toNat_eq (by rw [hc, BitVec.toNat_ofNat, hw])
    exact ⟨hr, fun d => by simpa using d⟩
  · exact ⟨hasWidth_const _, fun d => by simpa [h0] using denotes_const (0#w)⟩
  · exact ⟨(hasWidth_const c).bin hr, fun d => (denotes_const c).bin hr d nofun⟩

theorem mulExprCreatePartial_computes (c : BitVec w) (hl : l.HasWidth w) :
    l.Computes₁ (fun x : BitVec w => x * c) (mulExprCreatePartial l c) := by
  simp only [BitVec.mul_comm _ c]
  exact mulExprCreatePartialR_computes c hl

theorem MulExpr.create_computes (hl : l.HasWidth w) (hr : r.HasWidth w) :
    BinOp.mul.Computes w l r (MulExpr.create l r) := by
  refine bcreateR_computes (mulExprCreatePartial_computes _) (mulExprCreatePartialR_computes _)
    ?_ hl hr
  unfold mulExprCreate
  split_ifs with h1
  · obtain rfl : 1 = w := h1.symm.trans hl.width
    exact (BinOp.alloc_computes .and hl hr).of_eq rfl
      fun x y _ => (BitVec.mul_eq_and_of_width_one x y).symm
  · exact BinOp.alloc_computes .mul hl hr

/-- The four division classes: the node, except that on booleans the operation is `b`. -/
theorem division_computes {op : BinOp} {b : Expr} {spec : BitVec 1 → BitVec 1}
    (hop : op.isDivision = true) (hspec : ∀ x : BitVec 1, spec x = op.apply x 1#1)
    (hb : l.HasWidth 1 → l.Computes₁ spec b) (hl : l.HasWidth w) (hr : r.HasWidth w) :
    op.Computes w l r (if l.getWidth = 1 then b else .bin op l r) := by
  split_ifs with h1
  · obtain rfl : 1 = w := h1.symm.trans hl.width
    refine ⟨(hb hl).hasWidth, fun dl dr hy => ?_⟩
    rw [BitVec.eq_one_of_ne_zero (hy hop), ← hspec]
    exact (hb hl).denotes dl
  · exact BinOp.alloc_computes op hl hr

theorem UDivExpr.create_computes (hl : l.HasWidth w) (hr : r.HasWidth w) :
    BinOp.udiv.Computes w l r (UDivExpr.create l r) :=
  bcreate_computes (division_computes rfl (by decide) (fun h => ⟨h, id⟩) hl hr) hl hr

theorem SDivExpr.create_computes (hl : l.HasWidth w) (hr : r.HasWidth w) :
    BinOp.sdiv.Computes w l r (SDivExpr.create l r) :=
  bcreate_computes (division_computes rfl (by decide) (fun h => ⟨h, id⟩) hl hr) hl hr

theorem URemExpr.create_computes (hl : l.HasWidth w) (hr : r.HasWidth w) :
    BinOp.urem.Computes w l r (URemExpr.create l r) :=
  bcreate_computes (division_computes rfl (by decide)
    (fun _ => ⟨hasWidth_ofBool _, fun _ => denotes_ofBool _⟩) hl hr) hl hr

theorem SRemExpr.create_computes (hl : l.HasWidth w) (hr : r.HasWidth w) :
    BinOp.srem.Computes w l r (SRemExpr.create l r) :=
  bcreate_computes (division_computes rfl (by decide)
    (fun _ => ⟨hasWidth_ofBool _, fun _ => denotes_ofBool _⟩) hl hr) hl hr

theorem AShrExpr.create_computes (hl : l.HasWidth w) (hr : r.HasWidth w) :
    BinOp.ashr.Computes w l r (AShrExpr.create l r) := by
  refine bcreate_computes ?_ hl hr
  split_ifs with h1
  · obtain rfl : 1 = w := h1.symm.trans hl.width
    have hspec : ∀ x y : BitVec 1, x = BinOp.ashr.apply x y := by decide
    refine ⟨hl, fun dl _ _ => ?_⟩
    rw [← hspec]
    exact dl
  · exact BinOp.alloc_computes .ashr hl hr

variable [ExprOptions]

/-- The shifts that clear a boolean: `l & !r`. -/
theorem boolShift_computes {op : BinOp}
    (hspec : ∀ x y : BitVec 1, x &&& BitVec.ofBool (y == 0) = op.apply x y)
    (hl : l.HasWidth w) (hr : r.HasWidth w) :
    op.Computes w l r
      (if l.getWidth = 1 then AndExpr.create l (createIsZero r) else .bin op l r) := by
  split_ifs with h1
  · obtain rfl : 1 = w := h1.symm.trans hl.width
    have hz := createIsZero_computes hr
    have hand := AndExpr.create_computes hl hz.hasWidth
    refine ⟨hand.hasWidth, fun dl dr _ => ?_⟩
    rw [← hspec]
    exact hand.denotes dl (hz.denotes dr) nofun
  · exact BinOp.alloc_computes op hl hr

theorem ShlExpr.create_computes (hl : l.HasWidth w) (hr : r.HasWidth w) :
    BinOp.shl.Computes w l r (ShlExpr.create l r) :=
  bcreate_computes (boolShift_computes (by decide) hl hr) hl hr

theorem LShrExpr.create_computes (hl : l.HasWidth w) (hr : r.HasWidth w) :
    BinOp.lshr.Computes w l r (LShrExpr.create l r) :=
  bcreate_computes (boolShift_computes (by decide) hl hr) hl hr

end MulDivShift

/-! ### Order comparisons -/

section Order

variable {w : ℕ} {l r : Expr}

/-- The comparison classes: the node, except that on booleans the comparison is `b`. -/
theorem order_computes {op : CmpOp} {b : Expr}
    (hb : l.HasWidth 1 → r.HasWidth 1 → op.Computes 1 l r b) (hl : l.HasWidth w)
    (hr : r.HasWidth w) : op.Computes w l r (if l.getWidth = 1 then b else .cmp op l r) := by
  split_ifs with h1
  · obtain rfl : 1 = w := h1.symm.trans hl.width
    exact hb hl hr
  · exact CmpOp.alloc_computes op hl hr

/-- `Ugt`, `Uge`, `Sgt` and `Sge` swap their operands. -/
theorem CmpOp.Computes.swap {op op' : CmpOp} {e' : Expr} (h : op.Computes w r l e')
    (hop : ∀ x y : BitVec w, op.apply y x = op'.apply x y) : op'.Computes w l r e' := by
  refine ⟨h.hasWidth, fun dl dr => ?_⟩
  rw [← hop]
  exact h.denotes dr dl

variable [ExprOptions]

theorem UltExpr.create_computes (hl : l.HasWidth w) (hr : r.HasWidth w) :
    CmpOp.ult.Computes w l r (UltExpr.create l r) := by
  refine cmpcreate_computes (order_computes (fun hl hr => ?_) hl hr) hl hr
  have hz := createIsZero_computes hl
  have hand := AndExpr.create_computes hz.hasWidth hr
  have hspec : ∀ x y : BitVec 1, BitVec.ofBool (x == 0) &&& y = BitVec.ofBool (x.ult y) := by decide
  refine ⟨hand.hasWidth, fun dl dr => ?_⟩
  rw [CmpOp.apply, ← hspec]
  exact hand.denotes (hz.denotes dl) dr nofun

theorem UleExpr.create_computes (hl : l.HasWidth w) (hr : r.HasWidth w) :
    CmpOp.ule.Computes w l r (UleExpr.create l r) := by
  refine cmpcreate_computes (order_computes (fun hl hr => ?_) hl hr) hl hr
  have hz := createIsZero_computes hl
  have hor := OrExpr.create_computes hz.hasWidth hr
  have hspec : ∀ x y : BitVec 1, BitVec.ofBool (x == 0) ||| y = BitVec.ofBool (x.ule y) := by decide
  refine ⟨hor.hasWidth, fun dl dr => ?_⟩
  rw [CmpOp.apply, ← hspec]
  exact hor.denotes (hz.denotes dl) dr nofun

theorem SltExpr.create_computes (hl : l.HasWidth w) (hr : r.HasWidth w) :
    CmpOp.slt.Computes w l r (SltExpr.create l r) := by
  refine cmpcreate_computes (order_computes (fun hl hr => ?_) hl hr) hl hr
  have hz := createIsZero_computes hr
  have hand := AndExpr.create_computes hl hz.hasWidth
  have hspec : ∀ x y : BitVec 1, x &&& BitVec.ofBool (y == 0) = BitVec.ofBool (x.slt y) := by decide
  refine ⟨hand.hasWidth, fun dl dr => ?_⟩
  rw [CmpOp.apply, ← hspec]
  exact hand.denotes dl (hz.denotes dr) nofun

theorem SleExpr.create_computes (hl : l.HasWidth w) (hr : r.HasWidth w) :
    CmpOp.sle.Computes w l r (SleExpr.create l r) := by
  refine cmpcreate_computes (order_computes (fun hl hr => ?_) hl hr) hl hr
  have hz := createIsZero_computes hr
  have hor := OrExpr.create_computes hl hz.hasWidth
  have hspec : ∀ x y : BitVec 1, x ||| BitVec.ofBool (y == 0) = BitVec.ofBool (x.sle y) := by decide
  refine ⟨hor.hasWidth, fun dl dr => ?_⟩
  rw [CmpOp.apply, ← hspec]
  exact hor.denotes dl (hz.denotes dr) nofun

end Order

end SymBisect
