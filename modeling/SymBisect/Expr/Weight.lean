import SymBisect.Expr.RebuildSound

/-!
# A weight that construction never increases

Rewriting a set of constraints rebuilds expressions through the canonicalising constructors, and the
rewriting visitors recurse on what the constructors return.  `Expr.weight` is the measure that makes
this terminate:

* a constant weighs nothing and every other expression at least one, so replacing an expression by a
  constant makes it lighter;
* no `create` function returns something heavier than the node it stands for.

The weights of the operators pay for the nodes a rewriting rule may add: a disjunction weighs two
because its negation becomes a conjunction of two negations, a read weighs three hundred times its
index because its comparison with a constant may become a disjunction of a hundred comparisons of the
index, and an extract weighs nothing over its operand because it is distributed over a concat.
-/

namespace SymBisect

open Expr

/-- What an arithmetic node weighs above its operands. -/
def BinOp.weight : BinOp → ℕ
  | .or | .shl | .lshr => 2
  | _ => 1

/-- What a comparison weighs above its operands. -/
def CmpOp.weight : CmpOp → ℕ
  | .eq => 1
  | .ne | .ult | .ugt | .slt | .sgt => 2
  | .ule | .uge | .sle | .sge => 3

mutual

/-- The termination measure of the rewriting visitors. -/
def Expr.weight : Expr → ℕ
  | .const _ => 0
  | .notOptimized src => src.weight + 1
  | .read updates index => 300 * (index.weight + 1) + updates.weight
  | .select c t f => c.weight + t.weight + f.weight + 3
  | .concat l r => l.weight + r.weight + 1
  | .extract e _ _ => max 1 e.weight
  | .zext src _ => src.weight + 1
  | .sext src _ => src.weight + 1
  | .not e => e.weight + 1
  | .bin op l r => l.weight + r.weight + op.weight
  | .cmp op l r => l.weight + r.weight + op.weight

/-- The values an update list may hand to a read. -/
def UpdateList.weight : UpdateList → ℕ
  | .root _ => 0
  | .extend next _ value => next.weight + value.weight + 1

end

attribute [local simp] Expr.weight

theorem BinOp.weight_pos (op : BinOp) : 0 < op.weight := by cases op <;> decide

theorem CmpOp.weight_pos (op : CmpOp) : 0 < op.weight := by cases op <;> decide

theorem Expr.weight_pos {e : Expr} (h : e.isConstant = false) : 0 < e.weight := by
  cases e with
  | const v => cases h
  | bin op l r => have := op.weight_pos; simp only [weight]; omega
  | cmp op l r => have := op.weight_pos; simp only [weight]; omega
  | _ => simp only [weight]; omega

@[simp] theorem Expr.weight_const {w : ℕ} (v : BitVec w) : (Expr.const v).weight = 0 := by
  simp

@[simp] theorem Expr.weight_ofBool (b : Bool) : (ofBool b).weight = 0 := weight_const _

/-! ### The macros -/

section Macros

variable {l r : Expr}

theorem weight_bcreateR_le (op : BinOp) {createPartial : {w : ℕ} → Expr → BitVec w → Expr}
    {createPartialR : {w : ℕ} → BitVec w → Expr → Expr} {create : Expr → Expr → Expr}
    (hp : ∀ {w : ℕ} (l : Expr) (c : BitVec w), (createPartial l c).weight ≤ l.weight + op.weight)
    (hpR : ∀ {w : ℕ} (c : BitVec w) (r : Expr), (createPartialR c r).weight ≤ r.weight + op.weight)
    (hc : (create l r).weight ≤ l.weight + r.weight + op.weight) :
    (bcreateR op createPartial createPartialR create l r).weight ≤
      l.weight + r.weight + op.weight := by
  unfold bcreateR
  split
  · simp
  · simpa using hpR _ _
  · simpa using hp _ _
  · exact hc

theorem weight_bcreate_le {op : BinOp} {create : Expr → Expr → Expr}
    (hc : (create l r).weight ≤ l.weight + r.weight + op.weight) :
    (bcreate op create l r).weight ≤ l.weight + r.weight + op.weight := by
  unfold bcreate
  split
  · simp
  · exact hc

theorem weight_cmpcreate_le (op : CmpOp) {create : Expr → Expr → Expr}
    (hc : (create l r).weight ≤ l.weight + r.weight + op.weight) :
    (cmpcreate op create l r).weight ≤ l.weight + r.weight + op.weight := by
  unfold cmpcreate
  split
  · simp
  · exact hc

end Macros

/-! ### Conjunction, disjunction and equality -/

section AndOrEq

theorem weight_andExprCreatePartial_le {w : ℕ} (l : Expr) (c : BitVec w) :
    (andExprCreatePartial l c).weight ≤ l.weight + 1 := by
  unfold andExprCreatePartial
  split_ifs <;> simp [weight, BinOp.weight]

theorem AndExpr.weight_create_le (l r : Expr) :
    (AndExpr.create l r).weight ≤ l.weight + r.weight + 1 :=
  weight_bcreateR_le .and weight_andExprCreatePartial_le
    (fun c r => weight_andExprCreatePartial_le r c) (by simp [weight, BinOp.weight])

theorem weight_orExprCreatePartial_le {w : ℕ} (l : Expr) (c : BitVec w) :
    (orExprCreatePartial l c).weight ≤ l.weight + 2 := by
  unfold orExprCreatePartial
  split_ifs <;> simp [weight, BinOp.weight]

theorem OrExpr.weight_create_le (l r : Expr) :
    (OrExpr.create l r).weight ≤ l.weight + r.weight + 2 :=
  weight_bcreateR_le .or weight_orExprCreatePartial_le
    (fun c r => weight_orExprCreatePartial_le r c) (by simp [weight, BinOp.weight])

theorem weight_eqExprCreate_le (l r : Expr) :
    (eqExprCreate l r).weight ≤ l.weight + r.weight + 1 := by
  unfold eqExprCreate
  split_ifs <;> simp [weight, CmpOp.weight]

/-- A disjunction of `is.length` expressions of weight at most `n`. -/
theorem weight_foldl_or_le {f : ℕ → Expr} {n : ℕ} (hf : ∀ i, (f i).weight ≤ n) :
    ∀ (is : List ℕ) (res : Expr),
      (is.foldl (fun res i => OrExpr.create res (f i)) res).weight ≤
        res.weight + is.length * (n + 2) := by
  intro is
  induction is with
  | nil => intro res; simp
  | cons i is ih =>
    intro res
    have hstep := OrExpr.weight_create_le res (f i)
    have hi := hf i
    calc ((i :: is).foldl (fun res i => OrExpr.create res (f i)) res).weight
        ≤ (OrExpr.create res (f i)).weight + is.length * (n + 2) := ih _
      _ ≤ res.weight + (i :: is).length * (n + 2) := by
          rw [List.length_cons, Nat.succ_mul]
          omega

variable [ExprOptions]

mutual

theorem weight_eqExprCreatePartialR_le {w : ℕ} (c : BitVec w) (r : Expr) :
    (eqExprCreatePartialR c r).weight ≤ r.weight + 1 := by
  have hnode : ∀ r, (eqExprCreate (.const c) r).weight ≤ r.weight + 1 := fun r => by
    simpa using weight_eqExprCreate_le (.const c) r
  unfold eqExprCreatePartialR
  split
  · split
    · omega
    split
    · split_ifs
      · simp only [weight, CmpOp.weight]; omega
      · exact hnode _
    · rename_i left right
      have hl := EqExpr.weight_createConst_le (BitVec.ofNat left.getWidth 0) left
      have hr := EqExpr.weight_createConst_le (BitVec.ofNat right.getWidth 0) right
      have hand := AndExpr.weight_create_le (EqExpr.createConst (BitVec.ofNat left.getWidth 0) left)
        (EqExpr.createConst (BitVec.ofNat right.getWidth 0) right)
      simp only [weight, BinOp.weight]
      omega
    · exact hnode _
  · split
    · rename_i src n
      have := EqExpr.weight_createConst_le (c.setWidth src.getWidth) src
      split_ifs <;> simp only [weight, weight_ofBool] <;> omega
    · rename_i src n
      have := EqExpr.weight_createConst_le (c.setWidth src.getWidth) src
      split_ifs <;> simp only [weight, weight_ofBool] <;> omega
    · rename_i k b
      have := weight_eqExprCreatePartialR_le (c - k.setWidth w) b
      simp only [weight, BinOp.weight]
      omega
    · rename_i k b
      have := weight_eqExprCreatePartialR_le (k.setWidth w - c) b
      simp only [weight, BinOp.weight]
      omega
    · rename_i updates index
      split_ifs with hopt hroot hmany
      · exact hnode _
      · exact hnode _
      · -- at most a hundred comparisons of the index
        have hfold := weight_foldl_or_le
          (fun i => EqExpr.weight_createConst_le (BitVec.ofNat index.getWidth i) index)
          (updates.getRoot.constantIndices (.const c)) (ofBool false)
        have hlen : (updates.getRoot.constantIndices (.const c)).length * (index.weight + 1 + 2) ≤
            100 * (index.weight + 1 + 2) := Nat.mul_le_mul_right _ (by omega)
        simp only [weight, weight_ofBool] at hfold ⊢
        omega
      · exact hnode _
    · exact hnode _
  termination_by (sizeOf r, 0)

theorem EqExpr.weight_createConst_le {w : ℕ} (c : BitVec w) (e : Expr) :
    (EqExpr.createConst c e).weight ≤ e.weight + 1 := by
  unfold EqExpr.createConst
  split
  · simp
  · exact weight_eqExprCreatePartialR_le c _
  termination_by (sizeOf e, 1)

end

theorem EqExpr.weight_create_le (l r : Expr) :
    (EqExpr.create l r).weight ≤ l.weight + r.weight + 1 := by
  unfold EqExpr.create
  split
  · simpa using EqExpr.weight_createConst_le _ _
  · simpa using EqExpr.weight_createConst_le _ _
  · exact weight_eqExprCreate_le _ _

theorem Expr.weight_createIsZero_le (e : Expr) : (createIsZero e).weight ≤ e.weight + 1 := by
  simpa [createIsZero] using EqExpr.weight_create_le e (.const (0#e.getWidth))

end AndOrEq

/-! ### Arithmetic -/

section Arithmetic

theorem weight_mulExprCreatePartialR_le {w : ℕ} (c : BitVec w) (r : Expr) :
    (mulExprCreatePartialR c r).weight ≤ r.weight + 1 := by
  unfold mulExprCreatePartialR
  split_ifs
  · exact weight_andExprCreatePartial_le r c
  · omega
  · simp
  · simp [weight, BinOp.weight]

theorem MulExpr.weight_create_le (l r : Expr) :
    (MulExpr.create l r).weight ≤ l.weight + r.weight + 1 := by
  refine weight_bcreateR_le .mul (fun l c => weight_mulExprCreatePartialR_le c l)
    weight_mulExprCreatePartialR_le ?_
  unfold mulExprCreate
  split_ifs <;> simp [weight, BinOp.weight]

variable [ExprOptions]

theorem weight_xorExprCreatePartialR_le {w : ℕ} (c : BitVec w) (r : Expr) :
    (xorExprCreatePartialR c r).weight ≤ r.weight + 1 := by
  unfold xorExprCreatePartialR
  split_ifs
  · omega
  · exact weight_eqExprCreatePartialR_le 0#1 r
  · simp [weight, BinOp.weight]

theorem XorExpr.weight_create_le (l r : Expr) :
    (XorExpr.create l r).weight ≤ l.weight + r.weight + 1 :=
  weight_bcreateR_le .xor (fun l c => weight_xorExprCreatePartialR_le c l)
    weight_xorExprCreatePartialR_le (by simp [xorExprCreate, weight, BinOp.weight])

mutual

theorem weight_addExprCreatePartialR_le {w : ℕ} (c : BitVec w) (r : Expr) :
    (addExprCreatePartialR c r).weight ≤ r.weight + 1 := by
  unfold addExprCreatePartialR
  split_ifs
  · exact weight_xorExprCreatePartialR_le c r
  · omega
  split
  · rename_i k b
    have := AddExpr.weight_createConst_le (c + k.setWidth w) b
    simp only [weight, BinOp.weight]
    omega
  · rename_i k b
    have := SubExpr.weight_createConst_le (c + k.setWidth w) b
    simp only [weight, BinOp.weight]
    omega
  · simp [weight, BinOp.weight]
  termination_by (sizeOf r, 0)

theorem AddExpr.weight_createConst_le {w : ℕ} (c : BitVec w) (r : Expr) :
    (AddExpr.createConst c r).weight ≤ r.weight + 1 := by
  unfold AddExpr.createConst
  split
  · simp
  · exact weight_addExprCreatePartialR_le c _
  termination_by (sizeOf r, 1)

theorem weight_subExprCreatePartialR_le {w : ℕ} (c : BitVec w) (r : Expr) :
    (subExprCreatePartialR c r).weight ≤ r.weight + 1 := by
  unfold subExprCreatePartialR
  split_ifs
  · exact weight_xorExprCreatePartialR_le c r
  split
  · rename_i k b
    have := SubExpr.weight_createConst_le (c - k.setWidth w) b
    simp only [weight, BinOp.weight]
    omega
  · rename_i k b
    have := AddExpr.weight_createConst_le (c - k.setWidth w) b
    simp only [weight, BinOp.weight]
    omega
  · simp [weight, BinOp.weight]
  termination_by (sizeOf r, 0)

theorem SubExpr.weight_createConst_le {w : ℕ} (c : BitVec w) (r : Expr) :
    (SubExpr.createConst c r).weight ≤ r.weight + 1 := by
  unfold SubExpr.createConst
  split
  · simp
  · exact weight_subExprCreatePartialR_le c _
  termination_by (sizeOf r, 1)

end

theorem SubExpr.weight_createConstRight_le {w : ℕ} (l : Expr) (c : BitVec w) :
    (SubExpr.createConstRight l c).weight ≤ l.weight + 1 := by
  unfold SubExpr.createConstRight
  split
  · simp
  · exact weight_addExprCreatePartialR_le _ _

mutual

theorem AddExpr.weight_create_le (l r : Expr) :
    (AddExpr.create l r).weight ≤ l.weight + r.weight + 1 := by
  unfold AddExpr.create
  split
  · simpa using AddExpr.weight_createConst_le _ _
  · simpa [addExprCreatePartial] using weight_addExprCreatePartialR_le _ _
  split_ifs
  · simp [xorExprCreate, weight, BinOp.weight]
  split
  · rename_i k a _ _
    have hin := AddExpr.weight_create_le a r
    have hout := AddExpr.weight_createConst_le k (AddExpr.create a r)
    simp only [weight, BinOp.weight]
    omega
  · rename_i k a _ _
    have hin := SubExpr.weight_create_le r a
    have hout := AddExpr.weight_createConst_le k (SubExpr.create r a)
    simp only [weight, BinOp.weight]
    omega
  · rename_i k b _ _ _
    have hin := AddExpr.weight_create_le l b
    have hout := AddExpr.weight_createConst_le k (AddExpr.create l b)
    simp only [weight, BinOp.weight]
    omega
  · rename_i k b _ _ _
    have hin := SubExpr.weight_create_le l b
    have hout := AddExpr.weight_createConst_le k (SubExpr.create l b)
    simp only [weight, BinOp.weight]
    omega
  · simp [weight, BinOp.weight]
  termination_by sizeOf l + sizeOf r

theorem SubExpr.weight_create_le (l r : Expr) :
    (SubExpr.create l r).weight ≤ l.weight + r.weight + 1 := by
  unfold SubExpr.create
  split
  · simpa using SubExpr.weight_createConst_le _ _
  · simpa using SubExpr.weight_createConstRight_le _ _
  split_ifs
  · simp [xorExprCreate, weight, BinOp.weight]
  · simp
  split
  · rename_i k a _ _ _
    have hin := SubExpr.weight_create_le a r
    have hout := AddExpr.weight_createConst_le k (SubExpr.create a r)
    simp only [weight, BinOp.weight]
    omega
  · rename_i k a _ _ _
    have hin := AddExpr.weight_create_le a r
    have hout := SubExpr.weight_createConst_le k (AddExpr.create a r)
    simp only [weight, BinOp.weight]
    omega
  · rename_i k b _ _ _ _
    have hin := SubExpr.weight_create_le l b
    have hout := SubExpr.weight_createConstRight_le (SubExpr.create l b) k
    simp only [weight, BinOp.weight]
    omega
  · rename_i k b _ _ _ _
    have hin := AddExpr.weight_create_le l b
    have hout := SubExpr.weight_createConstRight_le (AddExpr.create l b) k
    simp only [weight, BinOp.weight]
    omega
  · simp [weight, BinOp.weight]
  termination_by sizeOf l + sizeOf r

end

theorem BinOp.weight_create_le (op : BinOp) (l r : Expr) :
    (op.create l r).weight ≤ l.weight + r.weight + op.weight := by
  cases op with
  | add => exact AddExpr.weight_create_le l r
  | sub => exact SubExpr.weight_create_le l r
  | mul => exact MulExpr.weight_create_le l r
  | and => exact AndExpr.weight_create_le l r
  | or => exact OrExpr.weight_create_le l r
  | xor => exact XorExpr.weight_create_le l r
  | shl | lshr =>
    refine weight_bcreate_le ?_
    split_ifs
    · have hz := Expr.weight_createIsZero_le r
      have hand := AndExpr.weight_create_le l (createIsZero r)
      simp only [BinOp.weight]
      omega
    · simp [Expr.weight]
  | udiv | sdiv | urem | srem | ashr =>
    refine weight_bcreate_le ?_
    split_ifs
    · simp only [BinOp.weight, weight_ofBool]
      omega
    · simp [Expr.weight]

theorem CmpOp.weight_create_le (op : CmpOp) (l r : Expr) :
    (op.create l r).weight ≤ l.weight + r.weight + op.weight := by
  -- the four orders; the other four are these with their operands swapped
  have hult : ∀ l r : Expr, (UltExpr.create l r).weight ≤ l.weight + r.weight + 2 := by
    intro l r
    have hz := Expr.weight_createIsZero_le l
    have hand := AndExpr.weight_create_le (createIsZero l) r
    refine weight_cmpcreate_le .ult ?_
    split_ifs <;> simp only [Expr.weight, CmpOp.weight] <;> omega
  have hule : ∀ l r : Expr, (UleExpr.create l r).weight ≤ l.weight + r.weight + 3 := by
    intro l r
    have hz := Expr.weight_createIsZero_le l
    have hor := OrExpr.weight_create_le (createIsZero l) r
    refine weight_cmpcreate_le .ule ?_
    split_ifs <;> simp only [Expr.weight, CmpOp.weight] <;> omega
  have hslt : ∀ l r : Expr, (SltExpr.create l r).weight ≤ l.weight + r.weight + 2 := by
    intro l r
    have hz := Expr.weight_createIsZero_le r
    have hand := AndExpr.weight_create_le l (createIsZero r)
    refine weight_cmpcreate_le .slt ?_
    split_ifs <;> simp only [Expr.weight, CmpOp.weight] <;> omega
  have hsle : ∀ l r : Expr, (SleExpr.create l r).weight ≤ l.weight + r.weight + 3 := by
    intro l r
    have hz := Expr.weight_createIsZero_le r
    have hor := OrExpr.weight_create_le l (createIsZero r)
    refine weight_cmpcreate_le .sle ?_
    split_ifs <;> simp only [Expr.weight, CmpOp.weight] <;> omega
  cases op with
  | eq => exact EqExpr.weight_create_le l r
  | ne =>
    have hin := EqExpr.weight_create_le l r
    have hout := EqExpr.weight_create_le (ofBool false) (EqExpr.create l r)
    rw [weight_ofBool] at hout
    simp only [CmpOp.create, NeExpr.create, CmpOp.weight]
    omega
  | ult => exact hult l r
  | ule => exact hule l r
  | slt => exact hslt l r
  | sle => exact hsle l r
  | ugt => exact (hult r l).trans (by simp only [CmpOp.weight]; omega)
  | uge => exact (hule r l).trans (by simp only [CmpOp.weight]; omega)
  | sgt => exact (hslt r l).trans (by simp only [CmpOp.weight]; omega)
  | sge => exact (hsle r l).trans (by simp only [CmpOp.weight]; omega)

end Arithmetic

/-! ### Extract, concat, select and read -/

section Structure

/-- `ConcatExpr::create`, given the weight of a merged extract. -/
theorem ConcatExpr.weight_create_le_of {l r : Expr}
    (hmerge : ∀ z o k, l = .extract z o k → ∀ off w, (ExtractExpr.create z off w).weight ≤ z.weight) :
    (ConcatExpr.create l r).weight ≤ l.weight + r.weight + 1 := by
  unfold ConcatExpr.create
  split
  · simp
  · rename_i z o m z' o' n
    split_ifs
    · have := hmerge z o m rfl o' (m + n)
      simp only [weight]
      omega
    · simp [weight]
  · simp [weight]

theorem ExtractExpr.weight_create_le (e : Expr) (off w : ℕ) :
    (ExtractExpr.create e off w).weight ≤ e.weight := by
  rw [ExtractExpr.create_eq]
  split
  · exact le_rfl
  split
  · simp
  · rename_i l r _
    split_ifs
    · have := ExtractExpr.weight_create_le l (off - r.getWidth) w
      simp only [weight]
      omega
    · have := ExtractExpr.weight_create_le r off w
      simp only [weight]
      omega
    · have hl := ExtractExpr.weight_create_le l 0 (off + w - r.getWidth)
      have hr := ExtractExpr.weight_create_le r off (r.getWidth - off)
      have hcat := ConcatExpr.weight_create_le_of
        (l := ExtractExpr.create l 0 (off + w - r.getWidth))
        (r := ExtractExpr.create r off (r.getWidth - off)) fun z o k hz off w =>
          have : sizeOf z ≤ sizeOf l := ExtractExpr.create_operand_le hz
          ExtractExpr.weight_create_le z off w
      simp only [weight]
      omega
  · rename_i hconst _
    have hpos : 0 < e.weight := by
      refine Expr.weight_pos ?_
      cases e with
      | const v => exact (hconst _ v rfl).elim
      | _ => rfl
    simp only [weight]
    omega
  termination_by sizeOf e
  decreasing_by
    all_goals
      subst_vars
      simp only [Expr.concat.sizeOf_spec]
      omega

theorem ConcatExpr.weight_create_le (l r : Expr) :
    (ConcatExpr.create l r).weight ≤ l.weight + r.weight + 1 :=
  ConcatExpr.weight_create_le_of fun z _ _ _ => ExtractExpr.weight_create_le z

theorem NotExpr.weight_create_le (e : Expr) : (NotExpr.create e).weight ≤ e.weight + 1 := by
  unfold NotExpr.create
  split <;> simp [weight]

theorem ZExtExpr.weight_create_le (e : Expr) (w : ℕ) :
    (ZExtExpr.create e w).weight ≤ e.weight + 1 := by
  have := ExtractExpr.weight_create_le e 0 w
  unfold ZExtExpr.create
  split_ifs
  · omega
  · omega
  · split <;> simp [weight]

theorem SExtExpr.weight_create_le (e : Expr) (w : ℕ) :
    (SExtExpr.create e w).weight ≤ e.weight + 1 := by
  have := ExtractExpr.weight_create_le e 0 w
  unfold SExtExpr.create
  split_ifs
  · omega
  · omega
  · split <;> simp [weight]

variable [ExprOptions]

theorem weight_selectExprCreateBool_le (c t f : Expr) :
    (selectExprCreateBool c t f).weight ≤ c.weight + t.weight + f.weight + 3 := by
  have hz := Expr.weight_createIsZero_le c
  unfold selectExprCreateBool
  split
  · have hor := OrExpr.weight_create_le c f
    have hand := AndExpr.weight_create_le (createIsZero c) f
    split_ifs <;> simp only [weight_const] <;> omega
  · have hor := OrExpr.weight_create_le (createIsZero c) t
    have hand := AndExpr.weight_create_le c t
    split_ifs <;> simp only [weight_const] <;> omega
  · simp [weight]

theorem SelectExpr.weight_create_le (c t f : Expr) :
    (SelectExpr.create c t f).weight ≤ c.weight + t.weight + f.weight + 3 := by
  unfold SelectExpr.create
  split
  · split_ifs <;> omega
  split_ifs
  · omega
  · exact weight_selectExprCreateBool_le _ _ _
  · simp [weight]

/-- What a walk over the updates returns, weighed. -/
def ReadWalk.weight : ReadWalk → ℕ
  | .found v => v.weight
  | .stopped un _ => un.weight

theorem ReadExpr.weight_walk_le (index : Expr) (ul : UpdateList) :
    (ReadExpr.walk index ul).weight ≤ ul.weight := by
  fun_induction ReadExpr.walk index ul with
  | case1 arr => exact le_rfl
  | case2 next i v k c heq h => simp only [ReadWalk.weight, UpdateList.weight]; omega
  | case3 next i v k c heq h ih => simp only [UpdateList.weight]; omega
  | case4 next i v heq => exact le_rfl

theorem ReadExpr.weight_create_le (ul : UpdateList) (index : Expr) :
    (ReadExpr.create ul index).weight ≤ 300 * (index.weight + 1) + ul.weight := by
  have hwalk := ReadExpr.weight_walk_le index ul
  unfold ReadExpr.create
  split
  · rename_i v h
    rw [h, ReadWalk.weight] at hwalk
    omega
  rename_i un symbolic h
  rw [h, ReadWalk.weight] at hwalk
  split
  · split_ifs
    · split
      · simp
      · simp only [weight]; omega
    · simp [weight]
  · simp [weight]

end Structure

/-- Rebuilding never makes an expression heavier. -/
theorem Expr.weight_rebuild_le [ExprOptions] (e : Expr) : e.rebuild.weight ≤ e.weight := by
  cases e with
  | const v => exact le_rfl
  | notOptimized src => exact le_rfl
  | read ul index => simpa only [weight, rebuild] using ReadExpr.weight_create_le ul index
  | select c t f => simpa only [weight, rebuild] using SelectExpr.weight_create_le c t f
  | concat l r => simpa only [weight, rebuild] using ConcatExpr.weight_create_le l r
  | extract e off w =>
    have := ExtractExpr.weight_create_le e off w
    simp only [weight, rebuild]
    omega
  | zext e w => simpa only [weight, rebuild] using ZExtExpr.weight_create_le e w
  | sext e w => simpa only [weight, rebuild] using SExtExpr.weight_create_le e w
  | not e => simpa only [weight, rebuild] using NotExpr.weight_create_le e
  | bin op l r => simpa only [weight, rebuild] using op.weight_create_le l r
  | cmp op l r => simpa only [weight, rebuild] using op.weight_create_le l r

end SymBisect
