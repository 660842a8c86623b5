import SymBisect.Expr.Syntax

/-!
# The value of an expression

`Expr.eval a e w` is the value of `e` under the assignment `a`, read at width `w`.  On a well-formed
expression `w` is always `e.getWidth`; taking the width as an argument keeps the operands of an
arithmetic node in one `BitVec w`, so the rewriting proofs are equations of bit-vector algebra.

`Expr.Defined a e` says that the evaluation of `e` meets no zero divisor and no read past the end
of a constant array.  `APInt`'s division is undefined on a zero divisor, and a constant array has
no value past its end, so nothing is claimed about `e` outside `Defined`.
-/

namespace SymBisect

/-- A byte for every array and every index. -/
abbrev Assignment := Array → ℕ → BitVec 8

/-- The unsimplified arithmetic operators; shift amounts of at least the width shift everything
out, as `APInt::shl`, `lshr` and `ashr` do. -/
def BinOp.apply {w : ℕ} : BinOp → BitVec w → BitVec w → BitVec w
  | .add, x, y => x + y
  | .sub, x, y => x - y
  | .mul, x, y => x * y
  | .udiv, x, y => x / y
  | .sdiv, x, y => x.sdiv y
  | .urem, x, y => x % y
  | .srem, x, y => x.srem y
  | .and, x, y => x &&& y
  | .or, x, y => x ||| y
  | .xor, x, y => x ^^^ y
  | .shl, x, y => x <<< y
  | .lshr, x, y => x >>> y
  | .ashr, x, y => x.sshiftRight' y

/-- The operators whose right operand must not be zero. -/
def BinOp.isDivision : BinOp → Bool
  | .udiv | .sdiv | .urem | .srem => true
  | _ => false

/-- The unsimplified comparisons. -/
def CmpOp.apply {w : ℕ} : CmpOp → BitVec w → BitVec w → Bool
  | .eq, x, y => x == y
  | .ne, x, y => x != y
  | .ult, x, y => x.ult y
  | .ule, x, y => x.ule y
  | .ugt, x, y => y.ult x
  | .uge, x, y => y.ule x
  | .slt, x, y => x.slt y
  | .sle, x, y => x.sle y
  | .sgt, x, y => y.slt x
  | .sge, x, y => y.sle x

/-- The initial content of an array: its constant, or the byte the assignment gives it. -/
def Array.initialValue (a : Assignment) (arr : Array) (i : ℕ) : BitVec 8 :=
  match arr.constantValues[i]? with
  | some v => v
  | none => a arr i

mutual

/-- The value of an expression under an assignment, read at width `w`. -/
def Expr.eval (a : Assignment) : Expr → (w : ℕ) → BitVec w
  | .const v, w => v.setWidth w
  | .notOptimized src, w => src.eval a w
  | .read updates index, w => (updates.evalAt a (index.eval a 32).toNat).setWidth w
  | .select c t f, w => if c.eval a 1 = 1#1 then t.eval a w else f.eval a w
  | .concat l r, w => (l.eval a l.getWidth ++ r.eval a r.getWidth).setWidth w
  | .extract e off _, w => (e.eval a e.getWidth).extractLsb' off w
  | .zext src _, w => (src.eval a src.getWidth).setWidth w
  | .sext src _, w => (src.eval a src.getWidth).signExtend w
  | .not e, w => ~~~ e.eval a w
  | .bin op l r, w => op.apply (l.eval a w) (r.eval a w)
  | .cmp op l r, w =>
    (BitVec.ofBool (op.apply (l.eval a l.getWidth) (r.eval a l.getWidth))).setWidth w

/-- The byte an update list holds at index `i`: the most recent write to `i`, else the root. -/
def UpdateList.evalAt (a : Assignment) : UpdateList → ℕ → BitVec 8
  | .root arr, i => arr.initialValue a i
  | .extend next index value, i =>
    if (index.eval a 32).toNat = i then value.eval a 8 else next.evalAt a i

end

mutual

/-- Every subexpression evaluates: no divisor is zero and no constant array is read past its
end. -/
def Expr.Defined (a : Assignment) : Expr → Prop
  | .const _ => True
  | .notOptimized src => src.Defined a
  | .read updates index => index.Defined a ∧ updates.DefinedAt a (index.eval a 32).toNat
  | .select c t f => c.Defined a ∧ t.Defined a ∧ f.Defined a
  | .concat l r => l.Defined a ∧ r.Defined a
  | .extract e _ _ => e.Defined a
  | .zext src _ => src.Defined a
  | .sext src _ => src.Defined a
  | .not e => e.Defined a
  | .bin op l r =>
    l.Defined a ∧ r.Defined a ∧ (op.isDivision = true → r.eval a r.getWidth ≠ 0)
  | .cmp _ l r => l.Defined a ∧ r.Defined a

/-- Reading index `i` evaluates: the walk compares update indices until one matches. -/
def UpdateList.DefinedAt (a : Assignment) : UpdateList → ℕ → Prop
  | .root arr, i => arr.isConstantArray = true → i < arr.size
  | .extend next index value, i =>
    index.Defined a ∧
      if (index.eval a 32).toNat = i then value.Defined a else next.DefinedAt a i

end

/-- `e` evaluates under `a`, and at width `w` its value is `v`. -/
structure Expr.Denotes (a : Assignment) (e : Expr) {w : ℕ} (v : BitVec w) : Prop where
  defined : e.Defined a
  value : e.eval a w = v

/-- The assignment satisfies a boolean expression: it evaluates to true. -/
def Expr.Holds (a : Assignment) (e : Expr) : Prop := e.Denotes a 1#1

namespace Expr

theorem Denotes.self {a : Assignment} {e : Expr} (h : e.Defined a) (w : ℕ) :
    e.Denotes a (e.eval a w) := ⟨h, rfl⟩

/-! ### Typing and value of each node from its operands -/

section Nodes

variable {a : Assignment} {w : ℕ}

attribute [local simp] eval

theorem hasWidth_const (v : BitVec w) : (Expr.const v).HasWidth w := ⟨trivial, rfl⟩

theorem denotes_const (v : BitVec w) : (Expr.const v).Denotes a v :=
  ⟨trivial, by simp⟩

theorem hasWidth_ofBool (b : Bool) : (Expr.ofBool b).HasWidth 1 := hasWidth_const _

theorem denotes_ofBool (b : Bool) : (Expr.ofBool b).Denotes a (BitVec.ofBool b) := denotes_const _

/-- A constant of width `w` is `const` of a `BitVec w`, so its index can be substituted away. -/
theorem HasWidth.const_width {w' : ℕ} {v : BitVec w'} (h : (Expr.const v).HasWidth w) : w' = w :=
  h.width

theorem Denotes.const_eq {v x : BitVec w} (h : (Expr.const v).Denotes a x) : v = x := by
  simpa using h.value

theorem HasWidth.bin {op : BinOp} {l r : Expr} (hl : l.HasWidth w) (hr : r.HasWidth w) :
    (Expr.bin op l r).HasWidth w :=
  ⟨⟨hl.wf, hr.wf, hl.width.trans hr.width.symm⟩, hl.width⟩

theorem HasWidth.bin_left {op : BinOp} {l r : Expr} (h : (Expr.bin op l r).HasWidth w) :
    l.HasWidth w := ⟨h.wf.1, h.width⟩

theorem HasWidth.bin_right {op : BinOp} {l r : Expr} (h : (Expr.bin op l r).HasWidth w) :
    r.HasWidth w := ⟨h.wf.2.1, h.wf.2.2.symm.trans h.width⟩

theorem Denotes.bin {op : BinOp} {l r : Expr} {x y : BitVec w} (hr : r.HasWidth w)
    (dl : l.Denotes a x) (dr : r.Denotes a y) (hop : op.isDivision = true → y ≠ 0) :
    (Expr.bin op l r).Denotes a (op.apply x y) := by
  refine ⟨⟨dl.defined, dr.defined, ?_⟩, ?_⟩
  · intro h
    rw [hr.width, dr.value]
    exact hop h
  · rw [eval, dl.value, dr.value]

theorem HasWidth.cmp {op : CmpOp} {l r : Expr} (hl : l.HasWidth w) (hr : r.HasWidth w) :
    (Expr.cmp op l r).HasWidth 1 :=
  ⟨⟨hl.wf, hr.wf, hl.width.trans hr.width.symm⟩, rfl⟩

theorem Denotes.cmp {op : CmpOp} {l r : Expr} {x y : BitVec w} (hl : l.HasWidth w)
    (dl : l.Denotes a x) (dr : r.Denotes a y) :
    (Expr.cmp op l r).Denotes a (BitVec.ofBool (op.apply x y)) := by
  refine ⟨⟨dl.defined, dr.defined⟩, ?_⟩
  obtain ⟨-, rfl⟩ := hl
  rw [eval, dl.value, dr.value, BitVec.setWidth_eq]

theorem HasWidth.extract {e : Expr} {k off : ℕ} (he : e.HasWidth k) (hw : off + w ≤ k) :
    (Expr.extract e off w).HasWidth w :=
  ⟨⟨he.wf, by rw [he.width]; exact hw⟩, rfl⟩

theorem Denotes.extract {e : Expr} {k : ℕ} {v : BitVec k} (off n : ℕ) (he : e.HasWidth k)
    (d : e.Denotes a v) : (Expr.extract e off n).Denotes a (v.extractLsb' off w) := by
  refine ⟨d.defined, ?_⟩
  obtain ⟨-, rfl⟩ := he
  rw [eval, d.value]

theorem HasWidth.concat {l r : Expr} {m n : ℕ} (hl : l.HasWidth m) (hr : r.HasWidth n) :
    (Expr.concat l r).HasWidth (m + n) :=
  ⟨⟨hl.wf, hr.wf⟩, by rw [getWidth, hl.width, hr.width]⟩

theorem Denotes.concat {l r : Expr} {m n : ℕ} {x : BitVec m} {y : BitVec n} (hl : l.HasWidth m)
    (hr : r.HasWidth n) (dl : l.Denotes a x) (dr : r.Denotes a y) :
    (Expr.concat l r).Denotes a (x ++ y) := by
  refine ⟨⟨dl.defined, dr.defined⟩, ?_⟩
  obtain ⟨-, rfl⟩ := hl
  obtain ⟨-, rfl⟩ := hr
  rw [eval, dl.value, dr.value, BitVec.setWidth_eq]

theorem HasWidth.zext {e : Expr} {k : ℕ} (he : e.HasWidth k) (hk : k ≤ w) :
    (Expr.zext e w).HasWidth w := ⟨⟨he.wf, by rw [he.width]; exact hk⟩, rfl⟩

theorem Denotes.zext {e : Expr} {k : ℕ} {v : BitVec k} (n : ℕ) (he : e.HasWidth k)
    (d : e.Denotes a v) : (Expr.zext e n).Denotes a (v.setWidth w) := by
  refine ⟨d.defined, ?_⟩
  obtain ⟨-, rfl⟩ := he
  rw [eval, d.value]

theorem HasWidth.sext {e : Expr} {k : ℕ} (he : e.HasWidth k) (hk : k ≤ w) :
    (Expr.sext e w).HasWidth w := ⟨⟨he.wf, by rw [he.width]; exact hk⟩, rfl⟩

theorem Denotes.sext {e : Expr} {k : ℕ} {v : BitVec k} (n : ℕ) (he : e.HasWidth k)
    (d : e.Denotes a v) : (Expr.sext e n).Denotes a (v.signExtend w) := by
  refine ⟨d.defined, ?_⟩
  obtain ⟨-, rfl⟩ := he
  rw [eval, d.value]

theorem HasWidth.not {e : Expr} (he : e.HasWidth w) : (Expr.not e).HasWidth w :=
  ⟨he.wf, he.width⟩

theorem Denotes.not {e : Expr} {v : BitVec w} (d : e.Denotes a v) :
    (Expr.not e).Denotes a (~~~ v) := ⟨d.defined, by rw [eval, d.value]⟩

theorem HasWidth.select {c t f : Expr} (hc : c.HasWidth 1) (ht : t.HasWidth w)
    (hf : f.HasWidth w) : (Expr.select c t f).HasWidth w :=
  ⟨⟨hc.wf, ht.wf, hf.wf, hc.width, ht.width.trans hf.width.symm⟩, ht.width⟩

theorem Denotes.select {c t f : Expr} {b : BitVec 1} {x y : BitVec w} (dc : c.Denotes a b)
    (dt : t.Denotes a x) (df : f.Denotes a y) :
    (Expr.select c t f).Denotes a (if b = 1#1 then x else y) :=
  ⟨⟨dc.defined, dt.defined, df.defined⟩, by rw [eval, dc.value, dt.value, df.value]⟩

/-- Reading an operand back out of a node that evaluates. -/
theorem Denotes.bin_inv {op : BinOp} {l r : Expr} {v : BitVec w}
    (d : (Expr.bin op l r).Denotes a v) :
    l.Denotes a (l.eval a w) ∧ r.Denotes a (r.eval a w) ∧ op.apply (l.eval a w) (r.eval a w) = v :=
  ⟨.self d.defined.1 w, .self d.defined.2.1 w, d.value⟩

theorem Denotes.cmp_inv {op : CmpOp} {l r : Expr} {v : BitVec 1} (hl : l.HasWidth w)
    (d : (Expr.cmp op l r).Denotes a v) :
    l.Denotes a (l.eval a w) ∧ r.Denotes a (r.eval a w) ∧
      BitVec.ofBool (op.apply (l.eval a w) (r.eval a w)) = v := by
  obtain ⟨-, rfl⟩ := hl
  refine ⟨.self d.defined.1 _, .self d.defined.2 _, ?_⟩
  rw [← d.value, eval, BitVec.setWidth_eq]

end Nodes

end Expr

end SymBisect
