import Mathlib

/-!
# Symbolic expressions

The expression language of the executor (`include/klee/Expr/Expr.h`): bit-vector constants, byte
reads through an update list, and the operators of `Expr::Kind`.  An expression is a tree; the
`unsigned` width every C++ class reports is computed by `Expr.getWidth`.

* A `ConstantExpr` holds an `APInt`, here a `BitVec w`, so a value can never exceed its width.
* An `UpdateList` is its root array with the updates made since, the most recent one outermost.
* `ref<Expr>` comparison (`Expr::compare` returning `0`) is structural equality, here `=`.

Every array of the program is made with the default domain and range of its constructor (32-bit
indices, byte elements), and its size is an `unsigned`.
-/

namespace SymBisect

/-- `Array`: `ptr` is the identity of the C++ object, `constantValues` is empty for a symbolic
array and otherwise holds one byte for every index. -/
structure Array where
  ptr : ℕ
  name : String
  size : ℕ
  constantValues : List (BitVec 8)
  size_lt : size < 2 ^ 32
  constantValues_size : constantValues = [] ∨ constantValues.length = size
  deriving DecidableEq

theorem Array.oneByte_lt : 1 < 2 ^ 32 := by decide

theorem Array.oneByte_values : ([] : List (BitVec 8)) = [] ∨ ([] : List (BitVec 8)).length = 1 := .inl rfl

/-- `Array::isSymbolicArray`. -/
def Array.isSymbolicArray (arr : Array) : Bool := arr.constantValues.isEmpty

/-- `Array::isConstantArray`. -/
def Array.isConstantArray (arr : Array) : Bool := !arr.isSymbolicArray

/-- `Array::getDomain`, the width of an index. -/
def Array.getDomain (_ : Array) : ℕ := 32

/-- `Array::getRange`, the width of an element. -/
def Array.getRange (_ : Array) : ℕ := 8

/-- The arithmetic and bitwise kinds, `Add` to `AShr`. -/
inductive BinOp where
  | add | sub | mul | udiv | sdiv | urem | srem | and | or | xor | shl | lshr | ashr
  deriving DecidableEq, Repr

/-- The comparison kinds, `Eq` to `Sge`. -/
inductive CmpOp where
  | eq | ne | ult | ule | ugt | uge | slt | sle | sgt | sge
  deriving DecidableEq, Repr

mutual

/-- An expression, one constructor for each class of `Expr.h`; the thirteen arithmetic classes and
the ten comparison classes share `bin` and `cmp`. -/
inductive Expr where
  | const {w : ℕ} (value : BitVec w)
  | notOptimized (src : Expr)
  | read (updates : UpdateList) (index : Expr)
  | select (cond trueExpr falseExpr : Expr)
  | concat (left right : Expr)
  | extract (expr : Expr) (offset width : ℕ)
  | zext (src : Expr) (width : ℕ)
  | sext (src : Expr) (width : ℕ)
  | not (expr : Expr)
  | bin (op : BinOp) (left right : Expr)
  | cmp (op : CmpOp) (left right : Expr)
  deriving DecidableEq

/-- `UpdateList`: the root array, extended by one node per write. -/
inductive UpdateList where
  | root (arr : Array)
  | extend (next : UpdateList) (index value : Expr)
  deriving DecidableEq

end

namespace UpdateList

/-- The array below all updates. -/
def getRoot : UpdateList → Array
  | .root arr => arr
  | .extend next _ _ => next.getRoot

/-- `UpdateList::getSize`, the number of updates. -/
def getSize : UpdateList → ℕ
  | .root _ => 0
  | .extend next _ _ => next.getSize + 1

end UpdateList

namespace Expr

/-- `Expr::getWidth`. -/
def getWidth : Expr → ℕ
  | .const (w := w) _ => w
  | .notOptimized src => src.getWidth
  | .read updates _ => updates.getRoot.getRange
  | .select _ t _ => t.getWidth
  | .concat l r => l.getWidth + r.getWidth
  | .extract _ _ w => w
  | .zext _ w => w
  | .sext _ w => w
  | .not e => e.getWidth
  | .bin _ l _ => l.getWidth
  | .cmp _ _ _ => 1

/-- `isa<ConstantExpr>`. -/
def isConstant : Expr → Bool
  | .const _ => true
  | _ => false

/-- `ConstantExpr::isTrue`, false on every other expression. -/
def isTrue : Expr → Bool
  | .const (w := w) v => w == 1 && v.toNat == 1
  | _ => false

/-- The constants `true` and `false` of width `Expr::Bool`. -/
def ofBool (b : Bool) : Expr := .const (BitVec.ofBool b)

end Expr

/-! ### Typing

The constructors assert that operands agree in width; `WF` states those assertions for every node. -/

mutual

/-- The width assertions of the C++ classes hold at every node. -/
def Expr.WF : Expr → Prop
  | .const _ => True
  | .notOptimized src => src.WF
  | .read updates index => updates.WF ∧ index.WF ∧ index.getWidth = 32
  | .select c t f => c.WF ∧ t.WF ∧ f.WF ∧ c.getWidth = 1 ∧ t.getWidth = f.getWidth
  | .concat l r => l.WF ∧ r.WF
  | .extract e off w => e.WF ∧ off + w ≤ e.getWidth
  | .zext src w => src.WF ∧ src.getWidth ≤ w
  | .sext src w => src.WF ∧ src.getWidth ≤ w
  | .not e => e.WF
  | .bin _ l r => l.WF ∧ r.WF ∧ l.getWidth = r.getWidth
  | .cmp _ l r => l.WF ∧ r.WF ∧ l.getWidth = r.getWidth

/-- Every update writes a byte at a 32-bit index. -/
def UpdateList.WF : UpdateList → Prop
  | .root _ => True
  | .extend next index value =>
    next.WF ∧ index.WF ∧ index.getWidth = 32 ∧ value.WF ∧ value.getWidth = 8

end

mutual

/-- The assertions can be checked. -/
def Expr.decidableWF : (e : Expr) → Decidable e.WF
  | .const _ => inferInstanceAs (Decidable True)
  | .notOptimized src => src.decidableWF
  | .read updates index =>
    haveI := updates.decidableWF
    haveI := index.decidableWF
    inferInstanceAs (Decidable (_ ∧ _ ∧ _))
  | .select c t f =>
    haveI := c.decidableWF
    haveI := t.decidableWF
    haveI := f.decidableWF
    inferInstanceAs (Decidable (_ ∧ _ ∧ _ ∧ _ ∧ _))
  | .concat l r =>
    haveI := l.decidableWF
    haveI := r.decidableWF
    inferInstanceAs (Decidable (_ ∧ _))
  | .extract e _ _ =>
    haveI := e.decidableWF
    inferInstanceAs (Decidable (_ ∧ _))
  | .zext src _ =>
    haveI := src.decidableWF
    inferInstanceAs (Decidable (_ ∧ _))
  | .sext src _ =>
    haveI := src.decidableWF
    inferInstanceAs (Decidable (_ ∧ _))
  | .not e => e.decidableWF
  | .bin _ l r =>
    haveI := l.decidableWF
    haveI := r.decidableWF
    inferInstanceAs (Decidable (_ ∧ _ ∧ _))
  | .cmp _ l r =>
    haveI := l.decidableWF
    haveI := r.decidableWF
    inferInstanceAs (Decidable (_ ∧ _ ∧ _))

/-- The assertions on the updates can be checked. -/
def UpdateList.decidableWF : (ul : UpdateList) → Decidable ul.WF
  | .root _ => inferInstanceAs (Decidable True)
  | .extend next index value =>
    haveI := next.decidableWF
    haveI := index.decidableWF
    haveI := value.decidableWF
    inferInstanceAs (Decidable (_ ∧ _ ∧ _ ∧ _ ∧ _))

end

instance (e : Expr) : Decidable e.WF := e.decidableWF

/-- `e` is well formed and `w` bits wide. -/
structure Expr.HasWidth (e : Expr) (w : ℕ) : Prop where
  wf : e.WF
  width : e.getWidth = w

instance (e : Expr) (w : ℕ) : Decidable (e.HasWidth w) :=
  decidable_of_iff (e.WF ∧ e.getWidth = w) ⟨fun h => ⟨h.1, h.2⟩, fun h => ⟨h.wf, h.width⟩⟩

/-- Global options of the expression library: `--const-array-opt` and `--rewrite-equalities`. -/
class ExprOptions where
  constArrayOpt : Bool
  rewriteEqualities : Bool

/-- The options by default. -/
def ExprOptions.defaults : ExprOptions := ⟨false, true⟩

end SymBisect
