import SymBisect.Expr.Reads
import SymBisect.Lib.Smt

/-!
# The encoding of expressions for the solver

`Z3Builder::construct` (`lib/Solver/Z3Builder.cpp`) makes a term of the bit-vector and array theories out of an
expression: a boolean for an expression of width one, a bit-vector for every other.  Here the builder returns `none`
where an assertion of the source fails or where the solver's library is asked for the width of a term that has none, and
a term the library rejects has no value.

* The constructed terms are cached by expression, so the cache only returns what would be built again.
* An array is named by its own name followed by the number of arrays met before it.  `σ` lists the arrays in the order in
  which the builder meets them.  (C++ leaves that order open where two arrays are met in the arguments of one call.)
* Widths are natural numbers here and `unsigned` in the source.
-/

namespace SymBisect.Z3Builder

open Lib.Smt

/-! ### Constants -/

/-- `Z3_mk_unsigned_int`. -/
def bvConst32 (width value : ℕ) : Term := .bv width (BitVec.ofNat width value)

/-- `Z3_mk_unsigned_int64`. -/
def bvConst64 (width value : ℕ) : Term := .bv width (BitVec.ofNat width value)

/-- The loop of `bvZExtConst`: zeros in front of `expr`, 64 at a time. -/
def bvZExtConstLoop (width : ℕ) (expr : Term) : Term :=
  if 64 < width then bvZExtConstLoop (width - 64) (.concat (bvConst64 64 0) expr)
  else .concat (bvConst64 width 0) expr
termination_by width

def bvZExtConst (width value : ℕ) : Term :=
  if width ≤ 64 then bvConst64 width value else bvZExtConstLoop (width - 64) (bvConst64 64 value)

/-- `value` is a `uint64_t`; its sign bit is repeated in front. -/
def bvSExtConst (width value : ℕ) : Term :=
  if width ≤ 64 then bvConst64 width value
  else if value >>> 63 ≠ 0 then .concat (.bv (width - 64) (BitVec.allOnes (width - 64))) (bvConst64 64 value)
  else .concat (.bv (width - 64) 0) (bvConst64 64 value)

def bvOne (width : ℕ) : Term := bvZExtConst width 1

def bvZero (width : ℕ) : Term := bvZExtConst width 0

def bvMinusOne (width : ℕ) : Term := bvSExtConst width (2 ^ 64 - 1)

/-- The loop over a constant of more than 64 bits: `tmp` is what is left of it, its lowest chunk already in `res`. -/
def constantChunks (width : ℕ) (tmp : BitVec width) (res : Term) : Term :=
  if 64 < width then
    let tmp := tmp.extractLsb' 64 (width - 64)
    let chunk := min 64 (width - 64)
    constantChunks (width - 64) tmp (.concat (bvConst64 chunk (tmp.extractLsb' 0 chunk).toNat) res)
  else res
termination_by width

/-- The case `Expr::Constant`. -/
def constructConstant {w : ℕ} (value : BitVec w) : Term :=
  if w = 1 then .bool (value.toNat == 1)
  else if w ≤ 32 then bvConst32 w value.toNat
  else if w ≤ 64 then bvConst64 w value.toNat
  else constantChunks w value (bvConst64 64 (value.extractLsb' 0 64).toNat)

/-! ### Shifts -/

/-- The width of a bit-vector term. -/
def getBVLength (t : Term) : Option ℕ :=
  match t.sort with
  | some (.bv w) => some w
  | _ => none

def bvBoolExtract (expr : Term) (bit : ℕ) : Term := .eq (.extract bit bit expr) (bvOne 1)

/-- Logical right shift. -/
def bvRightShift (expr : Term) (shift : ℕ) : Option Term :=
  (getBVLength expr).map fun width =>
    if shift = 0 then expr
    else if width ≤ shift then bvZero width
    else .concat (bvZero shift) (.extract (width - 1) shift expr)

/-- Logical left shift. -/
def bvLeftShift (expr : Term) (shift : ℕ) : Option Term :=
  (getBVLength expr).map fun width =>
    if shift = 0 then expr
    else if width ≤ shift then bvZero width
    else .concat (.extract (width - shift - 1) 0 expr) (bvZero shift)

/-- Arithmetic right shift; a shift by the width or more gives zero here too. -/
def constructAShrByConstant (expr : Term) (shift : ℕ) (isSigned : Term) : Option Term :=
  (getBVLength expr).bind fun width =>
    if shift = 0 then some expr
    else if width ≤ shift then some (bvZero width)
    else (bvRightShift expr shift).map fun shifted =>
      .ite isSigned (.concat (bvMinusOne shift) (.extract (width - 1) shift expr)) shifted

/-- The if-then-elif chain over the shift amounts below `n`, the smallest one outermost. -/
def shiftChain (shift : Term) (width : ℕ) (arm : ℕ → Option Term) : ℕ → Term → Option Term
  | 0, res => some res
  | i + 1, res => (arm i).bind fun t => shiftChain shift width arm i (.ite (.eq shift (bvConst32 width i)) t res)

/-- If overshifting, shift to zero. -/
def overshift (shift : Term) (width : ℕ) (res : Term) : Option Term :=
  (getBVLength shift).map fun n => .ite (.bvrel .bvult shift (bvConst32 n width)) res (bvZero width)

def bvVarLeftShift (expr shift : Term) : Option Term :=
  (getBVLength expr).bind fun width =>
    (shiftChain shift width (bvLeftShift expr) width (bvZero width)).bind (overshift shift width)

def bvVarRightShift (expr shift : Term) : Option Term :=
  (getBVLength expr).bind fun width =>
    (shiftChain shift width (bvRightShift expr) width (bvZero width)).bind (overshift shift width)

/-- The chain starts with the result of shifting by `width - 1`. -/
def bvVarArithRightShift (expr shift : Term) : Option Term :=
  (getBVLength expr).bind fun width =>
    let arm (i : ℕ) := constructAShrByConstant expr i (bvBoolExtract expr (width - 1))
    (arm (width - 1)).bind fun res =>
      (shiftChain shift width arm (width - 1) res).bind (overshift shift width)

/-- `(unsigned) CE->getLimitedValue()`: the value or the largest 64-bit one, cut to 32 bits. -/
def limitedValue (value : ℕ) : ℕ := min value (2 ^ 64 - 1) % 2 ^ 32

/-! ### Powers of two -/

/-- `bits64::isPowerOfTwo`. -/
def isPowerOfTwo (x : ℕ) : Bool := x != 0 && (x &&& (x - 1)) == 0

/-- `bits32::indexOfSingleBit`. -/
def indexOfSingleBit32 (x : ℕ) : ℕ :=
  (if x &&& 0xFFFF0000 ≠ 0 then 16 else 0) + (if x &&& 0xFF00FF00 ≠ 0 then 8 else 0) +
    (if x &&& 0xF0F0F0F0 ≠ 0 then 4 else 0) + (if x &&& 0xCCCCCCCC ≠ 0 then 2 else 0) +
      (if x &&& 0xAAAAAAAA ≠ 0 then 1 else 0)

/-- `bits64::indexOfSingleBit`. -/
def indexOfSingleBit (x : ℕ) : ℕ :=
  indexOfSingleBit32 ((x ||| x >>> 32) % 2 ^ 32) + if x &&& 0xFFFFFFFF <<< 32 ≠ 0 then 32 else 0

/-- The exponent, for a constant divisor of at most 64 bits that is a power of two. -/
def powerOfTwoDivisor : Expr → Option ℕ
  | .const (w := w) value =>
    if w ≤ 64 ∧ isPowerOfTwo value.toNat = true then some (indexOfSingleBit value.toNat) else none
  | _ => none

/-! ### The operators

A built operand is a pair of its term and of the `width_out` it reports. -/

/-- `assert(getBVLength(result) == *width_out)`. -/
def withLength (result : Term) (width_out : ℕ) : Option (Term × ℕ) :=
  if getBVLength result = some width_out then some (result, width_out) else none

/-- `Add`, `Sub` and `SRem`. -/
def constructArith (op : BvOp) (left : Term × ℕ) (right : Option (Term × ℕ)) : Option (Term × ℕ) :=
  right.bind fun right => if right.2 = 1 then none else withLength (.bvop op left.1 right.1) right.2

/-- The right operand is built first. -/
def constructMul (left : Term × ℕ) (right : Option (Term × ℕ)) : Option (Term × ℕ) :=
  right.bind fun right => if right.2 = 1 then none else withLength (.bvop .bvmul left.1 right.1) left.2

/-- Division by a power of two is a shift. -/
def constructUDiv (divisor : Expr) (left : Term × ℕ) (right : Option (Term × ℕ)) : Option (Term × ℕ) :=
  if left.2 = 1 then none
  else
    match powerOfTwoDivisor divisor with
    | some bits => (bvRightShift left.1 bits).map fun t => (t, left.2)
    | none => right.bind fun right => withLength (.bvop .bvudiv left.1 right.1) right.2

def constructSDiv (left : Term × ℕ) (right : Option (Term × ℕ)) : Option (Term × ℕ) :=
  if left.2 = 1 then none else right.bind fun right => withLength (.bvop .bvsdiv left.1 right.1) right.2

/-- The remainder by a power of two keeps the low bits. -/
def constructURem (divisor : Expr) (left : Term × ℕ) (right : Option (Term × ℕ)) : Option (Term × ℕ) :=
  if left.2 = 1 then none
  else
    match powerOfTwoDivisor divisor with
    | some bits =>
      if bits = 0 then some (bvZero left.2, left.2)
      else if bits < left.2 then some (.concat (bvZero (left.2 - bits)) (.extract (bits - 1) 0 left.1), left.2)
      else none
    | none => right.bind fun right => withLength (.bvop .bvurem left.1 right.1) right.2

/-- `And` and `Or`: a connective on booleans. -/
def constructBitwise (connective : Term → Term → Term) (op : BvOp) (left : Term × ℕ) (right : Option (Term × ℕ)) :
    Option (Term × ℕ) :=
  right.map fun right =>
    (if right.2 = 1 then connective left.1 right.1 else .bvop op left.1 right.1, right.2)

/-- `Xor` on booleans: `right`, negated if `left` holds. -/
def xorTerm (left right : Term) : Term := .ite left (.not right) right

/-- `Shl`, `LShr` and `AShr`: a constant amount is shifted by at once. -/
def constructShift (byConstant : Term → ℕ → Option Term) (byTerm : Term → Term → Option Term) (amount : Expr)
    (left : Term × ℕ) (right : Option (Term × ℕ)) : Option (Term × ℕ) :=
  if left.2 = 1 then none
  else
    match amount with
    | .const value => (byConstant left.1 (limitedValue value.toNat)).map fun t => (t, left.2)
    | _ => right.bind fun right => (byTerm left.1 right.1).map fun t => (t, left.2)

/-- The cases `Add` to `AShr`; `r` is the right operand before it is built. -/
def constructBin (op : BinOp) (r : Expr) (left : Term × ℕ) (right : Option (Term × ℕ)) : Option (Term × ℕ) :=
  match op with
  | .add => constructArith .bvadd left right
  | .sub => constructArith .bvsub left right
  | .mul => constructMul left right
  | .udiv => constructUDiv r left right
  | .sdiv => constructSDiv left right
  | .urem => constructURem r left right
  | .srem => constructArith .bvsrem left right
  | .and => constructBitwise .and .bvand left right
  | .or => constructBitwise .or .bvor left right
  | .xor => constructBitwise xorTerm .bvxor left right
  | .shl => constructShift bvLeftShift bvVarLeftShift r left right
  | .lshr => constructShift bvRightShift bvVarRightShift r left right
  | .ashr =>
    constructShift (fun t shift => constructAShrByConstant t shift (bvBoolExtract t (left.2 - 1)))
      bvVarArithRightShift r left right

/-- Both sides must be booleans. -/
def iffExpr (left right : Term) : Option Term :=
  if left.sort = some .bool ∧ right.sort = some .bool then some (.iff left right) else none

/-- `Eq`; with a constant on the left of two booleans it is the right side or its negation. -/
def constructEq (l : Expr) (left right : Term × ℕ) : Option (Term × ℕ) :=
  if right.2 = 1 then
    if l.isConstant then some (if l.isTrue then right.1 else .not right.1, 1)
    else (iffExpr left.1 right.1).map fun t => (t, 1)
  else some (.eq left.1 right.1, 1)

/-- The orders, on bit-vectors only. -/
def constructOrder (rel : BvRel) (left right : Term × ℕ) : Option (Term × ℕ) :=
  if right.2 = 1 then none else some (.bvrel rel left.1 right.1, 1)

/-- The cases `Eq` to `Sge`; the kinds that are canonicalised away are not handled. -/
def constructCmp (op : CmpOp) (l : Expr) (left right : Term × ℕ) : Option (Term × ℕ) :=
  match op with
  | .eq => constructEq l left right
  | .ult => constructOrder .bvult left right
  | .ule => constructOrder .bvule left right
  | .slt => constructOrder .bvslt left right
  | .sle => constructOrder .bvsle left right
  | .ne | .ugt | .uge | .sgt | .sge => none

/-- Without a bit to take, the upper bound wraps around and is past every width. -/
def constructExtract (src : Term) (offset width : ℕ) : Option (Term × ℕ) :=
  if width = 1 then some (bvBoolExtract src offset, width)
  else if offset + width = 0 then none
  else some (.extract (offset + width - 1) offset src, width)

def constructZExt (src : Term × ℕ) (width : ℕ) : Option (Term × ℕ) :=
  if src.2 = 1 then some (.ite src.1 (bvOne width) (bvZero width), width)
  else if src.2 < width then some (.concat (bvZero (width - src.2)) src.1, width)
  else none

def bvSignExtend (src : Term) (width : ℕ) : Option Term :=
  (getBVLength src).bind fun n => if n ≤ width then some (.sign_extend (width - n) src) else none

def constructSExt (src : Term × ℕ) (width : ℕ) : Option (Term × ℕ) :=
  if src.2 = 1 then some (.ite src.1 (bvMinusOne width) (bvZero width), width)
  else (bvSignExtend src.1 width).map fun t => (t, width)

/-! ### Arrays and expressions -/

/-- `unique_name`: the name of the array and the number of arrays met before it. -/
def uniqueName (σ : List Array) (root : Array) : String := root.name ++ toString (σ.idxOf root)

def getInitialArray (σ : List Array) (root : Array) : Term :=
  .array (uniqueName σ root) root.getDomain root.getRange

mutual

/-- `Z3Builder::construct`: the term of an expression, and its width. -/
def construct (σ : List Array) : Expr → Option (Term × ℕ)
  | .const (w := w) value => some (constructConstant value, w)
  | .notOptimized src => construct σ src
  | .read updates index =>
    (getArrayForUpdate σ updates).bind fun array =>
      (construct σ index).map fun i => (.select array i.1, updates.getRoot.getRange)
  | .select c t f =>
    (construct σ c).bind fun cond => (construct σ t).bind fun tExpr =>
      (construct σ f).map fun fExpr => (.ite cond.1 tExpr.1 fExpr.1, fExpr.2)
  | .concat l r =>
    (construct σ l).bind fun left =>
      (construct σ r).map fun right => (.concat left.1 right.1, l.getWidth + r.getWidth)
  | .extract e offset width => (construct σ e).bind fun src => constructExtract src.1 offset width
  | .zext src width => (construct σ src).bind fun src => constructZExt src width
  | .sext src width => (construct σ src).bind fun src => constructSExt src width
  | .not e => (construct σ e).map fun t => (if t.2 = 1 then .not t.1 else .bvnot t.1, t.2)
  | .bin op l r => (construct σ l).bind fun left => constructBin op r left (construct σ r)
  | .cmp op l r =>
    (construct σ l).bind fun left => (construct σ r).bind fun right => constructCmp op l left right

/-- `Z3Builder::getArrayForUpdate`: a store for every update. -/
def getArrayForUpdate (σ : List Array) : UpdateList → Option Term
  | .root arr => some (getInitialArray σ arr)
  | .extend next index value =>
    (getArrayForUpdate σ next).bind fun array => (construct σ index).bind fun i =>
      (construct σ value).map fun v => .store array i.1 v.1

end

attribute [local simp] construct getArrayForUpdate

end SymBisect.Z3Builder
