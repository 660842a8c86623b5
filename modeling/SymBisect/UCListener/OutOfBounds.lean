import SymBisect.Expr.Compare
import SymBisect.Core.ExecutionState
import SymBisect.Core.TimingSolver

/-!
# The out-of-bounds checks

`OOB_check`, `OOB_check2` and the bulk cases of `OOBWcheck` of `lib/Kernel/Listener/UCListener.cpp`.

An access address is an expression.  The object it is checked against is found by taking the
address apart: the last of its constants, in the order of `std::set<ref<Expr>>`, that exceeds a
million is looked up in the address space.
-/

namespace SymBisect

open Expr ConstraintSet

namespace ConstantExpr

/-- `getZExtValue`. -/
def getZExtValue (c : ConstantExpr) : ℕ := c.value.toNat

variable [APIntHash]

/-- `ConstantExpr::computeHash`, an `unsigned`. -/
def computeHash (c : ConstantExpr) : ℕ :=
  if c.width ≤ 64 then (c.value.toNat ^^^ (c.width * 39)) % 2 ^ 32
  else (APIntHash.hash_value c.value ^^^ (c.width * 39)) % 2 ^ 32

/-- `Expr::compare` on two constants is negative: hashes first, then widths, then values. -/
def lt (c d : ConstantExpr) : Bool :=
  if c.computeHash ≠ d.computeHash then c.computeHash < d.computeHash
  else if c.width ≠ d.width then c.width < d.width
  else c.value.toNat < d.value.toNat

/-- `std::set::insert` into the ordered elements. -/
def insert (c : ConstantExpr) : List ConstantExpr → List ConstantExpr
  | [] => [c]
  | d :: ds => if c.lt d then c :: d :: ds else if d.lt c then d :: insert c ds else d :: ds

end ConstantExpr

namespace UCListener

section
variable [APIntHash]

/-- `separateConstantAndSymbolic`: the constants of an expression, not looking into reads and
concats. -/
def separateConstantAndSymbolic : Expr → List ConstantExpr → List ConstantExpr
  | .const v, constants => ConstantExpr.insert ⟨_, v⟩ constants
  | .read _ _, constants => constants
  | .concat _ _, constants => constants
  | .notOptimized src, constants => separateConstantAndSymbolic src constants
  | .select c t f, constants =>
    separateConstantAndSymbolic f
      (separateConstantAndSymbolic t (separateConstantAndSymbolic c constants))
  | .extract e _ _, constants => separateConstantAndSymbolic e constants
  | .zext src _, constants => separateConstantAndSymbolic src constants
  | .sext src _, constants => separateConstantAndSymbolic src constants
  | .not e, constants => separateConstantAndSymbolic e constants
  | .bin _ l r, constants => separateConstantAndSymbolic r (separateConstantAndSymbolic l constants)
  | .cmp _ l r, constants => separateConstantAndSymbolic r (separateConstantAndSymbolic l constants)

/-- `extract_baseaddr`, started with the constant 0 as both callers do. -/
def extract_baseaddr (symaddr : Expr) : ConstantExpr :=
  (separateConstantAndSymbolic symaddr []).foldl
    (fun baseaddr constant => if 1000000 < constant.getZExtValue then constant else baseaddr)
    ⟨pointerWidth, 0⟩

variable [ExprOptions]

/-- The check that `OOB_check` builds for the object it found. -/
def boundsCheck (mo : MemoryObject) (targetaddr : Expr) (bytes : ℕ) : Expr :=
  let offset := mo.getOffsetExpr targetaddr
  match mo.symsize with
  | some symsize =>
    let offset2 := AddExpr.create offset (.const (BitVec.ofNat pointerWidth bytes))
    UleExpr.create offset2 symsize
  | none => mo.getBoundsCheckOffset offset bytes

/-- `OOB_check`. -/
def OOB_check (ts : TimingSolver) (state : ExecutionState) (targetaddr : Expr) (bytes : ℕ) :
    ExecutionState :=
  match state.addressSpace.resolveOne (extract_baseaddr targetaddr).getZExtValue with
  -- not find corresponding object
  | none => { state with OOBW := true }
  | some mo =>
    match ts.mustBeTrue state.constraints (boundsCheck mo targetaddr bytes) with
    -- timeout
    | none => state
    | some inBounds => if inBounds then state else { state with OOBW := true }

/-- `OOB_check2`. -/
def OOB_check2 (ts : TimingSolver) (state : ExecutionState) (targetaddr len : Expr)
    (thresholdlen : ℕ) : ExecutionState :=
  if len.isConstant then state
  else if (extract_baseaddr targetaddr).getZExtValue = 0 then
    -- object allocated outside the SE scope
    let threshold_size : Expr := .const (BitVec.ofNat len.getWidth thresholdlen)
    match ts.mustBeTrue state.constraints (UleExpr.create len threshold_size) with
    | none => state
    | some inBounds => if inBounds then state else { state with OOBW := true }
  else state

/-- The modelled functions that `OOBWcheck` checks in advance, with their evaluated operands. -/
inductive BulkCall where
  | memcpy (targetaddr srcaddr len : Expr)
  | memset (targetaddr len : Expr)

/-- `addr + len - 1`, the last byte of a bulk access. -/
def lastByte (addr len : Expr) : Expr :=
  SubExpr.create (AddExpr.create addr len) (.const (1#64))

/-- The guard of the `memcpy` case: the length is the constant 0. -/
def isZeroLength : Expr → Bool
  | .const v => v.toNat = 0
  | _ => false

/-- The `Call` case of `OOBWcheck`. -/
def OOBWcheck (ts : TimingSolver) (state : ExecutionState) (call : BulkCall) : ExecutionState :=
  if state.OOBW then state
  else match call with
    | .memcpy targetaddr srcaddr len =>
      -- memcpy copy length is 0, no need to check
      if isZeroLength len then state
      else
        let state := OOB_check2 ts state srcaddr len 512
        let state := OOB_check2 ts state targetaddr len 512
        let state := OOB_check ts state (lastByte targetaddr len) 1
        OOB_check ts state (lastByte srcaddr len) 1
    | .memset targetaddr len =>
      let state := OOB_check2 ts state targetaddr len 512
      OOB_check ts state (lastByte targetaddr len) 1

end

end UCListener

end SymBisect
