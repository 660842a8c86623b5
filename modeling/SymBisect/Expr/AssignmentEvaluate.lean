import SymBisect.Expr.Evaluator
import SymBisect.Lib.Memo

/-!
# Evaluating an assignment

`Assignment::evaluate` as it runs: `ExprVisitor::visit` remembers what it has visited, `AssignmentEvaluator` says what the initial
bytes are, with free values or without, and a division of constants by zero is an error of `APInt`.

* `visit_computes`: with the memory or without, the visitor returns what `visitWith` says, unless it folds a division by the
  constant zero.
* `evaluate_right_iff`: when the evaluation is right.
* `not_evaluate_right`: a division by zero fails, and a constant stays wrapped.
-/

namespace SymBisect

open Expr Lib

namespace Bindings

/-- The byte bound for an array and an index. -/
def byteAt (b : Bindings) (array : Array) (index : ℕ) : Option (BitVec 8) := (b.find array).bind fun bytes => bytes[index]?

/-- `Assignment::evaluate` of a byte. -/
def getInitialValue [ExprOptions] (b : Bindings) (allowFreeValues : Bool) (array : Array) (index : ℕ) : Expr :=
  match b.byteAt array index with
  | some v => .const v
  | none => if allowFreeValues then ReadExpr.create (.root array) (.const (BitVec.ofNat 32 index)) else .const 0#8

/-- The assignment has the bytes that are bound. -/
def Agrees (b : Bindings) (a : Assignment) : Prop := ∀ arr i v, b.byteAt arr i = some v → a arr i = v

theorem byte_eq (b : Bindings) (array : Array) (index : ℕ) : b.byte array index = (b.byteAt array index).getD 0 := by
  unfold byte byteAt
  cases b.find array with
  | none => rfl
  | some bytes =>
    show (if h : index < bytes.length then bytes.get ⟨index, h⟩ else 0) = bytes[index]?.getD 0
    by_cases h : index < bytes.length
    · rw [dif_pos h, List.getElem?_eq_getElem h]
      rfl
    · rw [dif_neg h, List.getElem?_eq_none (by omega)]
      rfl

/-- The bound bytes, and zeros for the others, are one such assignment. -/
theorem agrees_toAssignment (b : Bindings) : b.Agrees b.toAssignment := by
  intro arr i v h
  show b.byte arr i = v
  rw [byte_eq, h]
  rfl

/-- The completions of the bound bytes; without free values there is only one. -/
def Completes (b : Bindings) (allowFreeValues : Bool) (a : Assignment) : Prop :=
  b.Agrees a ∧ (allowFreeValues = false → a = b.toAssignment)

theorem completes_toAssignment (b : Bindings) (allowFreeValues : Bool) : b.Completes allowFreeValues b.toAssignment :=
  ⟨b.agrees_toAssignment, fun _ => rfl⟩

section
variable [ExprOptions]

/-- What is said about a byte is its value under every completion. -/
theorem initial_getInitialValue (b : Bindings) (allowFreeValues : Bool) :
    ExprEvaluator.Initial (b.Completes allowFreeValues) (b.getInitialValue allowFreeValues) := by
  intro arr i hi hvalue
  unfold getInitialValue
  cases hbyte : b.byteAt arr i with
  | some v =>
    refine ⟨hasWidth_const v, fun a ha _ => ?_⟩
    rw [ha.1 arr i v hbyte]
    exact denotes_const v
  | none =>
    cases allowFreeValues with
    | false =>
      refine ⟨hasWidth_const _, fun a ha _ => ?_⟩
      have hzero : a arr i = 0 := by
        rw [ha.2 rfl]
        show b.byte arr i = 0
        rw [byte_eq, hbyte]
        rfl
      rw [hzero]
      exact denotes_const _
    | true =>
      have hread := ReadExpr.create_computes (show (UpdateList.root arr).WF from trivial)
        (hasWidth_const (BitVec.ofNat 32 i))
      refine ⟨hread.hasWidth, fun a _ hd => ?_⟩
      have hidx : ((Expr.const (BitVec.ofNat 32 i)).eval a 32).toNat = i := by
        rw [Expr.eval, BitVec.setWidth_eq, BitVec.toNat_ofNat, Nat.mod_eq_of_lt hi]
      have hden := hread.denotes (a := a) trivial (by rw [hidx]; exact hd)
      rw [hidx, UpdateList.evalAt, Array.initialValue, hvalue] at hden
      exact hden

theorem known_getInitialValue (b : Bindings) (allowFreeValues : Bool) : ExprEvaluator.Known (b.Completes allowFreeValues)
    (fun arr i => (b.byteAt arr i).isSome = true) (b.getInitialValue allowFreeValues) := by
  refine ⟨b.initial_getInitialValue allowFreeValues, fun arr i hbyte => ?_⟩
  unfold getInitialValue
  cases hv : b.byteAt arr i with
  | some v => rfl
  | none => rw [hv] at hbyte; cases hbyte

end

end Bindings

namespace ExprVisitor

/-! ### The visitor -/

/-- `visited`. -/
abbrev Visited := MemoTable Expr Expr

/-- A division of constants by zero. -/
def dividesByZero : Expr → Bool
  | .bin op l r => op.isDivision && l.isConstant && ExprEvaluator.isZero r
  | _ => false

section
variable [ExprOptions]

/-- `rebuild`; `APInt` asserts that it does not divide by zero. -/
def rebuild (e : Expr) : Prog Visited Expr := if dividesByZero e = true then Prog.abort else pure e.rebuild

/-- `ExprEvaluator::visitExpr`: evaluate all constant expressions here, in case they weren't folded in construction. -/
def visitExpr (e : Expr) (next : Prog Visited Expr) : Prog Visited Expr := if e.kids.all isConstant then rebuild e else next

/-- `Action::DoChildren` and `visitExprPost`, when the kids are visited. -/
def doChildren (e visited : Expr) : Prog Visited Expr :=
  pure (ExprEvaluator.visitExprPost (if visited = e then e else visited.rebuild))

/-- `protectedDivOperation`, when the kids are visited. -/
def protectedDivOperation (op : BinOp) (l r l' r' : Expr) : Prog Visited Expr :=
  let e := Expr.bin op l r
  -- ignore the 0 divisor and use the original expression
  let visited := Expr.bin op l' (if ExprEvaluator.isZero r' then r else r')
  if visited = e then pure e else rebuild visited

variable (useVisitorHash : Bool) (getInitialValue : Array → ℕ → Expr)

mutual

/-- `visit` and `visitActual`. -/
def visit : Expr → Prog Visited Expr
  | .const v => pure (.const v)
  | .notOptimized src => MemoTable.memo useVisitorHash (.notOptimized src) (visitExpr (.notOptimized src) (do
      let src' ← visit src
      doChildren (.notOptimized src) (.notOptimized src')))
  | .read updates index => MemoTable.memo useVisitorHash (.read updates index) (do
      let v ← visit index
      match v with
      | .const v => evalRead updates v.toNat
      | _ => do
        let index' ← visit index
        pure (ExprEvaluator.visitExprPost (if index' = index then .read updates index else ReadExpr.create updates index')))
  | .select c t f => MemoTable.memo useVisitorHash (.select c t f) (visitExpr (.select c t f) (do
      let c' ← visit c
      let t' ← visit t
      let f' ← visit f
      doChildren (.select c t f) (.select c' t' f')))
  | .concat l r => MemoTable.memo useVisitorHash (.concat l r) (visitExpr (.concat l r) (do
      let l' ← visit l
      let r' ← visit r
      doChildren (.concat l r) (.concat l' r')))
  | .extract src off w => MemoTable.memo useVisitorHash (.extract src off w) (visitExpr (.extract src off w) (do
      let src' ← visit src
      doChildren (.extract src off w) (.extract src' off w)))
  | .zext src w => MemoTable.memo useVisitorHash (.zext src w) (visitExpr (.zext src w) (do
      let src' ← visit src
      doChildren (.zext src w) (.zext src' w)))
  | .sext src w => MemoTable.memo useVisitorHash (.sext src w) (visitExpr (.sext src w) (do
      let src' ← visit src
      doChildren (.sext src w) (.sext src' w)))
  | .not src => MemoTable.memo useVisitorHash (.not src) (visitExpr (.not src) (do
      let src' ← visit src
      doChildren (.not src) (.not src')))
  | .bin op l r => MemoTable.memo useVisitorHash (.bin op l r) (visitExpr (.bin op l r) (do
      let l' ← visit l
      let r' ← visit r
      if op.isDivision then protectedDivOperation op l r l' r' else doChildren (.bin op l r) (.bin op l' r')))
  | .cmp op l r => MemoTable.memo useVisitorHash (.cmp op l r) (visitExpr (.cmp op l r) (do
      let l' ← visit l
      let r' ← visit r
      doChildren (.cmp op l r) (.cmp op l' r')))

/-- `evalRead`. -/
def evalRead : UpdateList → ℕ → Prog Visited Expr
  | .root arr, index =>
    match arr.constantValues[index]? with
    | some v => pure (.const v)
    | none => pure (getInitialValue arr index)
  | .extend next i value, index => do
    let ui ← visit i
    match ui with
    | .const v => if v.toNat = index then visit value else evalRead next index
    -- update index is unknown, so we can rewrite to read at this version
    | _ => pure (ReadExpr.create (.extend next i value) (.const (BitVec.ofNat 32 index)))

end

end

/-- `Assignment::evaluate`, or nothing when it fails on a division by zero. -/
def evaluate [ExprOptions] (useVisitorHash allowFreeValues : Bool) (b : Bindings) (e : Expr) : Option Expr :=
  (visit useVisitorHash (b.getInitialValue allowFreeValues) e []).1

/-! ### What it returns -/

section
variable [ExprOptions] {useVisitorHash : Bool} {getInitialValue : Array → ℕ → Expr}

/-- A division by the constant zero of an expression that is evaluated to a constant. -/
def FoldsZero (getInitialValue : Array → ℕ → Expr) : Expr → Prop
  | .bin op l r =>
    op.isDivision = true ∧ (ExprEvaluator.visitWith getInitialValue l).isConstant = true ∧ ExprEvaluator.isZero r = true
  | _ => False

/-- The visitor computes `v` unless `F`. -/
abbrev Yields {γ : Type} (getInitialValue : Array → ℕ → Expr) (m : Prog Visited γ) (v : γ) (F : Prop) : Prop :=
  MemoTable.Computes (ExprEvaluator.visitWith getInitialValue)
    (ExprEvaluator.VisitsSome getInitialValue (FoldsZero getInitialValue)) m v F

theorem rebuild_yields (e : Expr) : Yields getInitialValue (rebuild e) e.rebuild (dividesByZero e = true) := by
  unfold rebuild
  by_cases h : dividesByZero e = true
  · rw [if_pos h]
    exact (MemoTable.Computes.abort _).congr (iff_of_true trivial h)
  · rw [if_neg h]
    exact (MemoTable.Computes.pure _).congr (iff_of_false id h)

theorem visitsSome_of_isConstant {S : Expr → Prop} {e : Expr} (h : e.isConstant = true) :
    ¬ExprEvaluator.VisitsSome getInitialValue S e := by
  cases e with
  | const v => exact id
  | _ => cases h

theorem doChildren_yields (e visited : Expr) : Yields getInitialValue (doChildren e visited)
    (ExprEvaluator.visitExprPost (if visited = e then e else visited.rebuild)) False := MemoTable.Computes.pure _

/-- A node that is no division and no read; `K` is what its kids visit. -/
theorem node_yields {e visited : Expr} {next : Prog Visited Expr} {K : Prop} (hdiv : dividesByZero e = false)
    (hfold : ¬FoldsZero getInitialValue e) (hconst : e.kids.all isConstant = true → ¬K)
    (hnext : Yields getInitialValue next (ExprEvaluator.visitExprPost (if visited = e then e else visited.rebuild)) K) :
    Yields getInitialValue (visitExpr e next) (ExprEvaluator.visitNode e visited) (FoldsZero getInitialValue e ∨ K) := by
  unfold visitExpr ExprEvaluator.visitNode
  by_cases hall : e.kids.all isConstant = true
  · rw [if_pos hall, if_pos hall]
    refine (rebuild_yields e).congr (iff_of_false ?_ (not_or.2 ⟨hfold, hconst hall⟩))
    rw [hdiv]
    exact Bool.false_ne_true
  · rw [if_neg hall, if_neg hall]
    exact hnext.congr (or_iff_right hfold).symm

/-- The visit of an expression is as it should be. -/
abbrev Visits (useVisitorHash : Bool) (getInitialValue : Array → ℕ → Expr) (e : Expr) : Prop :=
  Yields getInitialValue (visit useVisitorHash getInitialValue e) (ExprEvaluator.visitWith getInitialValue e)
    (ExprEvaluator.VisitsSome getInitialValue (FoldsZero getInitialValue) e)

section

variable {e l r src : Expr}

theorem unary_yields {node : Expr → Expr} (hkids : e.kids = [src]) (hdiv : dividesByZero e = false)
    (hfold : ¬FoldsZero getInitialValue e) (hs : Visits useVisitorHash getInitialValue src) :
    Yields getInitialValue (visitExpr e (do
        let src' ← visit useVisitorHash getInitialValue src
        doChildren e (node src')))
      (ExprEvaluator.visitNode e (node (ExprEvaluator.visitWith getInitialValue src)))
      (FoldsZero getInitialValue e ∨ ExprEvaluator.VisitsSome getInitialValue (FoldsZero getInitialValue) src) := by
  refine node_yields hdiv hfold (fun hall => visitsSome_of_isConstant ?_) ?_
  · simpa [hkids] using hall
  · exact (hs.bind (k := fun src' => doChildren e (node src')) (doChildren_yields _ _)).congr (or_iff_left id)

theorem binary_yields {node : Expr → Expr → Expr} (hkids : e.kids = [l, r]) (hdiv : dividesByZero e = false)
    (hfold : ¬FoldsZero getInitialValue e) (hl : Visits useVisitorHash getInitialValue l)
    (hr : Visits useVisitorHash getInitialValue r) :
    Yields getInitialValue (visitExpr e (do
        let l' ← visit useVisitorHash getInitialValue l
        let r' ← visit useVisitorHash getInitialValue r
        doChildren e (node l' r')))
      (ExprEvaluator.visitNode e (node (ExprEvaluator.visitWith getInitialValue l)
        (ExprEvaluator.visitWith getInitialValue r)))
      (FoldsZero getInitialValue e ∨ ExprEvaluator.VisitsSome getInitialValue (FoldsZero getInitialValue) l ∨
        ExprEvaluator.VisitsSome getInitialValue (FoldsZero getInitialValue) r) := by
  refine node_yields hdiv hfold (fun hall => ?_) ?_
  · simp only [hkids, List.all_cons, List.all_nil, Bool.and_true, Bool.and_eq_true] at hall
    exact not_or.2 ⟨visitsSome_of_isConstant hall.1, visitsSome_of_isConstant hall.2⟩
  · have hlast := hr.bind (k := fun r' => doChildren e (node (ExprEvaluator.visitWith getInitialValue l) r'))
      (doChildren_yields _ _)
    refine (hl.bind (k := fun l' => visit useVisitorHash getInitialValue r >>= fun r' => doChildren e (node l' r'))
      hlast).congr ?_
    rw [or_false]

theorem ternary_yields {c t f : Expr} {node : Expr → Expr → Expr → Expr} (hkids : e.kids = [c, t, f])
    (hdiv : dividesByZero e = false) (hfold : ¬FoldsZero getInitialValue e) (hc : Visits useVisitorHash getInitialValue c)
    (ht : Visits useVisitorHash getInitialValue t) (hf : Visits useVisitorHash getInitialValue f) :
    Yields getInitialValue (visitExpr e (do
        let c' ← visit useVisitorHash getInitialValue c
        let t' ← visit useVisitorHash getInitialValue t
        let f' ← visit useVisitorHash getInitialValue f
        doChildren e (node c' t' f')))
      (ExprEvaluator.visitNode e (node (ExprEvaluator.visitWith getInitialValue c)
        (ExprEvaluator.visitWith getInitialValue t) (ExprEvaluator.visitWith getInitialValue f)))
      (FoldsZero getInitialValue e ∨ ExprEvaluator.VisitsSome getInitialValue (FoldsZero getInitialValue) c ∨
        ExprEvaluator.VisitsSome getInitialValue (FoldsZero getInitialValue) t ∨
        ExprEvaluator.VisitsSome getInitialValue (FoldsZero getInitialValue) f) := by
  refine node_yields hdiv hfold (fun hall => ?_) ?_
  · simp only [hkids, List.all_cons, List.all_nil, Bool.and_true, Bool.and_eq_true] at hall
    exact not_or.2 ⟨visitsSome_of_isConstant hall.1,
      not_or.2 ⟨visitsSome_of_isConstant hall.2.1, visitsSome_of_isConstant hall.2.2⟩⟩
  · have hlast := hf.bind (k := fun f' => doChildren e (node (ExprEvaluator.visitWith getInitialValue c)
      (ExprEvaluator.visitWith getInitialValue t) f')) (doChildren_yields _ _)
    have hmid := ht.bind (k := fun t' => visit useVisitorHash getInitialValue f >>= fun f' =>
      doChildren e (node (ExprEvaluator.visitWith getInitialValue c) t' f')) hlast
    refine (hc.bind (k := fun c' => visit useVisitorHash getInitialValue t >>= fun t' =>
      visit useVisitorHash getInitialValue f >>= fun f' => doChildren e (node c' t' f')) hmid).congr ?_
    rw [or_false]

/-- The divisor that is put in is zero only where the original one is. -/
theorem isZero_protected :
    ExprEvaluator.isZero (if ExprEvaluator.isZero (ExprEvaluator.visitWith getInitialValue r) then r
      else ExprEvaluator.visitWith getInitialValue r) = true ↔ ExprEvaluator.isZero r = true := by
  by_cases hzero : ExprEvaluator.isZero (ExprEvaluator.visitWith getInitialValue r) = true
  · rw [if_pos hzero]
  · rw [if_neg hzero]
    refine iff_of_false hzero fun h => hzero ?_
    cases r with
    | const v => rwa [ExprEvaluator.visitWith]
    | _ => cases h

theorem protectedDivOperation_yields {op : BinOp} (hall : ¬(Expr.bin op l r).kids.all isConstant = true) :
    Yields getInitialValue (protectedDivOperation op l r (ExprEvaluator.visitWith getInitialValue l)
        (ExprEvaluator.visitWith getInitialValue r))
      (if Expr.bin op (ExprEvaluator.visitWith getInitialValue l)
          (if ExprEvaluator.isZero (ExprEvaluator.visitWith getInitialValue r) then r
            else ExprEvaluator.visitWith getInitialValue r) = .bin op l r then .bin op l r
        else (Expr.bin op (ExprEvaluator.visitWith getInitialValue l)
          (if ExprEvaluator.isZero (ExprEvaluator.visitWith getInitialValue r) then r
            else ExprEvaluator.visitWith getInitialValue r)).rebuild)
      (FoldsZero getInitialValue (.bin op l r)) := by
  unfold protectedDivOperation
  simp only
  by_cases hsame : Expr.bin op (ExprEvaluator.visitWith getInitialValue l)
      (if ExprEvaluator.isZero (ExprEvaluator.visitWith getInitialValue r) then r
        else ExprEvaluator.visitWith getInitialValue r) = .bin op l r
  · rw [if_pos hsame, if_pos hsame]
    refine (MemoTable.Computes.pure _).congr (iff_of_false id fun hf => hall ?_)
    obtain ⟨-, hl, hr⟩ := hf
    injection hsame with _ hleft
    rw [hleft] at hl
    have hright : r.isConstant = true := by
      cases r with
      | const v => rfl
      | _ => cases hr
    simp only [kids, List.all_cons, List.all_nil, hl, hright, Bool.and_true]
  · rw [if_neg hsame, if_neg hsame]
    refine (rebuild_yields _).congr ?_
    rw [dividesByZero, FoldsZero, Bool.and_eq_true, Bool.and_eq_true, isZero_protected, and_assoc]

/-- A division. -/
theorem division_yields {op : BinOp} (hl : Visits useVisitorHash getInitialValue l)
    (hr : Visits useVisitorHash getInitialValue r) :
    Yields getInitialValue (visitExpr (.bin op l r) (do
        let l' ← visit useVisitorHash getInitialValue l
        let r' ← visit useVisitorHash getInitialValue r
        protectedDivOperation op l r l' r'))
      (ExprEvaluator.visitDivision op l r (ExprEvaluator.visitWith getInitialValue l)
        (ExprEvaluator.visitWith getInitialValue r))
      (ExprEvaluator.VisitsSome getInitialValue (FoldsZero getInitialValue) (.bin op l r)) := by
  unfold visitExpr ExprEvaluator.visitDivision
  rw [ExprEvaluator.VisitsSome]
  simp only
  by_cases hall : (Expr.bin op l r).kids.all isConstant = true
  · rw [if_pos hall, if_pos hall]
    simp only [kids, List.all_cons, List.all_nil, Bool.and_true, Bool.and_eq_true] at hall
    have hkids : ¬(ExprEvaluator.VisitsSome getInitialValue (FoldsZero getInitialValue) l ∨
        ExprEvaluator.VisitsSome getInitialValue (FoldsZero getInitialValue) r) :=
      not_or.2 ⟨visitsSome_of_isConstant hall.1, visitsSome_of_isConstant hall.2⟩
    refine (rebuild_yields _).congr ?_
    rw [or_iff_left hkids, dividesByZero, FoldsZero, Bool.and_eq_true, Bool.and_eq_true, and_assoc,
      ExprEvaluator.visitWith_const_of_isConstant hall.1]
  · rw [if_neg hall, if_neg hall]
    have hlast := hr.bind (k := fun r' => protectedDivOperation op l r (ExprEvaluator.visitWith getInitialValue l) r')
      (protectedDivOperation_yields hall)
    refine (hl.bind (k := fun l' => visit useVisitorHash getInitialValue r >>= fun r' =>
      protectedDivOperation op l r l' r') hlast).congr ?_
    rw [← or_assoc, or_comm]

end

mutual

/-- **The visitor** returns what `visitWith` says, unless it folds a division by zero. -/
theorem visit_computes (e : Expr) : Visits useVisitorHash getInitialValue e := by
  match e with
  | .const v =>
    rw [Visits, visit, ExprEvaluator.visitWith]
    exact MemoTable.Computes.pure _
  | .notOptimized src =>
    have hs := visit_computes src
    rw [Visits, visit]
    refine MemoTable.Computes.memo ?_
    rw [ExprEvaluator.visitWith, ExprEvaluator.VisitsSome]
    exact unary_yields rfl rfl id hs
  | .read updates index =>
    have hi := visit_computes index
    rw [Visits, visit]
    refine MemoTable.Computes.memo ?_
    have hfold : ¬FoldsZero getInitialValue (.read updates index) := id
    rw [ExprEvaluator.visitWith, ExprEvaluator.VisitsSome, or_iff_right hfold]
    cases hv : ExprEvaluator.visitWith getInitialValue index with
    | const v =>
      rw [Visits, hv] at hi
      exact hi.bind (evalRead_computes updates v.toNat)
    | _ =>
      rw [Visits, hv] at hi
      -- the index is visited as a kid once more
      refine (hi.bind (G := ExprEvaluator.VisitsSome getInitialValue (FoldsZero getInitialValue) index ∨ False) ?_).congr ?_
      · exact hi.bind (MemoTable.Computes.pure _)
      · rw [← or_assoc, or_self]
  | .select c t f =>
    have hc := visit_computes c
    have ht := visit_computes t
    have hf := visit_computes f
    rw [Visits, visit]
    refine MemoTable.Computes.memo ?_
    rw [ExprEvaluator.visitWith, ExprEvaluator.VisitsSome]
    exact ternary_yields rfl rfl id hc ht hf
  | .concat l r =>
    have hl := visit_computes l
    have hr := visit_computes r
    rw [Visits, visit]
    refine MemoTable.Computes.memo ?_
    rw [ExprEvaluator.visitWith, ExprEvaluator.VisitsSome]
    exact binary_yields rfl rfl id hl hr
  | .extract src off w =>
    have hs := visit_computes src
    rw [Visits, visit]
    refine MemoTable.Computes.memo ?_
    rw [ExprEvaluator.visitWith, ExprEvaluator.VisitsSome]
    exact unary_yields rfl rfl id hs
  | .zext src w =>
    have hs := visit_computes src
    rw [Visits, visit]
    refine MemoTable.Computes.memo ?_
    rw [ExprEvaluator.visitWith, ExprEvaluator.VisitsSome]
    exact unary_yields rfl rfl id hs
  | .sext src w =>
    have hs := visit_computes src
    rw [Visits, visit]
    refine MemoTable.Computes.memo ?_
    rw [ExprEvaluator.visitWith, ExprEvaluator.VisitsSome]
    exact unary_yields rfl rfl id hs
  | .not src =>
    have hs := visit_computes src
    rw [Visits, visit]
    refine MemoTable.Computes.memo ?_
    rw [ExprEvaluator.visitWith, ExprEvaluator.VisitsSome]
    exact unary_yields rfl rfl id hs
  | .bin op l r =>
    have hl := visit_computes l
    have hr := visit_computes r
    rw [Visits, visit]
    refine MemoTable.Computes.memo ?_
    rw [ExprEvaluator.visitWith]
    by_cases hdiv : op.isDivision = true
    · simp only [if_pos hdiv]
      exact division_yields hl hr
    · simp only [if_neg hdiv]
      rw [ExprEvaluator.VisitsSome]
      refine binary_yields rfl ?_ (fun hf => hdiv hf.1) hl hr
      have hfalse : op.isDivision = false := by simpa using hdiv
      rw [dividesByZero, hfalse, Bool.false_and, Bool.false_and]
  | .cmp op l r =>
    have hl := visit_computes l
    have hr := visit_computes r
    rw [Visits, visit]
    refine MemoTable.Computes.memo ?_
    rw [ExprEvaluator.visitWith, ExprEvaluator.VisitsSome]
    exact binary_yields rfl rfl id hl hr

theorem evalRead_computes (ul : UpdateList) (i : ℕ) :
    Yields getInitialValue (evalRead useVisitorHash getInitialValue ul i) (ExprEvaluator.evalReadWith getInitialValue ul i)
      (ExprEvaluator.WalkVisitsSome getInitialValue (FoldsZero getInitialValue) ul i) := by
  match ul with
  | .root arr =>
    rw [evalRead, ExprEvaluator.evalReadWith, ExprEvaluator.WalkVisitsSome]
    cases arr.constantValues[i]? with
    | some v => exact MemoTable.Computes.pure _
    | none => exact MemoTable.Computes.pure _
  | .extend next index value =>
    have hi := visit_computes index
    have hvalue := visit_computes value
    have hnext := evalRead_computes next i
    rw [evalRead, ExprEvaluator.evalReadWith, ExprEvaluator.WalkVisitsSome]
    cases hv : ExprEvaluator.visitWith getInitialValue index with
    | const v =>
      rw [Visits, hv] at hi
      refine hi.bind ?_
      by_cases hat : v.toNat = i
      · simp only [if_pos hat]
        exact hvalue
      · simp only [if_neg hat]
        exact hnext
    | _ =>
      rw [Visits, hv] at hi
      exact hi.bind (MemoTable.Computes.pure _)

end

/-! ### Evaluation -/

variable {b : Bindings} {allowFreeValues : Bool} {e : Expr}

/-- The evaluation folds a division by zero and fails, or it returns what `visitWith` says. -/
theorem evaluate_cases (useVisitorHash allowFreeValues : Bool) (b : Bindings) (e : Expr) :
    ExprEvaluator.VisitsSome (b.getInitialValue allowFreeValues) (FoldsZero (b.getInitialValue allowFreeValues)) e ∧
        evaluate useVisitorHash allowFreeValues b e = none ∨
      ¬ExprEvaluator.VisitsSome (b.getInitialValue allowFreeValues) (FoldsZero (b.getInitialValue allowFreeValues)) e ∧
        evaluate useVisitorHash allowFreeValues b e =
          some (ExprEvaluator.visitWith (b.getInitialValue allowFreeValues) e) := by
  have hvisit : Visits useVisitorHash (b.getInitialValue allowFreeValues) e := visit_computes e
  have hrun := hvisit [] MemoTable.Right.nil
  unfold Prog.wp at hrun
  unfold evaluate
  cases hres : visit useVisitorHash (b.getInitialValue allowFreeValues) e [] with
  | mk res table =>
    rw [hres] at hrun
    cases res with
    | none => exact .inl ⟨hrun, rfl⟩
    | some res => exact .inr ⟨hrun.2.1, congrArg some hrun.1⟩

/-- A constant that is returned is the value under every completion. -/
theorem visitWith_completion (hwf : e.WF) {a : Assignment} (ha : b.Completes allowFreeValues a) (hd : e.Defined a)
    (hconst : (ExprEvaluator.visitWith (b.getInitialValue allowFreeValues) e).isConstant = true) :
    ExprEvaluator.visitWith (b.getInitialValue allowFreeValues) e = .const (e.eval a e.getWidth) := by
  have hval := ExprEvaluator.visitWith_refinesOn (b.initial_getInitialValue allowFreeValues) e hwf
  cases hv : ExprEvaluator.visitWith (b.getInitialValue allowFreeValues) e with
  | const v =>
    rw [hv] at hval
    obtain rfl : _ = e.getWidth := hval.hasWidth.width
    rw [(hval.denotes ha hd).const_eq]
  | _ => rw [hv] at hconst; cases hconst

/-- **The evaluation is right**: a constant of the expression's value where every byte that is read is bound and no divisor is
zero, never an error, and what is constant in spite of free values is the value whatever they are. -/
structure EvaluatedRight (useVisitorHash allowFreeValues : Bool) (b : Bindings) (e : Expr) : Prop where
  constant : e.Defined b.toAssignment → e.ReadsOnly (fun arr i => (b.byteAt arr i).isSome = true) b.toAssignment →
    evaluate useVisitorHash allowFreeValues b e = some (.const (e.eval b.toAssignment e.getWidth))
  neverRaises : evaluate useVisitorHash allowFreeValues b e ≠ none
  completion : allowFreeValues = true → ∀ res, evaluate useVisitorHash allowFreeValues b e = some res →
    res.isConstant = true → ∀ a, b.Agrees a → e.Defined a → res = .const (e.eval a e.getWidth)

/-! ### When it is right -/

/-- A symbolic byte. -/
def byteArray : Array := ⟨0, "x", 1, [], Array.oneByte_lt, Array.oneByte_values⟩

/-- Its read. -/
def readByte : Expr := .read (.root byteArray) (.const 0#32)

/-- It is five. -/
def fiveBinding : Bindings := [(byteArray, [5])]

/-- The byte divided by a literal. -/
def divideBy (v : BitVec 8) : Expr := .bin .udiv readByte (.const v)

omit [ExprOptions] in
theorem divideBy_wf (v : BitVec 8) : (divideBy v).WF := ⟨⟨trivial, trivial, rfl⟩, trivial, rfl⟩

/-- **When the evaluation is right.**  It raises exactly when a division by the literal zero is folded; where it neither does
that nor comes across a `NotOptimizedExpr` around a constant, it is right. -/
theorem evaluate_right_iff (useVisitorHash allowFreeValues : Bool) (b : Bindings) (e : Expr) (hwf : e.WF) :
    (ExprEvaluator.VisitsSome (b.getInitialValue allowFreeValues) (FoldsZero (b.getInitialValue allowFreeValues)) e →
      ¬EvaluatedRight useVisitorHash allowFreeValues b e) ∧
    (¬ExprEvaluator.VisitsSome (b.getInitialValue allowFreeValues) ExprEvaluator.WrapsConstant e →
      (EvaluatedRight useVisitorHash allowFreeValues b e ↔
        ¬ExprEvaluator.VisitsSome (b.getInitialValue allowFreeValues) (FoldsZero (b.getInitialValue allowFreeValues)) e)) := by
  have hcases := evaluate_cases useVisitorHash allowFreeValues b e
  have hraises : ExprEvaluator.VisitsSome (b.getInitialValue allowFreeValues)
      (FoldsZero (b.getInitialValue allowFreeValues)) e → ¬EvaluatedRight useVisitorHash allowFreeValues b e := by
    intro hvis hright
    rcases hcases with ⟨-, hnone⟩ | ⟨hno, -⟩
    · exact hright.neverRaises hnone
    · exact hno hvis
  refine ⟨hraises, fun hwraps => ⟨fun hright hvis => hraises hvis hright, fun hno => ?_⟩⟩
  have hres : evaluate useVisitorHash allowFreeValues b e =
      some (ExprEvaluator.visitWith (b.getInitialValue allowFreeValues) e) := by
    rcases hcases with ⟨hvis, -⟩ | ⟨-, hres⟩
    · exact absurd hvis hno
    · exact hres
  constructor
  · intro hd hbytes
    have hconst := ExprEvaluator.visitWith_isConstant (b.known_getInitialValue allowFreeValues)
      (b.completes_toAssignment allowFreeValues) e hwf hwraps hd hbytes
    rw [hres, visitWith_completion hwf (b.completes_toAssignment allowFreeValues) hd hconst]
  · rw [hres]
    exact Option.some_ne_none _
  · intro hfree res hsome hconst a ha hd
    rw [hres] at hsome
    obtain rfl := Option.some.inj hsome
    exact visitWith_completion hwf ⟨ha, fun hfalse => by rw [hfree] at hfalse; cases hfalse⟩ hd hconst

omit [ExprOptions] in
/-- Divided by two, the byte is evaluated rightly; divided by zero, it is not. -/
theorem evaluate_right_divideBy_two :
    let _ : ExprOptions := ExprOptions.defaults
    EvaluatedRight true false fiveBinding (divideBy 2) ∧ ¬EvaluatedRight true true fiveBinding (divideBy 0) := by
  intro _
  have hread : ∀ S : Expr → Prop, (∀ updates index, ¬S (.read updates index)) →
      ¬ExprEvaluator.VisitsSome (fiveBinding.getInitialValue false) S readByte := by
    intro S hS hvis
    rcases hvis with h | h | h
    · exact hS _ _ h
    · exact h
    · exact h
  have hwraps : ¬ExprEvaluator.VisitsSome (fiveBinding.getInitialValue false) ExprEvaluator.WrapsConstant (divideBy 2) := by
    intro hvis
    rcases hvis with h | h | h
    · exact h
    · exact hread _ (fun _ _ => id) h
    · exact h
  have hfolds : ¬ExprEvaluator.VisitsSome (fiveBinding.getInitialValue false)
      (FoldsZero (fiveBinding.getInitialValue false)) (divideBy 2) := by
    intro hvis
    rcases hvis with h | h | h
    · exact absurd h.2.2 (by decide)
    · exact hread _ (fun _ _ => id) h
    · exact h
  exact ⟨((evaluate_right_iff true false fiveBinding (divideBy 2) (divideBy_wf 2)).2 hwraps).2 hfolds,
    (evaluate_right_iff true true fiveBinding (divideBy 0) (divideBy_wf 0)).1 (.inl ⟨rfl, rfl, rfl⟩)⟩

omit [ExprOptions] in
/-- The byte divided by zero fails instead of being left alone, and a constant that is not to be optimised is not unwrapped. -/
theorem not_evaluate_right :
    let _ : ExprOptions := ExprOptions.defaults
    ((divideBy 0).WF ∧ evaluate true false fiveBinding (divideBy 0) = none ∧
        ¬EvaluatedRight true false fiveBinding (divideBy 0)) ∧
      (Expr.notOptimized (.const 5#8)).WF ∧
        evaluate true false [] (.notOptimized (.const 5#8)) = some (.notOptimized (.const 5#8)) ∧
        ¬EvaluatedRight true false [] (.notOptimized (.const 5#8)) := by
  intro _
  have hfails : evaluate true false fiveBinding (divideBy 0) = none := by
    rfl
  have hwrapped : evaluate true false [] (.notOptimized (.const 5#8)) = some (.notOptimized (.const 5#8)) := by
    rfl
  refine ⟨⟨divideBy_wf 0, hfails, fun hright => hright.neverRaises hfails⟩, trivial, hwrapped, fun hright => ?_⟩
  have hconst := hright.constant trivial trivial
  rw [hwrapped] at hconst
  cases hconst

end

end ExprVisitor

end SymBisect
