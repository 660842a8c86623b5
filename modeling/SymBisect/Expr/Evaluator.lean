import SymBisect.Expr.Reads
import SymBisect.Expr.ConstraintsSound

/-!
# Evaluating under concrete bytes

`Assignment` of `include/klee/Expr/Assignment.h` binds arrays to bytes, and its `evaluate` is the visitor
`ExprEvaluator` of `lib/Expr/ExprEvaluator.cpp`.  The evaluator is partial: it leaves a division alone when the
divisor evaluates to zero, and a `NotOptimizedExpr` that was built around a constant.

* `visitWith_refinesOn`: whatever the initial bytes are evaluated to, what is returned has the value of the expression,
  wherever that has one.
* `visitWith_isConstant`: it is a constant when the expression evaluates and no wrapped constant is visited.
-/

namespace SymBisect

open Expr

/-- `Assignment::bindings`; a later binding of an array does not replace an earlier one. -/
abbrev Bindings := List (Array × List (BitVec 8))

namespace Bindings

/-- `bindings.find`. -/
def find (b : Bindings) (array : Array) : Option (List (BitVec 8)) := b.lookup array

/-- The byte that `Assignment::evaluate` returns for an array and an index: zero when there is no binding, since
free values are not allowed. -/
def byte (b : Bindings) (array : Array) (index : ℕ) : BitVec 8 :=
  match b.find array with
  | some bytes => if h : index < bytes.length then bytes.get ⟨index, h⟩ else 0
  | none => 0

/-- An array without a binding reads as one bound to zeros. -/
theorem byte_eq_getD (b : Bindings) (array : Array) (index : ℕ) :
    b.byte array index = ((b.find array).getD (List.replicate array.size 0)).getD index 0 := by
  unfold byte
  cases b.find array with
  | none =>
    simp only [Option.getD_none, List.getD_eq_getElem?_getD]
    by_cases h : index < array.size
    · simp [h]
    · simp [h]
  | some bytes =>
    simp only [Option.getD_some, List.getD_eq_getElem?_getD]
    by_cases h : index < bytes.length
    · simp [h]
    · simp [h]

/-- The bytes of all arrays. -/
def toAssignment (b : Bindings) : Assignment := fun array index => b.byte array index

end Bindings

/-- A `NotOptimizedExpr` is built around something else than a constant. -/
def Expr.Plain (e : Expr) : Prop := ∀ src, Expr.notOptimized src ∈ e.subexprs → src.isConstant = false

mutual

/-- The bytes that the value of an expression depends on are in `B`. -/
def Expr.ReadsOnly (B : Array → ℕ → Prop) (a : Assignment) : Expr → Prop
  | .const _ => True
  | .notOptimized src => src.ReadsOnly B a
  | .read updates index => index.ReadsOnly B a ∧ updates.ReadsOnlyAt B a (index.eval a 32).toNat
  | .select c t f => c.ReadsOnly B a ∧ t.ReadsOnly B a ∧ f.ReadsOnly B a
  | .concat l r => l.ReadsOnly B a ∧ r.ReadsOnly B a
  | .extract e _ _ => e.ReadsOnly B a
  | .zext src _ => src.ReadsOnly B a
  | .sext src _ => src.ReadsOnly B a
  | .not e => e.ReadsOnly B a
  | .bin _ l r => l.ReadsOnly B a ∧ r.ReadsOnly B a
  | .cmp _ l r => l.ReadsOnly B a ∧ r.ReadsOnly B a

/-- The same of the byte at an index of an update list. -/
def UpdateList.ReadsOnlyAt (B : Array → ℕ → Prop) (a : Assignment) : UpdateList → ℕ → Prop
  | .root arr, i => arr.constantValues[i]? = none → B arr i
  | .extend next index value, i =>
    index.ReadsOnly B a ∧ if (index.eval a 32).toNat = i then value.ReadsOnly B a else next.ReadsOnlyAt B a i

end

mutual

/-- All bytes are allowed. -/
theorem Expr.readsOnly_all {B : Array → ℕ → Prop} {a : Assignment} (hB : ∀ arr i, B arr i) (e : Expr) : e.ReadsOnly B a := by
  match e with
  | .const v => trivial
  | .notOptimized src => exact Expr.readsOnly_all hB src
  | .read updates index => exact ⟨Expr.readsOnly_all hB index, UpdateList.readsOnlyAt_all hB updates _⟩
  | .select c t f => exact ⟨Expr.readsOnly_all hB c, Expr.readsOnly_all hB t, Expr.readsOnly_all hB f⟩
  | .concat l r => exact ⟨Expr.readsOnly_all hB l, Expr.readsOnly_all hB r⟩
  | .extract src _ _ => exact Expr.readsOnly_all hB src
  | .zext src _ => exact Expr.readsOnly_all hB src
  | .sext src _ => exact Expr.readsOnly_all hB src
  | .not src => exact Expr.readsOnly_all hB src
  | .bin _ l r => exact ⟨Expr.readsOnly_all hB l, Expr.readsOnly_all hB r⟩
  | .cmp _ l r => exact ⟨Expr.readsOnly_all hB l, Expr.readsOnly_all hB r⟩

theorem UpdateList.readsOnlyAt_all {B : Array → ℕ → Prop} {a : Assignment} (hB : ∀ arr i, B arr i) (ul : UpdateList) (i : ℕ) : ul.ReadsOnlyAt B a i := by
  match ul with
  | .root arr => exact fun _ => hB arr i
  | .extend next index value =>
    refine ⟨Expr.readsOnly_all hB index, ?_⟩
    split
    · exact Expr.readsOnly_all hB value
    · exact UpdateList.readsOnlyAt_all hB next i

end

namespace ExprEvaluator

/-- `visitExprPost`. -/
def visitExprPost : Expr → Expr
  | .notOptimized src => src
  | e => e

/-- `isa<ConstantExpr>(e) && e->isZero()`. -/
def isZero : Expr → Bool
  | .const v => v == 0
  | _ => false

section

variable [ExprOptions]

/-- An expression that is no read and no division: `visitExpr` rebuilds it when its kids are constants, and else
it is rebuilt when a kid has changed. -/
def visitNode (e visited : Expr) : Expr :=
  if e.kids.all isConstant then e.rebuild
  else visitExprPost (if visited = e then e else visited.rebuild)

/-- `protectedDivOperation`. -/
def visitDivision (op : BinOp) (l r l' r' : Expr) : Expr :=
  let e := Expr.bin op l r
  if e.kids.all isConstant then e.rebuild
  else
    let visited := Expr.bin op l' (if isZero r' then r else r')
    if visited = e then e else visited.rebuild

variable (b : Bindings)

mutual

/-- `visit`. -/
def visit : Expr → Expr
  | .const v => .const v
  | .notOptimized src => visitNode (.notOptimized src) (.notOptimized (visit src))
  | .read updates index =>
    match visit index with
    | .const v => evalRead updates v.toNat
    | v => visitExprPost (if v = index then .read updates index else ReadExpr.create updates v)
  | .select c t f => visitNode (.select c t f) (.select (visit c) (visit t) (visit f))
  | .concat l r => visitNode (.concat l r) (.concat (visit l) (visit r))
  | .extract e off w => visitNode (.extract e off w) (.extract (visit e) off w)
  | .zext src w => visitNode (.zext src w) (.zext (visit src) w)
  | .sext src w => visitNode (.sext src w) (.sext (visit src) w)
  | .not e => visitNode (.not e) (.not (visit e))
  | .bin op l r =>
    if op.isDivision then visitDivision op l r (visit l) (visit r)
    else visitNode (.bin op l r) (.bin op (visit l) (visit r))
  | .cmp op l r => visitNode (.cmp op l r) (.cmp op (visit l) (visit r))

/-- `evalRead`. -/
def evalRead : UpdateList → ℕ → Expr
  | .root arr, index =>
    match arr.constantValues[index]? with
    | some v => .const v
    | none => .const (b.byte arr index)
  | .extend next i value, index =>
    match visit i with
    | .const v => if v.toNat = index then visit value else evalRead next index
    | _ => ReadExpr.create (.extend next i value) (.const (BitVec.ofNat 32 index))

end

/-! The class `ExprEvaluator` itself: its subclass says what the initial bytes are. -/

variable (getInitialValue : Array → ℕ → Expr)

mutual

/-- `visit`, where the initial bytes are given by expressions. -/
def visitWith : Expr → Expr
  | .const v => .const v
  | .notOptimized src => visitNode (.notOptimized src) (.notOptimized (visitWith src))
  | .read updates index =>
    match visitWith index with
    | .const v => evalReadWith updates v.toNat
    | v => visitExprPost (if v = index then .read updates index else ReadExpr.create updates v)
  | .select c t f => visitNode (.select c t f) (.select (visitWith c) (visitWith t) (visitWith f))
  | .concat l r => visitNode (.concat l r) (.concat (visitWith l) (visitWith r))
  | .extract e off w => visitNode (.extract e off w) (.extract (visitWith e) off w)
  | .zext src w => visitNode (.zext src w) (.zext (visitWith src) w)
  | .sext src w => visitNode (.sext src w) (.sext (visitWith src) w)
  | .not e => visitNode (.not e) (.not (visitWith e))
  | .bin op l r =>
    if op.isDivision then visitDivision op l r (visitWith l) (visitWith r)
    else visitNode (.bin op l r) (.bin op (visitWith l) (visitWith r))
  | .cmp op l r => visitNode (.cmp op l r) (.cmp op (visitWith l) (visitWith r))

/-- `evalRead`, where the initial bytes are given by expressions. -/
def evalReadWith : UpdateList → ℕ → Expr
  | .root arr, index =>
    match arr.constantValues[index]? with
    | some v => .const v
    | none => getInitialValue arr index
  | .extend next i value, index =>
    match visitWith i with
    | .const v => if v.toNat = index then visitWith value else evalReadWith next index
    | _ => ReadExpr.create (.extend next i value) (.const (BitVec.ofNat 32 index))

end

mutual

/-- The evaluation visits an expression for which `S` holds.  Of an update list it visits what it walks over. -/
def VisitsSome (S : Expr → Prop) : Expr → Prop
  | .const _ => False
  | .notOptimized src => S (.notOptimized src) ∨ VisitsSome S src
  | .read updates index =>
    S (.read updates index) ∨ VisitsSome S index ∨
      match visitWith getInitialValue index with
      | .const v => WalkVisitsSome S updates v.toNat
      | _ => False
  | .select c t f => S (.select c t f) ∨ VisitsSome S c ∨ VisitsSome S t ∨ VisitsSome S f
  | .concat l r => S (.concat l r) ∨ VisitsSome S l ∨ VisitsSome S r
  | .extract e off w => S (.extract e off w) ∨ VisitsSome S e
  | .zext src w => S (.zext src w) ∨ VisitsSome S src
  | .sext src w => S (.sext src w) ∨ VisitsSome S src
  | .not e => S (.not e) ∨ VisitsSome S e
  | .bin op l r => S (.bin op l r) ∨ VisitsSome S l ∨ VisitsSome S r
  | .cmp op l r => S (.cmp op l r) ∨ VisitsSome S l ∨ VisitsSome S r

/-- The same of the walk along an update list. -/
def WalkVisitsSome (S : Expr → Prop) : UpdateList → ℕ → Prop
  | .root _, _ => False
  | .extend next i value, index =>
    VisitsSome S i ∨
      match visitWith getInitialValue i with
      | .const v => if v.toNat = index then VisitsSome S value else WalkVisitsSome S next index
      | _ => False

end

mutual

/-- The bytes of an assignment are constants. -/
theorem visit_eq (e : Expr) : visit b e = visitWith (fun arr i => .const (b.byte arr i)) e := by
  match e with
  | .const v => rw [visit, visitWith]
  | .notOptimized src => rw [visit, visitWith, visit_eq src]
  | .read updates index =>
    rw [visit, visitWith, visit_eq index]
    cases visitWith (fun arr i => .const (b.byte arr i)) index with
    | const v => exact evalRead_eq updates v.toNat
    | _ => rfl
  | .select c t f => rw [visit, visitWith, visit_eq c, visit_eq t, visit_eq f]
  | .concat l r => rw [visit, visitWith, visit_eq l, visit_eq r]
  | .extract src off w => rw [visit, visitWith, visit_eq src]
  | .zext src w => rw [visit, visitWith, visit_eq src]
  | .sext src w => rw [visit, visitWith, visit_eq src]
  | .not src => rw [visit, visitWith, visit_eq src]
  | .bin op l r => rw [visit, visitWith, visit_eq l, visit_eq r]
  | .cmp op l r => rw [visit, visitWith, visit_eq l, visit_eq r]

theorem evalRead_eq (ul : UpdateList) (i : ℕ) : evalRead b ul i = evalReadWith (fun arr i => .const (b.byte arr i)) ul i := by
  match ul with
  | .root arr => rw [evalRead, evalReadWith]
  | .extend next index value =>
    rw [evalRead, evalReadWith, visit_eq index, visit_eq value, evalRead_eq next]

end

end

end ExprEvaluator

/-- `Assignment::evaluate`. -/
def Bindings.evaluate [ExprOptions] (b : Bindings) (e : Expr) : Expr := ExprEvaluator.visit b e

/-- `Assignment::satisfies`. -/
def Bindings.satisfies [ExprOptions] (b : Bindings) (key : List Expr) : Bool := key.all fun e => (b.evaluate e).isTrue

namespace ExprEvaluator

/-! ### The value -/

variable {P : Assignment → Prop} {e visited : Expr} {b : Bindings} {getInitialValue : Array → ℕ → Expr}

theorem visitExprPost_refinesOn (h : e.RefinesOn P visited) : e.RefinesOn P (visitExprPost visited) := by
  cases visited with
  | notOptimized src =>
    exact ⟨⟨h.hasWidth.wf, h.hasWidth.width⟩, fun hp hd => ⟨(h.denotes hp hd).1, (h.denotes hp hd).2⟩⟩
  | _ => exact h

variable [ExprOptions]

theorem visitNode_refinesOn (hwf : e.WF) (h : e.RefinesOn P visited) : e.RefinesOn P (visitNode e visited) := by
  unfold visitNode
  split
  · exact (rebuild_refines hwf).on
  · exact visitExprPost_refinesOn (rebuilt_refinesOn hwf h)

theorem visitDivision_refinesOn {op : BinOp} {l r l' r' : Expr} (hwf : (Expr.bin op l r).WF)
    (hl : l.RefinesOn P l') (hr : r.RefinesOn P r') : (Expr.bin op l r).RefinesOn P (visitDivision op l r l' r') := by
  have hr' : r.RefinesOn P (if isZero r' then r else r') := by
    split
    · exact .refl hwf.2.1
    · exact hr
  unfold visitDivision
  simp only
  split
  · exact (rebuild_refines hwf).on
  · exact rebuilt_refinesOn hwf (.bin hwf hl hr')

/-- The initial bytes have their values under the assignments in `P`. -/
def Initial (P : Assignment → Prop) (getInitialValue : Array → ℕ → Expr) : Prop :=
  ∀ arr i, i < 2 ^ 32 → arr.constantValues[i]? = none → (getInitialValue arr i).HasWidth 8 ∧
    ∀ a, P a → (UpdateList.root arr).DefinedAt a i → (getInitialValue arr i).Denotes a (a arr i)

mutual

/-- **Evaluation.**  The result has the value of the expression where the initial bytes have theirs. -/
theorem visitWith_refinesOn (hinit : Initial P getInitialValue) (e : Expr) (hwf : e.WF) :
    e.RefinesOn P (visitWith getInitialValue e) := by
  match e with
  | .const v => exact .refl hwf
  | .notOptimized src =>
    have hs := visitWith_refinesOn hinit src hwf
    rw [visitWith]
    exact visitNode_refinesOn hwf (mapKids_refinesOn (e := .notOptimized src) hwf
      (f := fun kid _ => visitWith getInitialValue kid)
      fun kid hk => by obtain rfl := List.mem_singleton.1 hk; exact hs)
  | .read updates index =>
    have hi := visitWith_refinesOn hinit index hwf.2.1
    have hu := evalReadWith_denotes hinit updates hwf.1
    rw [visitWith]
    cases hv : visitWith getInitialValue index with
    | const v =>
      rw [hv] at hi
      obtain rfl : _ = 32 := hi.hasWidth.width.trans hwf.2.2
      obtain ⟨hw, hden⟩ := hu v.toNat v.isLt
      refine ⟨hw, fun {a} hp hd => ?_⟩
      have hval := (hi.denotes_of hp ⟨hwf.2.1, hwf.2.2⟩ (.self hd.1 32)).const_eq
      have hread : (Expr.read updates index).eval a 8 = updates.evalAt a v.toNat := by
        rw [Expr.eval, BitVec.setWidth_eq, hval]
      have hdef := hden a hp (by rw [hval]; exact hd.2)
      exact ⟨hdef.defined, hdef.value.trans hread.symm⟩
    | _ =>
      rw [hv] at hi
      refine visitExprPost_refinesOn ?_
      have hread := mapKids_refinesOn (e := .read updates index) hwf (f := fun kid _ => visitWith getInitialValue kid)
        fun kid hk => by obtain rfl := List.mem_singleton.1 hk; exact hv ▸ hi
      split
      · exact .refl hwf
      · exact hv ▸ hread.trans (rebuild_refines hread.hasWidth.wf).on
  | .select c t f =>
    have hc := visitWith_refinesOn hinit c hwf.1
    have ht := visitWith_refinesOn hinit t hwf.2.1
    have hf := visitWith_refinesOn hinit f hwf.2.2.1
    rw [visitWith]
    exact visitNode_refinesOn hwf (mapKids_refinesOn (e := .select c t f) hwf
      (f := fun kid _ => visitWith getInitialValue kid)
      fun kid hk => by
        simp only [kids, List.mem_cons, List.not_mem_nil, or_false] at hk
        obtain rfl | rfl | rfl := hk
        · exact hc
        · exact ht
        · exact hf)
  | .concat l r =>
    have hl := visitWith_refinesOn hinit l hwf.1
    have hr := visitWith_refinesOn hinit r hwf.2
    rw [visitWith]
    exact visitNode_refinesOn hwf (mapKids_refinesOn (e := .concat l r) hwf
      (f := fun kid _ => visitWith getInitialValue kid)
      fun kid hk => by
        simp only [kids, List.mem_cons, List.not_mem_nil, or_false] at hk
        obtain rfl | rfl := hk
        · exact hl
        · exact hr)
  | .extract src off w =>
    have hs := visitWith_refinesOn hinit src hwf.1
    rw [visitWith]
    exact visitNode_refinesOn hwf (mapKids_refinesOn (e := .extract src off w) hwf
      (f := fun kid _ => visitWith getInitialValue kid)
      fun kid hk => by obtain rfl := List.mem_singleton.1 hk; exact hs)
  | .zext src w =>
    have hs := visitWith_refinesOn hinit src hwf.1
    rw [visitWith]
    exact visitNode_refinesOn hwf (mapKids_refinesOn (e := .zext src w) hwf
      (f := fun kid _ => visitWith getInitialValue kid)
      fun kid hk => by obtain rfl := List.mem_singleton.1 hk; exact hs)
  | .sext src w =>
    have hs := visitWith_refinesOn hinit src hwf.1
    rw [visitWith]
    exact visitNode_refinesOn hwf (mapKids_refinesOn (e := .sext src w) hwf
      (f := fun kid _ => visitWith getInitialValue kid)
      fun kid hk => by obtain rfl := List.mem_singleton.1 hk; exact hs)
  | .not src =>
    have hs := visitWith_refinesOn hinit src hwf
    rw [visitWith]
    exact visitNode_refinesOn hwf (mapKids_refinesOn (e := .not src) hwf (f := fun kid _ => visitWith getInitialValue kid)
      fun kid hk => by obtain rfl := List.mem_singleton.1 hk; exact hs)
  | .bin op l r =>
    have hl := visitWith_refinesOn hinit l hwf.1
    have hr := visitWith_refinesOn hinit r hwf.2.1
    rw [visitWith]
    split
    · exact visitDivision_refinesOn hwf hl hr
    · exact visitNode_refinesOn hwf (.bin hwf hl hr)
  | .cmp op l r =>
    have hl := visitWith_refinesOn hinit l hwf.1
    have hr := visitWith_refinesOn hinit r hwf.2.1
    rw [visitWith]
    exact visitNode_refinesOn hwf (mapKids_refinesOn (e := .cmp op l r) hwf
      (f := fun kid _ => visitWith getInitialValue kid)
      fun kid hk => by
        simp only [kids, List.mem_cons, List.not_mem_nil, or_false] at hk
        obtain rfl | rfl := hk
        · exact hl
        · exact hr)

theorem evalReadWith_denotes (hinit : Initial P getInitialValue) (ul : UpdateList) (hwf : ul.WF) (i : ℕ) (hi : i < 2 ^ 32) :
    (evalReadWith getInitialValue ul i).HasWidth 8 ∧ ∀ a, P a → ul.DefinedAt a i →
      (evalReadWith getInitialValue ul i).Denotes a (ul.evalAt a i) := by
  match ul with
  | .root arr =>
    have hroot := hinit arr i hi
    rw [evalReadWith]
    cases hc : arr.constantValues[i]? with
    | some v =>
      refine ⟨hasWidth_const v, fun a _ _ => ?_⟩
      rw [UpdateList.evalAt, Array.initialValue, hc]
      exact denotes_const _
    | none =>
      refine ⟨(hroot hc).1, fun a hp hd => ?_⟩
      rw [UpdateList.evalAt, Array.initialValue, hc]
      exact (hroot hc).2 a hp hd
  | .extend next index value =>
    obtain ⟨hnext, hiwf, hiw, hvwf, hvw⟩ := hwf
    have hx := visitWith_refinesOn hinit index hiwf
    have hv := visitWith_refinesOn hinit value hvwf
    have hn := evalReadWith_denotes hinit next hnext i hi
    rw [evalReadWith]
    cases hc : visitWith getInitialValue index with
    | const v =>
      rw [hc] at hx
      obtain rfl : _ = 32 := hx.hasWidth.width.trans hiw
      have hval : ∀ a, P a → index.Defined a → v = index.eval a 32 := fun a hp hd =>
        (hx.denotes_of hp ⟨hiwf, hiw⟩ (.self hd 32)).const_eq
      simp only
      by_cases hvi : v.toNat = i
      · rw [if_pos hvi]
        refine ⟨⟨hv.hasWidth.wf, hv.hasWidth.width.trans hvw⟩, fun a hp hd => ?_⟩
        have hpos : (index.eval a 32).toNat = i := by rw [← hval a hp hd.1, hvi]
        have hdv := hd.2
        rw [if_pos hpos] at hdv
        rw [UpdateList.evalAt, if_pos hpos]
        exact hv.denotes_of hp ⟨hvwf, hvw⟩ (.self hdv 8)
      · rw [if_neg hvi]
        refine ⟨hn.1, fun a hp hd => ?_⟩
        have hneg : ¬ (index.eval a 32).toNat = i := by rw [← hval a hp hd.1]; exact hvi
        have hdn := hd.2
        rw [if_neg hneg] at hdn
        rw [UpdateList.evalAt, if_neg hneg]
        exact hn.2 a hp hdn
    | _ =>
      have hread := ReadExpr.create_computes
        (show (UpdateList.extend next index value).WF from ⟨hnext, hiwf, hiw, hvwf, hvw⟩)
        (hasWidth_const (BitVec.ofNat 32 i))
      refine ⟨hread.hasWidth, fun a _ hd => ?_⟩
      have hidx : ((Expr.const (BitVec.ofNat 32 i)).eval a 32).toNat = i := by
        rw [Expr.eval, BitVec.setWidth_eq, BitVec.toNat_ofNat, Nat.mod_eq_of_lt hi]
      have hden := hread.denotes (a := a) trivial (by rw [hidx]; exact hd)
      rw [hidx] at hden
      exact hden

end

omit [ExprOptions] in
theorem initial_byte : Initial (· = b.toAssignment) fun arr i => .const (b.byte arr i) := fun _ _ _ _ =>
  ⟨hasWidth_const _, fun _ ha _ => ha ▸ denotes_const _⟩

/-- The result has the value of the expression under the bound bytes. -/
theorem visit_refinesOn (e : Expr) (hwf : e.WF) : e.RefinesOn (· = b.toAssignment) (visit b e) := by
  rw [visit_eq]
  exact visitWith_refinesOn initial_byte e hwf

/-! ### Constants -/

theorem BinOp.create_isConstant (op : BinOp) {w w' : ℕ} (x : BitVec w) (y : BitVec w') :
    (op.create (.const x) (.const y)).isConstant = true := by
  cases op with
  | add => simp [BinOp.create, AddExpr.create_eq, bcreateR, isConstant]
  | sub => simp [BinOp.create, SubExpr.create_eq, bcreateR, isConstant]
  | mul => rfl
  | udiv => rfl
  | sdiv => rfl
  | urem => rfl
  | srem => rfl
  | and => rfl
  | or => rfl
  | xor => rfl
  | shl => rfl
  | lshr => rfl
  | ashr => rfl

theorem EqExpr.create_isConstant {w w' : ℕ} (x : BitVec w) (y : BitVec w') :
    EqExpr.create (.const x) (.const y) = ofBool (x == y.setWidth w) := by
  rw [EqExpr.create, EqExpr.createConst]

theorem CmpOp.create_isConstant (op : CmpOp) {w w' : ℕ} (x : BitVec w) (y : BitVec w') :
    (op.create (.const x) (.const y)).isConstant = true := by
  cases op with
  | eq => rw [CmpOp.create, EqExpr.create_isConstant]; rfl
  | ne => rw [CmpOp.create, NeExpr.create, EqExpr.create_isConstant, ofBool, ofBool, EqExpr.create_isConstant]; rfl
  | ult => rfl
  | ule => rfl
  | ugt => rfl
  | uge => rfl
  | slt => rfl
  | sle => rfl
  | sgt => rfl
  | sge => rfl

omit [ExprOptions] in
theorem ExtractExpr.create_isConstant {w : ℕ} (x : BitVec w) (off k : ℕ) :
    (ExtractExpr.create (.const x) off k).isConstant = true := by
  rw [ExtractExpr.create, ExtractExpr.createAux]
  split
  · rfl
  · rfl

/-- A node over constants folds, unless it is a read or a `NotOptimizedExpr`. -/
theorem rebuild_isConstant (e : Expr) (hkids : e.kids.all isConstant = true)
    (hread : ∀ updates index, e ≠ .read updates index) (hopt : ∀ src, e ≠ .notOptimized src) :
    e.rebuild.isConstant = true := by
  cases e with
  | const v => rfl
  | notOptimized src => exact absurd rfl (hopt src)
  | read updates index => exact absurd rfl (hread updates index)
  | select c t f =>
    simp only [kids, List.all_cons, List.all_nil, Bool.and_true, Bool.and_eq_true] at hkids
    cases c with
    | const v =>
      rw [rebuild, SelectExpr.create]
      split
      · exact hkids.2.1
      · exact hkids.2.2
    | _ => cases hkids.1
  | concat l r =>
    simp only [kids, List.all_cons, List.all_nil, Bool.and_true, Bool.and_eq_true] at hkids
    cases l with
    | const x => cases r with
      | const y => rfl
      | _ => cases hkids.2
    | _ => cases hkids.1
  | extract e off w =>
    simp only [kids, List.all_cons, List.all_nil, Bool.and_true] at hkids
    cases e with
    | const x => exact ExtractExpr.create_isConstant x off w
    | _ => cases hkids
  | zext e w =>
    simp only [kids, List.all_cons, List.all_nil, Bool.and_true] at hkids
    cases e with
    | const x =>
      rw [rebuild, ZExtExpr.create]
      split
      · rfl
      split
      · exact ExtractExpr.create_isConstant x 0 w
      · rfl
    | _ => cases hkids
  | sext e w =>
    simp only [kids, List.all_cons, List.all_nil, Bool.and_true] at hkids
    cases e with
    | const x =>
      rw [rebuild, SExtExpr.create]
      split
      · rfl
      split
      · exact ExtractExpr.create_isConstant x 0 w
      · rfl
    | _ => cases hkids
  | not e =>
    simp only [kids, List.all_cons, List.all_nil, Bool.and_true] at hkids
    cases e with
    | const x => rfl
    | _ => cases hkids
  | bin op l r =>
    simp only [kids, List.all_cons, List.all_nil, Bool.and_true, Bool.and_eq_true] at hkids
    cases l with
    | const x => cases r with
      | const y => exact BinOp.create_isConstant op x y
      | _ => cases hkids.2
    | _ => cases hkids.1
  | cmp op l r =>
    simp only [kids, List.all_cons, List.all_nil, Bool.and_true, Bool.and_eq_true] at hkids
    cases l with
    | const x => cases r with
      | const y => exact CmpOp.create_isConstant op x y
      | _ => cases hkids.2
    | _ => cases hkids.1

omit [ExprOptions] in
theorem visitExprPost_isConstant (h : e.isConstant = true) : (visitExprPost e).isConstant = true := by
  cases e with
  | const v => rfl
  | _ => cases h

/-- A node whose visited kids are constants is visited to a constant. -/
theorem visitNode_isConstant (hvisited : visited.kids.all isConstant = true)
    (hread : ∀ updates index, visited ≠ .read updates index) (hopt : ∀ src, visited ≠ .notOptimized src)
    (hself : e.kids.all isConstant = true → visited = e) : (visitNode e visited).isConstant = true := by
  unfold visitNode
  split
  · rename_i hall
    rw [← hself hall]
    exact rebuild_isConstant visited hvisited hread hopt
  · rename_i hall
    have hne : visited ≠ e := fun heq => hall (heq ▸ hvisited)
    rw [if_neg hne]
    exact visitExprPost_isConstant (rebuild_isConstant visited hvisited hread hopt)

theorem visitWith_const_of_isConstant (h : e.isConstant = true) : visitWith getInitialValue e = e := by
  cases e with
  | const v => rw [visitWith]
  | _ => cases h

/-- A `NotOptimizedExpr` around a constant. -/
def WrapsConstant : Expr → Prop
  | .notOptimized src => src.isConstant = true
  | _ => False

/-- The initial bytes have their values, and those in `B` are constants. -/
structure Known (P : Assignment → Prop) (B : Array → ℕ → Prop) (getInitialValue : Array → ℕ → Expr) : Prop where
  initial : Initial P getInitialValue
  isConstant : ∀ arr i, B arr i → (getInitialValue arr i).isConstant = true

variable {B : Array → ℕ → Prop} {a : Assignment}

mutual

/-- An expression that evaluates, whose bytes are in `B` and which wraps no constant, is evaluated to a constant. -/
theorem visitWith_isConstant (h : Known P B getInitialValue) (hp : P a) (e : Expr) (hwf : e.WF)
    (hvis : ¬VisitsSome getInitialValue WrapsConstant e) (hd : e.Defined a) (hb : e.ReadsOnly B a) :
    (visitWith getInitialValue e).isConstant = true := by
  match e with
  | .const v => rw [visitWith]; rfl
  | .notOptimized src =>
    rw [VisitsSome, not_or] at hvis
    have hs := visitWith_isConstant h hp src hwf hvis.2 hd hb
    have hsrc : ¬src.isConstant = true := hvis.1
    rw [visitWith, visitNode, if_neg (by simp [kids, hsrc])]
    split
    · rename_i heq
      injection heq with heq
      exact heq ▸ hs
    · exact hs
  | .read updates index =>
    rw [VisitsSome, not_or, not_or] at hvis
    have hi := visitWith_isConstant h hp index hwf.2.1 hvis.2.1 hd.1 hb.1
    have hval := visitWith_refinesOn h.initial index hwf.2.1
    have hwalk := hvis.2.2
    rw [visitWith]
    cases hv : visitWith getInitialValue index with
    | const v =>
      rw [hv] at hval hwalk
      obtain rfl : _ = 32 := hval.hasWidth.width.trans hwf.2.2
      have hveq := (hval.denotes_of hp ⟨hwf.2.1, hwf.2.2⟩ (.self hd.1 32)).const_eq
      exact evalReadWith_isConstant h hp updates hwf.1 v.toNat hwalk (by rw [hveq]; exact hd.2) (by rw [hveq]; exact hb.2)
    | _ => rw [hv] at hi; cases hi
  | .select c t f =>
    rw [VisitsSome, not_or, not_or, not_or] at hvis
    have hc := visitWith_isConstant h hp c hwf.1 hvis.2.1 hd.1 hb.1
    have ht := visitWith_isConstant h hp t hwf.2.1 hvis.2.2.1 hd.2.1 hb.2.1
    have hf := visitWith_isConstant h hp f hwf.2.2.1 hvis.2.2.2 hd.2.2 hb.2.2
    rw [visitWith]
    refine visitNode_isConstant (by simp [kids, hc, ht, hf]) (fun _ _ h => nomatch h) (fun _ h => nomatch h)
      fun hall => ?_
    simp only [kids, List.all_cons, List.all_nil, Bool.and_true, Bool.and_eq_true] at hall
    rw [visitWith_const_of_isConstant hall.1, visitWith_const_of_isConstant hall.2.1,
      visitWith_const_of_isConstant hall.2.2]
  | .concat l r =>
    rw [VisitsSome, not_or, not_or] at hvis
    have hl := visitWith_isConstant h hp l hwf.1 hvis.2.1 hd.1 hb.1
    have hr := visitWith_isConstant h hp r hwf.2 hvis.2.2 hd.2 hb.2
    rw [visitWith]
    refine visitNode_isConstant (by simp [kids, hl, hr]) (fun _ _ h => nomatch h) (fun _ h => nomatch h) fun hall => ?_
    simp only [kids, List.all_cons, List.all_nil, Bool.and_true, Bool.and_eq_true] at hall
    rw [visitWith_const_of_isConstant hall.1, visitWith_const_of_isConstant hall.2]
  | .extract src off w =>
    rw [VisitsSome, not_or] at hvis
    have hs := visitWith_isConstant h hp src hwf.1 hvis.2 hd hb
    rw [visitWith]
    refine visitNode_isConstant (by simp [kids, hs]) (fun _ _ h => nomatch h) (fun _ h => nomatch h) fun hall => ?_
    simp only [kids, List.all_cons, List.all_nil, Bool.and_true] at hall
    rw [visitWith_const_of_isConstant hall]
  | .zext src w =>
    rw [VisitsSome, not_or] at hvis
    have hs := visitWith_isConstant h hp src hwf.1 hvis.2 hd hb
    rw [visitWith]
    refine visitNode_isConstant (by simp [kids, hs]) (fun _ _ h => nomatch h) (fun _ h => nomatch h) fun hall => ?_
    simp only [kids, List.all_cons, List.all_nil, Bool.and_true] at hall
    rw [visitWith_const_of_isConstant hall]
  | .sext src w =>
    rw [VisitsSome, not_or] at hvis
    have hs := visitWith_isConstant h hp src hwf.1 hvis.2 hd hb
    rw [visitWith]
    refine visitNode_isConstant (by simp [kids, hs]) (fun _ _ h => nomatch h) (fun _ h => nomatch h) fun hall => ?_
    simp only [kids, List.all_cons, List.all_nil, Bool.and_true] at hall
    rw [visitWith_const_of_isConstant hall]
  | .not src =>
    rw [VisitsSome, not_or] at hvis
    have hs := visitWith_isConstant h hp src hwf hvis.2 hd hb
    rw [visitWith]
    refine visitNode_isConstant (by simp [kids, hs]) (fun _ _ h => nomatch h) (fun _ h => nomatch h) fun hall => ?_
    simp only [kids, List.all_cons, List.all_nil, Bool.and_true] at hall
    rw [visitWith_const_of_isConstant hall]
  | .bin op l r =>
    rw [VisitsSome, not_or, not_or] at hvis
    have hl := visitWith_isConstant h hp l hwf.1 hvis.2.1 hd.1 hb.1
    have hr := visitWith_isConstant h hp r hwf.2.1 hvis.2.2 hd.2.1 hb.2
    have hself : (Expr.bin op l r).kids.all isConstant = true →
        Expr.bin op (visitWith getInitialValue l) (visitWith getInitialValue r) = .bin op l r := by
      intro hall
      simp only [kids, List.all_cons, List.all_nil, Bool.and_true, Bool.and_eq_true] at hall
      rw [visitWith_const_of_isConstant hall.1, visitWith_const_of_isConstant hall.2]
    have hkids : (Expr.bin op (visitWith getInitialValue l) (visitWith getInitialValue r)).kids.all isConstant = true := by
      simp [kids, hl, hr]
    have hnode := visitNode_isConstant hkids (fun _ _ h => nomatch h) (fun _ h => nomatch h) hself
    rw [visitWith]
    by_cases hdiv : op.isDivision = true
    · rw [if_pos hdiv]
      -- the divisor is a constant that is not zero
      have hzero : isZero (visitWith getInitialValue r) = false := by
        have hval := visitWith_refinesOn h.initial r hwf.2.1
        cases hv : visitWith getInitialValue r with
        | const v =>
          rw [hv] at hval
          obtain rfl : _ = r.getWidth := hval.hasWidth.width
          have hveq := (hval.denotes hp hd.2.1).const_eq
          rw [isZero, beq_eq_false_iff_ne, hveq]
          exact hd.2.2 hdiv
        | _ => rfl
      unfold visitNode at hnode
      unfold visitDivision
      simp only [hzero, Bool.false_eq_true, if_false]
      split
      · rename_i hall
        rw [if_pos hall] at hnode
        exact hnode
      · rename_i hall
        have hne : Expr.bin op (visitWith getInitialValue l) (visitWith getInitialValue r) ≠ .bin op l r := fun heq =>
          hall (heq ▸ hkids)
        rw [if_neg hne]
        exact rebuild_isConstant _ hkids (fun _ _ h => nomatch h) (fun _ h => nomatch h)
    · rw [if_neg hdiv]
      exact hnode
  | .cmp op l r =>
    rw [VisitsSome, not_or, not_or] at hvis
    have hl := visitWith_isConstant h hp l hwf.1 hvis.2.1 hd.1 hb.1
    have hr := visitWith_isConstant h hp r hwf.2.1 hvis.2.2 hd.2 hb.2
    rw [visitWith]
    refine visitNode_isConstant (by simp [kids, hl, hr]) (fun _ _ h => nomatch h) (fun _ h => nomatch h) fun hall => ?_
    simp only [kids, List.all_cons, List.all_nil, Bool.and_true, Bool.and_eq_true] at hall
    rw [visitWith_const_of_isConstant hall.1, visitWith_const_of_isConstant hall.2]

theorem evalReadWith_isConstant (h : Known P B getInitialValue) (hp : P a) (ul : UpdateList) (hwf : ul.WF) (i : ℕ)
    (hvis : ¬WalkVisitsSome getInitialValue WrapsConstant ul i) (hd : ul.DefinedAt a i) (hb : ul.ReadsOnlyAt B a i) :
    (evalReadWith getInitialValue ul i).isConstant = true := by
  match ul with
  | .root arr =>
    rw [evalReadWith]
    cases hc : arr.constantValues[i]? with
    | some v => rfl
    | none => exact h.isConstant arr i (hb hc)
  | .extend next index value =>
    obtain ⟨hnext, hiwf, hiw, hvwf, hvw⟩ := hwf
    rw [WalkVisitsSome, not_or] at hvis
    have hi := visitWith_isConstant h hp index hiwf hvis.1 hd.1 hb.1
    have hval := visitWith_refinesOn h.initial index hiwf
    have hwalk := hvis.2
    rw [evalReadWith]
    cases hc : visitWith getInitialValue index with
    | const v =>
      rw [hc] at hval hwalk
      obtain rfl : _ = 32 := hval.hasWidth.width.trans hiw
      have hveq := (hval.denotes_of hp ⟨hiwf, hiw⟩ (.self hd.1 32)).const_eq
      have hrest := hd.2
      have hbytes := hb.2
      simp only at hwalk ⊢
      by_cases hvi : v.toNat = i
      · rw [if_pos hvi] at hwalk ⊢
        rw [if_pos (hveq ▸ hvi)] at hrest hbytes
        exact visitWith_isConstant h hp value hvwf hwalk hrest hbytes
      · rw [if_neg hvi] at hwalk ⊢
        rw [if_neg (hveq ▸ hvi)] at hrest hbytes
        exact evalReadWith_isConstant h hp next hnext i hwalk hrest hbytes
    | _ => rw [hc] at hi; cases hi

end

mutual

/-- What is visited is a subexpression. -/
theorem exists_of_visitsSome {S : Expr → Prop} (e : Expr) (h : VisitsSome getInitialValue S e) : ∃ x ∈ e.subexprs, S x := by
  have hkid : ∀ k : Expr, (∀ x ∈ k.subexprs, x ∈ e.subexprs) → (∃ x ∈ k.subexprs, S x) → ∃ x ∈ e.subexprs, S x :=
    fun k hk hx => by
      obtain ⟨x, hmem, hS⟩ := hx
      exact ⟨x, hk x hmem, hS⟩
  match e with
  | .const v => exact h.elim
  | .notOptimized src =>
    rcases h with h | h
    · exact ⟨_, self_mem_subexprs _, h⟩
    · exact hkid src (fun x hx => by simp [subexprs, hx]) (exists_of_visitsSome src h)
  | .read updates index =>
    rcases h with h | h | h
    · exact ⟨_, self_mem_subexprs _, h⟩
    · exact hkid index (fun x hx => by simp [subexprs, hx]) (exists_of_visitsSome index h)
    · split at h
      · obtain ⟨x, hmem, hS⟩ := exists_of_walkVisitsSome updates _ h
        exact ⟨x, by simp [subexprs, hmem], hS⟩
      · exact h.elim
  | .select c t f =>
    rcases h with h | h | h | h
    · exact ⟨_, self_mem_subexprs _, h⟩
    · exact hkid c (fun x hx => by simp [subexprs, hx]) (exists_of_visitsSome c h)
    · exact hkid t (fun x hx => by simp [subexprs, hx]) (exists_of_visitsSome t h)
    · exact hkid f (fun x hx => by simp [subexprs, hx]) (exists_of_visitsSome f h)
  | .concat l r | .bin _ l r | .cmp _ l r =>
    rcases h with h | h | h
    · exact ⟨_, self_mem_subexprs _, h⟩
    · exact hkid l (fun x hx => by simp [subexprs, hx]) (exists_of_visitsSome l h)
    · exact hkid r (fun x hx => by simp [subexprs, hx]) (exists_of_visitsSome r h)
  | .extract src _ _ | .zext src _ | .sext src _ | .not src =>
    rcases h with h | h
    · exact ⟨_, self_mem_subexprs _, h⟩
    · exact hkid src (fun x hx => by simp [subexprs, hx]) (exists_of_visitsSome src h)

theorem exists_of_walkVisitsSome {S : Expr → Prop} (ul : UpdateList) (i : ℕ) (h : WalkVisitsSome getInitialValue S ul i) :
    ∃ x ∈ ul.subexprs, S x := by
  match ul with
  | .root arr => exact h.elim
  | .extend next index value =>
    rcases h with h | h
    · obtain ⟨x, hmem, hS⟩ := exists_of_visitsSome index h
      exact ⟨x, by simp [UpdateList.subexprs, hmem], hS⟩
    · split at h
      · split at h
        · obtain ⟨x, hmem, hS⟩ := exists_of_visitsSome value h
          exact ⟨x, by simp [UpdateList.subexprs, hmem], hS⟩
        · obtain ⟨x, hmem, hS⟩ := exists_of_walkVisitsSome next i h
          exact ⟨x, by simp [UpdateList.subexprs, hmem], hS⟩
      · exact h.elim

end

theorem not_visitsSome {e : Expr} (hplain : e.Plain) : ¬VisitsSome getInitialValue WrapsConstant e := by
  intro hvis
  obtain ⟨x, hmem, hwraps⟩ := exists_of_visitsSome e hvis
  cases x with
  | notOptimized src =>
    have hsrc := hplain src hmem
    rw [WrapsConstant, hsrc] at hwraps
    cases hwraps
  | _ => exact hwraps

/-- An expression that evaluates and in which no wrapped constant is visited is evaluated to a constant. -/
theorem visit_isConstant (e : Expr) (hwf : e.WF) (hvis : ¬VisitsSome (fun arr i => .const (b.byte arr i)) WrapsConstant e)
    (hd : e.Defined b.toAssignment) : (visit b e).isConstant = true := by
  rw [visit_eq]
  exact visitWith_isConstant (B := fun _ _ => True) ⟨initial_byte, fun _ _ _ => rfl⟩ rfl e hwf hvis hd
    (e.readsOnly_all fun _ _ => trivial)

end ExprEvaluator

namespace Bindings

variable [ExprOptions] {b : Bindings}

/-- What `evaluate` returns for an expression that evaluates, if no wrapped constant is visited. -/
theorem evaluate_eq_of_not_visitsSome {e : Expr} {w : ℕ} (he : e.HasWidth w)
    (hvis : ¬ExprEvaluator.VisitsSome (fun arr i => .const (b.byte arr i)) ExprEvaluator.WrapsConstant e)
    (hd : e.Defined b.toAssignment) : ∃ v : BitVec w, b.evaluate e = .const v ∧ e.Denotes b.toAssignment v := by
  have href := ExprEvaluator.visit_refinesOn (b := b) e he.wf
  have hconst := ExprEvaluator.visit_isConstant (b := b) e he.wf hvis hd
  unfold evaluate
  cases hv : ExprEvaluator.visit b e with
  | const v =>
    rw [hv] at href
    obtain rfl : _ = w := href.hasWidth.width.trans he.width
    have hveq := (href.denotes_of rfl he (.self hd _)).const_eq
    exact ⟨v, rfl, hd, hveq.symm⟩
  | _ => rw [hv] at hconst; cases hconst

theorem evaluate_eq {e : Expr} {w : ℕ} (he : e.HasWidth w) (hplain : e.Plain) (hd : e.Defined b.toAssignment) :
    ∃ v : BitVec w, b.evaluate e = .const v ∧ e.Denotes b.toAssignment v :=
  evaluate_eq_of_not_visitsSome he (ExprEvaluator.not_visitsSome hplain) hd

/-- An expression that is evaluated to true does not fail. -/
theorem not_fails_of_isTrue {e : Expr} (he : e.HasWidth 1) (h : (b.evaluate e).isTrue = true) :
    ¬ e.Fails b.toAssignment := by
  intro hf
  have href := (ExprEvaluator.visit_refinesOn (b := b) e he.wf).denotes_of rfl he hf
  unfold evaluate at h
  cases hv : ExprEvaluator.visit b e with
  | const v =>
    rw [hv] at href h
    simp only [Expr.isTrue, Bool.and_eq_true, beq_iff_eq] at h
    obtain rfl := h.1
    rw [href.const_eq] at h
    exact absurd h.2 (by decide)
  | _ => rw [hv] at h; cases h

end Bindings

end SymBisect
