import SymBisect.Expr.Semantics

/-!
# The canonicalising constructors

`XExpr::create` of `lib/Expr/Expr.cpp`, one definition for each.  A static helper `XExpr_createPartialR`
of the source is `xExprCreatePartialR` here, and the macros `BCREATE_R`, `BCREATE` and `CMPCREATE` are
`bcreateR`, `bcreate` and `cmpcreate`.

The C++ functions are mutually recursive.  The recursion has three layers, and each is a Lean
definition by recursion on sizes, so all of them are total:

* equality with a constant (`eqExprCreatePartialR`), on the size of the other operand;
* sum and difference with a constant on the left (`addExprCreatePartialR`, `subExprCreatePartialR`),
  on the size of the right operand;
* sum and difference of two non-constants, on the size of both.  An outer call there always has a
  constant operand, so it enters the second layer whatever the inner call returned.

`ExtractExpr::create` and `ConcatExpr::create` call each other on operands *found inside the result*
of a recursive call; `ExtractExpr.createAux` carries the bound on those operands in its type.
-/

namespace SymBisect

open Expr

/-! ### The macros -/

/-- `BCREATE_R`: fold two constants, else dispatch on which operand is constant. -/
def bcreateR (op : BinOp) (createPartial : {w : ℕ} → Expr → BitVec w → Expr)
    (createPartialR : {w : ℕ} → BitVec w → Expr → Expr) (create : Expr → Expr → Expr) :
    Expr → Expr → Expr
  | .const (w := w) cl, .const cr => .const (op.apply cl (cr.setWidth w))
  | .const cl, r => createPartialR cl r
  | l, .const cr => createPartial l cr
  | l, r => create l r

/-- `BCREATE`: fold two constants. -/
def bcreate (op : BinOp) (create : Expr → Expr → Expr) : Expr → Expr → Expr
  | .const (w := w) cl, .const cr => .const (op.apply cl (cr.setWidth w))
  | l, r => create l r

/-- `CMPCREATE`: fold two constants. -/
def cmpcreate (op : CmpOp) (create : Expr → Expr → Expr) : Expr → Expr → Expr
  | .const (w := w) cl, .const cr => ofBool (op.apply cl (cr.setWidth w))
  | l, r => create l r

/-! ### Conjunction and disjunction -/

def andExprCreatePartial {w : ℕ} (l : Expr) (cr : BitVec w) : Expr :=
  if cr = BitVec.allOnes w then l
  else if cr = 0 then .const cr
  else .bin .and l (.const cr)

def andExprCreatePartialR {w : ℕ} (cl : BitVec w) (r : Expr) : Expr := andExprCreatePartial r cl

def AndExpr.create : Expr → Expr → Expr :=
  bcreateR .and andExprCreatePartial andExprCreatePartialR (.bin .and)

def orExprCreatePartial {w : ℕ} (l : Expr) (cr : BitVec w) : Expr :=
  if cr = BitVec.allOnes w then .const cr
  else if cr = 0 then l
  else .bin .or l (.const cr)

def orExprCreatePartialR {w : ℕ} (cl : BitVec w) (r : Expr) : Expr := orExprCreatePartial r cl

def OrExpr.create : Expr → Expr → Expr :=
  bcreateR .or orExprCreatePartial orExprCreatePartialR (.bin .or)

/-! ### Equality -/

def eqExprCreate (l r : Expr) : Expr := if l = r then ofBool true else .cmp .eq l r

/-- The indices at which a constant array holds the constant `c`. -/
def Array.constantIndices (arr : Array) (c : Expr) : List ℕ :=
  (List.range arr.size).filter fun i => (arr.constantValues[i]?).map Expr.const = some c

section
variable [ExprOptions]

mutual

/-- `EqExpr_createPartialR`, with `TryConstArrayOpt` in its `Read` case.  A difference of two
constants built by `SubExpr::create` folds, so it is written as the subtraction. -/
def eqExprCreatePartialR {w : ℕ} (cl : BitVec w) (r : Expr) : Expr :=
  if w = 1 then
    if cl.toNat = 1 then r
    else match r with
      -- 0 == (0 == A) => A
      | .cmp .eq (.const (w := k) z) right =>
        if k = 1 ∧ z.toNat = 0 then right
        else eqExprCreate (.const cl) (.cmp .eq (.const z) right)
      -- transform not(or(a,b)) to and(not a, not b)
      | .bin .or left right =>
        AndExpr.create (EqExpr.createConst (BitVec.ofNat left.getWidth 0) left)
          (EqExpr.createConst (BitVec.ofNat right.getWidth 0) right)
      | r => eqExprCreate (.const cl) r
  else match r with
    | .sext src _ =>
      if cl = (cl.setWidth src.getWidth).signExtend w then
        EqExpr.createConst (cl.setWidth src.getWidth) src
      else ofBool false
    | .zext src _ =>
      if cl = (cl.setWidth src.getWidth).setWidth w then
        EqExpr.createConst (cl.setWidth src.getWidth) src
      else ofBool false
    -- c0 = c1 + b => c0 - c1 = b
    | .bin .add (.const c) b => eqExprCreatePartialR (cl - c.setWidth w) b
    -- c0 = c1 - b => c1 - c0 = b
    | .bin .sub (.const c) b => eqExprCreatePartialR (c.setWidth w - cl) b
    | .read updates index =>
      if ExprOptions.constArrayOpt then
        if updates.getRoot.isSymbolicArray ∨ updates.getSize ≠ 0 then
          eqExprCreate (.const cl) (.read updates index)
        else if 100 < (updates.getRoot.constantIndices (.const cl)).length then
          eqExprCreate (.const cl) (.read updates index)
        else
          (updates.getRoot.constantIndices (.const cl)).foldl
            (fun res i =>
              OrExpr.create res (EqExpr.createConst (BitVec.ofNat index.getWidth i) index))
            (ofBool false)
      else eqExprCreate (.const cl) (.read updates index)
    | r => eqExprCreate (.const cl) r
  termination_by (sizeOf r, 0)

/-- `EqExpr::create` when one operand is a constant. -/
def EqExpr.createConst {w : ℕ} (c : BitVec w) (e : Expr) : Expr :=
  match e with
  | .const v => ofBool (c == v.setWidth w)
  | e => eqExprCreatePartialR c e
  termination_by (sizeOf e, 1)

end

/-- `EqExpr::create`; `EqExpr_createPartial` swaps its operands. -/
def EqExpr.create : Expr → Expr → Expr
  | .const cl, r => EqExpr.createConst cl r
  | l, .const cr => EqExpr.createConst cr l
  | l, r => eqExprCreate l r

/-- `Expr::createIsZero`. -/
def Expr.createIsZero (e : Expr) : Expr := EqExpr.create e (.const (0#e.getWidth))

def NeExpr.create (l r : Expr) : Expr := EqExpr.create (ofBool false) (EqExpr.create l r)

/-! ### Exclusive or, sums and differences -/

def xorExprCreatePartialR {w : ℕ} (cl : BitVec w) (r : Expr) : Expr :=
  if cl = 0 then r
  else if w = 1 then eqExprCreatePartialR (0#1) r
  else .bin .xor (.const cl) r

def xorExprCreatePartial {w : ℕ} (l : Expr) (cr : BitVec w) : Expr := xorExprCreatePartialR cr l

def xorExprCreate (l r : Expr) : Expr := .bin .xor l r

def XorExpr.create : Expr → Expr → Expr :=
  bcreateR .xor xorExprCreatePartial xorExprCreatePartialR xorExprCreate

mutual

def addExprCreatePartialR {w : ℕ} (cl : BitVec w) (r : Expr) : Expr :=
  if w = 1 then xorExprCreatePartialR cl r
  else if cl = 0 then r
  else match r with
    -- A + (B+c) == (A+B) + c
    | .bin .add (.const k) c => AddExpr.createConst (cl + k.setWidth w) c
    -- A + (B-c) == (A+B) - c
    | .bin .sub (.const k) c => SubExpr.createConst (cl + k.setWidth w) c
    | r => .bin .add (.const cl) r
  termination_by (sizeOf r, 0)

/-- `AddExpr::create` with a constant left operand. -/
def AddExpr.createConst {w : ℕ} (cl : BitVec w) (r : Expr) : Expr :=
  match r with
  | .const cr => .const (cl + cr.setWidth w)
  | r => addExprCreatePartialR cl r
  termination_by (sizeOf r, 1)

def subExprCreatePartialR {w : ℕ} (cl : BitVec w) (r : Expr) : Expr :=
  if w = 1 then xorExprCreatePartialR cl r
  else match r with
    -- A - (B+c) == (A-B) - c
    | .bin .add (.const k) c => SubExpr.createConst (cl - k.setWidth w) c
    -- A - (B-c) == (A-B) + c
    | .bin .sub (.const k) c => AddExpr.createConst (cl - k.setWidth w) c
    | r => .bin .sub (.const cl) r
  termination_by (sizeOf r, 0)

/-- `SubExpr::create` with a constant left operand. -/
def SubExpr.createConst {w : ℕ} (cl : BitVec w) (r : Expr) : Expr :=
  match r with
  | .const cr => .const (cl - cr.setWidth w)
  | r => subExprCreatePartialR cl r
  termination_by (sizeOf r, 1)

end

def addExprCreatePartial {w : ℕ} (l : Expr) (cr : BitVec w) : Expr := addExprCreatePartialR cr l

/-- l - c => l + (-c) -/
def subExprCreatePartial {w : ℕ} (l : Expr) (cr : BitVec w) : Expr :=
  addExprCreatePartial l (0 - cr)

/-- `SubExpr::create` with a constant right operand. -/
def SubExpr.createConstRight {w : ℕ} (l : Expr) (cr : BitVec w) : Expr :=
  match l with
  | .const (w := k) cl => .const (cl - cr.setWidth k)
  | l => subExprCreatePartial l cr

mutual

/-- `AddExpr::create`; the last alternative is `AddExpr_create`. -/
def AddExpr.create (l r : Expr) : Expr :=
  match l, r with
  | .const cl, r => AddExpr.createConst cl r
  | l, .const cr => addExprCreatePartial l cr
  | l, r =>
    if l.getWidth = 1 then xorExprCreate l r
    else match l, r with
      -- (k+a)+b = k+(a+b)
      | .bin .add (.const k) a, r => AddExpr.createConst k (AddExpr.create a r)
      -- (k-a)+b = k+(b-a)
      | .bin .sub (.const k) a, r => AddExpr.createConst k (SubExpr.create r a)
      -- a + (k+b) = k+(a+b)
      | l, .bin .add (.const k) b => AddExpr.createConst k (AddExpr.create l b)
      -- a + (k-b) = k+(a-b)
      | l, .bin .sub (.const k) b => AddExpr.createConst k (SubExpr.create l b)
      | l, r => .bin .add l r
  termination_by sizeOf l + sizeOf r

/-- `SubExpr::create`; the last alternative is `SubExpr_create`. -/
def SubExpr.create (l r : Expr) : Expr :=
  match l, r with
  | .const cl, r => SubExpr.createConst cl r
  | l, .const cr => SubExpr.createConstRight l cr
  | l, r =>
    if l.getWidth = 1 then xorExprCreate l r
    else if l = r then .const (0#l.getWidth)
    else match l, r with
      -- (k+a)-b = k+(a-b)
      | .bin .add (.const k) a, r => AddExpr.createConst k (SubExpr.create a r)
      -- (k-a)-b = k-(a+b)
      | .bin .sub (.const k) a, r => SubExpr.createConst k (AddExpr.create a r)
      -- a - (k+b) = (a-b) - k
      | l, .bin .add (.const k) b => SubExpr.createConstRight (SubExpr.create l b) k
      -- a - (k-b) = (a+b) - k
      | l, .bin .sub (.const k) b => SubExpr.createConstRight (AddExpr.create l b) k
      | l, r => .bin .sub l r
  termination_by sizeOf l + sizeOf r

end

/-! ### The source's equations

The layers above are one recursion in the source, where every recursive call is written
`AddExpr::create`, `SubExpr::create` or `EqExpr::create`.  These are its equations. -/

theorem AddExpr.create_const_left {w : ℕ} (c : BitVec w) (r : Expr) :
    AddExpr.create (.const c) r = AddExpr.createConst c r := by
  rw [AddExpr.create]

theorem SubExpr.create_const_left {w : ℕ} (c : BitVec w) (r : Expr) :
    SubExpr.create (.const c) r = SubExpr.createConst c r := by
  rw [SubExpr.create]

theorem SubExpr.create_const_right {w : ℕ} (l : Expr) (c : BitVec w) :
    SubExpr.create l (.const c) = SubExpr.createConstRight l c := by
  cases l <;> simp [SubExpr.create, SubExpr.createConst, SubExpr.createConstRight]

/-- `AddExpr_create` with the calls of the source. -/
def addExprCreate (l r : Expr) : Expr :=
  if l.getWidth = 1 then xorExprCreate l r
  else match l, r with
    | .bin .add (.const k) a, r => AddExpr.create (.const k) (AddExpr.create a r)
    | .bin .sub (.const k) a, r => AddExpr.create (.const k) (SubExpr.create r a)
    | l, .bin .add (.const k) b => AddExpr.create (.const k) (AddExpr.create l b)
    | l, .bin .sub (.const k) b => AddExpr.create (.const k) (SubExpr.create l b)
    | l, r => .bin .add l r

/-- `SubExpr_create` with the calls of the source. -/
def subExprCreate (l r : Expr) : Expr :=
  if l.getWidth = 1 then xorExprCreate l r
  else if l = r then .const (0#l.getWidth)
  else match l, r with
    | .bin .add (.const k) a, r => AddExpr.create (.const k) (SubExpr.create a r)
    | .bin .sub (.const k) a, r => SubExpr.create (.const k) (AddExpr.create a r)
    | l, .bin .add (.const k) b => SubExpr.create (SubExpr.create l b) (.const k)
    | l, .bin .sub (.const k) b => SubExpr.create (AddExpr.create l b) (.const k)
    | l, r => .bin .sub l r

theorem AddExpr.create_eq (l r : Expr) :
    AddExpr.create l r =
      bcreateR .add addExprCreatePartial addExprCreatePartialR addExprCreate l r := by
  unfold bcreateR
  split
  · rw [AddExpr.create_const_left, AddExpr.createConst, BinOp.apply]
  · rename_i hr
    rw [AddExpr.create_const_left, AddExpr.createConst]
    exact hr
  · rename_i hl
    rw [AddExpr.create]
    exact hl
  · rw [AddExpr.create.eq_def]
    unfold addExprCreate
    simp only [AddExpr.create_const_left]

theorem SubExpr.create_eq (l r : Expr) :
    SubExpr.create l r =
      bcreateR .sub subExprCreatePartial subExprCreatePartialR subExprCreate l r := by
  unfold bcreateR
  split
  · rw [SubExpr.create_const_left, SubExpr.createConst, BinOp.apply]
  · rename_i hr
    rw [SubExpr.create_const_left, SubExpr.createConst]
    exact hr
  · rename_i hl
    rw [SubExpr.create_const_right, SubExpr.createConstRight]
    exact hl
  · rw [SubExpr.create.eq_def]
    unfold subExprCreate
    simp only [AddExpr.create_const_left, SubExpr.create_const_left, SubExpr.create_const_right]

/-! ### Products, quotients and shifts -/

def mulExprCreatePartialR {w : ℕ} (cl : BitVec w) (r : Expr) : Expr :=
  if w = 1 then andExprCreatePartialR cl r
  else if cl.toNat = 1 then r
  else if cl = 0 then .const cl
  else .bin .mul (.const cl) r

def mulExprCreatePartial {w : ℕ} (l : Expr) (cr : BitVec w) : Expr := mulExprCreatePartialR cr l

def mulExprCreate (l r : Expr) : Expr :=
  if l.getWidth = 1 then .bin .and l r else .bin .mul l r

def MulExpr.create : Expr → Expr → Expr :=
  bcreateR .mul mulExprCreatePartial mulExprCreatePartialR mulExprCreate

/-- On booleans the divisor must be 1, so a quotient is the dividend. -/
def UDivExpr.create : Expr → Expr → Expr :=
  bcreate .udiv fun l r => if l.getWidth = 1 then l else .bin .udiv l r

def SDivExpr.create : Expr → Expr → Expr :=
  bcreate .sdiv fun l r => if l.getWidth = 1 then l else .bin .sdiv l r

/-- On booleans the divisor must be 1, so a remainder is zero. -/
def URemExpr.create : Expr → Expr → Expr :=
  bcreate .urem fun l r => if l.getWidth = 1 then ofBool false else .bin .urem l r

def SRemExpr.create : Expr → Expr → Expr :=
  bcreate .srem fun l r => if l.getWidth = 1 then ofBool false else .bin .srem l r

/-- On booleans `l << r` is `l & !r`. -/
def ShlExpr.create : Expr → Expr → Expr :=
  bcreate .shl fun l r =>
    if l.getWidth = 1 then AndExpr.create l (createIsZero r) else .bin .shl l r

def LShrExpr.create : Expr → Expr → Expr :=
  bcreate .lshr fun l r =>
    if l.getWidth = 1 then AndExpr.create l (createIsZero r) else .bin .lshr l r

def AShrExpr.create : Expr → Expr → Expr :=
  bcreate .ashr fun l r => if l.getWidth = 1 then l else .bin .ashr l r

/-! ### Order comparisons -/

/-- On booleans `l < r` is `!l && r`. -/
def UltExpr.create : Expr → Expr → Expr :=
  cmpcreate .ult fun l r =>
    if l.getWidth = 1 then AndExpr.create (createIsZero l) r else .cmp .ult l r

/-- On booleans `l <= r` is `!(l && !r)`. -/
def UleExpr.create : Expr → Expr → Expr :=
  cmpcreate .ule fun l r =>
    if l.getWidth = 1 then OrExpr.create (createIsZero l) r else .cmp .ule l r

/-- On booleans signed `l < r` is `l && !r`. -/
def SltExpr.create : Expr → Expr → Expr :=
  cmpcreate .slt fun l r =>
    if l.getWidth = 1 then AndExpr.create l (createIsZero r) else .cmp .slt l r

/-- On booleans signed `l <= r` is `!(!l && r)`. -/
def SleExpr.create : Expr → Expr → Expr :=
  cmpcreate .sle fun l r =>
    if l.getWidth = 1 then OrExpr.create l (createIsZero r) else .cmp .sle l r

def UgtExpr.create (l r : Expr) : Expr := UltExpr.create r l

def UgeExpr.create (l r : Expr) : Expr := UleExpr.create r l

def SgtExpr.create (l r : Expr) : Expr := SltExpr.create r l

def SgeExpr.create (l r : Expr) : Expr := SleExpr.create r l

/-! ### Extract, concat and casts -/

/-- `ExtractExpr::create`.  A result that is again an extract has an operand no larger than `e`,
which is what the recursive call after a merge of two contiguous extracts needs. -/
def ExtractExpr.createAux (e : Expr) (off w : ℕ) :
    { res : Expr // ∀ z o k, res = .extract z o k → sizeOf z ≤ sizeOf e } :=
  if w = e.getWidth then ⟨e, fun z o k h => by subst h; simp only [Expr.extract.sizeOf_spec]; omega⟩
  else match e with
    | .const v => ⟨.const (v.extractLsb' off w), fun _ _ _ h => nomatch h⟩
    | .concat l r =>
      -- the extract skips the right side of the concat
      if r.getWidth ≤ off then
        let res := ExtractExpr.createAux l (off - r.getWidth) w
        ⟨res.1, fun z o k h => by
          have := res.2 z o k h; simp only [Expr.concat.sizeOf_spec]; omega⟩
      -- the extract skips the left side of the concat
      else if off + w ≤ r.getWidth then
        let res := ExtractExpr.createAux r off w
        ⟨res.1, fun z o k h => by
          have := res.2 z o k h; simp only [Expr.concat.sizeOf_spec]; omega⟩
      -- E(C(x,y)) = C(E(x), E(y)), with the body of `ConcatExpr::create`; the source's unsigned
      -- `w - rw + off` is `off + w - rw`, since `rw < off + w` here
      else
        let left := ExtractExpr.createAux l 0 (off + w - r.getWidth)
        let right := ExtractExpr.createAux r off (r.getWidth - off)
        match hl : left.1, right.1 with
        | .const cl, .const cr => ⟨.const (cl ++ cr), fun _ _ _ h => nomatch h⟩
        | .extract z o m, .extract z' o' n =>
          if z = z' ∧ o' + n = o then
            have hz : sizeOf z ≤ sizeOf l := left.2 z o m hl
            let res := ExtractExpr.createAux z o' (m + n)
            ⟨res.1, fun y o k h => by
              have := res.2 y o k h; simp only [Expr.concat.sizeOf_spec]; omega⟩
          else ⟨.concat (.extract z o m) (.extract z' o' n), fun _ _ _ h => nomatch h⟩
        | x, y => ⟨.concat x y, fun _ _ _ h => nomatch h⟩
    | e => ⟨.extract e off w, fun z o k h => by cases h; omega⟩
  termination_by sizeOf e

def ExtractExpr.create (e : Expr) (off w : ℕ) : Expr := (ExtractExpr.createAux e off w).1

/-- `ConcatExpr::create`: fold constants and merge contiguous extracts. -/
def ConcatExpr.create : Expr → Expr → Expr
  | .const cl, .const cr => .const (cl ++ cr)
  | .extract z o m, .extract z' o' n =>
    if z = z' ∧ o' + n = o then ExtractExpr.create z o' (m + n)
    else .concat (.extract z o m) (.extract z' o' n)
  | l, r => .concat l r

def NotExpr.create : Expr → Expr
  | .const v => .const (~~~ v)
  | e => .not e

def ZExtExpr.create (e : Expr) (w : ℕ) : Expr :=
  if w = e.getWidth then e
  else if w < e.getWidth then ExtractExpr.create e 0 w
  else match e with
    | .const v => .const (v.setWidth w)
    | e => .zext e w

def SExtExpr.create (e : Expr) (w : ℕ) : Expr :=
  if w = e.getWidth then e
  else if w < e.getWidth then ExtractExpr.create e 0 w
  else match e with
    | .const v => .const (v.signExtend w)
    | e => .sext e w

/-! ### Select and read -/

/-- The boolean case of `SelectExpr::create`: `c ? t : f` is `(c and t) or (not c and f)`. -/
def selectExprCreateBool (c t f : Expr) : Expr :=
  match t, f with
  | .const v, f => if v.toNat = 1 then OrExpr.create c f else AndExpr.create (createIsZero c) f
  | t, .const v => if v.toNat = 1 then OrExpr.create (createIsZero c) t else AndExpr.create c t
  | t, f => .select c t f

def SelectExpr.create (c t f : Expr) : Expr :=
  match c with
  | .const (w := k) v => if k = 1 ∧ v.toNat = 1 then t else f
  | c =>
    if t = f then t
    else if t.getWidth = 1 then selectExprCreateBool c t f
    else .select c t f

/-- How the walk of `ReadExpr::create` over the updates ends: at a write to the very index, or at
the first list whose head may be written at it (`symbolic`), or at the bare root. -/
inductive ReadWalk where
  | found (value : Expr)
  | stopped (un : UpdateList) (symbolic : Bool)

/-- The update loop of `ReadExpr::create`, from the most recent write. -/
def ReadExpr.walk (index : Expr) : UpdateList → ReadWalk
  | .root arr => .stopped (.root arr) false
  | .extend next i v =>
    match EqExpr.create index i with
    | .const (w := k) c => if k = 1 ∧ c.toNat = 1 then .found v else ReadExpr.walk index next
    | _ => .stopped (.extend next i v) true

/-- `ReadExpr::create`. -/
def ReadExpr.create (ul : UpdateList) (index : Expr) : Expr :=
  match ReadExpr.walk index ul with
  | .found v => v
  | .stopped un symbolic =>
    match index with
    | .const c =>
      if c.toNat < ul.getRoot.size then
        match ul.getRoot.constantValues[c.toNat]?, symbolic with
        | some v, false => .const v
        | _, _ => .read un (.const c)
      else .read ul (.const c)
    | index => .read ul index

/-! ### All classes -/

/-- The `create` function of each arithmetic class. -/
def BinOp.create : BinOp → Expr → Expr → Expr
  | .add => AddExpr.create
  | .sub => SubExpr.create
  | .mul => MulExpr.create
  | .udiv => UDivExpr.create
  | .sdiv => SDivExpr.create
  | .urem => URemExpr.create
  | .srem => SRemExpr.create
  | .and => AndExpr.create
  | .or => OrExpr.create
  | .xor => XorExpr.create
  | .shl => ShlExpr.create
  | .lshr => LShrExpr.create
  | .ashr => AShrExpr.create

/-- The `create` function of each comparison class. -/
def CmpOp.create : CmpOp → Expr → Expr → Expr
  | .eq => EqExpr.create
  | .ne => NeExpr.create
  | .ult => UltExpr.create
  | .ule => UleExpr.create
  | .ugt => UgtExpr.create
  | .uge => UgeExpr.create
  | .slt => SltExpr.create
  | .sle => SleExpr.create
  | .sgt => SgtExpr.create
  | .sge => SgeExpr.create

/-- `Expr::rebuild` on the expression's own kids: the class's `create` applied to its operands. -/
def Expr.rebuild : Expr → Expr
  | .const v => .const v
  | .notOptimized src => .notOptimized src
  | .read ul index => ReadExpr.create ul index
  | .select c t f => SelectExpr.create c t f
  | .concat l r => ConcatExpr.create l r
  | .extract e off w => ExtractExpr.create e off w
  | .zext e w => ZExtExpr.create e w
  | .sext e w => SExtExpr.create e w
  | .not e => NotExpr.create e
  | .bin op l r => op.create l r
  | .cmp op l r => op.create l r

end

end SymBisect
