import SymBisect.Expr.Syntax
import SymBisect.Lib.WordOrder

/-!
# The order on expressions

`Expr::compare` of `lib/Expr/Expr.cpp` with the `compareContents` of every class, `UpdateList::compare` of
`lib/Expr/Updates.cpp` and the hash functions.  The comparison takes a short cut where both sides are one object and where
the pair is in `equivs`, the static set of the pairs found equal so far; so an expression comes with the addresses of its
objects (`Placement`), and `Heap` says what lies at an address.

* `Expr.code`: the word of an expression, whose letters are the data in the order in which they are compared.
* `Expr.compareIn_compares`: the comparison is the order of the words, with and without the set of pairs.
* `Object.compare_totalOrder`: the properties of a total order.

The names of arrays are compared as byte strings, which for UTF-8 is the order on `String`.
-/

namespace SymBisect

open Lib

/-- LLVM's `hash_value(const APInt &)`, which `ConstantExpr::computeHash` uses above 64 bits. -/
class APIntHash where
  hash_value : {w : ℕ} → BitVec w → ℕ

/-- A `ConstantExpr`. -/
structure ConstantExpr where
  width : ℕ
  value : BitVec width
  deriving DecidableEq

/-! ### Kinds -/

/-- The `Expr::Kind` of an arithmetic operator. -/
def BinOp.kind : BinOp → ℕ
  | .add => 10 | .sub => 11 | .mul => 12 | .udiv => 13 | .sdiv => 14 | .urem => 15 | .srem => 16
  | .and => 17 | .or => 18 | .xor => 19 | .shl => 20 | .lshr => 21 | .ashr => 22

/-- The `Expr::Kind` of a comparison. -/
def CmpOp.kind : CmpOp → ℕ
  | .eq => 23 | .ne => 24 | .ult => 25 | .ule => 26 | .ugt => 27 | .uge => 28
  | .slt => 29 | .sle => 30 | .sgt => 31 | .sge => 32

/-- `getKind`. -/
def Expr.kind : Expr → ℕ
  | .const _ => 0
  | .notOptimized _ => 1
  | .read _ _ => 3
  | .select _ _ _ => 4
  | .concat _ _ => 5
  | .extract _ _ _ => 6
  | .zext _ _ => 7
  | .sext _ _ => 8
  | .not _ => 9
  | .bin op _ _ => op.kind
  | .cmp op _ _ => op.kind

/-! ### Hashes -/

/-- `Expr::MAGIC_HASH_CONSTANT`. -/
def MAGIC_HASH_CONSTANT : BitVec 32 := 39

/-- The hash of a name in `UpdateList::hash`; a `char` is signed. -/
def nameHash (name : String) : BitVec 32 :=
  name.toUTF8.data.toList.foldl (fun res c => res * MAGIC_HASH_CONSTANT + c.toBitVec.signExtend 32) 0

/-- `Expr::computeHash` from the hashes of the kids. -/
def kidsHash (kind : ℕ) (kids : List (BitVec 32)) : BitVec 32 :=
  kids.foldl (fun res kid => (res <<< 1) ^^^ kid * MAGIC_HASH_CONSTANT) (BitVec.ofNat 32 kind * MAGIC_HASH_CONSTANT)

/-- `ConstantExpr::computeHash`. -/
def constantHash [APIntHash] {w : ℕ} (v : BitVec w) : BitVec 32 :=
  BitVec.ofNat 32 (if w ≤ 64 then v.toNat else APIntHash.hash_value v) ^^^ BitVec.ofNat 32 w * MAGIC_HASH_CONSTANT

section Hash

variable [APIntHash]

mutual

/-- `computeHash` of the classes. -/
def Expr.hash : Expr → BitVec 32
  | .const v => constantHash v
  | .notOptimized src => kidsHash 1 [src.hash]
  | .read updates index => index.hash * MAGIC_HASH_CONSTANT ^^^ (nameHash updates.getRoot.name ^^^ updates.nodeHash)
  | .select c t f => kidsHash 4 [c.hash, t.hash, f.hash]
  | .concat l r => kidsHash 5 [l.hash, r.hash]
  | .extract e off w =>
    BitVec.ofNat 32 off * MAGIC_HASH_CONSTANT ^^^ BitVec.ofNat 32 w * MAGIC_HASH_CONSTANT ^^^
      e.hash * MAGIC_HASH_CONSTANT
  | .zext src w => BitVec.ofNat 32 w * MAGIC_HASH_CONSTANT ^^^ src.hash * MAGIC_HASH_CONSTANT
  | .sext src w => BitVec.ofNat 32 w * MAGIC_HASH_CONSTANT ^^^ src.hash * MAGIC_HASH_CONSTANT
  | .not e => e.hash * MAGIC_HASH_CONSTANT * 9
  | .bin op l r => kidsHash op.kind [l.hash, r.hash]
  | .cmp op l r => kidsHash op.kind [l.hash, r.hash]

/-- `UpdateNode::computeHash` of the head; a missing node adds nothing. -/
def UpdateList.nodeHash : UpdateList → BitVec 32
  | .root _ => 0
  | .extend next index value => index.hash ^^^ value.hash ^^^ next.nodeHash

end

end Hash

/-! ### Objects -/

/-- How an object refers to another one. -/
inductive Link where
  | kid (i : ℕ)
  | updates
  | next
  | index
  | value
  deriving DecidableEq

/-- The address of every object below a root, by the links that lead to it. -/
abbrev Placement := List Link → ℕ

/-- The address of the root. -/
def Placement.addr (p : Placement) : ℕ := p []

/-- The placement of the object behind a link. -/
def Placement.below (p : Placement) (l : Link) : Placement := fun path => p (l :: path)

/-- The nodes of an update list, the most recent one first. -/
def UpdateList.nodes : UpdateList → List (Expr × Expr)
  | .root _ => []
  | .extend next index value => (index, value) :: next.nodes

/-- What lies at an address: an expression, an update node with the nodes behind it, or an array. -/
structure Heap where
  expr : ℕ → Expr
  nodes : ℕ → List (Expr × Expr)
  array : ℕ → Array

mutual

/-- The objects of an expression lie where the placement says. -/
def Expr.Placed (h : Heap) : Expr → Placement → Prop
  | .const v, p => h.expr p.addr = .const v
  | .notOptimized src, p => h.expr p.addr = .notOptimized src ∧ src.Placed h (p.below (.kid 0))
  | .read updates index, p =>
    h.expr p.addr = .read updates index ∧ updates.Placed h (p.below .updates) ∧ index.Placed h (p.below (.kid 0))
  | .select c t f, p =>
    h.expr p.addr = .select c t f ∧ c.Placed h (p.below (.kid 0)) ∧ t.Placed h (p.below (.kid 1)) ∧
      f.Placed h (p.below (.kid 2))
  | .concat l r, p =>
    h.expr p.addr = .concat l r ∧ l.Placed h (p.below (.kid 0)) ∧ r.Placed h (p.below (.kid 1))
  | .extract e off w, p => h.expr p.addr = .extract e off w ∧ e.Placed h (p.below (.kid 0))
  | .zext src w, p => h.expr p.addr = .zext src w ∧ src.Placed h (p.below (.kid 0))
  | .sext src w, p => h.expr p.addr = .sext src w ∧ src.Placed h (p.below (.kid 0))
  | .not e, p => h.expr p.addr = .not e ∧ e.Placed h (p.below (.kid 0))
  | .bin op l r, p =>
    h.expr p.addr = .bin op l r ∧ l.Placed h (p.below (.kid 0)) ∧ r.Placed h (p.below (.kid 1))
  | .cmp op l r, p =>
    h.expr p.addr = .cmp op l r ∧ l.Placed h (p.below (.kid 0)) ∧ r.Placed h (p.below (.kid 1))

/-- The nodes and the root of an update list lie where the placement and the root say. -/
def UpdateList.Placed (h : Heap) : UpdateList → Placement → Prop
  | .root arr, _ => h.array arr.ptr = arr
  | .extend next index value, p =>
    h.nodes p.addr = (index, value) :: next.nodes ∧ next.Placed h (p.below .next) ∧
      index.Placed h (p.below .index) ∧ value.Placed h (p.below .value)

end

/-- An expression with the addresses of its objects. -/
structure Object where
  expr : Expr
  placement : Placement

/-- The objects lie in the heap. -/
def Object.In (o : Object) (h : Heap) : Prop := o.expr.Placed h o.placement

/-! ### The comparison -/

/-- `ExprEquivSet`, pairs with the smaller address first. -/
abbrev ExprEquivSet := List (ℕ × ℕ)

/-- `std::make_pair(ap, bp)`. -/
def orderedPair (a b : ℕ) : ℕ × ℕ := if a < b then (a, b) else (b, a)

/-- Stop at a difference, else go on with the pairs found so far. -/
def orElse (r : ℤ × ExprEquivSet) (k : ExprEquivSet → ℤ × ExprEquivSet) : ℤ × ExprEquivSet :=
  if r.1 ≠ 0 then r else k r.2

/-- `Expr::compare(b)` around a comparison: the static set is cleared. -/
def clearing (r : ℤ × ExprEquivSet) : ℤ × ExprEquivSet := (r.1, [])

/-- `UpdateList::compare` up to the loop over the nodes. -/
def UpdateList.compareRoots (u v : UpdateList) (equivs : ExprEquivSet) (nodes : ExprEquivSet → ℤ × ExprEquivSet) :
    ℤ × ExprEquivSet :=
  if u.getRoot.name ≠ v.getRoot.name then (orderSign u.getRoot.name v.getRoot.name, equivs)
  -- Check the root itself in case we have separate objects with the same name.
  else if u.getRoot.ptr ≠ v.getRoot.ptr then (orderSign u.getRoot.ptr v.getRoot.ptr, equivs)
  else if u.getSize ≠ v.getSize then (orderSign u.getSize v.getSize, equivs)
  else nodes equivs

section Compare

variable [APIntHash]

mutual

/-- `Expr::compare(b, equivs)`; without `cached`, the set of pairs is not consulted. -/
def Expr.compareIn (cached : Bool) (a : Expr) (p : Placement) (b : Expr) (q : Placement) (equivs : ExprEquivSet) :
    ℤ × ExprEquivSet :=
  if p.addr = q.addr then (0, equivs)
  else if cached = true ∧ orderedPair p.addr q.addr ∈ equivs then (0, equivs)
  else if a.kind ≠ b.kind then (orderSign a.kind b.kind, equivs)
  else if a.hash ≠ b.hash then (orderSign a.hash.toNat b.hash.toNat, equivs)
  else
    let kid (i : ℕ) := p.below (.kid i)
    let kid' (i : ℕ) := q.below (.kid i)
    orElse
      (match a, b with
      | .const (w := w) v, .const (w := w') v' =>
        if w ≠ w' then (orderSign w w', equivs) else (orderSign v.toNat v'.toNat, equivs)
      | .notOptimized src, .notOptimized src' => src.compareIn cached (kid 0) src' (kid' 0) equivs
      | .read updates index, .read updates' index' =>
        orElse (updates.compareRoots updates' equivs
            fun equivs => updates.compareNodes cached (p.below .updates) updates' (q.below .updates) equivs)
          fun equivs => index.compareIn cached (kid 0) index' (kid' 0) equivs
      | .select c t f, .select c' t' f' =>
        orElse (c.compareIn cached (kid 0) c' (kid' 0) equivs) fun equivs =>
          orElse (t.compareIn cached (kid 1) t' (kid' 1) equivs) fun equivs =>
            f.compareIn cached (kid 2) f' (kid' 2) equivs
      | .concat l r, .concat l' r' =>
        if l.getWidth + r.getWidth ≠ l'.getWidth + r'.getWidth then
          (orderSign (l.getWidth + r.getWidth) (l'.getWidth + r'.getWidth), equivs)
        else
          orElse (l.compareIn cached (kid 0) l' (kid' 0) equivs) fun equivs =>
            r.compareIn cached (kid 1) r' (kid' 1) equivs
      | .extract e off w, .extract e' off' w' =>
        if off ≠ off' then (orderSign off off', equivs)
        else if w ≠ w' then (orderSign w w', equivs)
        else e.compareIn cached (kid 0) e' (kid' 0) equivs
      | .zext src w, .zext src' w' =>
        if w ≠ w' then (orderSign w w', equivs) else src.compareIn cached (kid 0) src' (kid' 0) equivs
      | .sext src w, .sext src' w' =>
        if w ≠ w' then (orderSign w w', equivs) else src.compareIn cached (kid 0) src' (kid' 0) equivs
      | .not e, .not e' => e.compareIn cached (kid 0) e' (kid' 0) equivs
      | .bin _ l r, .bin _ l' r' =>
        orElse (l.compareIn cached (kid 0) l' (kid' 0) equivs) fun equivs =>
          r.compareIn cached (kid 1) r' (kid' 1) equivs
      | .cmp _ l r, .cmp _ l' r' =>
        orElse (l.compareIn cached (kid 0) l' (kid' 0) equivs) fun equivs =>
          r.compareIn cached (kid 1) r' (kid' 1) equivs
      | _, _ => (0, equivs))
      fun equivs => (0, orderedPair p.addr q.addr :: equivs)

/-- The loop of `UpdateList::compare` over the nodes; `UpdateNode::compare` calls the public `Expr::compare`, which works on
the same static set and clears it. -/
def UpdateList.compareNodes (cached : Bool) :
    UpdateList → Placement → UpdateList → Placement → ExprEquivSet → ℤ × ExprEquivSet
  | .extend next index value, p, .extend next' index' value', q, equivs =>
    -- exploit shared list structure
    if p.addr = q.addr then (0, equivs)
    else
      orElse (clearing (index.compareIn cached (p.below .index) index' (q.below .index) equivs)) fun equivs =>
        orElse (clearing (value.compareIn cached (p.below .value) value' (q.below .value) equivs)) fun equivs =>
          next.compareNodes cached (p.below .next) next' (q.below .next) equivs
  | _, _, _, _, equivs => (0, equivs)

end

/-- `Expr::compare(b)`. -/
def Object.compare (a b : Object) : ℤ := (clearing (a.expr.compareIn true a.placement b.expr b.placement [])).1

end Compare

/-! ### Classes and objects -/

/-- Two expressions of one class. -/
inductive SameClass : Expr → Expr → Prop
  | const {w w' : ℕ} (v : BitVec w) (v' : BitVec w') : SameClass (.const v) (.const v')
  | notOptimized (src src' : Expr) : SameClass (.notOptimized src) (.notOptimized src')
  | read (u u' : UpdateList) (i i' : Expr) : SameClass (.read u i) (.read u' i')
  | select (c c' t t' f f' : Expr) : SameClass (.select c t f) (.select c' t' f')
  | concat (l l' r r' : Expr) : SameClass (.concat l r) (.concat l' r')
  | extract (e e' : Expr) (off off' w w' : ℕ) : SameClass (.extract e off w) (.extract e' off' w')
  | zext (src src' : Expr) (w w' : ℕ) : SameClass (.zext src w) (.zext src' w')
  | sext (src src' : Expr) (w w' : ℕ) : SameClass (.sext src w) (.sext src' w')
  | not (e e' : Expr) : SameClass (.not e) (.not e')
  | bin (op : BinOp) (l l' r r' : Expr) : SameClass (.bin op l r) (.bin op l' r')
  | cmp (op : CmpOp) (l l' r r' : Expr) : SameClass (.cmp op l r) (.cmp op l' r')

theorem BinOp.kind_bounds (op : BinOp) : 10 ≤ op.kind ∧ op.kind ≤ 22 := by
  cases op <;> decide

theorem CmpOp.kind_bounds (op : CmpOp) : 23 ≤ op.kind ∧ op.kind ≤ 32 := by
  cases op <;> decide

theorem BinOp.kind_inj {op op' : BinOp} (h : op.kind = op'.kind) : op = op' := by
  cases op <;> cases op' <;> first | rfl | exact absurd h (by decide)

theorem CmpOp.kind_inj {op op' : CmpOp} (h : op.kind = op'.kind) : op = op' := by
  cases op <;> cases op' <;> first | rfl | exact absurd h (by decide)

/-- The kind determines the class. -/
theorem sameClass_of_kind {a b : Expr} (h : a.kind = b.kind) : SameClass a b := by
  cases a with
  | bin op l r =>
    have hop := op.kind_bounds
    cases b with
    | bin op' l' r' =>
      obtain rfl := BinOp.kind_inj h
      constructor
    | cmp op' l' r' =>
      have hop' := op'.kind_bounds
      simp only [Expr.kind] at h
      omega
    | _ =>
      simp only [Expr.kind] at h
      omega
  | cmp op l r =>
    have hop := op.kind_bounds
    cases b with
    | cmp op' l' r' =>
      obtain rfl := CmpOp.kind_inj h
      constructor
    | bin op' l' r' =>
      have hop' := op'.kind_bounds
      simp only [Expr.kind] at h
      omega
    | _ =>
      simp only [Expr.kind] at h
      omega
  | _ =>
    cases b with
    | bin op' l' r' =>
      have hop' := op'.kind_bounds
      simp only [Expr.kind] at h
      omega
    | cmp op' l' r' =>
      have hop' := op'.kind_bounds
      simp only [Expr.kind] at h
      omega
    | _ => first | constructor | exact absurd h (by simp [Expr.kind])

variable {h : Heap}

theorem Expr.Placed.addr {e : Expr} {p : Placement} (hp : e.Placed h p) : h.expr p.addr = e := by
  cases e with
  | const v => exact hp
  | _ => exact hp.1

theorem UpdateList.Placed.nodes {u : UpdateList} {p : Placement} (hp : u.Placed h p) (hne : u.getSize ≠ 0) :
    h.nodes p.addr = u.nodes := by
  cases u with
  | root arr => exact absurd rfl hne
  | extend next index value => exact hp.1

/-! ### The words -/

/-- A letter: a number or a name. -/
abbrev Letter := ℕ ⊕ₗ String

/-- A number as a letter. -/
def num (n : ℕ) : Letter := toLex (.inl n)

/-- A name as a letter. -/
def name (s : String) : Letter := toLex (.inr s)

theorem num_inj {m n : ℕ} : num m = num n ↔ m = n := by simp [num]

theorem name_inj {s t : String} : name s = name t ↔ s = t := by simp [name]

theorem orderSign_num (m n : ℕ) : orderSign (num m) (num n) = orderSign m n := by
  simp [orderSign, num]

theorem orderSign_name (s t : String) : orderSign (name s) (name t) = orderSign s t := by
  simp [orderSign, name]

/-! ### Signs and words -/

/-- The pairs found equal so far are pairs of equal expressions. -/
def Sound (h : Heap) (equivs : ExprEquivSet) : Prop := ∀ pair ∈ equivs, h.expr pair.1 = h.expr pair.2

/-- A comparison gives the order of two words, and the pairs it leaves are right. -/
structure Compares (h : Heap) (r : ℤ × ExprEquivSet) (u v : List Letter) : Prop where
  orders : Orders r.1 u v
  sound : Sound h r.2

namespace Compares

variable {r : ℤ × ExprEquivSet} {k : ExprEquivSet → ℤ × ExprEquivSet} {equivs : ExprEquivSet} {u v u' v' : List Letter}

theorem refl (hs : Sound h equivs) (u : List Letter) : Compares h (0, equivs) u u := ⟨.refl u, hs⟩

theorem orElse (hr : Compares h r u v) (hk : ∀ equivs, Sound h equivs → Compares h (k equivs) u' v') :
    Compares h (orElse r k) (u ++ u') (v ++ v') := by
  unfold SymBisect.orElse
  by_cases hzero : r.1 = 0
  · rw [if_neg (not_not.2 hzero)]
    have hnext := hk r.2 hr.sound
    have horders := hr.orders.append hnext.orders
    rw [hzero, andThen_zero_left] at horders
    exact ⟨horders, hnext.sound⟩
  · rw [if_pos hzero]
    exact ⟨hr.orders.append_of_ne hzero u' v', hr.sound⟩

theorem clearing (hr : Compares h r u v) : Compares h (clearing r) u v := ⟨hr.orders, by simp [Sound, SymBisect.clearing]⟩

/-- A number is compared. -/
theorem number {m n : ℕ} (hs : Sound h equivs) (hr : m = n → Compares h r u v) :
    Compares h (if m ≠ n then (orderSign m n, equivs) else r) (num m :: u) (num n :: v) := by
  by_cases heq : m = n
  · rw [if_neg (not_not.2 heq), heq]
    exact ⟨(hr heq).orders.cons _, (hr heq).sound⟩
  · rw [if_pos heq, ← orderSign_num]
    exact ⟨.head (fun hn => heq (num_inj.1 hn)) u v, hs⟩

/-- A name is compared. -/
theorem text {m n : String} (hs : Sound h equivs) (hr : m = n → Compares h r u v) :
    Compares h (if m ≠ n then (orderSign m n, equivs) else r) (name m :: u) (name n :: v) := by
  by_cases heq : m = n
  · rw [if_neg (not_not.2 heq), heq]
    exact ⟨(hr heq).orders.cons _, (hr heq).sound⟩
  · rw [if_pos heq, ← orderSign_name]
    exact ⟨.head (fun hn => heq (name_inj.1 hn)) u v, hs⟩

/-- The last number of a word is compared. -/
theorem last {m n : ℕ} (hs : Sound h equivs) : Compares h (orderSign m n, equivs) [num m] [num n] := by
  by_cases heq : m = n
  · rw [heq, orderSign_self]
    exact refl hs _
  · rw [← orderSign_num]
    exact ⟨.head (fun hn => heq (num_inj.1 hn)) [] [], hs⟩

end Compares

/-- Pairs of the set are found in either order. -/
theorem Sound.of_mem {equivs : ExprEquivSet} {x y : ℕ} (hs : Sound h equivs) (hmem : orderedPair x y ∈ equivs) :
    h.expr x = h.expr y := by
  have heq := hs _ hmem
  unfold orderedPair at heq
  split at heq
  · exact heq
  · exact heq.symm

theorem Sound.insert {equivs : ExprEquivSet} {x y : ℕ} (hs : Sound h equivs) (heq : h.expr x = h.expr y) :
    Sound h (orderedPair x y :: equivs) := by
  intro pair hmem
  rcases List.mem_cons.1 hmem with rfl | hmem
  · unfold orderedPair
    split
    · exact heq
    · exact heq.symm
  · exact hs pair hmem

theorem Compares.roots {u v : UpdateList} {equivs : ExprEquivSet} {k : ExprEquivSet → ℤ × ExprEquivSet}
    {s t : List Letter} (hs : Sound h equivs)
    (hk : u.getRoot.ptr = v.getRoot.ptr → u.getSize = v.getSize → Compares h (k equivs) s t) :
    Compares h (u.compareRoots v equivs k)
      (name u.getRoot.name :: num u.getRoot.ptr :: num u.getSize :: s)
      (name v.getRoot.name :: num v.getRoot.ptr :: num v.getSize :: t) :=
  .text hs fun _ => .number hs fun hptr => .number hs fun hsize => hk hptr hsize

section

variable [APIntHash]

mutual

/-- The data of an expression in the order in which they are compared. -/
def Expr.code (e : Expr) : List Letter :=
  num e.kind :: num e.hash.toNat :: match e with
  | .const (w := w) v => [num w, num v.toNat]
  | .notOptimized src => src.code
  | .read updates index =>
    name updates.getRoot.name :: num updates.getRoot.ptr :: num updates.getSize :: (updates.code ++ index.code)
  | .select c t f => c.code ++ (t.code ++ f.code)
  | .concat l r => num (l.getWidth + r.getWidth) :: (l.code ++ r.code)
  | .extract e off w => num off :: num w :: e.code
  | .zext src w => num w :: src.code
  | .sext src w => num w :: src.code
  | .not e => e.code
  | .bin _ l r => l.code ++ r.code
  | .cmp _ l r => l.code ++ r.code

/-- The nodes of an update list, the most recent one first. -/
def UpdateList.code : UpdateList → List Letter
  | .root _ => []
  | .extend next index value => index.code ++ (value.code ++ next.code)

end

/-! ### The word determines the expression -/

mutual

/-- A word is the word of one expression, whatever follows it. -/
theorem Expr.code_inj : ∀ (a : Expr) {b : Expr} {p q : Placement} {s t : List Letter}, a.Placed h p → b.Placed h q →
    a.code ++ s = b.code ++ t → a = b ∧ s = t := by
  intro a b p q s t ha hb heq
  have hkind : a.kind = b.kind := by
    have hhead := congrArg List.head? heq
    rw [Expr.code.eq_def a, Expr.code.eq_def b] at hhead
    simpa [num_inj] using hhead
  have hclass := sameClass_of_kind hkind
  cases a with
  | const v =>
    cases hclass with
    | const _ v' =>
      simp only [Expr.code, List.cons_append, List.nil_append, List.cons.injEq, num_inj] at heq
      obtain ⟨-, -, rfl, hv, rfl⟩ := heq
      exact ⟨by rw [BitVec.eq_of_toNat_eq hv], rfl⟩
  | notOptimized src =>
    cases hclass with
    | notOptimized _ src' =>
      simp only [Expr.code, List.cons_append, List.cons.injEq] at heq
      obtain ⟨rfl, rfl⟩ := src.code_inj ha.2 hb.2 heq.2.2
      exact ⟨rfl, rfl⟩
  | read u i =>
    cases hclass with
    | read _ u' _ i' =>
      simp only [Expr.code, List.cons_append, List.append_assoc, List.cons.injEq, num_inj] at heq
      obtain ⟨-, -, -, hptr, hsize, hrest⟩ := heq
      obtain ⟨rfl, hindex⟩ := u.code_inj ha.2.1 hb.2.1 hptr hsize hrest
      obtain ⟨rfl, rfl⟩ := i.code_inj ha.2.2 hb.2.2 hindex
      exact ⟨rfl, rfl⟩
  | select c t f =>
    cases hclass with
    | select _ c' _ t' _ f' =>
      simp only [Expr.code, List.cons_append, List.append_assoc, List.cons.injEq] at heq
      obtain ⟨rfl, htrue⟩ := c.code_inj ha.2.1 hb.2.1 heq.2.2
      obtain ⟨rfl, hfalse⟩ := t.code_inj ha.2.2.1 hb.2.2.1 htrue
      obtain ⟨rfl, rfl⟩ := f.code_inj ha.2.2.2 hb.2.2.2 hfalse
      exact ⟨rfl, rfl⟩
  | concat l r =>
    cases hclass with
    | concat _ l' _ r' =>
      simp only [Expr.code, List.cons_append, List.append_assoc, List.cons.injEq] at heq
      obtain ⟨rfl, hright⟩ := l.code_inj ha.2.1 hb.2.1 heq.2.2.2
      obtain ⟨rfl, rfl⟩ := r.code_inj ha.2.2 hb.2.2 hright
      exact ⟨rfl, rfl⟩
  | extract e off w =>
    cases hclass with
    | extract _ e' _ off' _ w' =>
      simp only [Expr.code, List.cons_append, List.cons.injEq, num_inj] at heq
      obtain ⟨-, -, rfl, rfl, hrest⟩ := heq
      obtain ⟨rfl, rfl⟩ := e.code_inj ha.2 hb.2 hrest
      exact ⟨rfl, rfl⟩
  | zext src w =>
    cases hclass with
    | zext _ src' _ w' =>
      simp only [Expr.code, List.cons_append, List.cons.injEq, num_inj] at heq
      obtain ⟨-, -, rfl, hrest⟩ := heq
      obtain ⟨rfl, rfl⟩ := src.code_inj ha.2 hb.2 hrest
      exact ⟨rfl, rfl⟩
  | sext src w =>
    cases hclass with
    | sext _ src' _ w' =>
      simp only [Expr.code, List.cons_append, List.cons.injEq, num_inj] at heq
      obtain ⟨-, -, rfl, hrest⟩ := heq
      obtain ⟨rfl, rfl⟩ := src.code_inj ha.2 hb.2 hrest
      exact ⟨rfl, rfl⟩
  | not e =>
    cases hclass with
    | not _ e' =>
      simp only [Expr.code, List.cons_append, List.cons.injEq] at heq
      obtain ⟨rfl, rfl⟩ := e.code_inj ha.2 hb.2 heq.2.2
      exact ⟨rfl, rfl⟩
  | bin op l r =>
    cases hclass with
    | bin _ _ l' _ r' =>
      simp only [Expr.code, List.cons_append, List.append_assoc, List.cons.injEq] at heq
      obtain ⟨rfl, hright⟩ := l.code_inj ha.2.1 hb.2.1 heq.2.2
      obtain ⟨rfl, rfl⟩ := r.code_inj ha.2.2 hb.2.2 hright
      exact ⟨rfl, rfl⟩
  | cmp op l r =>
    cases hclass with
    | cmp _ _ l' _ r' =>
      simp only [Expr.code, List.cons_append, List.append_assoc, List.cons.injEq] at heq
      obtain ⟨rfl, hright⟩ := l.code_inj ha.2.1 hb.2.1 heq.2.2
      obtain ⟨rfl, rfl⟩ := r.code_inj ha.2.2 hb.2.2 hright
      exact ⟨rfl, rfl⟩

/-- The nodes determine an update list over one array. -/
theorem UpdateList.code_inj : ∀ (u : UpdateList) {v : UpdateList} {p q : Placement} {s t : List Letter},
    u.Placed h p → v.Placed h q → u.getRoot.ptr = v.getRoot.ptr → u.getSize = v.getSize →
    u.code ++ s = v.code ++ t → u = v ∧ s = t := by
  intro u v p q s t hu hv hptr hsize heq
  cases u with
  | root arr =>
    cases v with
    | root arr' =>
      have harr : arr = arr' := by
        have harray : h.array arr.ptr = h.array arr'.ptr := congrArg h.array hptr
        rwa [hu, hv] at harray
      exact ⟨by rw [harr], heq⟩
    | extend next index value => cases hsize
  | extend next index value =>
    cases v with
    | root arr' => cases hsize
    | extend next' index' value' =>
      simp only [UpdateList.code, List.append_assoc] at heq
      obtain ⟨rfl, hvalue⟩ := index.code_inj hu.2.2.1 hv.2.2.1 heq
      obtain ⟨rfl, hnext⟩ := value.code_inj hu.2.2.2 hv.2.2.2 hvalue
      obtain ⟨rfl, rfl⟩ := next.code_inj hu.2.1 hv.2.1 hptr (Nat.succ.inj hsize) hnext
      exact ⟨rfl, rfl⟩

end

/-! ### The comparison is the order of the words -/

/-- Kind and hash agree and the rest is compared: what is added then is right. -/
theorem Compares.finish {a b : Expr} {p q : Placement} {r : ℤ × ExprEquivSet} {u v : List Letter}
    (ha : a.Placed h p) (hb : b.Placed h q) (hkind : a.kind = b.kind) (hhash : a.hash = b.hash)
    (hu : a.code = num a.kind :: num a.hash.toNat :: u)
    (hv : b.code = num b.kind :: num b.hash.toNat :: v) (hr : Compares h r u v) :
    Compares h (SymBisect.orElse r fun equivs => (0, orderedPair p.addr q.addr :: equivs)) a.code b.code := by
  have horders : Orders r.1 a.code b.code := by
    rw [hu, hv, hkind, hhash]
    exact (hr.orders.cons _).cons _
  unfold SymBisect.orElse
  by_cases hzero : r.1 = 0
  · rw [if_neg (not_not.2 hzero)]
    rw [hzero] at horders
    have hcode : a.code = b.code := orderSign_eq_zero.1 horders.eq_orderSign.symm
    obtain ⟨heq, -⟩ := a.code_inj (s := []) (t := []) ha hb (by rw [hcode])
    exact ⟨horders, hr.sound.insert (by rw [ha.addr, hb.addr, heq])⟩
  · rw [if_pos hzero]
    exact ⟨horders, hr.sound⟩

/-- The word of an update list is read off its nodes. -/
theorem UpdateList.code_eq : ∀ u : UpdateList, u.code = u.nodes.flatMap fun node => node.1.code ++ node.2.code
  | .root _ => rfl
  | .extend next index value => by
    show index.code ++ (value.code ++ next.code) = _
    rw [next.code_eq]
    simp [UpdateList.nodes]

mutual

/-- **The comparison is the order of the words**, whether or not it consults the pairs found equal so far. -/
theorem Expr.compareIn_compares (cached : Bool) : ∀ (a : Expr) {p : Placement} {b : Expr} {q : Placement}
    {equivs : ExprEquivSet}, a.Placed h p → b.Placed h q → Sound h equivs →
    Compares h (a.compareIn cached p b q equivs) a.code b.code := by
  intro a p b q equivs ha hb hs
  rw [Expr.compareIn.eq_def]
  by_cases haddr : p.addr = q.addr
  · have heq : a = b := by rw [← ha.addr, ← hb.addr, haddr]
    rw [if_pos haddr, heq]
    exact .refl hs _
  by_cases hmem : cached = true ∧ orderedPair p.addr q.addr ∈ equivs
  · have heq : a = b := by
      have hexpr := hs.of_mem hmem.2
      rwa [ha.addr, hb.addr] at hexpr
    rw [if_neg haddr, if_pos hmem, heq]
    exact .refl hs _
  by_cases hkind : a.kind = b.kind
  swap
  · rw [if_neg haddr, if_neg hmem, if_pos hkind, Expr.code.eq_def a, Expr.code.eq_def b, ← orderSign_num]
    exact ⟨.head (fun hn => hkind (num_inj.1 hn)) _ _, hs⟩
  by_cases hhash : a.hash = b.hash
  swap
  · have hne : a.hash.toNat ≠ b.hash.toNat := fun heq => hhash (BitVec.eq_of_toNat_eq heq)
    rw [if_neg haddr, if_neg hmem, if_neg (not_not.2 hkind), if_pos hhash, Expr.code.eq_def a, Expr.code.eq_def b,
      ← orderSign_num, hkind]
    exact ⟨(Orders.head (fun hn => hne (num_inj.1 hn)) _ _).cons _, hs⟩
  rw [if_neg haddr, if_neg hmem, if_neg (not_not.2 hkind), if_neg (not_not.2 hhash)]
  have hclass := sameClass_of_kind hkind
  cases a with
  | const v =>
    cases hclass with
    | const _ v' => exact .finish ha hb hkind hhash rfl rfl (.number hs fun _ => .last hs)
  | notOptimized src =>
    cases hclass with
    | notOptimized _ src' => exact .finish ha hb hkind hhash rfl rfl (src.compareIn_compares cached ha.2 hb.2 hs)
  | read u i =>
    cases hclass with
    | read _ u' _ i' =>
      refine .finish ha hb hkind hhash rfl rfl ?_
      refine Compares.orElse (u := _ :: _ :: _ :: u.code) (v := _ :: _ :: _ :: u'.code) (.roots hs fun hptr hsize => ?_)
        fun equivs hs => i.compareIn_compares cached ha.2.2 hb.2.2 hs
      exact u.compareNodes_compares cached ha.2.1 hb.2.1 hptr hsize hs
  | select c t f =>
    cases hclass with
    | select _ c' _ t' _ f' =>
      refine .finish ha hb hkind hhash rfl rfl ?_
      refine .orElse (c.compareIn_compares cached ha.2.1 hb.2.1 hs) fun equivs hs => ?_
      exact .orElse (t.compareIn_compares cached ha.2.2.1 hb.2.2.1 hs) fun equivs hs =>
        f.compareIn_compares cached ha.2.2.2 hb.2.2.2 hs
  | concat l r =>
    cases hclass with
    | concat _ l' _ r' =>
      refine .finish ha hb hkind hhash rfl rfl (.number hs fun _ => ?_)
      exact .orElse (l.compareIn_compares cached ha.2.1 hb.2.1 hs) fun equivs hs =>
        r.compareIn_compares cached ha.2.2 hb.2.2 hs
  | extract e off w =>
    cases hclass with
    | extract _ e' _ off' _ w' =>
      exact .finish ha hb hkind hhash rfl rfl
        (.number hs fun _ => .number hs fun _ => e.compareIn_compares cached ha.2 hb.2 hs)
  | zext src w =>
    cases hclass with
    | zext _ src' _ w' =>
      exact .finish ha hb hkind hhash rfl rfl (.number hs fun _ => src.compareIn_compares cached ha.2 hb.2 hs)
  | sext src w =>
    cases hclass with
    | sext _ src' _ w' =>
      exact .finish ha hb hkind hhash rfl rfl (.number hs fun _ => src.compareIn_compares cached ha.2 hb.2 hs)
  | not e =>
    cases hclass with
    | not _ e' => exact .finish ha hb hkind hhash rfl rfl (e.compareIn_compares cached ha.2 hb.2 hs)
  | bin op l r =>
    cases hclass with
    | bin _ _ l' _ r' =>
      refine .finish ha hb hkind hhash rfl rfl ?_
      exact .orElse (l.compareIn_compares cached ha.2.1 hb.2.1 hs) fun equivs hs =>
        r.compareIn_compares cached ha.2.2 hb.2.2 hs
  | cmp op l r =>
    cases hclass with
    | cmp _ _ l' _ r' =>
      refine .finish ha hb hkind hhash rfl rfl ?_
      exact .orElse (l.compareIn_compares cached ha.2.1 hb.2.1 hs) fun equivs hs =>
        r.compareIn_compares cached ha.2.2 hb.2.2 hs

/-- The loop over the nodes of two lists of one length over one array. -/
theorem UpdateList.compareNodes_compares (cached : Bool) : ∀ (u : UpdateList) {p : Placement} {v : UpdateList}
    {q : Placement} {equivs : ExprEquivSet}, u.Placed h p → v.Placed h q → u.getRoot.ptr = v.getRoot.ptr →
    u.getSize = v.getSize → Sound h equivs → Compares h (u.compareNodes cached p v q equivs) u.code v.code := by
  intro u p v q equivs hu hv hptr hsize hs
  cases u with
  | root arr =>
    cases v with
    | root arr' => exact .refl hs []
    | extend next index value => cases hsize
  | extend next index value =>
    cases v with
    | root arr' => cases hsize
    | extend next' index' value' =>
      rw [UpdateList.compareNodes]
      by_cases haddr : p.addr = q.addr
      · -- a shared node has the same nodes behind it
        have hnodes : (index, value) :: next.nodes = (index', value') :: next'.nodes := by
          rw [← hu.1, ← hv.1, haddr]
        rw [if_pos haddr, UpdateList.code_eq, UpdateList.code_eq]
        rw [UpdateList.nodes, UpdateList.nodes, hnodes]
        exact .refl hs _
      · rw [if_neg haddr]
        refine .orElse (index.compareIn_compares cached hu.2.2.1 hv.2.2.1 hs).clearing fun equivs hs => ?_
        refine .orElse (value.compareIn_compares cached hu.2.2.2 hv.2.2.2 hs).clearing fun equivs hs => ?_
        exact next.compareNodes_compares cached hu.2.1 hv.2.1 hptr (Nat.succ.inj hsize) hs

end

namespace Object

variable {a b c : Object}

/-- From any set of right pairs, and whether or not it is consulted, the result is the order of the words. -/
theorem compareIn_eq_orderSign {equivs : ExprEquivSet} (cached : Bool) (ha : a.In h) (hb : b.In h) (hs : Sound h equivs) :
    (a.expr.compareIn cached a.placement b.expr b.placement equivs).1 = orderSign a.expr.code b.expr.code :=
  (a.expr.compareIn_compares cached ha hb hs).orders.eq_orderSign

theorem compare_eq_orderSign (ha : a.In h) (hb : b.In h) : a.compare b = orderSign a.expr.code b.expr.code :=
  compareIn_eq_orderSign true ha hb (by simp [Sound])

theorem compare_eq_zero (ha : a.In h) (hb : b.In h) : a.compare b = 0 ↔ a.expr = b.expr := by
  rw [compare_eq_orderSign ha hb, orderSign_eq_zero]
  constructor
  · intro hcode
    exact (a.expr.code_inj (s := []) (t := []) ha hb (by rw [hcode])).1
  · intro heq
    rw [heq]

theorem compare_swap (ha : a.In h) (hb : b.In h) : b.compare a = -a.compare b := by
  rw [compare_eq_orderSign ha hb, compare_eq_orderSign hb ha, orderSign_swap]

theorem compare_lt_trans (ha : a.In h) (hb : b.In h) (hc : c.In h) (hab : a.compare b < 0) (hbc : b.compare c < 0) :
    a.compare c < 0 := by
  rw [compare_eq_orderSign ha hb, orderSign_neg] at hab
  rw [compare_eq_orderSign hb hc, orderSign_neg] at hbc
  rw [compare_eq_orderSign ha hc, orderSign_neg]
  exact hab.trans hbc

theorem compare_le_trans (ha : a.In h) (hb : b.In h) (hc : c.In h) (hab : a.compare b ≤ 0) (hbc : b.compare c ≤ 0) :
    a.compare c ≤ 0 := by
  rw [compare_eq_orderSign ha hb, orderSign_nonpos] at hab
  rw [compare_eq_orderSign hb hc, orderSign_nonpos] at hbc
  rw [compare_eq_orderSign ha hc, orderSign_nonpos]
  exact hab.trans hbc

/-- **`Expr::compare` is a total order** on the expressions of a heap: it tells equal structure over the same arrays, it is
antisymmetric and transitive, the pairs found equal so far never change a result, and equal expressions have equal hashes. -/
theorem compare_totalOrder (ha : a.In h) (hb : b.In h) (hc : c.In h) :
    (a.compare b = 0 ↔ a.expr = b.expr) ∧ b.compare a = -a.compare b ∧
      (a.compare b < 0 → b.compare c < 0 → a.compare c < 0) ∧
      (a.compare b ≤ 0 → b.compare c ≤ 0 → a.compare c ≤ 0) ∧
      (∀ equivs, Sound h equivs → (a.expr.compareIn true a.placement b.expr b.placement equivs).1 =
        (a.expr.compareIn false a.placement b.expr b.placement equivs).1) ∧
      (a.compare b = 0 → a.expr.hash = b.expr.hash) := by
  refine ⟨compare_eq_zero ha hb, compare_swap ha hb, compare_lt_trans ha hb hc, compare_le_trans ha hb hc, ?_, ?_⟩
  · intro equivs hs
    rw [compareIn_eq_orderSign true ha hb hs, compareIn_eq_orderSign false ha hb hs]
  · intro hzero
    rw [(compare_eq_zero ha hb).1 hzero]

end Object

end

/-- The byte `x[0]`. -/
def firstByte : Expr := .read (.root ⟨0, "x", 1, [], Array.oneByte_lt, Array.oneByte_values⟩) (.const 0#32)

/-- Two copies of `x[0]`, with their indices behind them, and the constant `5`. -/
def threeHeap : Heap where
  expr x := if x = 0 ∨ x = 2 then firstByte else if x = 1 ∨ x = 3 then .const 0#32 else .const 5#8
  nodes _ := []
  array _ := ⟨0, "x", 1, [], Array.oneByte_lt, Array.oneByte_values⟩

/-- The copy of `x[0]` at `x`, with its index at the next address. -/
def byteObject (x : ℕ) : Object := ⟨firstByte, fun path => if path = [] then x else x + 1⟩

theorem byteObject_in_zero : (byteObject 0).In threeHeap := ⟨rfl, rfl, rfl⟩

theorem byteObject_in_two : (byteObject 2).In threeHeap := ⟨rfl, rfl, rfl⟩

theorem fiveObject_in : (⟨.const 5#8, fun _ => 4⟩ : Object).In threeHeap := rfl

/-- The two copies compare equal; one of them and the constant do not, and compare the other way when they are swapped. -/
theorem compare_byteObject : let _ : APIntHash := ⟨fun v => v.toNat⟩
    (byteObject 0).compare (byteObject 2) = 0 ∧ (byteObject 2).compare ⟨.const 5#8, fun _ => 4⟩ ≠ 0 ∧
      (⟨.const 5#8, fun _ => 4⟩ : Object).compare (byteObject 2) = -(byteObject 2).compare ⟨.const 5#8, fun _ => 4⟩ := by
  intro _
  have hcopies := Object.compare_totalOrder byteObject_in_zero byteObject_in_two fiveObject_in
  obtain ⟨hzero, hswap, -⟩ := Object.compare_totalOrder byteObject_in_two fiveObject_in byteObject_in_zero
  exact ⟨hcopies.1.2 rfl, fun h => (nomatch hzero.1 h), hswap⟩

end SymBisect
