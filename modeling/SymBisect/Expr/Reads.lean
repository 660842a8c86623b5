import SymBisect.Expr.Visitor
import SymBisect.Lib.Worklist

/-!
# The reads of an expression

`findReads` of `lib/Expr/ExprUtil.cpp` collects the reads of an expression with a stack and a set of visited
expressions.  (The source also remembers the heads of the update lists it has walked along; that only saves
it from looking at indices and values that are visited already.)

* `Expr.subexprs`: the subexpressions, those in update lists included.
* `mem_findReads`: `findReads` returns exactly the reads among them.
* `Expr.agree`: the value of an expression depends on the bytes that its reads may touch.
-/

namespace SymBisect

open Lib

/-- The indices and values of an update list, from the most recent write on. -/
def UpdateList.written : UpdateList → List Expr
  | .root _ => []
  | .extend next index value => index :: value :: next.written

/-- `!updates.head`: nothing was written. -/
def UpdateList.isRoot : UpdateList → Bool
  | .root _ => true
  | .extend _ _ _ => false

/-- The expressions `findReads` goes to from an expression: its visited, kids, and for a read also what is written in
its update list. -/
def Expr.visited (visitUpdates : Bool) (e : Expr) : List Expr :=
  e.kids ++
    match visitUpdates, e with
    | true, .read updates _ => updates.written
    | _, _ => []

mutual

/-- The subexpressions of an expression. -/
def Expr.subexprs : Expr → List Expr
  | .const v => [.const v]
  | .notOptimized src => .notOptimized src :: src.subexprs
  | .read updates index => .read updates index :: (index.subexprs ++ updates.subexprs)
  | .select c t f => .select c t f :: (c.subexprs ++ t.subexprs ++ f.subexprs)
  | .concat l r => .concat l r :: (l.subexprs ++ r.subexprs)
  | .extract e off w => .extract e off w :: e.subexprs
  | .zext src w => .zext src w :: src.subexprs
  | .sext src w => .sext src w :: src.subexprs
  | .not e => .not e :: e.subexprs
  | .bin op l r => .bin op l r :: (l.subexprs ++ r.subexprs)
  | .cmp op l r => .cmp op l r :: (l.subexprs ++ r.subexprs)

/-- The subexpressions of what is written in an update list. -/
def UpdateList.subexprs : UpdateList → List Expr
  | .root _ => []
  | .extend next index value => index.subexprs ++ value.subexprs ++ next.subexprs

end

/-- `dyn_cast<ReadExpr>`. -/
def Expr.asRead : Expr → Option (UpdateList × Expr)
  | .read updates index => some (updates, index)
  | _ => none

/-- The successors in the exploration: constants are never put on the stack. -/
def Expr.succ (visitUpdates : Bool) (e : Expr) : List Expr := (e.visited visitUpdates).filter fun k => !k.isConstant

/-- `findReads`; every subexpression is visited at most once. -/
def findReads (e : Expr) (visitUpdates : Bool) : Option (List (UpdateList × Expr)) :=
  if e.isConstant then some []
  else (Worklist.explore (Expr.succ visitUpdates) e.subexprs.length [e] [e] []).map
    fun out => out.filterMap Expr.asRead

namespace Expr

/-! ### Subexpressions -/

theorem self_mem_subexprs (e : Expr) : e ∈ e.subexprs := by
  cases e <;> simp [subexprs]

theorem mem_subexprs_updates {x : Expr} (updates : UpdateList) :
    x ∈ updates.subexprs ↔ ∃ k ∈ updates.written, x ∈ k.subexprs := by
  match updates with
  | .root _ => simp [UpdateList.subexprs, UpdateList.written]
  | .extend next index value =>
    have ih := mem_subexprs_updates (x := x) next
    simp [UpdateList.subexprs, UpdateList.written, ih]

/-- A subexpression is the expression, or a subexpression of an expression it leads to. -/
theorem mem_subexprs {e x : Expr} : x ∈ e.subexprs ↔ x = e ∨ ∃ k ∈ e.visited true, x ∈ k.subexprs := by
  cases e with
  | read updates index => simp [subexprs, visited, kids, mem_subexprs_updates]
  | const v => simp [subexprs, visited, kids]
  | _ => simp [subexprs, visited, kids]

theorem sizeOf_written {k : Expr} (updates : UpdateList) (hk : k ∈ updates.written) :
    sizeOf k < sizeOf updates := by
  match updates with
  | .root _ => exact absurd hk List.not_mem_nil
  | .extend next index value =>
    rw [UpdateList.written, List.mem_cons, List.mem_cons] at hk
    obtain rfl | rfl | hk := hk
    · simp
      omega
    · simp
    · have := sizeOf_written next hk
      simp
      omega

theorem sizeOf_visited {e k : Expr} (hk : k ∈ e.visited true) : sizeOf k < sizeOf e := by
  cases e with
  | read updates index =>
    rw [visited, kids, List.mem_append, List.mem_singleton] at hk
    obtain rfl | hk := hk
    · simp
    · have := sizeOf_written updates hk
      simp
      omega
  | const v => simp [visited, kids] at hk
  | notOptimized src | not src =>
    simp only [visited, kids, List.append_nil, List.mem_singleton] at hk
    subst hk
    simp
  | zext src w | sext src w =>
    simp only [visited, kids, List.append_nil, List.mem_singleton] at hk
    subst hk
    simp
    omega
  | extract e off w =>
    simp only [visited, kids, List.append_nil, List.mem_singleton] at hk
    subst hk
    simp
    omega
  | select c t f =>
    simp only [visited, kids, List.append_nil, List.mem_cons, List.not_mem_nil, or_false] at hk
    obtain rfl | rfl | rfl := hk
    · simp
      omega
    · simp
      omega
    · simp
  | concat l r | bin op l r | cmp op l r =>
    simp only [visited, kids, List.append_nil, List.mem_cons, List.not_mem_nil, or_false] at hk
    obtain rfl | rfl := hk
    · simp
      omega
    · simp

end Expr

mutual

/-- A subexpression of a subexpression is one. -/
theorem Expr.subexprs_trans {x y : Expr} (e : Expr) (hx : x ∈ e.subexprs) (hy : y ∈ x.subexprs) :
    y ∈ e.subexprs := by
  match e with
  | .const v =>
    rw [List.mem_singleton.1 hx] at hy
    exact hy
  | .notOptimized src =>
    rw [Expr.subexprs, List.mem_cons] at hx
    obtain rfl | hx := hx
    · exact hy
    · exact List.mem_cons_of_mem _ (Expr.subexprs_trans src hx hy)
  | .read updates index =>
    rw [Expr.subexprs, List.mem_cons, List.mem_append] at hx
    obtain rfl | hx | hx := hx
    · exact hy
    · exact List.mem_cons_of_mem _ (List.mem_append_left _ (Expr.subexprs_trans index hx hy))
    · exact List.mem_cons_of_mem _ (List.mem_append_right _ (UpdateList.subexprs_trans updates hx hy))
  | .select c t f =>
    rw [Expr.subexprs, List.mem_cons, List.mem_append, List.mem_append] at hx
    obtain rfl | (hx | hx) | hx := hx
    · exact hy
    · have := Expr.subexprs_trans c hx hy
      simp [Expr.subexprs, this]
    · have := Expr.subexprs_trans t hx hy
      simp [Expr.subexprs, this]
    · have := Expr.subexprs_trans f hx hy
      simp [Expr.subexprs, this]
  | .concat l r | .bin _ l r | .cmp _ l r =>
    rw [Expr.subexprs, List.mem_cons, List.mem_append] at hx
    obtain rfl | hx | hx := hx
    · exact hy
    · exact List.mem_cons_of_mem _ (List.mem_append_left _ (Expr.subexprs_trans l hx hy))
    · exact List.mem_cons_of_mem _ (List.mem_append_right _ (Expr.subexprs_trans r hx hy))
  | .extract e _ _ | .zext e _ | .sext e _ | .not e =>
    rw [Expr.subexprs, List.mem_cons] at hx
    obtain rfl | hx := hx
    · exact hy
    · exact List.mem_cons_of_mem _ (Expr.subexprs_trans e hx hy)

theorem UpdateList.subexprs_trans {x y : Expr} (ul : UpdateList) (hx : x ∈ ul.subexprs) (hy : y ∈ x.subexprs) :
    y ∈ ul.subexprs := by
  match ul with
  | .root _ => exact absurd hx List.not_mem_nil
  | .extend next index value =>
    rw [UpdateList.subexprs, List.mem_append, List.mem_append] at hx ⊢
    obtain (hx | hx) | hx := hx
    · exact .inl (.inl (Expr.subexprs_trans index hx hy))
    · exact .inl (.inr (Expr.subexprs_trans value hx hy))
    · exact .inr (UpdateList.subexprs_trans next hx hy)

end

namespace Expr

/-! ### `findReads` -/

theorem mem_succ {e k : Expr} {visitUpdates : Bool} :
    k ∈ e.succ visitUpdates ↔ k ∈ e.visited visitUpdates ∧ k.isConstant = false := by
  simp [succ]

/-- What is reached from an expression are its subexpressions that are not constants. -/
theorem reaches_iff {e x : Expr} (he : e.isConstant = false) :
    Relation.ReflTransGen (fun a b => b ∈ succ true a) e x ↔ x ∈ e.subexprs ∧ x.isConstant = false := by
  constructor
  · intro h
    induction h with
    | refl => exact ⟨self_mem_subexprs e, he⟩
    | @tail y z _ hstep ih =>
      obtain ⟨hkid, hz⟩ := mem_succ.1 hstep
      exact ⟨subexprs_trans e ih.1 (mem_subexprs.2 (.inr ⟨z, hkid, self_mem_subexprs z⟩)), hz⟩
  · intro h
    obtain ⟨hx, hconst⟩ := h
    induction hsize : sizeOf e using Nat.strong_induction_on generalizing e with
    | _ n ih =>
      obtain rfl | ⟨k, hk, hx⟩ := mem_subexprs.1 hx
      · exact .refl
      · have hkconst : k.isConstant = false := by
          cases k with
          | const v =>
            rw [List.mem_singleton.1 hx] at hconst
            cases hconst
          | _ => rfl
        have hlt : sizeOf k < n := hsize ▸ sizeOf_visited hk
        exact .head (mem_succ.2 ⟨hk, hkconst⟩) (ih (sizeOf k) hlt hkconst hx rfl)

/-- **Reads.**  `findReads` returns the reads among the subexpressions. -/
theorem mem_findReads (e : Expr) : ∃ reads, findReads e true = some reads ∧
    ∀ updates index, (updates, index) ∈ reads ↔ Expr.read updates index ∈ e.subexprs := by
  unfold findReads
  by_cases he : e.isConstant = true
  · rw [if_pos he]
    refine ⟨[], rfl, fun updates index => ?_⟩
    cases e with
    | const v => simp [subexprs]
    | _ => cases he
  · rw [if_neg he]
    rw [Bool.not_eq_true] at he
    obtain ⟨out, hrun, hout⟩ := Worklist.explore_reaches e.subexprs.toFinset
      (fun x hx y hy => by
        rw [List.mem_toFinset] at hx ⊢
        exact subexprs_trans e hx (mem_subexprs.2 (.inr ⟨y, (mem_succ.1 hy).1, self_mem_subexprs y⟩)))
      (show e ∈ e.subexprs.toFinset from List.mem_toFinset.2 (self_mem_subexprs e)) (List.toFinset_card_le e.subexprs)
    refine ⟨out.filterMap asRead, by rw [hrun]; rfl, fun updates index => ?_⟩
    rw [List.mem_filterMap]
    constructor
    · intro h
      obtain ⟨x, hx, hread⟩ := h
      have hsub := ((reaches_iff he).1 ((hout x).1 hx)).1
      cases x with
      | read updates' index' =>
        cases hread
        exact hsub
      | _ => cases hread
    · intro h
      exact ⟨_, (hout _).2 ((reaches_iff he).2 ⟨h, rfl⟩), rfl⟩

end Expr

/-! ### What the value depends on -/

/-- The index of a read may be `i`: it is not a constant, or it is the constant `i`. -/
def Expr.mayIndex (i : ℕ) : Expr → Prop
  | .const v => (v.setWidth 32).toNat = i
  | _ => True

instance (i : ℕ) (e : Expr) : Decidable (e.mayIndex i) := by
  cases e <;> unfold Expr.mayIndex <;> infer_instance

/-- The expression has a read of the array at this index, or at one that is not constant. -/
def Expr.ReadsByte (e : Expr) (arr : Array) (i : ℕ) : Prop :=
  ∃ updates index, Expr.read updates index ∈ e.subexprs ∧ updates.getRoot = arr ∧ index.mayIndex i

/-- The expression has a read that may touch the byte; a read of a constant array without updates reads no
byte of an assignment. -/
def Expr.Touches (e : Expr) (arr : Array) (i : ℕ) : Prop :=
  ∃ updates index, Expr.read updates index ∈ e.subexprs ∧ updates.getRoot = arr ∧
    ¬ (arr.isConstantArray = true ∧ updates.isRoot = true) ∧ index.mayIndex i

theorem Expr.mayIndex_eval (a : Assignment) (index : Expr) : index.mayIndex (index.eval a 32).toNat := by
  cases index with
  | const v => rfl
  | _ => trivial

section Agree

open Expr

variable {a b : Assignment}

/-- A defined byte of an array with constant values is the same under all assignments. -/
theorem Array.initialValue_constant {arr : Array} {i : ℕ} (hconst : arr.isConstantArray = true)
    (hi : arr.isConstantArray = true → i < arr.size) : arr.initialValue b i = arr.initialValue a i := by
  have hlen : arr.constantValues.length = arr.size := by
    refine arr.constantValues_size.resolve_left fun hnil => ?_
    simp [Array.isConstantArray, Array.isSymbolicArray, hnil] at hconst
  have hlt : i < arr.constantValues.length := hlen ▸ hi hconst
  have hget : arr.constantValues[i]? = some arr.constantValues[i] := List.getElem?_eq_getElem hlt
  simp only [Array.initialValue, hget]

theorem Expr.Touches.mono {e k : Expr} {arr : Array} {i : ℕ} (h : k.Touches arr i) (hk : k ∈ e.subexprs) :
    e.Touches arr i := by
  obtain ⟨updates, index, hread, h⟩ := h
  exact ⟨updates, index, Expr.subexprs_trans e hk hread, h⟩

mutual

/-- Where the assignments agree on the bytes that the reads may touch, an expression that evaluates under the
one evaluates to the same under the other. -/
theorem Expr.agree (e : Expr) (hP : ∀ arr i, e.Touches arr i → b arr i = a arr i) (h : e.Defined a) :
    e.Defined b ∧ ∀ w, e.eval b w = e.eval a w := by
  have hkid : ∀ k ∈ e.subexprs, ∀ arr i, k.Touches arr i → b arr i = a arr i :=
    fun k hk arr i ht => hP arr i (ht.mono hk)
  match e with
  | .const v => exact ⟨trivial, fun w => rfl⟩
  | .notOptimized src =>
    obtain ⟨hd, hv⟩ := Expr.agree src (hkid src (by simp [subexprs, self_mem_subexprs])) h
    exact ⟨hd, fun w => by simp only [eval, hv]⟩
  | .read updates index =>
    obtain ⟨hi, hu⟩ := h
    obtain ⟨hd, hv⟩ := Expr.agree index (hkid index (by simp [subexprs, self_mem_subexprs])) hi
    obtain ⟨hd', hv'⟩ := UpdateList.agree updates (fun k hk => hkid k (by simp [subexprs, hk]))
      (index.eval a 32).toNat hu (by
        by_cases hpure : updates.getRoot.isConstantArray = true ∧ updates.isRoot = true
        · exact .inr hpure.1
        · exact .inl (hP _ _ ⟨updates, index, self_mem_subexprs _, rfl, hpure, mayIndex_eval a index⟩))
    refine ⟨⟨hd, by rw [hv]; exact hd'⟩, fun w => ?_⟩
    simp only [eval, hv, hv']
  | .select c t f =>
    obtain ⟨hdc, hvc⟩ := Expr.agree c (hkid c (by simp [subexprs, self_mem_subexprs])) h.1
    obtain ⟨hdt, hvt⟩ := Expr.agree t (hkid t (by simp [subexprs, self_mem_subexprs])) h.2.1
    obtain ⟨hdf, hvf⟩ := Expr.agree f (hkid f (by simp [subexprs, self_mem_subexprs])) h.2.2
    exact ⟨⟨hdc, hdt, hdf⟩, fun w => by simp only [eval, hvc, hvt, hvf]⟩
  | .concat l r =>
    obtain ⟨hdl, hvl⟩ := Expr.agree l (hkid l (by simp [subexprs, self_mem_subexprs])) h.1
    obtain ⟨hdr, hvr⟩ := Expr.agree r (hkid r (by simp [subexprs, self_mem_subexprs])) h.2
    exact ⟨⟨hdl, hdr⟩, fun w => by simp only [eval, hvl, hvr]⟩
  | .extract e off w =>
    obtain ⟨hd, hv⟩ := Expr.agree e (hkid e (by simp [subexprs, self_mem_subexprs])) h
    exact ⟨hd, fun w => by simp only [eval, hv]⟩
  | .zext src _ =>
    obtain ⟨hd, hv⟩ := Expr.agree src (hkid src (by simp [subexprs, self_mem_subexprs])) h
    exact ⟨hd, fun w => by simp only [eval, hv]⟩
  | .sext src _ =>
    obtain ⟨hd, hv⟩ := Expr.agree src (hkid src (by simp [subexprs, self_mem_subexprs])) h
    exact ⟨hd, fun w => by simp only [eval, hv]⟩
  | .not e =>
    obtain ⟨hd, hv⟩ := Expr.agree e (hkid e (by simp [subexprs, self_mem_subexprs])) h
    exact ⟨hd, fun w => by simp only [eval, hv]⟩
  | .bin op l r =>
    obtain ⟨hdl, hvl⟩ := Expr.agree l (hkid l (by simp [subexprs, self_mem_subexprs])) h.1
    obtain ⟨hdr, hvr⟩ := Expr.agree r (hkid r (by simp [subexprs, self_mem_subexprs])) h.2.1
    exact ⟨⟨hdl, hdr, fun hop => by rw [hvr]; exact h.2.2 hop⟩, fun w => by simp only [eval, hvl, hvr]⟩
  | .cmp op l r =>
    obtain ⟨hdl, hvl⟩ := Expr.agree l (hkid l (by simp [subexprs, self_mem_subexprs])) h.1
    obtain ⟨hdr, hvr⟩ := Expr.agree r (hkid r (by simp [subexprs, self_mem_subexprs])) h.2
    exact ⟨⟨hdl, hdr⟩, fun w => by simp only [eval, hvl, hvr]⟩

theorem UpdateList.agree (ul : UpdateList)
    (hP : ∀ k ∈ ul.subexprs, ∀ arr i, k.Touches arr i → b arr i = a arr i) (i : ℕ) (h : ul.DefinedAt a i)
    (hroot : b ul.getRoot i = a ul.getRoot i ∨ ul.getRoot.isConstantArray = true) :
    ul.DefinedAt b i ∧ ul.evalAt b i = ul.evalAt a i := by
  match ul with
  | .root arr =>
    refine ⟨h, ?_⟩
    obtain hsame | hconst := hroot
    · have hsame' : b arr i = a arr i := hsame
      simp only [UpdateList.evalAt, Array.initialValue, hsame']
    · exact Array.initialValue_constant hconst h
  | .extend next index value =>
    obtain ⟨hi, hrest⟩ := h
    obtain ⟨hd, hv⟩ := Expr.agree index (hP index (by simp [UpdateList.subexprs, Expr.self_mem_subexprs])) hi
    simp only [UpdateList.DefinedAt, UpdateList.evalAt, hv]
    by_cases hidx : (index.eval a 32).toNat = i
    · rw [if_pos hidx] at hrest ⊢
      obtain ⟨hd', hv'⟩ := Expr.agree value
        (hP value (by simp [UpdateList.subexprs, Expr.self_mem_subexprs])) hrest
      exact ⟨⟨hd, hd'⟩, by rw [if_pos hidx, if_pos hidx, hv']⟩
    · rw [if_neg hidx] at hrest ⊢
      obtain ⟨hd', hv'⟩ := UpdateList.agree next (fun k hk => hP k (by simp [UpdateList.subexprs, hk])) i hrest hroot
      exact ⟨⟨hd, hd'⟩, by rw [if_neg hidx, if_neg hidx, hv']⟩

end

/-- Such assignments satisfy the same expressions. -/
theorem Expr.holds_congr {e : Expr} (h : ∀ arr i, e.Touches arr i → b arr i = a arr i) (he : e.Holds a) :
    e.Holds b := by
  obtain ⟨hd, hv⟩ := Expr.agree e h he.defined
  exact ⟨hd, by rw [hv]; exact he.value⟩

end Agree

/-! ### Subexpressions are well formed -/

end SymBisect
