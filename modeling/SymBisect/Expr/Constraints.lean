import SymBisect.Expr.VisitorSound

/-!
# Path conditions

`ConstraintManager` of `lib/Expr/Constraints.cpp`.  A set of constraints is a list of booleans in the
order they were pushed.

`addConstraintInternal` splits conjunctions, and before it pushes an equality with a constant it
rewrites all constraints with it; a constraint that changed is added through
`addConstraintInternal` again, which may start another rewriting of the constraints pushed so far.
The recursion is on the total weight of the constraints in flight, so the two functions return a set
with a bound on its weight.  `none` is the failure of the assertion that no false constant is added.
-/

namespace SymBisect

open Expr

/-- `ConstraintSet`. -/
abbrev ConstraintSet := List Expr

/-- The total weight of the constraints. -/
def ConstraintSet.weight (constraints : ConstraintSet) : ℕ := (constraints.map Expr.weight).sum

@[simp] theorem ConstraintSet.weight_nil : ConstraintSet.weight [] = 0 := rfl

@[simp] theorem ConstraintSet.weight_cons (e : Expr) (constraints : ConstraintSet) :
    ConstraintSet.weight (e :: constraints) = e.weight + ConstraintSet.weight constraints := by
  simp [ConstraintSet.weight]

/-- `ConstraintSet::push_back`. -/
def ConstraintSet.push_back (constraints : ConstraintSet) (e : Expr) : ConstraintSet :=
  constraints ++ [e]

@[simp] theorem ConstraintSet.weight_push_back (constraints : ConstraintSet) (e : Expr) :
    (constraints.push_back e).weight = constraints.weight + e.weight := by
  simp [ConstraintSet.weight, ConstraintSet.push_back]

theorem ConstraintSet.mem_push_back {constraints : ConstraintSet} {e c : Expr} :
    c ∈ constraints.push_back e ↔ c ∈ constraints ∨ c = e := by
  simp [ConstraintSet.push_back]

namespace ConstraintManager

/-- The entry that a constraint adds to the map of `simplifyExpr`: an equality with a constant maps
the other side to the constant, any other constraint is mapped to true. -/
def equality : Expr → Expr × Expr
  | .cmp .eq (.const c) right => (right, .const c)
  | constraint => (constraint, ofBool true)

theorem equality_isConstant (constraint : Expr) : (equality constraint).2.isConstant = true := by
  unfold equality
  split <;> rfl

/-- The map that `simplifyExpr` builds. -/
def equalities (constraints : ConstraintSet) : Replacements :=
  constraints.foldl
    (fun repl c => repl.insert (equality c).1 (equality c).2 (equality_isConstant c))
    ⟨[], fun _ h => nomatch h⟩

section
variable [ExprOptions]

/-- `ConstraintManager::simplifyExpr`. -/
def simplifyExpr (constraints : ConstraintSet) (e : Expr) : Expr :=
  if e.isConstant then e else ExprReplaceVisitor2.visit (equalities constraints) e

mutual

/-- `ConstraintManager::addConstraintInternal`. -/
def addConstraintInternalAux (constraints : ConstraintSet) (e : Expr) :
    Option { res : ConstraintSet // res.weight ≤ constraints.weight + e.weight } :=
  match e with
  | .const v => if (Expr.const v).isTrue then some ⟨constraints, Nat.le_add_right _ _⟩ else none
  -- split to enable finer grained independence and other optimizations
  | .bin .and left right =>
    match addConstraintInternalAux constraints left with
    | none => none
    | some ⟨constraints', h'⟩ =>
      match addConstraintInternalAux constraints' right with
      | none => none
      | some ⟨res, h⟩ => some ⟨res, by simp only [Expr.weight]; omega⟩
  | .cmp .eq (.const c) right =>
    if ExprOptions.rewriteEqualities then
      match rewriteConstraintsAux right c [] constraints with
      | none => none
      | some ⟨constraints', h⟩ =>
        some ⟨constraints'.push_back (.cmp .eq (.const c) right), by
          simp only [ConstraintSet.weight_nil] at h
          simp only [ConstraintSet.weight_push_back]
          omega⟩
    else some ⟨constraints.push_back (.cmp .eq (.const c) right), by simp⟩
  | e => some ⟨constraints.push_back e, by simp⟩
  termination_by (constraints.weight + e.weight, 0)
  decreasing_by
    all_goals
      refine .left _ _ ?_
      simp only [Expr.weight, BinOp.weight, CmpOp.weight, ConstraintSet.weight_nil]
      omega

/-- `ConstraintManager::rewriteConstraints` with `ExprReplaceVisitor(src, c)`: the loop over the
`old` constraints still to visit, pushing to `constraints`. -/
def rewriteConstraintsAux {w : ℕ} (src : Expr) (c : BitVec w) (constraints old : ConstraintSet) :
    Option { res : ConstraintSet // res.weight ≤ constraints.weight + old.weight } :=
  match old with
  | [] => some ⟨constraints, Nat.le_add_right _ _⟩
  | ce :: old =>
    if h : ExprReplaceVisitor.visit src (.const c) ce = ce then
      match rewriteConstraintsAux src c (constraints.push_back ce) old with
      | none => none
      | some ⟨res, h⟩ => some ⟨res, by
          simp only [ConstraintSet.weight_push_back, ConstraintSet.weight_cons] at h ⊢
          omega⟩
    else
      have hlt := (ExprReplaceVisitor.visit_const_kept_or_lighter src c ce).resolve_left h
      -- enable further reductions
      match addConstraintInternalAux constraints (ExprReplaceVisitor.visit src (.const c) ce) with
      | none => none
      | some ⟨constraints', h'⟩ =>
        match rewriteConstraintsAux src c constraints' old with
        | none => none
        | some ⟨res, h⟩ => some ⟨res, by simp only [ConstraintSet.weight_cons]; omega⟩
  termination_by (constraints.weight + old.weight, old.length)
  decreasing_by
    · simp only [ConstraintSet.weight_push_back, ConstraintSet.weight_cons, Nat.add_assoc]
      exact .right _ (by simp)
    · refine .left _ _ ?_
      simp only [ConstraintSet.weight_cons]
      omega
    · refine .left _ _ ?_
      simp only [ConstraintSet.weight_cons]
      omega

end

def addConstraintInternal (constraints : ConstraintSet) (e : Expr) : Option ConstraintSet :=
  (addConstraintInternalAux constraints e).map Subtype.val

/-- `rewriteConstraints`; its caller does not use whether anything changed. -/
def rewriteConstraints {w : ℕ} (src : Expr) (c : BitVec w) (constraints old : ConstraintSet) :
    Option ConstraintSet :=
  (rewriteConstraintsAux src c constraints old).map Subtype.val

/-- `addConstraintInternal` as the source writes it. -/
theorem addConstraintInternal_eq (constraints : ConstraintSet) (e : Expr) :
    addConstraintInternal constraints e =
      match e with
      | .const v => if (Expr.const v).isTrue then some constraints else none
      | .bin .and left right =>
        (addConstraintInternal constraints left).bind fun constraints' =>
          addConstraintInternal constraints' right
      | .cmp .eq (.const c) right =>
        if ExprOptions.rewriteEqualities then
          (rewriteConstraints right c [] constraints).map
            (ConstraintSet.push_back · (.cmp .eq (.const c) right))
        else some (constraints.push_back (.cmp .eq (.const c) right))
      | e => some (constraints.push_back e) := by
  unfold addConstraintInternal rewriteConstraints
  rw [addConstraintInternalAux.eq_def]
  split
  · split <;> rfl
  · rename_i left right
    cases addConstraintInternalAux constraints left with
    | none => rfl
    | some res =>
      simp only [Option.map_some, Option.bind_some]
      cases addConstraintInternalAux res.1 right <;> rfl
  · rename_i c right
    split
    · cases rewriteConstraintsAux right c [] constraints <;> rfl
    · rfl
  · rfl

theorem rewriteConstraints_nil {w : ℕ} (src : Expr) (c : BitVec w) (constraints : ConstraintSet) :
    rewriteConstraints src c constraints [] = some constraints := by
  unfold rewriteConstraints
  rw [rewriteConstraintsAux]
  rfl

/-- One turn of the loop of `rewriteConstraints`. -/
theorem rewriteConstraints_cons {w : ℕ} (src : Expr) (c : BitVec w)
    (constraints old : ConstraintSet) (ce : Expr) :
    rewriteConstraints src c constraints (ce :: old) =
      if ExprReplaceVisitor.visit src (.const c) ce = ce then
        rewriteConstraints src c (constraints.push_back ce) old
      else (addConstraintInternal constraints (ExprReplaceVisitor.visit src (.const c) ce)).bind
        fun constraints' => rewriteConstraints src c constraints' old := by
  unfold addConstraintInternal rewriteConstraints
  rw [rewriteConstraintsAux]
  split
  · cases rewriteConstraintsAux src c (constraints.push_back ce) old <;> rfl
  · cases h : addConstraintInternalAux constraints (ExprReplaceVisitor.visit src (.const c) ce) with
    | none => rfl
    | some res =>
      simp only [Option.map_some, Option.bind_some]
      cases rewriteConstraintsAux src c res.1 old <;> rfl

/-- The weight that the auxiliary functions carry. -/
theorem weight_addConstraintInternal_le {constraints res : ConstraintSet} {e : Expr}
    (h : addConstraintInternal constraints e = some res) :
    res.weight ≤ constraints.weight + e.weight := by
  unfold addConstraintInternal at h
  obtain ⟨r, -, rfl⟩ := Option.map_eq_some_iff.1 h
  exact r.2

/-- `ConstraintManager::addConstraint`. -/
def addConstraint (constraints : ConstraintSet) (e : Expr) : Option ConstraintSet :=
  addConstraintInternal constraints (simplifyExpr constraints e)

/-- The sets that a sequence of `addConstraint` calls builds. -/
inductive Built : ConstraintSet → Prop
  | empty : Built []
  | add {constraints constraints' : ConstraintSet} {e : Expr} (h : Built constraints)
      (he : e.HasWidth 1) (hadd : addConstraint constraints e = some constraints') :
      Built constraints'

end

end ConstraintManager

end SymBisect
