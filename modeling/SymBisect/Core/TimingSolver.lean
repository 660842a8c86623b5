import SymBisect.Expr.ConstraintsSound

/-!
# The timing solver

`TimingSolver` of `lib/Core/TimingSolver.cpp` over a chain of solvers that is not modelled: the chain
is a function from a query to an answer, or to nothing when it times out.  `TimingSolver.Correct`
is what the executor relies on: on a satisfiable set, an answer is right.
-/

namespace SymBisect

open Expr ConstraintSet

/-- A `TimingSolver`; `solver` answers `mustBeTrue` queries. -/
structure TimingSolver where
  simplifyExprs : Bool
  solver : ConstraintSet → Expr → Option Bool

/-- `e` is true under every assignment that satisfies the constraints. -/
def ConstraintSet.Entails (constraints : ConstraintSet) (e : Expr) : Prop :=
  ∀ a, Satisfies a constraints → e.Holds a

/-- Some assignment satisfies the constraints. -/
def ConstraintSet.Satisfiable (constraints : ConstraintSet) : Prop := ∃ a, Satisfies a constraints

/-- `e` evaluates under every assignment that satisfies the constraints. -/
def ConstraintSet.Defines (constraints : ConstraintSet) (e : Expr) : Prop :=
  ∀ a, Satisfies a constraints → e.Defined a

namespace TimingSolver

section
variable [ExprOptions]

/-- `TimingSolver::mustBeTrue`. -/
def mustBeTrue (ts : TimingSolver) (constraints : ConstraintSet) (e : Expr) : Option Bool :=
  -- fast path, to avoid timer and OS overhead
  if e.isConstant then some e.isTrue
  else ts.solver constraints
    (if ts.simplifyExprs then ConstraintManager.simplifyExpr constraints e else e)

end

/-- The solver chain answers every query about a satisfiable set, and rightly. -/
def Correct (ts : TimingSolver) : Prop :=
  ∀ constraints e, constraints.IsBool → constraints.Satisfiable → e.HasWidth 1 →
    constraints.Defines e →
    ∃ b, ts.solver constraints e = some b ∧ (b = true ↔ constraints.Entails e)

variable [ExprOptions]

/-- Simplification changes neither the type nor the meaning of a query. -/
theorem entails_simplifyExpr_iff {constraints : ConstraintSet} {e : Expr}
    (hb : constraints.IsBool) (he : e.HasWidth 1) (hd : constraints.Defines e) :
    constraints.Entails (ConstraintManager.simplifyExpr constraints e) ↔ constraints.Entails e := by
  have href := ConstraintManager.simplifyExpr_refinesOn hb he.wf
  refine forall₂_congr fun a hs => ?_
  rcases holds_or_fails (hd a hs) with h | h
  · exact iff_of_true (href.denotes_of hs he h) h
  · have hf := href.denotes_of hs he h
    exact iff_of_false (fun h' => absurd (h'.value.symm.trans hf.value) (by decide))
      (fun h' => absurd (h'.value.symm.trans h.value) (by decide))

/-- **`mustBeTrue` is right** on a satisfiable set. -/
theorem mustBeTrue_spec {ts : TimingSolver} (h : ts.Correct) {constraints : ConstraintSet} {e : Expr}
    (hb : constraints.IsBool) (hs : constraints.Satisfiable) (he : e.HasWidth 1)
    (hd : constraints.Defines e) :
    ∃ b, ts.mustBeTrue constraints e = some b ∧ (b = true ↔ constraints.Entails e) := by
  unfold mustBeTrue
  split
  · rename_i hc
    refine ⟨e.isTrue, rfl, ?_⟩
    cases e with
    | const v =>
      obtain ⟨a, ha⟩ := hs
      exact ⟨fun ht _ _ => (ConstraintManager.holds_const_iff he).2 ht,
        fun hent => (ConstraintManager.holds_const_iff he).1 (hent a ha)⟩
    | _ => cases hc
  · split
    · have href := ConstraintManager.simplifyExpr_refinesOn hb he.wf
      obtain ⟨b, hres, hiff⟩ := h constraints _ hb hs
        ⟨href.hasWidth.wf, href.hasWidth.width.trans he.width⟩
        fun a ha => (href.denotes ha (hd a ha)).defined
      exact ⟨b, hres, hiff.trans (entails_simplifyExpr_iff hb he hd)⟩
    · exact h constraints e hb hs he hd

/-- A query whose meaning under an assignment is `P` is refuted by the assignments that fail `P`. -/
theorem mustBeTrue_decides {ts : TimingSolver} (h : ts.Correct) {constraints : ConstraintSet}
    {e : Expr} {P : Assignment → Prop} (hb : constraints.IsBool) (hs : constraints.Satisfiable)
    (he : e.HasWidth 1)
    (hP : ∀ a, Satisfies a constraints → ∃ b, e.Denotes a (BitVec.ofBool b) ∧ (b = true ↔ P a)) :
    ∃ b, ts.mustBeTrue constraints e = some b ∧
      (b = false ↔ ∃ a, Satisfies a constraints ∧ ¬P a) := by
  have hholds : ∀ a, Satisfies a constraints → (e.Holds a ↔ P a) := by
    intro a ha
    obtain ⟨b, hden, hiff⟩ := hP a ha
    rw [← hiff]
    constructor
    · intro hh
      have hv := hden.value.symm.trans hh.value
      cases b with
      | true => rfl
      | false => exact absurd hv (by decide)
    · rintro rfl
      exact hden
  obtain ⟨b, hres, hiff⟩ := mustBeTrue_spec h hb hs he fun a ha => by
    obtain ⟨_, hden, -⟩ := hP a ha
    exact hden.defined
  refine ⟨b, hres, ?_⟩
  rw [← Bool.not_eq_true, hiff]
  unfold ConstraintSet.Entails
  push Not
  exact exists_congr fun a => and_congr_right fun ha => not_congr (hholds a ha)

end TimingSolver

/-- The solver that answers every query, by definition. -/
noncomputable def TimingSolver.exact : TimingSolver where
  simplifyExprs := true
  solver constraints e := by
    classical exact some (decide (constraints.Entails e))

theorem TimingSolver.exact_correct : TimingSolver.exact.Correct := by
  intro constraints e _ _ _ _
  exact ⟨_, rfl, by simp⟩

end SymBisect
