import SymBisect.Core.TimingSolver

/-!
# Queries and solvers

`Query` of `include/klee/Solver/Solver.h` and the interface `SolverImpl` of the solvers that are stacked
on each other.  A call returns nothing when the solver fails, for example by a time-out; the time of a call
is its first argument, so a solver may answer the same query now and fail on it later.

`Query.Proper` is what the solvers are promised: boolean, satisfiable constraints and an expression that
evaluates wherever they hold.
-/

namespace SymBisect

open Expr ConstraintSet

/-- `Solver::Validity`. -/
inductive Validity where
  | True
  | False
  | Unknown
  deriving DecidableEq

/-- `Query`. -/
structure Query where
  constraints : ConstraintSet
  expr : Expr

namespace Query

/-- `Query::withFalse`. -/
def withFalse (q : Query) : Query := { q with expr := ofBool false }

section
variable [ExprOptions]

/-- `Query::negateExpr`. -/
def negateExpr (q : Query) : Query := { q with expr := createIsZero q.expr }

end

/-- The constraints are boolean and satisfiable, and the expression is a boolean that evaluates under
them. -/
structure Proper (q : Query) : Prop where
  isBool : q.constraints.IsBool
  satisfiable : q.constraints.Satisfiable
  width : q.expr.HasWidth 1
  defines : q.constraints.Defines q.expr

/-- Some assignment satisfies the constraints and the expression. -/
def MayHold (q : Query) : Prop := ∃ a, Satisfies a q.constraints ∧ q.expr.Holds a

/-- Some assignment satisfies the constraints but not the expression. -/
def MayFail (q : Query) : Prop := ∃ a, Satisfies a q.constraints ∧ q.expr.Fails a

/-- The answer of `computeTruth`: whether the expression is valid. -/
def TruthRight (q : Query) (isValid : Bool) : Prop := isValid = true ↔ q.constraints.Entails q.expr

/-- The answer of `computeValidity`. -/
def ValidityRight (q : Query) : Validity → Prop
  | .True => ¬q.MayFail
  | .False => ¬q.MayHold
  | .Unknown => q.MayHold ∧ q.MayFail

variable {q : Query}

theorem holds_not_fails {a : Assignment} {e : Expr} (h : e.Holds a) : ¬e.Fails a := fun hf =>
  absurd (h.value.symm.trans hf.value) (by decide)

/-- Where the expression evaluates, it is valid exactly when it cannot fail. -/
theorem entails_iff_of_defines (h : q.constraints.Defines q.expr) :
    q.constraints.Entails q.expr ↔ ¬q.MayFail := by
  constructor
  · intro hent hfail
    obtain ⟨a, ha, hf⟩ := hfail
    exact holds_not_fails (hent a ha) hf
  · intro hfail a ha
    exact (holds_or_fails (h a ha)).resolve_right fun hf => hfail ⟨a, ha, hf⟩

theorem entails_iff (h : q.Proper) : q.constraints.Entails q.expr ↔ ¬q.MayFail :=
  entails_iff_of_defines h.defines

/-- One of the two sides is feasible. -/
theorem mayHold_or_mayFail (h : q.Proper) : q.MayHold ∨ q.MayFail := by
  obtain ⟨a, ha⟩ := h.satisfiable
  exact (holds_or_fails (h.defines a ha)).imp (fun hh => ⟨a, ha, hh⟩) fun hf => ⟨a, ha, hf⟩

/-- There is one right validity. -/
theorem validityRight_unique (h : q.Proper) {v w : Validity} (hv : q.ValidityRight v)
    (hw : q.ValidityRight w) : v = w := by
  have hone := mayHold_or_mayFail h
  cases v with
  | True => cases w with
    | True => rfl
    | False => exact absurd hone (not_or.2 ⟨hw, hv⟩)
    | Unknown => exact absurd hw.2 hv
  | False => cases w with
    | True => exact absurd hone (not_or.2 ⟨hv, hw⟩)
    | False => rfl
    | Unknown => exact absurd hw.1 hv
  | Unknown => cases w with
    | True => exact absurd hv.2 hw
    | False => exact absurd hv.1 hw
    | Unknown => rfl

section
variable [ExprOptions]

theorem createIsZero_holds {a : Assignment} {e : Expr} (he : e.HasWidth 1) (h : e.Fails a) :
    (createIsZero e).Holds a := (createIsZero_computes he).denotes h

theorem createIsZero_fails {a : Assignment} {e : Expr} (he : e.HasWidth 1) (h : e.Holds a) :
    (createIsZero e).Fails a := (createIsZero_computes he).denotes h

/-- Under an assignment that evaluates it, the negation holds exactly where the expression fails. -/
theorem createIsZero_holds_iff {a : Assignment} {e : Expr} (he : e.HasWidth 1) (hd : e.Defined a) :
    (createIsZero e).Holds a ↔ e.Fails a :=
  ⟨fun h => (holds_or_fails hd).resolve_left fun hh => holds_not_fails h (createIsZero_fails he hh),
    createIsZero_holds he⟩

theorem createIsZero_fails_iff {a : Assignment} {e : Expr} (he : e.HasWidth 1) (hd : e.Defined a) :
    (createIsZero e).Fails a ↔ e.Holds a :=
  ⟨fun h => (holds_or_fails hd).resolve_right fun hf => holds_not_fails (createIsZero_holds he hf) h,
    createIsZero_fails he⟩

theorem Proper.negateExpr (h : q.Proper) : q.negateExpr.Proper where
  isBool := h.isBool
  satisfiable := h.satisfiable
  width := (createIsZero_computes h.width).hasWidth
  defines a ha := ((createIsZero_computes h.width).denotes (.self (h.defines a ha) 1)).defined

/-- The negated query swaps the sides. -/
theorem mayHold_negateExpr (h : q.Proper) : q.negateExpr.MayHold ↔ q.MayFail :=
  exists_congr fun a => and_congr_right fun ha => createIsZero_holds_iff h.width (h.defines a ha)

theorem mayFail_negateExpr (h : q.Proper) : q.negateExpr.MayFail ↔ q.MayHold :=
  exists_congr fun a => and_congr_right fun ha => createIsZero_fails_iff h.width (h.defines a ha)

end

end Query

/-- `SolverImpl`: the answers at a given time, or nothing when the call fails. -/
structure SolverImpl where
  computeTruth : ℕ → Query → Option Bool
  computeValidity : ℕ → Query → Option Validity

namespace SolverImpl

/-- The answers to proper queries are right. -/
structure Correct (solver : SolverImpl) : Prop where
  truth : ∀ n q, q.Proper → ∀ b, solver.computeTruth n q = some b → q.TruthRight b
  validity : ∀ n q, q.Proper → ∀ v, solver.computeValidity n q = some v → q.ValidityRight v

/-- Every call is answered. -/
structure Total (solver : SolverImpl) : Prop where
  truth : ∀ n q, (solver.computeTruth n q).isSome = true
  validity : ∀ n q, (solver.computeValidity n q).isSome = true

/-- The solver that answers every query, by definition. -/
noncomputable def exact : SolverImpl where
  computeTruth _ q := by classical exact some (decide (q.constraints.Entails q.expr))
  computeValidity _ q := by
    classical exact some (if ¬q.MayFail then .True else if ¬q.MayHold then .False else .Unknown)

theorem exact_correct : exact.Correct := by
  refine ⟨fun n q _ b hb => ?_, fun n q _ v hv => ?_⟩
  · simp only [exact, Option.some.injEq] at hb
    subst hb
    simp [Query.TruthRight]
  · simp only [exact, Option.some.injEq] at hv
    subst hv
    split
    · assumption
    · split
      · assumption
      · exact ⟨not_not.1 ‹_›, not_not.1 ‹_›⟩

end SolverImpl

end SymBisect
