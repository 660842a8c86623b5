import SymBisect.Expr.AssignmentEvaluate
import SymBisect.Solver.GetRange
import SymBisect.Solver.IndependentFactors
import SymBisect.Solver.SymbolicObjects

/-!
# Solvers over solvers

All calls of `SolverImpl`, and the solvers that are stacked on another one and keep nothing: `StagedSolverImpl` and
`IncompleteSolver` of `lib/Solver/IncompleteSolver.cpp`, and the validating solvers of `lib/Solver/ValidatingSolver.cpp` and
`lib/Solver/AssignmentValidatingSolver.cpp`.

* `SolverCalls.Correct`: every answer is right.  The initial values may be promised for some queries only.
* `StagedSolver_correct`: an incomplete solver in front of a correct one.
* `validating_right`, `assignmentValidating_right`: what passes a validation is right, whatever the solver does.
* `validating_passes`: right answers pass the validation by a correct oracle.
-/

namespace SymBisect

open Lib Expr ConstraintSet

/-- `SolverImpl`. -/
structure SolverCalls extends SolverImpl where
  computeValue : ℕ → Query → Option Expr
  computeInitialValues : InitialValues

/-! ### Right answers -/

namespace Query

variable [ExprOptions] {q : Query}

/-- What `getInitialValues` is asked for: a clear boolean query with satisfiable constraints. -/
structure Fit (q : Query) : Prop where
  clear : q.Clear
  satisfiable : q.constraints.Satisfiable
  width : q.expr.HasWidth 1

omit [ExprOptions] in
theorem Fit.proper (h : q.Fit) : q.Proper := ⟨h.clear.isBool, h.satisfiable, h.width, h.clear.defines⟩

theorem Fit.negateExpr (h : q.Fit) : q.negateExpr.Fit :=
  ⟨h.clear.negateExpr h.width, h.satisfiable, h.proper.negateExpr.width⟩

/-- The objects are all that the query reads. -/
def Covers (q : Query) (objects : List Array) : Prop :=
  ∀ c, c ∈ q.constraints ∨ c = createIsZero q.expr → ∀ array ∈ c.symbolicObjects, array ∈ objects

/-- The constraints and the expression evaluate under every assignment. -/
def Evaluates (q : Query) : Prop := ∀ a, (∀ c ∈ q.constraints, c.Defined a) ∧ q.expr.Defined a

/-- A right answer of `computeInitialValues`: one value for each byte of the objects, from an assignment under which the
constraints hold and the expression fails; and where nothing else is read, the values alone are such an assignment. -/
def SolutionRight (q : Query) (objects : List Array) : Option (List (List (BitVec 8))) → Prop
  | none => ¬q.MayFail
  | some values =>
    values.map List.length = objects.map Array.size ∧
      CexCachingSolver.InitialValuesRight q objects (some values) ∧
      (q.Covers objects → q.AssignmentRight (some (objects.zip values)))

end Query

namespace SolverCalls

/-- The answers to clear queries are right; those of `computeInitialValues` to the queries of `P`. -/
structure Correct [ExprOptions] (solver : SolverCalls) (P : Query → Prop) : Prop where
  truth : ∀ n q, q.Fit → ∀ b, solver.computeTruth n q = some b → q.TruthRight b
  validity : ∀ n q, q.Fit → q.expr.Plain → ∀ v, solver.computeValidity n q = some v → q.ValidityRight v
  value : ∀ n q, q.Clear → q.constraints.Satisfiable → q.expr.Plain → ∀ e, solver.computeValue n q = some e →
    CexCachingSolver.ValueRight q e
  initialValues : ∀ n q objects, q.Clear → q.expr.HasWidth 1 → P q → ∀ r, solver.computeInitialValues n q objects = some r →
    q.SolutionRight objects r

theorem Correct.mono [ExprOptions] {solver : SolverCalls} {P P' : Query → Prop} (h : solver.Correct P)
    (hP : ∀ q, P' q → P q) : solver.Correct P' :=
  ⟨h.truth, h.validity, h.value, fun n q objects hq hw hp => h.initialValues n q objects hq hw (hP q hp)⟩

/-- A call to the solver below. -/
def ask {α : Type} (f : ℕ → Option α) : Prog ℕ (Option α) := do
  let n ← Prog.get
  Prog.modify (· + 1)
  pure (f n)

/-- The answer of a program that is started at a time, if it gives one. -/
def answer {α : Type} (m : Prog ℕ (Option α)) (n : ℕ) : Option α := (m n).1.join

theorem wp_ask {α : Type} {f : ℕ → Option α} {Q : Option α → ℕ → Prop} {E : ℕ → Prop} {n : ℕ} :
    Prog.wp (ask f) Q E n ↔ Q (f n) (n + 1) := Iff.rfl

theorem answer_of_wp {α : Type} {m : Prog ℕ (Option α)} {P : α → Prop} {E : ℕ → Prop} {n : ℕ} {x : α}
    (h : Prog.wp m (fun r _ => ∀ x, r = some x → P x) E n) (hx : answer m n = some x) : P x := by
  unfold answer at hx
  unfold Prog.wp at h
  cases hrun : m n with
  | mk r t =>
    rw [hrun] at h hx
    cases r with
    | none => cases hx
    | some r => exact h x hx

theorem eq_of_join {σ α : Type} {m : Prog σ (Option α)} {s : σ} {x : α} (h : (m s).1.join = some x) :
    ∃ t, m s = (some (some x), t) := by
  cases hrun : m s with
  | mk r t =>
    rw [hrun] at h
    exact ⟨t, congrArg (fun r => (r, t)) (Option.join_eq_some_iff.1 h)⟩

end SolverCalls

open SolverCalls

/-! ### Staged solvers -/

/-- `IncompleteSolver`, with what a sub-class has to say. -/
structure IncompleteSolver where
  computeTruth : Query → PartialValidity
  computeValue : Query → Option Expr
  computeInitialValues : Query → List Array → Option (Option (List (List (BitVec 8))))

namespace IncompleteSolver

variable [ExprOptions]

/-- `IncompleteSolver::computeValidity`. -/
def computeValidity (solver : IncompleteSolver) (query : Query) : PartialValidity :=
  let trueResult := solver.computeTruth query
  if trueResult = .MustBeTrue then .MustBeTrue
  else
    let falseResult := solver.computeTruth query.negateExpr
    if falseResult = .MustBeTrue then .MustBeFalse
    else if trueResult ≠ .None ∧ falseResult ≠ .None then .TrueOrFalse
    else if trueResult ≠ .None then .MayBeFalse
    else if falseResult ≠ .None then .MayBeTrue
    else .None

/-- What the staged solver relies on: `computeTruth` knows that the expression is valid, or that it may fail, or nothing. -/
structure Sound (solver : IncompleteSolver) : Prop where
  truth : ∀ q, q.Fit → solver.computeTruth q = .MustBeTrue ∧ ¬q.MayFail ∨ solver.computeTruth q = .MayBeFalse ∧ q.MayFail ∨
    solver.computeTruth q = .None
  value : ∀ q, q.Clear → q.constraints.Satisfiable → q.expr.Plain → ∀ e, solver.computeValue q = some e →
    CexCachingSolver.ValueRight q e
  initialValues : ∀ q objects, q.Clear → q.expr.HasWidth 1 → ∀ r, solver.computeInitialValues q objects = some r →
    q.SolutionRight objects r

/-- What the two calls of `computeTruth` say together. -/
theorem computeValidity_right {solver : IncompleteSolver} (h : solver.Sound) {q : Query} (hq : q.Fit) :
    solver.computeValidity q = .None ∨ (solver.computeValidity q).Right q := by
  have hhold := Query.mayFail_negateExpr hq.proper
  unfold computeValidity
  obtain ⟨ht, hright⟩ | ⟨ht, hright⟩ | ht := h.truth q hq
  · rw [ht]
    exact .inr hright
  · obtain ⟨hf, hright'⟩ | ⟨hf, hright'⟩ | hf := h.truth _ hq.negateExpr
    · rw [ht, hf]
      exact .inr fun hmay => hright' (hhold.2 hmay)
    · rw [ht, hf]
      exact .inr ⟨hhold.1 hright', hright⟩
    · rw [ht, hf]
      exact .inr hright
  · obtain ⟨hf, hright'⟩ | ⟨hf, hright'⟩ | hf := h.truth _ hq.negateExpr
    · rw [ht, hf]
      exact .inr fun hmay => hright' (hhold.2 hmay)
    · rw [ht, hf]
      exact .inr (hhold.1 hright')
    · rw [ht, hf]
      exact .inl rfl

end IncompleteSolver

section

variable [ExprOptions]

/-- `StagedSolverImpl::computeValidity`. -/
def StagedSolver.computeValidity (primary : IncompleteSolver) (secondary : SolverCalls) (n : ℕ) (query : Query) : Option Validity :=
  match primary.computeValidity query with
  | .MustBeTrue => some .True
  | .MustBeFalse => some .False
  | .TrueOrFalse => some .Unknown
  | .MayBeTrue => (secondary.computeTruth n query).map fun tmp => if tmp then .True else .Unknown
  | .MayBeFalse => (secondary.computeTruth n query.negateExpr).map fun tmp => if tmp then .False else .Unknown
  | .None => secondary.computeValidity n query

/-- `StagedSolverImpl`. -/
def StagedSolver (primary : IncompleteSolver) (secondary : SolverCalls) : SolverCalls where
  computeTruth n query :=
    let trueResult := primary.computeTruth query
    if trueResult ≠ .None then some (decide (trueResult = .MustBeTrue)) else secondary.computeTruth n query
  computeValidity := StagedSolver.computeValidity primary secondary
  computeValue n query := (primary.computeValue query).or (secondary.computeValue n query)
  computeInitialValues n query objects :=
    (primary.computeInitialValues query objects).or (secondary.computeInitialValues n query objects)

namespace StagedSolver

variable {primary : IncompleteSolver} {secondary : SolverCalls} {P : Query → Prop} {q : Query}

theorem computeTruth_right (hp : primary.Sound) (hs : secondary.Correct P) (hq : q.Fit) {n : ℕ} {b : Bool}
    (hb : (StagedSolver primary secondary).computeTruth n q = some b) : q.TruthRight b := by
  have hiff := Query.entails_iff hq.proper
  have hb' : (if primary.computeTruth q ≠ .None then some (decide (primary.computeTruth q = .MustBeTrue))
      else secondary.computeTruth n q) = some b := hb
  obtain ⟨ht, hright⟩ | ⟨ht, hright⟩ | ht := hp.truth q hq
  · rw [ht] at hb'
    obtain rfl := Option.some.inj hb'
    exact iff_of_true rfl (hiff.2 hright)
  · rw [ht] at hb'
    obtain rfl := Option.some.inj hb'
    exact iff_of_false (by decide) fun hent => hiff.1 hent hright
  · rw [ht] at hb'
    exact hs.truth n q hq b hb'

/-- What is known of one side decides with the truth of the other. -/
theorem computeValidity_right (hp : primary.Sound) (hs : secondary.Correct P) (hq : q.Fit) (hplain : q.expr.Plain) {n : ℕ}
    {v : Validity} (hv : StagedSolver.computeValidity primary secondary n q = some v) : q.ValidityRight v := by
  have hright := IncompleteSolver.computeValidity_right hp hq
  unfold StagedSolver.computeValidity at hv
  cases hpv : primary.computeValidity q with
  | MustBeTrue =>
    rw [hpv] at hv hright
    obtain rfl := Option.some.inj hv
    exact hright.resolve_left (by decide)
  | MustBeFalse =>
    rw [hpv] at hv hright
    obtain rfl := Option.some.inj hv
    exact hright.resolve_left (by decide)
  | TrueOrFalse =>
    rw [hpv] at hv hright
    obtain rfl := Option.some.inj hv
    exact hright.resolve_left (by decide)
  | MayBeTrue =>
    rw [hpv] at hv hright
    have hmay : q.MayHold := hright.resolve_left (by decide)
    obtain ⟨tmp, htmp, rfl⟩ := Option.map_eq_some_iff.1 hv
    have hiff := (hs.truth n q hq tmp htmp).trans (Query.entails_iff hq.proper)
    cases tmp with
    | true => exact hiff.1 rfl
    | false => exact ⟨hmay, not_not.1 fun hno => Bool.false_ne_true (hiff.2 hno)⟩
  | MayBeFalse =>
    rw [hpv] at hv hright
    have hmay : q.MayFail := hright.resolve_left (by decide)
    obtain ⟨tmp, htmp, rfl⟩ := Option.map_eq_some_iff.1 hv
    have hiff := (hs.truth n _ hq.negateExpr tmp htmp).trans (Query.entails_iff hq.negateExpr.proper)
    rw [Query.mayFail_negateExpr hq.proper] at hiff
    cases tmp with
    | true => exact hiff.1 rfl
    | false => exact ⟨not_not.1 fun hno => Bool.false_ne_true (hiff.2 hno), hmay⟩
  | None =>
    rw [hpv] at hv
    exact hs.validity n q hq hplain v hv

end StagedSolver

/-- **Staging.**  An incomplete solver that knows what it says, in front of a correct solver, is a correct solver. -/
theorem StagedSolver_correct {primary : IncompleteSolver} {secondary : SolverCalls} {P : Query → Prop} (hp : primary.Sound)
    (hs : secondary.Correct P) : (StagedSolver primary secondary).Correct P where
  truth n q hq b hb := StagedSolver.computeTruth_right hp hs hq hb
  validity n q hq hplain v hv := StagedSolver.computeValidity_right hp hs hq hplain hv
  value n q hq hsat hplain e he := by
    obtain hres | ⟨-, hres⟩ := Option.or_eq_some_iff.1 he
    · exact hp.value q hq hsat hplain e hres
    · exact hs.value n q hq hsat hplain e hres
  initialValues n q objects hq hw hP r hr := by
    obtain hres | ⟨-, hres⟩ := Option.or_eq_some_iff.1 hr
    · exact hp.initialValues q objects hq hw r hres
    · exact hs.initialValues n q objects hq hw hP r hres

end

/-! ### Validation by an oracle -/

namespace ValidatingSolver

variable [ExprOptions] (solver oracle : SolverCalls)

def computeTruth (query : Query) : Prog ℕ (Option Bool) := do
  match ← ask fun n => solver.computeTruth n query with
  | none => pure none
  | some isValid => do
    match ← ask fun n => oracle.computeTruth n query with
    | none => pure none
    | some answer => do
      -- invalid solver result (computeTruth)
      Prog.assert (isValid = answer)
      pure (some isValid)

def computeValidity (query : Query) : Prog ℕ (Option Validity) := do
  match ← ask fun n => solver.computeValidity n query with
  | none => pure none
  | some result => do
    match ← ask fun n => oracle.computeValidity n query with
    | none => pure none
    | some answer => do
      -- invalid solver result (computeValidity)
      Prog.assert (result = answer)
      pure (some result)

/-- The value is only made sure to be a legal one; expressions of two widths cannot be compared. -/
def computeValue (query : Query) : Prog ℕ (Option Expr) := do
  match ← ask fun n => solver.computeValue n query with
  | none => pure none
  | some result => do
    Prog.assert (query.expr.getWidth = result.getWidth)
    match ← ask fun n => oracle.computeTruth n (query.withExpr (NeExpr.create query.expr result)) with
    | none => pure none
    | some answer => do
      -- invalid solver result (computeValue)
      Prog.assert (answer = false)
      pure (some result)

/-- One byte of an object is the one that was returned. -/
def binding (array : Array) (j : ℕ) (value : BitVec 8) : Expr :=
  EqExpr.create (ReadExpr.create (.root array) (.const (BitVec.ofNat 32 j))) (.const value)

/-- The bindings as constraints. -/
def bindings (objects : List Array) (values : List (List (BitVec 8))) : ConstraintSet :=
  (objects.zip values).flatMap fun x => (List.range x.1.size).map fun j => binding x.1 j (x.2.getD j 0)

/-- The conjunction of the constraints and the negated expression. -/
def conjunction (query : Query) : Expr := query.constraints.foldl AndExpr.create (createIsZero query.expr)

/-- The solution, or that there is none, is put to the oracle; every byte of every object is read from the values. -/
def computeInitialValues (query : Query) (objects : List Array) : Prog ℕ (Option (Option (List (List (BitVec 8))))) := do
  match ← ask fun n => solver.computeInitialValues n query objects with
  | none => pure none
  | some none => do
    match ← ask fun n => oracle.computeTruth n query with
    | none => pure none
    | some answer => do
      -- invalid solver result (computeInitialValues)
      Prog.assert (answer = true)
      pure (some none)
  | some (some values) => do
    Prog.assert (values.length ≤ objects.length ∧ ∀ x ∈ objects.zip values, x.1.size ≤ x.2.length)
    match ← ask fun n => oracle.computeTruth n ⟨bindings objects values, conjunction query⟩ with
    | none => pure none
    | some answer => do
      -- invalid solver result (computeInitialValues)
      Prog.assert (answer = true)
      pure (some (some values))

end ValidatingSolver

/-! ### Validation by evaluation -/

/-- `ConstantExpr::isFalse`, false on every other expression. -/
def Expr.isFalse : Expr → Bool
  | .const (w := w) v => w == 1 && v.toNat == 0
  | _ => false

namespace AssignmentValidatingSolver

variable [ExprOptions] (useVisitorHash : Bool)

/-- What the assignment makes of an expression is a constant, and not the one that it must not be. -/
def checks (assignment : Bindings) (bad : Expr → Bool) (e : Expr) : Bool :=
  match ExprVisitor.evaluate useVisitorHash true assignment e with
  | some evaluated => evaluated.isConstant && !bad evaluated
  | none => false

/-- `computeInitialValues`; a call that fails is taken to have no solution set. -/
def computeInitialValues (solver : SolverCalls) (query : Query) (objects : List Array) :
    Prog ℕ (Option (Option (List (List (BitVec 8))))) := do
  match ← ask fun n => solver.computeInitialValues n query objects with
  | none => pure none
  | some none => pure (some none)
  | some (some values) => do
    let assignment : Bindings := objects.zip values
    -- constraint did not evaluate to a constant, or evaluated to false
    Prog.assert (∀ constraint ∈ query.constraints, checks useVisitorHash assignment Expr.isFalse constraint = true)
    -- the query expression evaluated to true
    Prog.assert (checks useVisitorHash assignment Expr.isTrue query.expr = true)
    pure (some (some values))

end AssignmentValidatingSolver

/-! ### What passes is right -/

namespace ValidatingSolver

variable [ExprOptions] {solver oracle : SolverCalls} {P P' : Query → Prop} {q : Query} {objects : List Array}
  {values : List (List (BitVec 8))} {a : Assignment}

theorem binding_hasWidth (array : Array) (j : ℕ) (value : BitVec 8) : (binding array j value).HasWidth 1 :=
  (EqExpr.create_computes (ReadExpr.create_computes (show (UpdateList.root array).WF from trivial) (hasWidth_const _)).hasWidth
    (hasWidth_const value)).hasWidth

/-- A binding says what a byte is. -/
theorem binding_denotes {array : Array} (hsym : array.isSymbolicArray = true) {j : ℕ} (hj : j < array.size) (value : BitVec 8) :
    (binding array j value).Denotes a (BitVec.ofBool (a array j == value)) := by
  have hread := ReadExpr.create_computes (show (UpdateList.root array).WF from trivial) (hasWidth_const (BitVec.ofNat 32 j))
  have hindex : ((Expr.const (BitVec.ofNat 32 j)).eval a 32).toNat = j := by
    have hlt := array.size_lt
    simp only [Expr.eval, BitVec.setWidth_eq, BitVec.toNat_ofNat]
    omega
  have hbyte := hread.denotes (a := a) trivial fun hconst => by
    rw [hindex]
    exact hj
  have hvalue : (UpdateList.root array).evalAt a ((Expr.const (BitVec.ofNat 32 j)).eval a 32).toNat = a array j := by
    rw [hindex]
    show array.initialValue a j = _
    rw [Array.isSymbolicArray, List.isEmpty_iff] at hsym
    simp [Array.initialValue, hsym]
  rw [hvalue] at hbyte
  exact (EqExpr.create_computes hread.hasWidth (hasWidth_const value)).denotes hbyte (denotes_const value)

theorem mem_bindings {c : Expr} : c ∈ bindings objects values ↔
    ∃ x ∈ objects.zip values, ∃ j < x.1.size, c = binding x.1 j (x.2.getD j 0) := by
  simp only [bindings, List.mem_flatMap, List.mem_map, List.mem_range]
  constructor
  · intro h
    obtain ⟨x, hx, j, hj, rfl⟩ := h
    exact ⟨x, hx, j, hj, rfl⟩
  · intro h
    obtain ⟨x, hx, j, hj, rfl⟩ := h
    exact ⟨x, hx, j, hj, rfl⟩

/-- An assignment satisfies the bindings when it has the values. -/
theorem satisfies_bindings (hsym : ∀ array ∈ objects, array.isSymbolicArray = true) :
    Satisfies a (bindings objects values) ↔
      ∀ x ∈ objects.zip values, ∀ j < x.1.size, a x.1 j = x.2.getD j 0 := by
  constructor
  · intro h x hx j hj
    have hholds := h _ (mem_bindings.2 ⟨x, hx, j, hj, rfl⟩)
    have hden := binding_denotes (a := a) (hsym x.1 (List.of_mem_zip hx).1) hj (x.2.getD j 0)
    have heq : BitVec.ofBool (a x.1 j == x.2.getD j 0) = 1#1 := hden.value.symm.trans hholds.value
    by_contra hne
    rw [beq_eq_false_iff_ne.2 hne] at heq
    exact absurd heq (by decide)
  · intro h c hc
    obtain ⟨x, hx, j, hj, rfl⟩ := mem_bindings.1 hc
    have hden := binding_denotes (a := a) (hsym x.1 (List.of_mem_zip hx).1) hj (x.2.getD j 0)
    rw [h x hx j hj, beq_self_eq_true] at hden
    exact hden

/-- Every assignment has the values or misses one. -/
theorem bindings_decided (hsym : ∀ array ∈ objects, array.isSymbolicArray = true) (a : Assignment) :
    Satisfies a (bindings objects values) ∨ FailsSome a (bindings objects values) := by
  by_cases h : ∀ x ∈ objects.zip values, ∀ j < x.1.size, a x.1 j = x.2.getD j 0
  · exact .inl ((satisfies_bindings hsym).2 h)
  · right
    simp only [not_forall] at h
    obtain ⟨x, hx, j, hj, hne⟩ := h
    refine ⟨_, mem_bindings.2 ⟨x, hx, j, hj, rfl⟩, ?_⟩
    have hden := binding_denotes (a := a) (hsym x.1 (List.of_mem_zip hx).1) hj (x.2.getD j 0)
    rw [beq_eq_false_iff_ne.2 hne] at hden
    exact hden

omit [ExprOptions] in
theorem foldl_and (cs : List Expr) : ∀ {acc : Expr}, acc.HasWidth 1 → (∀ c ∈ cs, c.HasWidth 1) →
    (cs.foldl AndExpr.create acc).HasWidth 1 ∧ (acc.Defined a → (∀ c ∈ cs, c.Defined a) →
      (cs.foldl AndExpr.create acc).Defined a ∧
        ((cs.foldl AndExpr.create acc).Holds a ↔ acc.Holds a ∧ ∀ c ∈ cs, c.Holds a)) := by
  induction cs with
  | nil =>
    intro acc hacc _
    exact ⟨hacc, fun hd _ => ⟨hd, by simp⟩⟩
  | cons c cs ih =>
    intro acc hacc hcs
    have hc := hcs c List.mem_cons_self
    have hand := AndExpr.create_computes hacc hc
    obtain ⟨hw, hrest⟩ := ih hand.hasWidth fun c hc => hcs c (List.mem_cons_of_mem _ hc)
    refine ⟨hw, fun hd hds => ?_⟩
    have hdc := hds c List.mem_cons_self
    have hden := hand.denotes (.self hd 1) (.self hdc 1) (fun hdiv => by cases hdiv)
    obtain ⟨hd', hiff⟩ := hrest hden.defined fun c hc => hds c (List.mem_cons_of_mem _ hc)
    refine ⟨hd', hiff.trans ?_⟩
    have hone : ∀ x y : BitVec 1, BinOp.and.apply x y = 1#1 ↔ x = 1#1 ∧ y = 1#1 := by decide
    have hboth : (AndExpr.create acc c).Holds a ↔ acc.Holds a ∧ c.Holds a := by
      constructor
      · intro h
        obtain ⟨hx, hy⟩ := (hone _ _).1 (hden.value.symm.trans h.value)
        exact ⟨⟨hd, hx⟩, hdc, hy⟩
      · intro h
        refine ⟨hden.defined, hden.value.trans ?_⟩
        exact (hone _ _).2 ⟨h.1.value, h.2.value⟩
    rw [hboth, List.forall_mem_cons, and_assoc]

theorem conjunction_spec (hbool : q.constraints.IsBool) (hw : q.expr.HasWidth 1) (hq : q.Evaluates) :
    (conjunction q).HasWidth 1 ∧ ∀ a, (conjunction q).Defined a ∧
      ((conjunction q).Holds a ↔ Satisfies a q.constraints ∧ q.expr.Fails a) := by
  have hzero := createIsZero_computes hw
  refine ⟨(foldl_and (a := fun _ _ => 0) q.constraints hzero.hasWidth hbool).1, fun a => ?_⟩
  obtain ⟨hds, hd⟩ := hq a
  obtain ⟨hd', hiff⟩ := (foldl_and q.constraints hzero.hasWidth hbool).2 (hzero.denotes (.self hd 1)).defined hds
  refine ⟨hd', hiff.trans ?_⟩
  rw [Query.createIsZero_holds_iff hw hd, and_comm]
  exact Iff.rfl

/-- What is put to the oracle is a query that it can be relied on for. -/
theorem bindings_fit (hbool : q.constraints.IsBool) (hw : q.expr.HasWidth 1) (hq : q.Evaluates)
    (hsym : ∀ array ∈ objects, array.isSymbolicArray = true) (hsat : ∃ a, Satisfies a (bindings objects values)) :
    Query.Fit ⟨bindings objects values, conjunction q⟩ := by
  obtain ⟨hwidth, hdef⟩ := conjunction_spec hbool hw hq
  refine ⟨⟨fun c hc => ?_, hwidth.wf, bindings_decided hsym, fun a _ => (hdef a).1⟩, hsat, hwidth⟩
  obtain ⟨x, -, j, -, rfl⟩ := mem_bindings.1 hc
  exact binding_hasWidth x.1 j _

/-- The values themselves are such an assignment when no object is listed twice. -/
theorem satisfies_toAssignment (hsym : ∀ array ∈ objects, array.isSymbolicArray = true) (hnodup : objects.Nodup)
    (values : List (List (BitVec 8))) : Satisfies (Bindings.toAssignment (objects.zip values)) (bindings objects values) := by
  refine (satisfies_bindings hsym).2 fun x hx j hj => ?_
  have hkeys : ((objects.zip values).map (·.1)).Nodup := by
    -- there may be fewer values than objects
    rw [List.zip_eq_zip_take_min, List.map_fst_zip (by simp)]
    exact hnodup.sublist (List.take_sublist _ _)
  show Bindings.byte _ _ _ = _
  rw [Bindings.byte_eq_getD, Bindings.find_of_mem hkeys hx]
  exact rfl

theorem computeTruth_right (ho : oracle.Correct P) (hq : q.Fit) {n : ℕ} {b : Bool}
    (h : answer (computeTruth solver oracle q) n = some b) : q.TruthRight b := by
  refine answer_of_wp (E := fun _ => True) ?_ h
  rw [computeTruth, Prog.wp_bind, wp_ask]
  cases solver.computeTruth n q with
  | none => exact fun _ hx => by cases hx
  | some isValid =>
    rw [Prog.wp_bind, wp_ask]
    cases hans : oracle.computeTruth (n + 1) q with
    | none => exact fun _ hx => by cases hx
    | some answer =>
      rw [Prog.wp_bind, Prog.wp_assert]
      refine ⟨fun heq x hx => ?_, fun _ => trivial⟩
      obtain rfl := Option.some.inj hx
      exact heq ▸ ho.truth _ q hq answer hans

theorem computeValidity_right (ho : oracle.Correct P) (hq : q.Fit) (hplain : q.expr.Plain) {n : ℕ} {v : Validity}
    (h : answer (computeValidity solver oracle q) n = some v) : q.ValidityRight v := by
  refine answer_of_wp (E := fun _ => True) ?_ h
  rw [computeValidity, Prog.wp_bind, wp_ask]
  cases solver.computeValidity n q with
  | none => exact fun _ hx => by cases hx
  | some result =>
    rw [Prog.wp_bind, wp_ask]
    cases hans : oracle.computeValidity (n + 1) q with
    | none => exact fun _ hx => by cases hx
    | some answer =>
      rw [Prog.wp_bind, Prog.wp_assert]
      refine ⟨fun heq x hx => ?_, fun _ => trivial⟩
      obtain rfl := Option.some.inj hx
      exact heq ▸ ho.validity _ q hq hplain answer hans

theorem computeValue_right (ho : oracle.Correct P) (hq : q.Clear) (hsat : q.constraints.Satisfiable) {n : ℕ} {e : Expr}
    (hconst : e.isConstant = true) (h : answer (computeValue solver oracle q) n = some e) : CexCachingSolver.ValueRight q e := by
  refine answer_of_wp (E := fun _ => True) (P := fun e => e.isConstant = true → CexCachingSolver.ValueRight q e) ?_ h hconst
  rw [computeValue, Prog.wp_bind, wp_ask]
  cases solver.computeValue n q with
  | none => exact fun _ hx => by cases hx
  | some result =>
    simp only [Prog.wp_bind, Prog.wp_assert, wp_ask]
    refine ⟨fun hwidth => ?_, fun _ => trivial⟩
    cases hans : oracle.computeTruth (n + 1) (q.withExpr (NeExpr.create q.expr result)) with
    | none => exact fun _ hx => by cases hx
    | some answer =>
      simp only [Prog.wp_bind, Prog.wp_assert]
      refine ⟨fun hfalse x hx hconst => ?_, fun _ => trivial⟩
      obtain rfl := Option.some.inj hx
      cases result with
      | const v =>
        obtain rfl : _ = q.expr.getWidth := hwidth.symm
        have hexpr : q.expr.HasWidth q.expr.getWidth := ⟨hq.wf, rfl⟩
        have hne := NeExpr.create_computes hexpr (hasWidth_const v)
        have hdef : ∀ a, Satisfies a q.constraints → (NeExpr.create q.expr (.const v)).Denotes a
            (BitVec.ofBool (CmpOp.ne.apply (q.expr.eval a q.expr.getWidth) v)) := fun a ha =>
          hne.denotes (.self (hq.defines a ha) _) (denotes_const v)
        have hfit : (q.withExpr (NeExpr.create q.expr (.const v))).Fit :=
          ⟨⟨hq.isBool, hne.hasWidth.wf, hq.decided, fun a ha => (hdef a ha).defined⟩, hsat, hne.hasWidth⟩
        -- the disequation is not valid, so the value is taken somewhere
        have hright := ho.truth _ _ hfit answer hans
        rw [hfalse] at hright
        have hfail : (q.withExpr (NeExpr.create q.expr (.const v))).MayFail :=
          not_not.1 fun hno => Bool.false_ne_true (hright.2 ((Query.entails_iff hfit.proper).2 hno))
        obtain ⟨a, ha, hf⟩ := hfail
        have hbit : BitVec.ofBool (CmpOp.ne.apply (q.expr.eval a q.expr.getWidth) v) = 0#1 :=
          (hdef a ha).value.symm.trans hf.value
        refine ⟨v, rfl, a, ha, hq.defines a ha, ?_⟩
        by_contra hne'
        have htrue : CmpOp.ne.apply (q.expr.eval a q.expr.getWidth) v = true := bne_iff_ne.2 hne'
        rw [htrue] at hbit
        exact absurd hbit (by decide)
      | _ => cases hconst

theorem computeInitialValues_right (ho : oracle.Correct P) (hq : q.Fit) (heval : q.Evaluates)
    (hsym : ∀ array ∈ objects, array.isSymbolicArray = true) (hnodup : objects.Nodup) {n : ℕ}
    {r : Option (List (List (BitVec 8)))} (h : answer (computeInitialValues solver oracle q objects) n = some r) :
    q.AssignmentRight (r.map fun values => objects.zip values) := by
  refine answer_of_wp (E := fun _ => True) (P := fun r => q.AssignmentRight (r.map fun values => objects.zip values)) ?_ h
  rw [computeInitialValues, Prog.wp_bind, wp_ask]
  cases solver.computeInitialValues n q objects with
  | none => exact fun _ hx => by cases hx
  | some result =>
    cases result with
    | none =>
      simp only [Prog.wp_bind, wp_ask]
      cases hans : oracle.computeTruth (n + 1) q with
      | none => exact fun _ hx => by cases hx
      | some answer =>
        simp only [Prog.wp_bind, Prog.wp_assert]
        refine ⟨fun htrue x hx => ?_, fun _ => trivial⟩
        obtain rfl := Option.some.inj hx
        exact (Query.entails_iff hq.proper).1 ((ho.truth _ q hq answer hans).1 htrue)
    | some values =>
      simp only [Prog.wp_bind, Prog.wp_assert, wp_ask]
      refine ⟨fun _ => ?_, fun _ => trivial⟩
      cases hans : oracle.computeTruth (n + 1) ⟨bindings objects values, conjunction q⟩ with
      | none => exact fun _ hx => by cases hx
      | some answer =>
        simp only [Prog.wp_bind, Prog.wp_assert]
        refine ⟨fun htrue x hx => ?_, fun _ => trivial⟩
        obtain rfl := Option.some.inj hx
        have hsat := satisfies_toAssignment hsym hnodup values
        have hfit := bindings_fit hq.clear.isBool hq.width heval hsym ⟨_, hsat⟩
        have hholds := (ho.truth _ _ hfit answer hans).1 htrue _ hsat
        exact ((conjunction_spec hq.clear.isBool hq.width heval).2 _).2.1 hholds

end ValidatingSolver

/-- **What passes the oracle is right.**  Whatever the solver answers, when the oracle is correct. -/
theorem validating_right [ExprOptions] (solver : SolverCalls) {oracle : SolverCalls} {P : Query → Prop} (ho : oracle.Correct P)
    (n : ℕ) :
    (∀ q b, q.Fit → answer (ValidatingSolver.computeTruth solver oracle q) n = some b → q.TruthRight b) ∧
    (∀ q v, q.Fit → q.expr.Plain → answer (ValidatingSolver.computeValidity solver oracle q) n = some v → q.ValidityRight v) ∧
    (∀ q e, q.Clear → q.constraints.Satisfiable → e.isConstant = true →
      answer (ValidatingSolver.computeValue solver oracle q) n = some e → CexCachingSolver.ValueRight q e) ∧
    ∀ q objects r, q.Fit → q.Evaluates → (∀ array ∈ objects, array.isSymbolicArray = true) → objects.Nodup →
      answer (ValidatingSolver.computeInitialValues solver oracle q objects) n = some r →
        q.AssignmentRight (r.map fun values => objects.zip values) :=
  ⟨fun _ _ hq h => ValidatingSolver.computeTruth_right ho hq h,
    fun _ _ hq hplain h => ValidatingSolver.computeValidity_right ho hq hplain h,
    fun _ _ hq hsat hconst h => ValidatingSolver.computeValue_right ho hq hsat hconst h,
    fun _ _ _ hq heval hsym hnodup h => ValidatingSolver.computeInitialValues_right ho hq heval hsym hnodup h⟩

namespace AssignmentValidatingSolver

variable [ExprOptions] {useVisitorHash : Bool} {assignment : Bindings} {bad : Expr → Bool} {e : Expr}

/-- An expression that evaluates has passed its check with its value. -/
theorem not_bad_of_checks (h : checks useVisitorHash assignment bad e = true) (hwf : e.WF)
    (hd : e.Defined assignment.toAssignment) : bad (.const (e.eval assignment.toAssignment e.getWidth)) = false := by
  unfold checks at h
  obtain ⟨-, hnone⟩ | ⟨-, hres⟩ := ExprVisitor.evaluate_cases useVisitorHash true assignment e
  · rw [hnone] at h
    cases h
  · rw [hres] at h
    simp only [Bool.and_eq_true, Bool.not_eq_eq_eq_not, Bool.not_true] at h
    rw [← ExprVisitor.visitWith_completion hwf (assignment.completes_toAssignment true) hd h.1]
    exact h.2

theorem not_fails_of_checks (hw : e.HasWidth 1) (h : checks useVisitorHash assignment Expr.isFalse e = true) :
    ¬e.Fails assignment.toAssignment := by
  intro hf
  have hgood := not_bad_of_checks h hw.wf hf.defined
  obtain ⟨-, hwidth⟩ := hw
  rw [hwidth, hf.value] at hgood
  cases hgood

theorem fails_of_checks (hw : e.HasWidth 1) (hd : e.Defined assignment.toAssignment)
    (h : checks useVisitorHash assignment Expr.isTrue e = true) : e.Fails assignment.toAssignment := by
  have hgood := not_bad_of_checks h hw.wf hd
  obtain hholds | hf := ConstraintSet.holds_or_fails hd
  · obtain ⟨-, hwidth⟩ := hw
    rw [hwidth, hholds.value] at hgood
    cases hgood
  · exact hf

end AssignmentValidatingSolver

/-- **What passes the evaluation is right.**  Whatever the solver answers, a solution to a clear query that is let through
satisfies the constraints and makes the expression fail. -/
theorem assignmentValidating_right [ExprOptions] (useVisitorHash : Bool) (solver : SolverCalls) {q : Query} (hq : q.Clear)
    (hw : q.expr.HasWidth 1) (n : ℕ) {objects : List Array} {values : List (List (BitVec 8))}
    (h : answer (AssignmentValidatingSolver.computeInitialValues useVisitorHash solver q objects) n = some (some values)) :
    q.AssignmentRight (some (objects.zip values)) := by
  refine answer_of_wp (E := fun _ => True)
    (P := fun r => ∀ values, r = some values → q.AssignmentRight (some (objects.zip values))) ?_ h values rfl
  rw [AssignmentValidatingSolver.computeInitialValues, Prog.wp_bind, wp_ask]
  cases solver.computeInitialValues n q objects with
  | none => exact fun _ hx => by cases hx
  | some result =>
    cases result with
    | none =>
      intro x hx values hvalues
      rw [hvalues] at hx
      cases hx
    | some found =>
      simp only [Prog.wp_bind, Prog.wp_assert]
      refine ⟨fun hconstraints => ⟨fun hexpr x hx values hvalues => ?_, fun _ => trivial⟩, fun _ => trivial⟩
      rw [hvalues] at hx
      have heq : found = values := Option.some.inj (Option.some.inj hx)
      have hsat : Satisfies (Bindings.toAssignment (objects.zip found)) q.constraints := by
        refine (hq.decided _).resolve_right fun hfails => ?_
        obtain ⟨c, hc, hf⟩ := hfails
        exact AssignmentValidatingSolver.not_fails_of_checks (hq.isBool c hc) (hconstraints c hc) hf
      rw [← heq]
      exact ⟨hsat, AssignmentValidatingSolver.fails_of_checks hw (hq.defines _ hsat) hexpr⟩

/-! ### What is right passes -/

namespace SolverCalls

/-- No assertion fails. -/
def Passes {α : Type} (m : Prog ℕ α) (n : ℕ) : Prop := Prog.wp m (fun _ _ => True) (fun _ => False) n

end SolverCalls

/-- The values of the query depend on bytes of the objects only, and on none past the end of one. -/
def Query.ReadsWithin (q : Query) (objects : List Array) : Prop :=
  ∀ e, e ∈ q.constraints ∨ e = q.expr → ∀ a, e.ReadsOnly (fun array i => array ∈ objects ∧ i < array.size) a

namespace ValidatingSolver

variable [ExprOptions] {solver oracle : SolverCalls} {P P' : Query → Prop} {q : Query} {objects : List Array}
  {values : List (List (BitVec 8))} {a : Assignment}

theorem computeTruth_passes (hs : solver.Correct P) (ho : oracle.Correct P') (hq : q.Fit) (n : ℕ) :
    Passes (computeTruth solver oracle q) n := by
  unfold Passes
  rw [computeTruth, Prog.wp_bind, wp_ask]
  cases hres : solver.computeTruth n q with
  | none => exact trivial
  | some isValid =>
    simp only [Prog.wp_bind, wp_ask]
    cases hans : oracle.computeTruth (n + 1) q with
    | none => exact trivial
    | some answer =>
      simp only [Prog.wp_bind, Prog.wp_assert]
      have hright := hs.truth n q hq isValid hres
      have hright' := ho.truth _ q hq answer hans
      exact ⟨fun _ => trivial, fun hne => hne (Bool.eq_iff_iff.2 (hright.trans hright'.symm))⟩

theorem computeValidity_passes (hs : solver.Correct P) (ho : oracle.Correct P') (hq : q.Fit) (hplain : q.expr.Plain) (n : ℕ) :
    Passes (computeValidity solver oracle q) n := by
  unfold Passes
  rw [computeValidity, Prog.wp_bind, wp_ask]
  cases hres : solver.computeValidity n q with
  | none => exact trivial
  | some result =>
    simp only [Prog.wp_bind, wp_ask]
    cases hans : oracle.computeValidity (n + 1) q with
    | none => exact trivial
    | some answer =>
      simp only [Prog.wp_bind, Prog.wp_assert]
      have hright := hs.validity n q hq hplain result hres
      have hright' := ho.validity _ q hq hplain answer hans
      exact ⟨fun _ => trivial, fun hne => hne (Query.validityRight_unique hq.proper hright hright')⟩

theorem computeValue_passes (hs : solver.Correct P) (ho : oracle.Correct P') (hq : q.Clear) (hsat : q.constraints.Satisfiable)
    (hplain : q.expr.Plain) (n : ℕ) : Passes (computeValue solver oracle q) n := by
  unfold Passes
  rw [computeValue, Prog.wp_bind, wp_ask]
  cases hres : solver.computeValue n q with
  | none => exact trivial
  | some result =>
    obtain ⟨v, rfl, a, ha, hden⟩ := hs.value n q hq hsat hplain result hres
    simp only [Prog.wp_bind, Prog.wp_assert, wp_ask]
    refine ⟨fun _ => ?_, fun hne => hne rfl⟩
    cases hans : oracle.computeTruth (n + 1) (q.withExpr (NeExpr.create q.expr (.const v))) with
    | none => exact trivial
    | some answer =>
      simp only [Prog.wp_bind, Prog.wp_assert]
      refine ⟨fun _ => trivial, fun hne => ?_⟩
      have hcomp := NeExpr.create_computes (show q.expr.HasWidth q.expr.getWidth from ⟨hq.wf, rfl⟩) (hasWidth_const v)
      have hfit : (q.withExpr (NeExpr.create q.expr (.const v))).Fit := by
        refine ⟨⟨hq.isBool, hcomp.hasWidth.wf, hq.decided, fun b hb => ?_⟩, hsat, hcomp.hasWidth⟩
        exact (hcomp.denotes (.self (hq.defines b hb) _) (denotes_const v)).defined
      -- the value is taken, so the disequation is not valid
      have hent := (ho.truth _ _ hfit answer hans).1 (by simpa using hne)
      have hfails := hcomp.denotes hden (denotes_const v)
      have hsame : BitVec.ofBool (CmpOp.ne.apply v v) = 0#1 := by simp [CmpOp.apply]
      rw [hsame] at hfails
      exact Query.holds_not_fails (hent a ha) hfails

omit [ExprOptions] in
theorem length_eq_size : ∀ {objects : List Array} {values : List (List (BitVec 8))},
    values.map List.length = objects.map Array.size → ∀ x ∈ objects.zip values, x.2.length = x.1.size := by
  intro objects
  induction objects with
  | nil =>
    intro values _ x hx
    exact absurd hx (by simp)
  | cons array objects ih =>
    intro values h x hx
    cases values with
    | nil => exact absurd hx (by simp)
    | cons bytes values =>
      simp only [List.map_cons, List.cons.injEq] at h
      rw [List.zip_cons_cons, List.mem_cons] at hx
      obtain rfl | hx := hx
      · exact h.1
      · exact ih h.2 x hx

/-- Under the bindings the query has the values it has under the assignment that the solver returned. -/
theorem entails_conjunction (hq : q.Fit) (heval : q.Evaluates) (hsym : ∀ array ∈ objects, array.isSymbolicArray = true)
    (hnodup : objects.Nodup) (hreads : q.ReadsWithin objects) (hlen : values.length = objects.length)
    (hright : q.AssignmentRight (some (objects.zip values))) : Entails (bindings objects values) (conjunction q) := by
  intro a ha
  have hown := satisfies_toAssignment hsym hnodup values
  have hsame : ∀ array i, array ∈ objects ∧ i < array.size → a array i = Bindings.toAssignment (objects.zip values) array i := by
    intro array i h
    have hfst : (objects.zip values).map Prod.fst = objects := List.map_fst_zip (by omega)
    rw [← hfst] at h
    obtain ⟨x, hx, rfl⟩ := List.mem_map.1 h.1
    rw [(satisfies_bindings hsym).1 ha x hx i h.2, (satisfies_bindings hsym).1 hown x hx i h.2]
  refine ((conjunction_spec hq.clear.isBool hq.width heval).2 a).2.2 ⟨fun c hc => ?_, ?_⟩
  · exact Expr.denotes_of_readsOnly hsame (hreads c (.inl hc) _) (hright.1 c hc)
  · exact Expr.denotes_of_readsOnly hsame (hreads q.expr (.inr rfl) _) hright.2

theorem computeInitialValues_passes (hs : solver.Correct P) (ho : oracle.Correct P') (hq : q.Fit) (hP : P q)
    (heval : q.Evaluates) (hsym : ∀ array ∈ objects, array.isSymbolicArray = true) (hnodup : objects.Nodup)
    (hcovers : q.Covers objects) (hreads : q.ReadsWithin objects) (n : ℕ) :
    Passes (computeInitialValues solver oracle q objects) n := by
  unfold Passes
  rw [computeInitialValues, Prog.wp_bind, wp_ask]
  cases hres : solver.computeInitialValues n q objects with
  | none => exact trivial
  | some result =>
    have hright := hs.initialValues n q objects hq.clear hq.width hP result hres
    cases result with
    | none =>
      simp only [Prog.wp_bind, wp_ask]
      cases hans : oracle.computeTruth (n + 1) q with
      | none => exact trivial
      | some answer =>
        simp only [Prog.wp_bind, Prog.wp_assert]
        refine ⟨fun _ => trivial, fun hne => hne ?_⟩
        exact (ho.truth _ q hq answer hans).2 ((Query.entails_iff hq.proper).2 hright)
    | some values =>
      obtain ⟨hsize, -, hassign⟩ := hright
      have hlen : values.length = objects.length := by simpa using congrArg List.length hsize
      simp only [Prog.wp_bind, Prog.wp_assert, wp_ask]
      refine ⟨fun _ => ?_, fun hne => hne ⟨hlen.le, ?_⟩⟩
      · cases hans : oracle.computeTruth (n + 1) ⟨bindings objects values, conjunction q⟩ with
        | none => exact trivial
        | some answer =>
          simp only [Prog.wp_bind, Prog.wp_assert]
          refine ⟨fun _ => trivial, fun hne => hne ?_⟩
          have hent := entails_conjunction hq heval hsym hnodup hreads hlen (hassign hcovers)
          have hfit := bindings_fit hq.clear.isBool hq.width heval hsym ⟨_, satisfies_toAssignment hsym hnodup values⟩
          exact (ho.truth _ _ hfit answer hans).2 hent
      · exact fun x hx => (length_eq_size hsize x hx).ge

end ValidatingSolver

/-- **What is right passes.**  When the solver and the oracle are both correct no assertion fails, whatever they leave
unanswered. -/
theorem validating_passes [ExprOptions] {solver oracle : SolverCalls} {P P' : Query → Prop} (hs : solver.Correct P)
    (ho : oracle.Correct P') (n : ℕ) :
    (∀ q, q.Fit → Passes (ValidatingSolver.computeTruth solver oracle q) n) ∧
    (∀ q, q.Fit → q.expr.Plain → Passes (ValidatingSolver.computeValidity solver oracle q) n) ∧
    (∀ q, q.Clear → q.constraints.Satisfiable → q.expr.Plain → Passes (ValidatingSolver.computeValue solver oracle q) n) ∧
    ∀ q objects, q.Fit → P q → q.Evaluates → (∀ array ∈ objects, array.isSymbolicArray = true) → objects.Nodup →
      q.Covers objects → q.ReadsWithin objects → Passes (ValidatingSolver.computeInitialValues solver oracle q objects) n :=
  ⟨fun _ hq => ValidatingSolver.computeTruth_passes hs ho hq n,
    fun _ hq hplain => ValidatingSolver.computeValidity_passes hs ho hq hplain n,
    fun _ hq hsat hplain => ValidatingSolver.computeValue_passes hs ho hq hsat hplain n,
    fun _ _ hq hP heval hsym hnodup hcovers hreads =>
      ValidatingSolver.computeInitialValues_passes hs ho hq hP heval hsym hnodup hcovers hreads n⟩

/-! ### A bounded byte -/

section

open ExprVisitor (byteArray)
open Solver (byteExpr byteExpr_defined)

local instance : ExprOptions := .defaults

/-- The solver that answers every question about truth and validity. -/
noncomputable def exactSolver : SolverCalls where
  toSolverImpl := .exact
  computeValue _ _ := none
  computeInitialValues _ _ _ := none

theorem exactSolver_correct : exactSolver.Correct fun _ => True where
  truth n q hq b hb := SolverImpl.exact_correct.truth n q hq.proper b hb
  validity n q hq _ v hv := SolverImpl.exact_correct.validity n q hq.proper v hv
  value _ _ _ _ _ _ he := by cases he
  initialValues _ _ _ _ _ _ _ hr := by cases hr

/-- A solver that takes everything to be true, and `5` to be a solution. -/
def trueSolver : SolverCalls where
  computeTruth _ _ := some true
  computeValidity _ _ := some .True
  computeValue _ _ := some (.const 5#8)
  computeInitialValues _ _ _ := some (some [[5]])

/-- `x[0] < 7`. -/
def smallByte : Expr := .cmp .ult byteExpr (.const 7#8)

theorem smallByte_hasWidth : smallByte.HasWidth 1 := by decide

theorem smallByte_defined (a : Assignment) : smallByte.Defined a := ⟨byteExpr_defined a, trivial⟩

theorem smallByte_holds : smallByte.Holds fun _ _ => 0 := ⟨smallByte_defined _, by decide⟩

theorem smallByte_fit (e : Expr) (hw : e.HasWidth 1) (hd : ∀ a, e.Defined a) : Query.Fit ⟨[smallByte], e⟩ where
  clear := {
    isBool := fun _ hc => List.mem_singleton.1 hc ▸ smallByte_hasWidth
    wf := hw.wf
    decided := fun a => (ConstraintSet.holds_or_fails (smallByte_defined a)).imp
      (fun hh _ hc => List.mem_singleton.1 hc ▸ hh) fun hf => ⟨_, List.mem_singleton_self _, hf⟩
    defines := fun a _ => hd a }
  satisfiable := ⟨fun _ _ => 0, fun _ hc => List.mem_singleton.1 hc ▸ smallByte_holds⟩
  width := hw

theorem answer_small : answer (ValidatingSolver.computeTruth trueSolver exactSolver ⟨[smallByte], smallByte⟩) 0 = some true := by
  have hent : Entails [smallByte] smallByte := fun a ha => ha _ List.mem_cons_self
  have hexact : exactSolver.computeTruth 1 ⟨[smallByte], smallByte⟩ = some true := by
    classical exact congrArg some (decide_eq_true hent)
  have hrun : ValidatingSolver.computeTruth trueSolver exactSolver ⟨[smallByte], smallByte⟩ 0 = (some (some true), 2) := by
    unfold ValidatingSolver.computeTruth
    rw [Prog.bind_of_result (show ask _ 0 = (some (some true), 1) from rfl)]
    show (ask _ >>= _) 1 = _
    rw [Prog.bind_of_result (show ask _ 1 = (some (some true), 2) from congrArg (fun r => (some r, 2)) hexact)]
    exact rfl
  rw [answer, hrun]
  exact rfl

/-- The solver is right about a constraint of the query. -/
theorem validating_right_small : Query.TruthRight ⟨[smallByte], smallByte⟩ true :=
  (validating_right trueSolver exactSolver_correct 0).1 ⟨[smallByte], smallByte⟩ true
    (smallByte_fit smallByte smallByte_hasWidth smallByte_defined) answer_small

theorem validating_passes_small :
    Passes (ValidatingSolver.computeTruth exactSolver exactSolver ⟨[smallByte], smallByte⟩) 0 ∧
      Passes (ValidatingSolver.computeValidity exactSolver exactSolver ⟨[smallByte], smallByte⟩) 0 := by
  have hfit := smallByte_fit smallByte smallByte_hasWidth smallByte_defined
  obtain ⟨htruth, hvalidity, -⟩ := validating_passes exactSolver_correct exactSolver_correct 0
  refine ⟨htruth _ hfit, hvalidity _ hfit fun src hsrc => ?_⟩
  simp [smallByte, byteExpr, subexprs, UpdateList.subexprs] at hsrc

/-- Five is less than seven. -/
theorem assignmentValidating_right_small :
    Query.AssignmentRight ⟨[smallByte], ofBool false⟩ (some ([byteArray].zip [[5]])) := by
  have hfit := smallByte_fit (ofBool false) (hasWidth_ofBool false) fun _ => trivial
  exact assignmentValidating_right true trueSolver hfit.clear hfit.width 0 (by decide +kernel)

end

end SymBisect
