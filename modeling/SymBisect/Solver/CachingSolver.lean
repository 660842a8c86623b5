import SymBisect.Solver.Query
import SymBisect.Lib.Prog
import SymBisect.Lib.Run
import Mathlib.Order.Defs.LinearOrder
import Mathlib.SetTheory.Cardinal.Order

/-!
# The result cache

`CachingSolver` of `lib/Solver/CachingSolver.cpp`: validity and truth queries are answered from a map of
partial results.  Of a query and its negation only the smaller one (by `Expr::compare`, a linear order on
expressions) is stored, and `unordered_map::insert` does not overwrite an entry.

* `PartialValidity.Right`: what a stored result says about its query.
* `CachingSolver.Right`: every stored result is right, which every call keeps.
* `computeTruth_computeValidity_transparent`: in every history, an answer is the one of the underlying
  solver.
-/

namespace SymBisect

open Lib Expr

/-- `IncompleteSolver::PartialValidity`. -/
inductive PartialValidity where
  | MustBeTrue
  | MustBeFalse
  | MayBeTrue
  | MayBeFalse
  | TrueOrFalse
  | None
  deriving DecidableEq

namespace PartialValidity

/-- `IncompleteSolver::negatePartialValidity`, with its assertion. -/
def negate : PartialValidity → Option PartialValidity
  | MustBeTrue => some MustBeFalse
  | MustBeFalse => some MustBeTrue
  | MayBeTrue => some MayBeFalse
  | MayBeFalse => some MayBeTrue
  | TrueOrFalse => some TrueOrFalse
  | None => none

/-- What is known of a query; a result that says nothing is never stored. -/
def Right (q : Query) : PartialValidity → Prop
  | MustBeTrue => ¬q.MayFail
  | MustBeFalse => ¬q.MayHold
  | MayBeTrue => q.MayHold
  | MayBeFalse => q.MayFail
  | TrueOrFalse => q.MayHold ∧ q.MayFail
  | None => False

/-- The negated result is right for a query with the sides swapped. -/
theorem Right.negate {q r : Query} {pv : PartialValidity} (h : pv.Right q) (hhold : r.MayHold ↔ q.MayFail)
    (hfail : r.MayFail ↔ q.MayHold) : ∃ pv', pv.negate = some pv' ∧ pv'.Right r := by
  cases pv with
  | MustBeTrue => exact ⟨_, rfl, fun hr => h (hhold.1 hr)⟩
  | MustBeFalse => exact ⟨_, rfl, fun hr => h (hfail.1 hr)⟩
  | MayBeTrue => exact ⟨_, rfl, hfail.2 h⟩
  | MayBeFalse => exact ⟨_, rfl, hhold.2 h⟩
  | TrueOrFalse => exact ⟨_, rfl, hhold.2 h.2, hfail.2 h.1⟩
  | None => exact h.elim

/-- The partial validity of a validity. -/
def ofValidity : Validity → PartialValidity
  | .True => MustBeTrue
  | .False => MustBeFalse
  | .Unknown => TrueOrFalse

theorem right_ofValidity {q : Query} {v : Validity} (h : q.ValidityRight v) : (ofValidity v).Right q := by
  cases v with
  | True => exact h
  | False => exact h
  | Unknown => exact h

end PartialValidity

/-- `CacheEntry`, the key of the cache. -/
abbrev CacheEntry := ConstraintSet × Expr

/-- `CachingSolver`: the cache, and the number of calls made to the underlying solver. -/
structure CachingSolver where
  cache : CacheEntry → Option PartialValidity
  clock : ℕ

namespace CachingSolver

open PartialValidity

/-- The cache at the start. -/
def empty : CachingSolver := ⟨fun _ => none, 0⟩

/-- A call to the underlying solver. -/
def call {α : Type} (f : ℕ → Option α) : Prog CachingSolver (Option α) := do
  let s ← Prog.get
  Prog.modify fun s => { s with clock := s.clock + 1 }
  pure (f s.clock)

variable [ExprOptions] [LinearOrder Expr]

/-- `canonicalizeQuery`: the smaller of the query and its negation, and whether it is the negation. -/
def canonicalizeQuery (originalQuery : Expr) : Expr × Bool :=
  let negatedQuery := createIsZero originalQuery
  if originalQuery < negatedQuery then (originalQuery, false) else (negatedQuery, true)

/-- `cacheLookup`. -/
def cacheLookup (q : Query) : Prog CachingSolver (Option PartialValidity) := do
  let s ← Prog.get
  let (canonicalQuery, negationUsed) := canonicalizeQuery q.expr
  match s.cache (q.constraints, canonicalQuery) with
  | none => pure none
  | some result =>
    if negationUsed then do
      let result ← Prog.unwrap result.negate
      pure (some result)
    else pure (some result)

/-- `cacheInsert`; an entry that is there stays. -/
def cacheInsert (q : Query) (result : PartialValidity) : Prog CachingSolver Unit := do
  let (canonicalQuery, negationUsed) := canonicalizeQuery q.expr
  let cachedResult ← if negationUsed then Prog.unwrap result.negate else pure result
  Prog.modify fun s =>
    { s with
      cache := Function.update s.cache (q.constraints, canonicalQuery)
        (some ((s.cache (q.constraints, canonicalQuery)).getD cachedResult)) }

/-- `computeValidity`. -/
def computeValidity (solver : SolverImpl) (q : Query) : Prog CachingSolver (Option Validity) := do
  match ← cacheLookup q with
  | some MustBeTrue => pure (some .True)
  | some MustBeFalse => pure (some .False)
  | some TrueOrFalse => pure (some .Unknown)
  | some MayBeTrue => do
    match ← call fun n => solver.computeTruth n q with
    | none => pure none
    | some true => do
      cacheInsert q MustBeTrue
      pure (some .True)
    | some false => do
      cacheInsert q TrueOrFalse
      pure (some .Unknown)
  | some MayBeFalse => do
    match ← call fun n => solver.computeTruth n q.negateExpr with
    | none => pure none
    | some true => do
      cacheInsert q MustBeFalse
      pure (some .False)
    | some false => do
      cacheInsert q TrueOrFalse
      pure (some .Unknown)
  | some None => Prog.abort
  | none => do
    match ← call fun n => solver.computeValidity n q with
    | none => pure none
    | some result => do
      cacheInsert q (ofValidity result)
      pure (some result)

/-- `computeTruth`. -/
def computeTruth (solver : SolverImpl) (q : Query) : Prog CachingSolver (Option Bool) := do
  let cached ← cacheLookup q
  -- a cached `MayBeTrue` forces us to check whether a false assignment exists
  if cached ≠ none ∧ cached ≠ some MayBeTrue then pure (some (cached == some MustBeTrue))
  else do
    match ← call fun n => solver.computeTruth n q with
    | none => pure none
    | some isValid => do
      cacheInsert q (if isValid then MustBeTrue else if cached ≠ none then TrueOrFalse else MayBeFalse)
      pure (some isValid)

/-! ### Every stored result is right -/

omit [ExprOptions] [LinearOrder Expr] in
/-- What is stored is right. -/
def Right (s : CachingSolver) : Prop :=
  ∀ constraints query pv, s.cache (constraints, query) = some pv → pv.Right ⟨constraints, query⟩

variable {s : CachingSolver} {q : Query} {E : CachingSolver → Prop}

omit [ExprOptions] [LinearOrder Expr] in
theorem right_empty : Right empty := fun _ _ _ h => absurd h nofun

omit [ExprOptions] [LinearOrder Expr] in
theorem Right.tick (h : Right s) : Right { s with clock := s.clock + 1 } := h

omit [ExprOptions] [LinearOrder Expr] in
theorem Right.insert (h : Right s) {constraints : ConstraintSet} {query : Expr} {pv : PartialValidity}
    (hpv : pv.Right ⟨constraints, query⟩) :
    Right { s with
      cache := Function.update s.cache (constraints, query)
        (some ((s.cache (constraints, query)).getD pv)) } := by
  intro constraints' query' pv' hlookup
  have hlookup' : Function.update s.cache _ _ (constraints', query') = some pv' := hlookup
  rw [Function.update_apply] at hlookup'
  split at hlookup'
  · rename_i hkey
    obtain ⟨rfl, rfl⟩ := Prod.mk.inj hkey
    cases hold : s.cache (constraints', query') with
    | none =>
      rw [hold] at hlookup'
      cases hlookup'
      exact hpv
    | some old =>
      rw [hold] at hlookup'
      cases hlookup'
      exact h constraints' query' _ hold
  · exact h constraints' query' pv' hlookup'

omit [ExprOptions] [LinearOrder Expr] in
theorem wp_call {α : Type} {f : ℕ → Option α} {Q : Option α → CachingSolver → Prop} :
    Prog.wp (call f) Q E s ↔ Q (f s.clock) { s with clock := s.clock + 1 } := Iff.rfl

/-- A lookup changes nothing and finds what is right for the query. -/
theorem wp_cacheLookup (h : Right s) (hq : q.Proper) :
    Prog.wp (cacheLookup q) (fun r t => t = s ∧ ∀ pv, r = some pv → pv.Right q) E s := by
  unfold cacheLookup canonicalizeQuery
  rw [Prog.wp_bind, Prog.wp_get]
  dsimp only
  by_cases hlt : q.expr < createIsZero q.expr
  · rw [if_pos hlt]
    dsimp only
    cases hfound : s.cache (q.constraints, q.expr) with
    | none => exact ⟨rfl, nofun⟩
    | some pv =>
      refine ⟨rfl, fun pv' hpv => ?_⟩
      cases hpv
      exact h _ _ _ hfound
  · rw [if_neg hlt]
    dsimp only
    cases hfound : s.cache (q.constraints, createIsZero q.expr) with
    | none => exact ⟨rfl, nofun⟩
    | some pv =>
      have hneg : pv.Right q.negateExpr := h _ _ _ hfound
      obtain ⟨pv', hpv', hright⟩ :=
        hneg.negate (Query.mayFail_negateExpr hq).symm (Query.mayHold_negateExpr hq).symm
      simp only [if_true, hpv']
      refine ⟨rfl, fun pv'' hpv'' => ?_⟩
      cases hpv''
      exact hright

/-- What is right for the query can be inserted. -/
theorem wp_cacheInsert (h : Right s) (hq : q.Proper) {pv : PartialValidity} (hpv : pv.Right q) :
    Prog.wp (cacheInsert q pv) (fun _ => Right) E s := by
  unfold cacheInsert canonicalizeQuery
  dsimp only
  by_cases hlt : q.expr < createIsZero q.expr
  · rw [if_pos hlt]
    exact h.insert hpv
  · rw [if_neg hlt]
    obtain ⟨pv', hpv', hright⟩ := hpv.negate (Query.mayHold_negateExpr hq) (Query.mayFail_negateExpr hq)
    simp only [if_true, hpv']
    exact h.insert hright

/-- What a call guarantees: the cache stays right, an answer is right, and a solver that always answers
gets an answer. -/
def Answered {α : Type} (solver : SolverImpl) (right : α → Prop) (r : Option α) (t : CachingSolver) : Prop :=
  Right t ∧ (∀ a, r = some a → right a) ∧ (solver.Total → r.isSome = true)

omit [ExprOptions] [LinearOrder Expr] in
theorem Answered.some {α : Type} {solver : SolverImpl} {right : α → Prop} {a : α} {t : CachingSolver}
    (ht : Right t) (ha : right a) : Answered solver right (some a) t :=
  ⟨ht, fun _ h => Option.some.inj h ▸ ha, fun _ => rfl⟩

/-- Insert a result, then answer. -/
theorem wp_insert_answer {α : Type} {solver : SolverImpl} {right : α → Prop} {a : α} (h : Right s)
    (hq : q.Proper) {pv : PartialValidity} (hpv : pv.Right q) (ha : right a) :
    Prog.wp (do cacheInsert q pv; pure (some a)) (Answered solver right) E s :=
  (wp_cacheInsert h hq hpv).bind fun _ _ ht => .some ht ha

variable {solver : SolverImpl}

theorem wp_computeValidity (hs : solver.Correct) (h : Right s) (hq : q.Proper) :
    Prog.wp (computeValidity solver q) (Answered solver q.ValidityRight) E s := by
  unfold computeValidity
  refine (wp_cacheLookup h hq).bind fun cached t ht => ?_
  obtain ⟨rfl, hcached⟩ := ht
  match cached, hcached with
  | none, _ =>
    rw [Prog.wp_bind, wp_call]
    cases hres : solver.computeValidity t.clock q with
    | none => exact ⟨h, nofun, fun htotal => by simpa [hres] using htotal.validity t.clock q⟩
    | some v =>
      have hv := hs.validity _ q hq v hres
      exact wp_insert_answer h.tick hq (right_ofValidity hv) hv
  | some .MustBeTrue, hc => exact .some h (hc _ rfl)
  | some .MustBeFalse, hc => exact .some h (hc _ rfl)
  | some .TrueOrFalse, hc => exact .some h (hc _ rfl)
  | some .None, hc => exact (hc _ rfl).elim
  | some .MayBeTrue, hc =>
    have hmay : q.MayHold := hc _ rfl
    rw [Prog.wp_bind, wp_call]
    cases hres : solver.computeTruth t.clock q with
    | none => exact ⟨h, nofun, fun htotal => by simpa [hres] using htotal.truth t.clock q⟩
    | some b =>
      have hb := (hs.truth _ q hq b hres).trans (Query.entails_iff hq)
      cases b with
      | true =>
        have hpv : MustBeTrue.Right q := hb.1 rfl
        exact wp_insert_answer h.tick hq hpv hpv
      | false =>
        have hfail : q.MayFail := not_not.1 fun hn => absurd (hb.2 hn) (by decide)
        have hpv : TrueOrFalse.Right q := ⟨hmay, hfail⟩
        exact wp_insert_answer h.tick hq hpv hpv
  | some .MayBeFalse, hc =>
    have hmay : q.MayFail := hc _ rfl
    rw [Prog.wp_bind, wp_call]
    cases hres : solver.computeTruth t.clock q.negateExpr with
    | none => exact ⟨h, nofun, fun htotal => by simpa [hres] using htotal.truth t.clock q.negateExpr⟩
    | some b =>
      have hb := (hs.truth _ _ hq.negateExpr b hres).trans (Query.entails_iff hq.negateExpr)
      rw [Query.mayFail_negateExpr hq] at hb
      cases b with
      | true =>
        have hpv : MustBeFalse.Right q := hb.1 rfl
        exact wp_insert_answer h.tick hq hpv hpv
      | false =>
        have hhold : q.MayHold := not_not.1 fun hn => absurd (hb.2 hn) (by decide)
        have hpv : TrueOrFalse.Right q := ⟨hhold, hmay⟩
        exact wp_insert_answer h.tick hq hpv hpv

omit [ExprOptions] [LinearOrder Expr] in
/-- A partial result other than `MayBeTrue` decides whether the query is valid. -/
theorem truthRight_of_right (hq : q.Proper) {pv : PartialValidity} (h : pv.Right q) (hne : pv ≠ MayBeTrue) :
    q.TruthRight (some pv == some MustBeTrue) := by
  have hiff := Query.entails_iff hq
  unfold Query.TruthRight
  rw [hiff]
  cases pv with
  | MustBeTrue => exact iff_of_true rfl h
  | MustBeFalse =>
    have hfail := (Query.mayHold_or_mayFail hq).resolve_left h
    exact iff_of_false (by decide) (not_not.2 hfail)
  | MayBeTrue => exact absurd rfl hne
  | MayBeFalse => exact iff_of_false (by decide) (not_not.2 h)
  | TrueOrFalse => exact iff_of_false (by decide) (not_not.2 h.2)
  | None => exact h.elim

theorem wp_computeTruth (hs : solver.Correct) (h : Right s) (hq : q.Proper) :
    Prog.wp (computeTruth solver q) (Answered solver q.TruthRight) E s := by
  unfold computeTruth
  refine (wp_cacheLookup h hq).bind fun cached t ht => ?_
  obtain ⟨rfl, hcached⟩ := ht
  rw [Prog.wp_ite]
  constructor
  · intro hhit
    obtain ⟨pv, rfl⟩ := Option.ne_none_iff_exists'.1 hhit.1
    exact .some h (truthRight_of_right hq (hcached pv rfl) fun heq => hhit.2 (congrArg Option.some heq))
  · intro hmiss
    rw [Prog.wp_bind, wp_call]
    cases hres : solver.computeTruth t.clock q with
    | none => exact ⟨h, nofun, fun htotal => by simpa [hres] using htotal.truth t.clock q⟩
    | some b =>
      have hright := hs.truth _ q hq b hres
      have hb := hright.trans (Query.entails_iff hq)
      refine wp_insert_answer h.tick hq ?_ hright
      cases b with
      | true => exact hb.1 rfl
      | false =>
        have hfail : q.MayFail := not_not.1 fun hn => absurd (hb.2 hn) (by decide)
        cases cached with
        | none => exact hfail
        | some pv =>
          have hpv : some pv = some MayBeTrue := not_not.1 fun hne => hmiss ⟨nofun, hne⟩
          cases hpv
          exact ⟨hcached _ rfl, hfail⟩

/-! ### Every history -/

/-- A call of the cache. -/
inductive Ask where
  | truth (q : Query)
  | validity (q : Query)

/-- The query of a call. -/
def Ask.query : Ask → Query
  | .truth q => q
  | .validity q => q

/-- The cache after a call, or nothing when an assertion fails. -/
def step (solver : SolverImpl) (s : CachingSolver) : Ask → Option CachingSolver
  | .truth q => (computeTruth solver q).next s
  | .validity q => (computeValidity solver q).next s

theorem step_right (hs : solver.Correct) {t : CachingSolver} {ask : Ask} (h : Right s)
    (hq : ask.query.Proper) (hstep : step solver s ask = some t) : Right t := by
  cases ask with
  | truth q =>
    obtain ⟨r, ht, -⟩ := (wp_computeTruth (E := fun _ => False) hs h hq).of_next hstep
    exact ht
  | validity q =>
    obtain ⟨r, ht, -⟩ := (wp_computeValidity (E := fun _ => False) hs h hq).of_next hstep
    exact ht

/-- **The result cache is transparent.**  After every sequence of proper queries, a call does not fail an
assertion; an answer is right and equals the one of the underlying solver to that very query, at whatever
time it gives one; and there is an answer if the underlying solver always answers. -/
theorem computeTruth_computeValidity_transparent (hs : solver.Correct)
    (hrun : Run (step solver) (fun _ ask => ask.query.Proper) empty s) (hq : q.Proper) :
    (∃ r t, computeTruth solver q s = (some r, t) ∧ (solver.Total → r.isSome = true) ∧
      ∀ b, r = some b → q.TruthRight b ∧ ∀ n b', solver.computeTruth n q = some b' → b = b') ∧
    ∃ r t, computeValidity solver q s = (some r, t) ∧ (solver.Total → r.isSome = true) ∧
      ∀ v, r = some v → q.ValidityRight v ∧ ∀ n v', solver.computeValidity n q = some v' → v = v' := by
  have h : Right s := hrun.invariant (fun _ _ _ ht hg hstep => step_right hs ht hg hstep) right_empty
  constructor
  · obtain ⟨r, t, hres, -, hright, htotal⟩ := (wp_computeTruth hs h hq).exists_result
    refine ⟨r, t, hres, htotal, fun b hb => ⟨hright b hb, fun n b' hb' => ?_⟩⟩
    exact Bool.eq_iff_iff.2 ((hright b hb).trans (hs.truth n q hq b' hb').symm)
  · obtain ⟨r, t, hres, -, hright, htotal⟩ := (wp_computeValidity hs h hq).exists_result
    refine ⟨r, t, hres, htotal, fun v hv => ⟨hright v hv, fun n v' hv' => ?_⟩⟩
    exact Query.validityRight_unique hq (hright v hv) (hs.validity n q hq v' hv')

end CachingSolver

/-! ### A history of two queries -/

namespace CachingSolver

local instance : ExprOptions := .defaults

open Classical in
/-- Some order of the expressions. -/
noncomputable local instance exprOrder : LinearOrder Expr := linearOrderOfSTO WellOrderingRel

/-- The query `x[0] < 7` without constraints. -/
def ultQuery : Query where
  constraints := []
  expr := .cmp .ult (.read (.root ⟨0, "x", 1, [], Array.oneByte_lt, Array.oneByte_values⟩) (.const 0#32)) (.const 7#8)

theorem ultQuery_proper : ultQuery.Proper where
  isBool := by simp [ultQuery, ConstraintSet.IsBool]
  satisfiable := ⟨fun _ _ => 0, by simp [ultQuery, ConstraintSet.Satisfies]⟩
  width := by decide
  defines a _ := by
    simp [ultQuery, Expr.Defined, UpdateList.DefinedAt, Array.isConstantArray, Array.isSymbolicArray]

/-- The truth of the query leaves a partial result, of which its validity is then computed. -/
theorem transparent_ultQuery :
    ∃ s t v, step .exact empty (.truth ultQuery) = some s ∧
      computeValidity .exact ultQuery s = (some (some v), t) ∧ ultQuery.ValidityRight v := by
  have htotal : SolverImpl.exact.Total := ⟨fun _ _ => rfl, fun _ _ => rfl⟩
  obtain ⟨r, s, hres, -⟩ :=
    (computeTruth_computeValidity_transparent SolverImpl.exact_correct .refl ultQuery_proper).1
  have hstep : step .exact empty (.truth ultQuery) = some s := by
    simp [step, Prog.next, hres]
  obtain ⟨r', t, hres', hsome, hright⟩ := (computeTruth_computeValidity_transparent
    SolverImpl.exact_correct (.single (a := .truth ultQuery) ultQuery_proper hstep) ultQuery_proper).2
  obtain ⟨v, rfl⟩ := Option.isSome_iff_exists.1 (hsome htotal)
  exact ⟨s, t, v, hstep, hres', (hright v rfl).1⟩

end CachingSolver

end SymBisect
