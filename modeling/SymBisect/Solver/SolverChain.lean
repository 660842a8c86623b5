import SymBisect.Solver.SolverLayers

/-!
# The solver chain

`constructSolverChain` of `lib/Solver/ConstructSolverChain.cpp`: the solvers in front of the core solver, each switched by an
option.  The caches keep a state; in a chain that is given by what each cache holds at the time of a call.  The solvers that only
log queries pass them on, and are left out.

* `CexCachingSolver.layer_correct`, `CachingSolver.layer_correct`, `IndependentSolver.layer_correct`: a layer over a correct
  solver is correct, in every state that its cache can reach.
* `solverChain_correct`: so is every chain.  `IndependentSolver` solves for initial values factor by factor, and a factor of an
  unsatisfiable query need not be clear; it is promised for queries that have a solution.
-/

namespace SymBisect

open Lib Expr ConstraintSet MapOfSets SolverCalls

/-! ### Solutions from bindings -/

section

variable [ExprOptions] {q : Query} {b : Bindings}

/-- The values of some objects under an assignment, zero where it says nothing. -/
def Bindings.valuesOf (b : Bindings) (objects : List Array) : List (List (BitVec 8)) :=
  objects.map fun os => (b.find os).getD (List.replicate os.size 0)

omit [ExprOptions] in
theorem Bindings.find_zip_valuesOf (b : Bindings) {os : Array} : ∀ {objects : List Array}, os ∈ objects →
    Bindings.find (objects.zip (b.valuesOf objects)) os = some ((b.find os).getD (List.replicate os.size 0)) := by
  intro objects
  induction objects with
  | nil => exact fun hos => absurd hos List.not_mem_nil
  | cons o objects ih =>
    intro hos
    show List.lookup os ((o, (b.find o).getD (List.replicate o.size 0)) :: objects.zip (b.valuesOf objects)) = _
    rw [List.lookup_cons]
    by_cases heq : os = o
    · subst heq
      rw [beq_self_eq_true]
    · rw [beq_eq_false_iff_ne.2 heq]
      exact ih ((List.mem_cons.1 hos).resolve_left heq)

omit [ExprOptions] in
/-- The values of the objects read like the assignment they come from. -/
theorem Bindings.toAssignment_valuesOf (b : Bindings) {objects : List Array} {os : Array} (hos : os ∈ objects) (i : ℕ) :
    Bindings.toAssignment (objects.zip (b.valuesOf objects)) os i = b.toAssignment os i := by
  show Bindings.byte _ os i = b.byte os i
  rw [Bindings.byte_eq_getD, Bindings.find_zip_valuesOf b hos, Option.getD_some, ← Bindings.byte_eq_getD]

/-- A solution gives right values for all objects. -/
theorem Query.solutionRight_valuesOf (hq : q.Clear) (hw : q.expr.HasWidth 1) (hsized : Sized b)
    (hright : q.AssignmentRight (some b)) (objects : List Array) : q.SolutionRight objects (some (b.valuesOf objects)) := by
  obtain ⟨hsat, hfails⟩ := hright
  refine ⟨?_, ⟨List.length_map _, b.toAssignment, hsat, hfails, fun p hp j _ => ?_⟩, fun hcovers => ?_⟩
  · rw [Bindings.valuesOf, List.map_map]
    refine List.map_congr_left fun os _ => ?_
    show ((b.find os).getD (List.replicate os.size 0)).length = os.size
    cases hfind : b.find os with
    | none => exact List.length_replicate
    | some bytes => exact hsized os bytes hfind
  · have hzip : objects.zip (b.valuesOf objects) =
        objects.map fun os => (os, (b.find os).getD (List.replicate os.size 0)) := by
      rw [Bindings.valuesOf, ← List.zip_map', List.map_id'']
      exact fun os => rfl
    rw [hzip, List.mem_map] at hp
    obtain ⟨os, -, rfl⟩ := hp
    exact b.byte_eq_getD os j
  · have hsame : ∀ c, c ∈ q.constraints ∨ c = createIsZero q.expr → ∀ arr ∈ c.symbolicObjects, ∀ i,
        Bindings.toAssignment (objects.zip (b.valuesOf objects)) arr i = b.toAssignment arr i := fun c hc arr harr i =>
      b.toAssignment_valuesOf (hcovers c hc arr harr) i
    have hsat' : Satisfies (Bindings.toAssignment (objects.zip (b.valuesOf objects))) q.constraints := fun c hc =>
      Expr.denotes_of_symbolicObjects (hsame c (.inl hc)) (hsat c hc)
    refine ⟨hsat', ?_⟩
    have hneg := Expr.denotes_of_symbolicObjects (hsame _ (.inr rfl)) (Query.createIsZero_holds hw hfails)
    exact (Query.createIsZero_holds_iff hw (hq.defines _ hsat')).1 hneg

end

/-! ### The counterexample cache -/

namespace CexCachingSolver

variable [ExprOptions] [LinearOrder Expr]

/-- The cache as a layer: its state at the time of a call is given. -/
def layer (options : CexCacheOptions) (order : TableOrder) (states : ℕ → CexCachingSolver) (solver : SolverCalls) : SolverCalls where
  computeTruth n query := (computeTruth ⟨options, order, solver.computeInitialValues⟩ query (states n)).1.join
  computeValidity n query := (computeValidity ⟨options, order, solver.computeInitialValues⟩ query (states n)).1.join.join
  computeValue n query := (computeValue ⟨options, order, solver.computeInitialValues⟩ query (states n)).1.join
  computeInitialValues n query objects :=
    (computeInitialValues ⟨options, order, solver.computeInitialValues⟩ query objects (states n)).1.join

/-- Every array of every assignment in the cache has as many bytes as it has. -/
structure AllSized (s : CexCachingSolver) : Prop where
  cache : ∀ key b, s.cache.Stores key (some b) → Sized b
  table : ∀ b ∈ s.assignmentsTable, Sized b

omit [ExprOptions] [LinearOrder Expr] in
theorem allSized_empty : AllSized empty :=
  ⟨fun _ _ h => absurd h not_stores_empty, fun _ h => absurd h List.not_mem_nil⟩

variable {env : Env} {s : CexCachingSolver} {query : Query} {key : List Expr}

/-- The underlying solver returns as many bytes as asked for. -/
def SizedAnswers (solver : InitialValues) : Prop :=
  ∀ n (q : Query) objects values, q.Clear → q.expr.HasWidth 1 → solver n q objects = some (some values) →
    values.map List.length = objects.map Array.size

theorem searchForAssignment_sized (hs : s.AllSized) {b : Bindings} (h : searchForAssignment env s key = some (some b)) :
    Sized b := by
  unfold searchForAssignment at h
  cases hlook : s.cache.lookup key with
  | some found =>
    rw [hlook] at h
    obtain rfl := Option.some.inj h
    exact hs.cache _ _ (stores_of_lookup key hlook)
  | none =>
    rw [hlook] at h
    simp only at h
    cases hsuper : (if env.options.superSet then s.cache.findSuperset Option.isSome key else none) with
    | some found =>
      rw [hsuper] at h
      obtain rfl := Option.some.inj h
      by_cases hopt : env.options.superSet = true
      · rw [if_pos hopt] at hsuper
        obtain ⟨path, hstores, -, -⟩ := stores_of_findSuperset s.cache hsuper
        exact hs.cache _ _ hstores
      · rw [if_neg hopt] at hsuper
        cases hsuper
    | none =>
      rw [hsuper] at h
      simp only at h
      by_cases hall : env.options.tryAll = true
      · rw [if_pos hall] at h
        cases hfound : s.cache.findSubset Option.isNone key with
        | some found =>
          rw [hfound] at h
          obtain rfl := Option.some.inj h
          obtain ⟨path, hstores, -, -⟩ := stores_of_findSubset s.cache hfound
          exact hs.cache _ _ hstores
        | none =>
          rw [hfound] at h
          obtain ⟨b', hb, heq⟩ := Option.map_eq_some_iff.1 h
          obtain rfl := Option.some.inj heq
          exact hs.table _ (env.order.mem_walk.1 (List.mem_of_find?_eq_some hb))
      · rw [if_neg hall] at h
        obtain ⟨path, hstores, -, -⟩ := stores_of_findSubset s.cache h
        exact hs.cache _ _ hstores

theorem lookupAssignment_sized (hs : s.AllSized) {b : Bindings} (h : lookupAssignment env s query = some (some b)) : Sized b := by
  unfold lookupAssignment at h
  cases hkey : queryKey query with
  | none =>
    rw [hkey] at h
    cases h
  | some key =>
    rw [hkey] at h
    exact searchForAssignment_sized hs h

omit [ExprOptions] [LinearOrder Expr] in
theorem sized_bindingsOf {objects : List Array} {values : List (List (BitVec 8))}
    (h : values.map List.length = objects.map Array.size) : Sized (bindingsOf objects values) := by
  intro array bytes hfind
  obtain ⟨pre, post, hsplit, -⟩ := List.lookup_eq_some_iff.1 hfind
  have hmem : (array, bytes) ∈ bindingsOf objects values := by
    rw [hsplit]
    exact List.mem_append_right _ List.mem_cons_self
  exact ValidatingSolver.length_eq_size h (array, bytes) hmem

omit [ExprOptions] in
theorem AllSized.insert (hs : s.AllSized) {result : Option Bindings} (h : ∀ b, result = some b → Sized b) {table : List Bindings}
    (htable : ∀ b ∈ table, Sized b) (clock : ℕ) : AllSized ⟨s.cache.insert result key, table, clock⟩ := by
  refine ⟨fun path b hstores => ?_, htable⟩
  obtain hold | ⟨-, heq⟩ := stores_insert key hstores
  · exact hs.cache path b hold
  · exact h b heq.symm

/-- `getAssignment` keeps all assignments sized, and returns a sized one. -/
theorem getAssignment_sized (hsolver : SizedAnswers env.solver) (h : query.Clear) (hw : query.expr.HasWidth 1) (hs : s.AllSized) :
    Prog.wp (getAssignment env query) (fun r t => t.AllSized ∧ ∀ b, r = some (some b) → Sized b) AllSized s := by
  unfold getAssignment
  rw [Prog.wp_bind, Prog.wp_get]
  cases hlook : lookupAssignment env s query with
  | some result =>
    rw [Prog.wp_pure]
    exact ⟨hs, fun b hb => lookupAssignment_sized hs (hlook.trans hb)⟩
  | none =>
    simp only
    rw [Prog.wp_bind, Prog.wp_unwrap]
    refine ⟨fun key _ => ?_, fun _ => hs⟩
    rw [Prog.wp_bind, callSolver, Prog.wp_bind, Prog.wp_get, Prog.wp_bind, Prog.wp_modify, Prog.wp_pure]
    cases hsol : env.solver s.clock query (findSymbolicObjects key) with
    | none => exact ⟨⟨hs.cache, hs.table⟩, fun b hb => by cases hb⟩
    | some values =>
      simp only
      rw [Prog.wp_bind]
      unfold memoize
      cases values with
      | none => exact ⟨hs.insert (fun b hb => by cases hb) hs.table _, fun b hb => by cases hb⟩
      | some values =>
        have hsized := sized_bindingsOf (hsolver s.clock query _ values h hw hsol)
        have htable : ∀ b ∈ pushNew s.assignmentsTable (bindingsOf (findSymbolicObjects key) values), Sized b := by
          intro b hb
          unfold pushNew at hb
          by_cases hin : bindingsOf (findSymbolicObjects key) values ∈ s.assignmentsTable
          · rw [if_pos hin] at hb
            exact hs.table b hb
          · rw [if_neg hin, List.mem_append, List.mem_singleton] at hb
            obtain hb | rfl := hb
            · exact hs.table b hb
            · exact hsized
        simp only [Option.map_some, Prog.wp_bind, Prog.wp_modify, Prog.wp_assert, Prog.wp_pure]
        refine ⟨fun _ => ⟨hs.insert (fun b hb => Option.some.inj hb ▸ hsized) htable _, fun b hb => ?_⟩,
          fun _ => ⟨hs.cache, htable⟩⟩
        exact Option.some.inj (Option.some.inj hb) ▸ hsized

/-- Every call keeps all assignments sized. -/
theorem computeTruth_sized (hsolver : SizedAnswers env.solver) (h : query.Clear) (hw : query.expr.HasWidth 1) (hs : s.AllSized) :
    Prog.wp (computeTruth env query) (fun _ t => t.AllSized) AllSized s := by
  unfold computeTruth
  rw [Prog.wp_bind, Prog.wp_get, Prog.wp_ite]
  refine ⟨fun _ => hs, fun _ => ?_⟩
  refine (getAssignment_sized hsolver h hw hs).bind fun r t ht => ?_
  cases r with
  | none => exact ht.1
  | some result => exact ht.1

theorem computeValidity_sized (hsolver : SizedAnswers env.solver) (h : query.Clear) (hw : query.expr.HasWidth 1) (hs : s.AllSized) :
    Prog.wp (computeValidity env query) (fun _ t => t.AllSized) AllSized s := by
  have hneg := (createIsZero_computes hw).hasWidth
  unfold computeValidity
  refine (getAssignment_sized hsolver h.withFalse (hasWidth_ofBool false) hs).bind fun r t ht => ?_
  cases r with
  | none => exact ht.1
  | some result =>
    cases result with
    | none => exact ht.1
    | some a =>
      simp only
      cases a.evaluate query.expr with
      | const v =>
        simp only
        rw [Prog.wp_ite]
        constructor
        · intro _
          refine (getAssignment_sized hsolver h hw ht.1).bind fun r u hu => ?_
          rcases r with - | - | b
          · exact hu.1
          · exact hu.1
          · exact hu.1
        · intro _
          refine (getAssignment_sized hsolver (h.negateExpr hw) hneg ht.1).bind fun r u hu => ?_
          rcases r with - | - | b
          · exact hu.1
          · exact hu.1
          · exact hu.1
      | _ => exact ht.1

theorem computeValue_sized (hsolver : SizedAnswers env.solver) (h : query.Clear) (hs : s.AllSized) :
    Prog.wp (computeValue env query) (fun _ t => t.AllSized) AllSized s := by
  unfold computeValue
  refine (getAssignment_sized hsolver h.withFalse (hasWidth_ofBool false) hs).bind fun r t ht => ?_
  rcases r with - | - | a
  · exact ht.1
  · exact ht.1
  · simp only [Prog.wp_bind, Prog.wp_assert, Prog.wp_pure]
    exact ⟨fun _ => ht.1, fun _ => ht.1⟩

/-- What `computeInitialValues` returns are the values of a right assignment. -/
theorem computeInitialValues_solution (hsolver : env.solver.Correct) (hsized : SizedAnswers env.solver) (h : query.Clear)
    (hw : query.expr.HasWidth 1) (objects : List Array) (hright : s.Right) (hs : s.AllSized) :
    Prog.wp (computeInitialValues env query objects)
      (fun r t => (t.Right ∧ t.AllSized) ∧ ∀ result, r = some result → query.SolutionRight objects result)
      (fun t => t.Right ∧ t.AllSized) s := by
  unfold computeInitialValues
  refine ((getAssignment_spec hsolver h hw hright).and (getAssignment_sized hsized h hw hs)).bind fun r t ht => ?_
  obtain ⟨⟨hright', hassign⟩, hs', hsize⟩ := ht
  cases r with
  | none => exact ⟨⟨hright', hs'⟩, fun result hr => by cases hr⟩
  | some result =>
    cases result with
    | none =>
      refine ⟨⟨hright', hs'⟩, fun result hr => ?_⟩
      obtain rfl := Option.some.inj hr
      exact hassign none rfl
    | some a =>
      refine ⟨⟨hright', hs'⟩, fun result hr => ?_⟩
      obtain rfl := Option.some.inj hr
      exact Query.solutionRight_valuesOf h hw (hsize a rfl) (hassign (some a) rfl) objects

theorem step_sized (hsolver : SizedAnswers env.solver) {t : CexCachingSolver} {ask : Ask} (hs : s.AllSized) (hask : ask.Clear)
    (hstep : step env s ask = some t) : t.AllSized := by
  cases ask with
  | truth query =>
    obtain ⟨r, ht⟩ := (computeTruth_sized hsolver hask.1 hask.2 hs).of_next hstep
    exact ht
  | validity query =>
    obtain ⟨r, ht⟩ := (computeValidity_sized hsolver hask.1 hask.2.1 hs).of_next hstep
    exact ht
  | value query =>
    obtain ⟨r, ht⟩ := (computeValue_sized hsolver hask.1 hs).of_next hstep
    exact ht
  | initialValues query objects =>
    have hwp : Prog.wp (computeInitialValues env query objects) (fun _ t => t.AllSized) AllSized s := by
      unfold computeInitialValues
      refine (getAssignment_sized hsolver hask.1 hask.2 hs).bind fun r t ht => ?_
      rcases r with - | - | a
      · exact ht.1
      · exact ht.1
      · exact ht.1
    obtain ⟨r, ht⟩ := hwp.of_next hstep
    exact ht

omit [LinearOrder Expr] in
/-- What a correct solver promises the cache. -/
theorem promises_of_correct {solver : SolverCalls} (h : solver.Correct fun _ => True) :
    InitialValues.Correct solver.computeInitialValues ∧ SizedAnswers solver.computeInitialValues := by
  constructor
  · intro n q objects answer hq hw hcovers hres
    have hright := h.initialValues n q objects hq hw trivial answer hres
    cases answer with
    | none => exact hright
    | some values => exact hright.2.2 hcovers
  · intro n q objects values hq hw hres
    exact (h.initialValues n q objects hq hw trivial (some values) hres).1

/-- **The counterexample cache as a layer.**  Over a correct solver it is correct, in every state that clear calls lead to. -/
theorem layer_correct {options : CexCacheOptions} {order : TableOrder} {states : ℕ → CexCachingSolver} {solver : SolverCalls}
    (h : solver.Correct fun _ => True)
    (hstates : ∀ n, Run (step ⟨options, order, solver.computeInitialValues⟩) (fun _ ask => ask.Clear) empty (states n)) :
    (layer options order states solver).Correct fun _ => True := by
  obtain ⟨hcorrect, hsized⟩ : InitialValues.Correct (Env.solver ⟨options, order, solver.computeInitialValues⟩) ∧
      SizedAnswers (Env.solver ⟨options, order, solver.computeInitialValues⟩) := promises_of_correct h
  have hright : ∀ n, (states n).Right := fun n =>
    (hstates n).invariant (fun _ _ _ hs hask hstep => step_right hcorrect hs hask hstep) right_empty
  have hsizes : ∀ n, (states n).AllSized := fun n =>
    (hstates n).invariant (fun _ _ _ hs hask hstep => step_sized hsized hs hask hstep) allSized_empty
  refine ⟨fun n q hq b hb => ?_, fun n q hq hplain v hv => ?_, fun n q hq _ hplain e he => ?_, fun n q objects hq hw _ r hr => ?_⟩
  · obtain ⟨t, hrun⟩ := eq_of_join hb
    exact ((computeTruth_spec hcorrect hq.clear hq.width (hright n)).of_eq hrun).2 b rfl
  · obtain ⟨t, hrun⟩ := eq_of_join (Option.join_eq_some_iff.1 hv)
    obtain ⟨v', heq, hright'⟩ := ((computeValidity_spec hcorrect hq.clear hq.width hplain (hright n)).of_eq hrun).2 (some v) rfl
    obtain rfl := Option.some.inj heq
    exact hright'
  · obtain ⟨t, hrun⟩ := eq_of_join he
    exact ((computeValue_spec hcorrect hq hplain (hright n)).of_eq hrun).2 e rfl
  · obtain ⟨t, hrun⟩ := eq_of_join hr
    exact ((computeInitialValues_solution hcorrect hsized hq hw objects (hright n) (hsizes n)).of_eq hrun).2 r rfl

end CexCachingSolver

/-! ### The result cache -/

namespace CachingSolver

variable [ExprOptions] [LinearOrder Expr]

/-- The cache as a layer; values are not cached. -/
def layer (states : ℕ → CachingSolver) (solver : SolverCalls) : SolverCalls where
  computeTruth n query := (computeTruth solver.toSolverImpl query (states n)).1.join
  computeValidity n query := (computeValidity solver.toSolverImpl query (states n)).1.join
  computeValue := solver.computeValue
  computeInitialValues := solver.computeInitialValues

/-- The calls on which the layer can be relied. -/
def Ask.Fit : Ask → Prop
  | .truth q => q.Fit
  | .validity q => q.Fit ∧ q.expr.Plain

/-- The solver with the answers that it does not promise taken away. -/
noncomputable def promised (solver : SolverImpl) : SolverImpl where
  computeTruth n q := by classical exact if q.Fit then solver.computeTruth n q else none
  computeValidity n q := by classical exact if q.Fit ∧ q.expr.Plain then solver.computeValidity n q else none

variable {solver : SolverCalls} {P : Query → Prop} {q : Query} {s : CachingSolver}

omit [LinearOrder Expr] in
theorem promised_correct (h : solver.Correct P) : (promised solver.toSolverImpl).Correct := by
  constructor
  · intro n q _ b hb
    by_cases hq : q.Fit
    · exact h.truth n q hq b ((if_pos hq).symm.trans hb)
    · exact absurd ((if_neg hq).symm.trans hb) (by simp)
  · intro n q _ v hv
    by_cases hq : q.Fit ∧ q.expr.Plain
    · exact h.validity n q hq.1 hq.2 v ((if_pos hq).symm.trans hv)
    · exact absurd ((if_neg hq).symm.trans hv) (by simp)

/-- A call that can be relied on asks for nothing that is not promised. -/
theorem computeTruth_promised (solver : SolverImpl) (hq : q.Fit) : computeTruth (promised solver) q = computeTruth solver q := by
  have hsame : (fun n => (promised solver).computeTruth n q) = fun n => solver.computeTruth n q := funext fun n => if_pos hq
  unfold computeTruth
  rw [hsame]

theorem computeValidity_promised (solver : SolverImpl) (hq : q.Fit) (hplain : q.expr.Plain) :
    computeValidity (promised solver) q = computeValidity solver q := by
  have hsame : (fun n => (promised solver).computeTruth n q) = fun n => solver.computeTruth n q := funext fun n => if_pos hq
  have hneg : (fun n => (promised solver).computeTruth n q.negateExpr) = fun n => solver.computeTruth n q.negateExpr :=
    funext fun n => if_pos hq.negateExpr
  have hvalid : (fun n => (promised solver).computeValidity n q) = fun n => solver.computeValidity n q :=
    funext fun n => if_pos ⟨hq, hplain⟩
  unfold computeValidity
  rw [hsame, hneg, hvalid]

/-- **The result cache as a layer.** -/
theorem layer_correct {states : ℕ → CachingSolver} (h : solver.Correct P)
    (hstates : ∀ n, Run (step solver.toSolverImpl) (fun _ ask => ask.Fit) empty (states n)) :
    (layer states solver).Correct P := by
  have hpromised := promised_correct h
  have hstep : ∀ s ask t, Right s → ask.Fit → step solver.toSolverImpl s ask = some t → Right t := by
    intro s ask t hs hask hstep
    cases ask with
    | truth q =>
      have hstep' : (computeTruth solver.toSolverImpl q).next s = some t := hstep
      rw [← computeTruth_promised _ hask] at hstep'
      exact step_right hpromised hs (show (Ask.truth q).query.Proper from hask.proper) hstep'
    | validity q =>
      have hstep' : (computeValidity solver.toSolverImpl q).next s = some t := hstep
      rw [← computeValidity_promised _ hask.1 hask.2] at hstep'
      exact step_right hpromised hs (show (Ask.validity q).query.Proper from hask.1.proper) hstep'
  have hright : ∀ n, Right (states n) := fun n => (hstates n).invariant hstep right_empty
  refine ⟨fun n q hq b hb => ?_, fun n q hq hplain v hv => ?_, h.value, h.initialValues⟩
  · obtain ⟨t, hrun⟩ := eq_of_join hb
    rw [← computeTruth_promised _ hq] at hrun
    exact ((wp_computeTruth (E := fun _ => True) hpromised (hright n) hq.proper).of_eq hrun).2.1 b rfl
  · obtain ⟨t, hrun⟩ := eq_of_join hv
    rw [← computeValidity_promised _ hq hplain] at hrun
    exact ((wp_computeValidity (E := fun _ => True) hpromised (hright n) hq.proper).of_eq hrun).2.1 v rfl

end CachingSolver

/-! ### Independent constraints -/

theorem Expr.denotes_congr {w : ℕ} {e : Expr} {v : BitVec w} {a b : Assignment}
    (h : ∀ arr i, e.Touches arr i → b arr i = a arr i) (he : e.Denotes a v) : e.Denotes b v := by
  obtain ⟨hd, hv⟩ := Expr.agree e h he.defined
  exact ⟨hd, (hv w).trans he.value⟩

namespace IndependentSolver

variable [ExprOptions]

/-- The query under the constraints that it depends on. -/
def slice (query : Query) : Option Query := (getIndependentConstraints query).map fun r => ⟨r.2, query.expr⟩

/-- The solver as a layer: the time at which the calls for the factors begin is given. -/
def layer (clock : ℕ → ℕ) (solver : SolverCalls) : SolverCalls where
  computeTruth n query := (slice query).bind (solver.computeTruth n)
  computeValidity n query := (slice query).bind (solver.computeValidity n)
  computeValue n query := (slice query).bind (solver.computeValue n)
  computeInitialValues n query objects :=
    (computeInitialValues solver.computeInitialValues query objects (clock n)).1.join.map fun r => r.map Prod.fst

variable {query : Query} {solver : SolverCalls}

/-- The slice of a clear query is clear, and the same is possible under it. -/
structure SliceRight (query part : Query) : Prop where
  expr : part.expr = query.expr
  clear : part.Clear
  subset : ∀ c ∈ part.constraints, c ∈ query.constraints
  complete : ∀ a, Satisfies a part.constraints → ∃ a', Satisfies a' query.constraints ∧
    ∀ arr i, query.expr.Touches arr i → a' arr i = a arr i

omit [ExprOptions] in
theorem slice_right (hq : query.Clear) (hsat : query.constraints.Satisfiable) :
    ∃ s, slice query = some s ∧ SliceRight query s := by
  obtain ⟨elts, required, dropped, hrun, hslice, hapart⟩ := getIndependentConstraints_spec query
  obtain ⟨b, hb⟩ := hsat
  refine ⟨⟨required, query.expr⟩, by rw [slice, hrun]; rfl, ?_⟩
  have hsub : ∀ c ∈ required, c ∈ query.constraints := fun c hc => (hslice.kept c hc).1
  -- on a kept constraint and on the expression, the mixture is the one assignment, on a dropped one it is the other
  have hkept : ∀ a, ∀ c ∈ required, ∀ arr i, c.Touches arr i → elts.mix a b arr i = a arr i := by
    intro a c hc arr i ht
    rw [IndependentElementSet.mix, if_pos ((hslice.kept c hc).2 arr i ht)]
  have hexpr : ∀ a arr i, query.expr.Touches arr i → elts.mix a b arr i = a arr i := by
    intro a arr i ht
    rw [IndependentElementSet.mix, if_pos (hslice.expr arr i ht)]
  have hdropped : ∀ a, ∀ c ∈ query.constraints, c ∉ required → c.Holds (elts.mix a b) := by
    intro a c hc hnot
    obtain ⟨it, hit, rfl⟩ := (hslice.all c hc).resolve_left hnot
    refine Expr.holds_congr (fun arr i ht => ?_) (hb it.1 hc)
    have hno : ¬elts.Has arr i := fun hhas => hapart it hit arr i ⟨((hslice.items it hit).2 arr i).2 ht, hhas⟩
    rw [IndependentElementSet.mix, if_neg hno]
  refine ⟨rfl, ⟨fun c hc => hq.isBool c (hsub c hc), hq.wf, fun a => ?_, fun a ha => ?_⟩, hsub, fun a ha => ?_⟩
  · obtain hall | ⟨c, hc, hf⟩ := hq.decided (elts.mix a b)
    · exact .inl fun c hc => Expr.denotes_congr (fun arr i ht => (hkept a c hc arr i ht).symm) (hall c (hsub c hc))
    · by_cases hin : c ∈ required
      · exact .inr ⟨c, hin, Expr.denotes_congr (fun arr i ht => (hkept a c hin arr i ht).symm) hf⟩
      · exact absurd hf (Query.holds_not_fails (hdropped a c hc hin))
  · have hd := hq.defines _ (hslice.satisfies_mix hapart ha hb)
    exact (Expr.agree query.expr (fun arr i ht => (hexpr a arr i ht).symm) hd).1
  · exact ⟨elts.mix a b, hslice.satisfies_mix hapart ha hb, hexpr a⟩

namespace SliceRight

variable {part : Query}

omit [ExprOptions] in
theorem satisfies (h : SliceRight query part) {a : Assignment} (ha : Satisfies a query.constraints) :
    Satisfies a part.constraints := fun c hc => ha c (h.subset c hc)

omit [ExprOptions] in
theorem fit (h : SliceRight query part) (hq : query.Fit) : part.Fit := by
  obtain ⟨b, hb⟩ := hq.satisfiable
  exact ⟨h.clear, ⟨b, h.satisfies hb⟩, h.expr ▸ hq.width⟩

omit [ExprOptions] in
/-- What the expression may be under the slice, it may be under all constraints. -/
theorem denotes_iff (h : SliceRight query part) {w : ℕ} {v : BitVec w} :
    (∃ a, Satisfies a part.constraints ∧ part.expr.Denotes a v) ↔ ∃ a, Satisfies a query.constraints ∧ query.expr.Denotes a v := by
  rw [h.expr]
  constructor
  · intro hex
    obtain ⟨a, ha, hden⟩ := hex
    obtain ⟨a', ha', hsame⟩ := h.complete a ha
    exact ⟨a', ha', Expr.denotes_congr hsame hden⟩
  · intro hex
    obtain ⟨a, ha, hden⟩ := hex
    exact ⟨a, h.satisfies ha, hden⟩

omit [ExprOptions] in
theorem mayHold_iff (h : SliceRight query part) : part.MayHold ↔ query.MayHold := h.denotes_iff

omit [ExprOptions] in
theorem mayFail_iff (h : SliceRight query part) : part.MayFail ↔ query.MayFail := h.denotes_iff

omit [ExprOptions] in
theorem truthRight (h : SliceRight query part) (hq : query.Fit) {b : Bool} (hb : part.TruthRight b) : query.TruthRight b := by
  have hpart := Query.entails_iff (h.fit hq).proper
  have hquery := Query.entails_iff hq.proper
  rw [h.mayFail_iff, ← hquery] at hpart
  exact hb.trans hpart

omit [ExprOptions] in
theorem validityRight (h : SliceRight query part) {v : Validity} (hv : part.ValidityRight v) : query.ValidityRight v := by
  cases v with
  | True => exact fun hfail => hv (h.mayFail_iff.2 hfail)
  | False => exact fun hhold => hv (h.mayHold_iff.2 hhold)
  | Unknown => exact ⟨h.mayHold_iff.1 hv.1, h.mayFail_iff.1 hv.2⟩

omit [ExprOptions] in
theorem valueRight (h : SliceRight query part) {e : Expr} (he : CexCachingSolver.ValueRight part e) :
    CexCachingSolver.ValueRight query e := by
  obtain ⟨constraints, expr⟩ := part
  obtain rfl : expr = query.expr := h.expr
  obtain ⟨v, rfl, hex⟩ := he
  exact ⟨v, rfl, h.denotes_iff.1 hex⟩

end SliceRight

/-! ### Factors of a query with a solution -/

open IndependentElementSet (Separate)

theorem createIsZero_false : createIsZero (ofBool false) = ofBool true := by
  have hconst : EqExpr.createConst (BitVec.ofBool false) (.const (0#1)) = ofBool (BitVec.ofBool false == (0#1).setWidth 1) := by
    rw [EqExpr.createConst]
  exact hconst.trans rfl

/-- The solver with the answers that it does not promise taken away. -/
noncomputable def promised (solver : InitialValues) : InitialValues := fun n q objects => by
  classical exact if q.Clear then solver n q objects else none

theorem promised_solves (h : solver.Correct fun _ => True) : (promised solver.computeInitialValues).Solves := by
  have hright : ∀ n constraints objects r, promised solver.computeInitialValues n ⟨constraints, ofBool false⟩ objects = some r →
      Query.SolutionRight ⟨constraints, ofBool false⟩ objects r := by
    intro n constraints objects r hr
    by_cases hq : Query.Clear ⟨constraints, ofBool false⟩
    · exact h.initialValues n _ objects hq (hasWidth_ofBool false) trivial r ((if_pos hq).symm.trans hr)
    · exact absurd ((if_neg hq).symm.trans hr) (by simp)
  constructor
  · intro n constraints objects values hres hcovers
    obtain ⟨hsize, -, hassign⟩ := hright n constraints objects _ hres
    refine ⟨by simpa using congrArg List.length hsize, ValidatingSolver.length_eq_size hsize, (hassign fun c hc arr harr => ?_).1⟩
    obtain hc | rfl := hc
    · obtain ⟨i, ht⟩ := Expr.touches_of_mem_symbolicObjects harr
      exact hcovers c hc arr i ht
    · rw [createIsZero_false] at harr
      exact absurd harr List.not_mem_nil
  · intro n constraints objects hres hex
    obtain ⟨a, ha⟩ := hex
    exact hright n constraints objects none hres ⟨a, ha, denotes_ofBool false⟩

omit [ExprOptions] in
/-- The loop asks only about the factors. -/
theorem solveFactors_congr {solver solver' : InitialValues} (factors : List IndependentElementSet)
    (h : ∀ f ∈ factors, ∀ n objects, solver n ⟨f.exprs, ofBool false⟩ objects = solver' n ⟨f.exprs, ofBool false⟩ objects) :
    ∀ retMap, solveFactors solver factors retMap = solveFactors solver' factors retMap := by
  induction factors with
  | nil => exact fun _ => rfl
  | cons it factors ih =>
    intro retMap
    have hfactor : solveFactor solver it retMap = solveFactor solver' it retMap := by
      unfold solveFactor
      simp only [h it List.mem_cons_self]
    have hrest : solveFactors solver factors = solveFactors solver' factors :=
      funext (ih fun f hf => h f (List.mem_cons_of_mem _ hf))
    rw [solveFactors, solveFactors, hfactor, hrest]

/-- A factor of a clear query that has a solution is clear. -/
theorem factor_clear (hq : query.Clear) (hw : query.expr.HasWidth 1) {exprs : List Expr} (hexprs : factorExprs query = some exprs)
    {factors : List IndependentElementSet} (hfac : ∀ f ∈ factors, f.Factor) (hmem : ∀ e, e ∈ exprsOf factors ↔ e ∈ exprs)
    (hpair : factors.Pairwise Separate) {b : Assignment} (hb : Satisfies b query.constraints) (hfails : query.expr.Fails b)
    {f : IndependentElementSet} (hf : f ∈ factors) : Query.Clear ⟨f.exprs, ofBool false⟩ := by
  have hneg := createIsZero_computes hw
  have hcases : ∀ e ∈ exprs, e ∈ query.constraints ∨ e = createIsZero query.expr := by
    intro e he
    obtain ⟨-, rfl⟩ | rfl := factorExprs_cases hexprs
    · exact .inl he
    · exact (List.mem_cons.1 he).symm
  have hholds : ∀ e ∈ exprs, e.Holds b := by
    intro e he
    obtain hc | rfl := hcases e he
    · exact hb e hc
    · exact Query.createIsZero_holds hw hfails
  have hinExprs : ∀ g ∈ factors, ∀ e ∈ g.exprs, e ∈ exprs := fun g hg e he => (hmem e).1 (mem_exprsOf.2 ⟨g, hg, he⟩)
  have hapart : ∀ g ∈ factors, g ≠ f → Separate f g := by
    have : Std.Symm Separate := ⟨fun _ _ hsep arr i h => hsep arr i ⟨h.2, h.1⟩⟩
    intro g hg hne
    exact hpair.forall hf hg (Ne.symm hne)
  refine ⟨fun e he => ?_, (hasWidth_ofBool false).wf, fun a => ?_, fun a _ => (denotes_ofBool false).defined⟩
  · obtain hc | rfl := hcases e (hinExprs f hf e he)
    · exact hq.isBool e hc
    · exact hneg.hasWidth
  · -- the bytes of the factor from the one assignment, all others from the solution
    have hsame : ∀ e ∈ f.exprs, ∀ arr i, e.Touches arr i → f.mix a b arr i = a arr i := by
      intro e he arr i ht
      rw [IndependentElementSet.mix, if_pos ((hfac f hf).touches e he arr i ht)]
    have hother : ∀ g ∈ factors, g ≠ f → ∀ e ∈ g.exprs, e.Holds (f.mix a b) := by
      intro g hg hne e he
      refine Expr.holds_congr (fun arr i ht => ?_) (hholds e (hinExprs g hg e he))
      have hno : ¬f.Has arr i := fun hhas => hapart g hg hne arr i ⟨hhas, (hfac g hg).touches e he arr i ht⟩
      rw [IndependentElementSet.mix, if_neg hno]
    obtain hall | ⟨c, hc, hfc⟩ := hq.decided (f.mix a b)
    · -- all constraints hold, so each expression of the factor is decided
      have heach : ∀ e ∈ f.exprs, e.Holds a ∨ e.Fails a := by
        intro e he
        obtain hc | rfl := hcases e (hinExprs f hf e he)
        · exact .inl (Expr.denotes_congr (fun arr i ht => (hsame e he arr i ht).symm) (hall e hc))
        · have hd := (hneg.denotes (.self (hq.defines _ hall) 1)).defined
          exact ConstraintSet.holds_or_fails (Expr.agree _ (fun arr i ht => (hsame _ he arr i ht).symm) hd).1
      by_cases hbad : ∃ e ∈ f.exprs, e.Fails a
      · exact .inr hbad
      · exact .inl fun e he => (heach e he).resolve_right fun hfe => hbad ⟨e, he, hfe⟩
    · -- what fails is none of the other factors'
      have hin : c ∈ exprs := by
        obtain ⟨-, rfl⟩ | rfl := factorExprs_cases hexprs
        · exact hc
        · exact List.mem_cons_of_mem _ hc
      obtain ⟨g, hg, hcg⟩ := mem_exprsOf.1 ((hmem c).2 hin)
      by_cases hgf : g = f
      · subst hgf
        exact .inr ⟨c, hcg, Expr.denotes_congr (fun arr i ht => (hsame c hcg arr i ht).symm) hfc⟩
      · exact absurd hfc (Query.holds_not_fails (hother g hg hgf c hcg))

/-- The answers of the factors make a right answer. -/
theorem computeInitialValues_solution (h : solver.Correct fun _ => True) (hq : query.Clear) (hw : query.expr.HasWidth 1)
    (hfail : query.MayFail) (objects : List Array) (n : ℕ) :
    Prog.wp (computeInitialValues solver.computeInitialValues query objects)
      (fun r _ => ∀ result, r = some result → query.SolutionRight objects (result.map Prod.fst)) (fun _ => True) n := by
  obtain ⟨b, hb, hfails⟩ := hfail
  unfold computeInitialValues
  rw [Prog.wp_bind, Prog.wp_unwrap]
  refine ⟨fun factors hfactors => ?_, fun _ => trivial⟩
  obtain ⟨exprs, hexprs⟩ : ∃ exprs, factorExprs query = some exprs := by
    cases hex : factorExprs query with
    | none =>
      unfold getAllIndependentConstraintsSets at hfactors
      rw [hex] at hfactors
      cases hfactors
    | some exprs => exact ⟨exprs, rfl⟩
  obtain ⟨factors', hfactors', hfac, hmem, hpair⟩ := getAllIndependentConstraintsSets_spec hexprs
  obtain rfl : factors' = factors := Option.some.inj (hfactors'.symm.trans hfactors)
  have hsame : solveFactors solver.computeInitialValues factors' [] = solveFactors (promised solver.computeInitialValues) factors' [] := by
    refine solveFactors_congr factors' (fun f hf n objects => ?_) []
    exact (if_pos (factor_clear hq hw hexprs hfac hmem hpair hb hfails hf)).symm
  have hstart : Solved [] [] :=
    ⟨fun _ _ hfind => (by cases hfind), fun _ hf => absurd hf List.not_mem_nil, fun _ _ hfind => (by cases hfind),
      fun _ hf => absurd hf List.not_mem_nil⟩
  have hholds : ∀ e ∈ exprs, e.Holds b := by
    intro e he
    obtain ⟨-, rfl⟩ | rfl := factorExprs_cases hexprs
    · exact hb e he
    · obtain rfl | hc := List.mem_cons.1 he
      · exact Query.createIsZero_holds hw hfails
      · exact hb e hc
  rw [hsame]
  refine Prog.wp.bind (solveFactors_spec (promised_solves h) factors' hstart hfac hpair) fun r m hr => ?_
  obtain ⟨hsome, hnone⟩ := hr
  cases r with
  | none => exact fun result hres => by cases hres
  | some found =>
    cases found with
    | none =>
      -- every factor has a solution
      obtain ⟨f, hf, hno⟩ := hnone rfl
      exact absurd ⟨b, fun e he => hholds e ((hmem e).1 (mem_exprsOf.2 ⟨f, hf, he⟩))⟩ hno
    | some retMap =>
      have hsolved := hsome retMap rfl
      intro result hres
      obtain rfl := Option.some.inj hres
      have hall : ∀ e ∈ exprs, e.Holds retMap.toAssignment := by
        intro e he
        obtain ⟨f, hf, hef⟩ := mem_exprsOf.1 ((hmem e).2 he)
        by_cases hrefs : calculateArrayReferences f = []
        · refine Expr.holds_congr (fun array i ht => ?_) (hholds e he)
          have hin := ((hfac f hf).touches e hef array i ht).mem_references
          rw [hrefs] at hin
          exact absurd hin List.not_mem_nil
        · exact hsolved.holds f hf hrefs e hef
      refine Query.solutionRight_valuesOf hq hw hsolved.sized ?_ objects
      obtain ⟨hfalse, rfl⟩ | rfl := factorExprs_cases hexprs
      · refine ⟨hall, ?_⟩
        rw [hfalse]
        exact denotes_ofBool false
      · have hsat : Satisfies retMap.toAssignment query.constraints := fun c hc => hall c (List.mem_cons_of_mem _ hc)
        exact ⟨hsat, (Query.createIsZero_holds_iff hw (hq.defines _ hsat)).1 (hall _ List.mem_cons_self)⟩

/-- **The independent solver as a layer.** -/
theorem layer_correct (clock : ℕ → ℕ) (h : solver.Correct fun _ => True) : (layer clock solver).Correct Query.MayFail := by
  refine ⟨fun n q hq b hb => ?_, fun n q hq hplain v hv => ?_, fun n q hq hsat hplain e he => ?_, fun n q objects hq hw hfail r hr => ?_⟩
  · obtain ⟨part, hpart, hright⟩ := slice_right hq.clear hq.satisfiable
    have hb' : (slice q).bind (solver.computeTruth n) = some b := hb
    rw [hpart] at hb'
    exact hright.truthRight hq (h.truth n part (hright.fit hq) b hb')
  · obtain ⟨part, hpart, hright⟩ := slice_right hq.clear hq.satisfiable
    have hv' : (slice q).bind (solver.computeValidity n) = some v := hv
    rw [hpart] at hv'
    exact hright.validityRight (h.validity n part (hright.fit hq) (hright.expr ▸ hplain) v hv')
  · obtain ⟨part, hpart, hright⟩ := slice_right hq hsat
    have he' : (slice q).bind (solver.computeValue n) = some e := he
    rw [hpart] at he'
    obtain ⟨b, hb⟩ := hsat
    exact hright.valueRight (h.value n part hright.clear ⟨b, hright.satisfies hb⟩ (hright.expr ▸ hplain) e he')
  · obtain ⟨result, hres, rfl⟩ := Option.map_eq_some_iff.1 hr
    obtain ⟨t, hrun⟩ := eq_of_join hres
    exact (computeInitialValues_solution h hq hw hfail objects (clock n)).of_eq hrun result rfl

end IndependentSolver

/-! ### Validating layers -/

section

variable [ExprOptions] {solver oracle : SolverCalls} {P : Query → Prop} {q : Query} {n : ℕ}

namespace ValidatingSolver

/-- The solver as a layer: the time at which its two calls begin is given. -/
def layer (clock : ℕ → ℕ) (solver oracle : SolverCalls) : SolverCalls where
  computeTruth n query := answer (computeTruth solver oracle query) (clock n)
  computeValidity n query := answer (computeValidity solver oracle query) (clock n)
  computeValue n query := answer (computeValue solver oracle query) (clock n)
  computeInitialValues n query objects := answer (computeInitialValues solver oracle query objects) (clock n)

omit [ExprOptions] in
/-- What is returned is what the solver returned. -/
theorem computeTruth_answer {b : Bool} (h : answer (computeTruth solver oracle q) n = some b) : solver.computeTruth n q = some b := by
  refine answer_of_wp (E := fun _ => True) (P := fun b => solver.computeTruth n q = some b) ?_ h
  rw [computeTruth, Prog.wp_bind, wp_ask]
  cases solver.computeTruth n q with
  | none => exact fun _ hx => by cases hx
  | some isValid =>
    simp only [Prog.wp_bind, wp_ask]
    cases oracle.computeTruth (n + 1) q with
    | none => exact fun _ hx => by cases hx
    | some answer =>
      simp only [Prog.wp_bind, Prog.wp_assert]
      exact ⟨fun _ x hx => hx, fun _ => trivial⟩

omit [ExprOptions] in
theorem computeValidity_answer {v : Validity} (h : answer (computeValidity solver oracle q) n = some v) :
    solver.computeValidity n q = some v := by
  refine answer_of_wp (E := fun _ => True) (P := fun v => solver.computeValidity n q = some v) ?_ h
  rw [computeValidity, Prog.wp_bind, wp_ask]
  cases solver.computeValidity n q with
  | none => exact fun _ hx => by cases hx
  | some result =>
    simp only [Prog.wp_bind, wp_ask]
    cases oracle.computeValidity (n + 1) q with
    | none => exact fun _ hx => by cases hx
    | some answer =>
      simp only [Prog.wp_bind, Prog.wp_assert]
      exact ⟨fun _ x hx => hx, fun _ => trivial⟩

theorem computeValue_answer {e : Expr} (h : answer (computeValue solver oracle q) n = some e) : solver.computeValue n q = some e := by
  refine answer_of_wp (E := fun _ => True) (P := fun e => solver.computeValue n q = some e) ?_ h
  rw [computeValue, Prog.wp_bind, wp_ask]
  cases solver.computeValue n q with
  | none => exact fun _ hx => by cases hx
  | some result =>
    simp only [Prog.wp_bind, Prog.wp_assert, wp_ask]
    refine ⟨fun _ => ?_, fun _ => trivial⟩
    cases oracle.computeTruth (n + 1) (q.withExpr (NeExpr.create q.expr result)) with
    | none => exact fun _ hx => by cases hx
    | some answer =>
      simp only [Prog.wp_bind, Prog.wp_assert]
      exact ⟨fun _ x hx => hx, fun _ => trivial⟩

theorem computeInitialValues_answer {objects : List Array} {r : Option (List (List (BitVec 8)))}
    (h : answer (computeInitialValues solver oracle q objects) n = some r) : solver.computeInitialValues n q objects = some r := by
  refine answer_of_wp (E := fun _ => True) (P := fun r => solver.computeInitialValues n q objects = some r) ?_ h
  rw [computeInitialValues, Prog.wp_bind, wp_ask]
  cases solver.computeInitialValues n q objects with
  | none => exact fun _ hx => by cases hx
  | some result =>
    cases result with
    | none =>
      simp only [Prog.wp_bind, wp_ask]
      cases oracle.computeTruth (n + 1) q with
      | none => exact fun _ hx => by cases hx
      | some answer =>
        simp only [Prog.wp_bind, Prog.wp_assert]
        exact ⟨fun _ x hx => hx, fun _ => trivial⟩
    | some values =>
      simp only [Prog.wp_bind, Prog.wp_assert, wp_ask]
      refine ⟨fun _ => ?_, fun _ => trivial⟩
      cases oracle.computeTruth (n + 1) ⟨bindings objects values, conjunction q⟩ with
      | none => exact fun _ hx => by cases hx
      | some answer =>
        simp only [Prog.wp_bind, Prog.wp_assert]
        exact ⟨fun _ x hx => hx, fun _ => trivial⟩

theorem layer_correct (clock : ℕ → ℕ) (oracle : SolverCalls) (h : solver.Correct P) : (layer clock solver oracle).Correct P where
  truth n q hq b hb := h.truth (clock n) q hq b (computeTruth_answer hb)
  validity n q hq hplain v hv := h.validity (clock n) q hq hplain v (computeValidity_answer hv)
  value n q hq hsat hplain e he := h.value (clock n) q hq hsat hplain e (computeValue_answer he)
  initialValues n q objects hq hw hP r hr := h.initialValues (clock n) q objects hq hw hP r (computeInitialValues_answer hr)

end ValidatingSolver

namespace AssignmentValidatingSolver

/-- The solver as a layer; only initial values are validated. -/
def layer (useVisitorHash : Bool) (solver : SolverCalls) : SolverCalls where
  toSolverImpl := solver.toSolverImpl
  computeValue := solver.computeValue
  computeInitialValues n query objects := answer (computeInitialValues useVisitorHash solver query objects) n

theorem computeInitialValues_answer {useVisitorHash : Bool} {objects : List Array} {r : Option (List (List (BitVec 8)))}
    (h : answer (computeInitialValues useVisitorHash solver q objects) n = some r) : solver.computeInitialValues n q objects = some r := by
  refine answer_of_wp (E := fun _ => True) (P := fun r => solver.computeInitialValues n q objects = some r) ?_ h
  rw [computeInitialValues, Prog.wp_bind, wp_ask]
  cases solver.computeInitialValues n q objects with
  | none => exact fun _ hx => by cases hx
  | some result =>
    cases result with
    | none => exact fun x hx => hx
    | some values =>
      simp only [Prog.wp_bind, Prog.wp_assert]
      exact ⟨fun _ => ⟨fun _ x hx => hx, fun _ => trivial⟩, fun _ => trivial⟩

theorem layer_correct (useVisitorHash : Bool) (h : solver.Correct P) : (layer useVisitorHash solver).Correct P where
  truth := h.truth
  validity := h.validity
  value := h.value
  initialValues n q objects hq hw hP r hr := h.initialValues n q objects hq hw hP r (computeInitialValues_answer hr)

end AssignmentValidatingSolver

end

/-! ### The chain -/

section

variable [ExprOptions] [LinearOrder Expr]

/-- The options that `constructSolverChain` reads, and those of the solvers it builds. -/
structure ChainOptions where
  useAssignmentValidatingSolver : Bool
  useFastCexSolver : Bool
  useCexCache : Bool
  useBranchCache : Bool
  useIndependentSolver : Bool
  debugValidateSolver : Bool
  /-- The oracle, unless there is no solver to cross-check with. -/
  debugCrossCheckCoreSolverWith : Option SolverCalls
  useVisitorHash : Bool
  fastCexSolver : IncompleteSolver
  cexCacheOptions : CexCacheOptions
  order : TableOrder

/-- What the caches hold at the time of each call, and when the calls of the other layers begin. -/
structure ChainHistory where
  cexStates : ℕ → CexCachingSolver
  branchStates : ℕ → CachingSolver
  independentClock : ℕ → ℕ
  validateClock : ℕ → ℕ
  crossCheckClock : ℕ → ℕ

variable (options : ChainOptions) (history : ChainHistory) (coreSolver : SolverCalls)

omit [LinearOrder Expr] in
/-- The chain up to the fast counterexample solver. -/
def fastCexChain : SolverCalls :=
  let solver :=
    if options.useAssignmentValidatingSolver then AssignmentValidatingSolver.layer options.useVisitorHash coreSolver else coreSolver
  if options.useFastCexSolver then StagedSolver options.fastCexSolver solver else solver

/-- The chain up to the counterexample cache. -/
def cexCacheChain : SolverCalls :=
  let solver := fastCexChain options coreSolver
  if options.useCexCache then CexCachingSolver.layer options.cexCacheOptions options.order history.cexStates solver else solver

/-- The chain up to the result cache. -/
def branchCacheChain : SolverCalls :=
  let solver := cexCacheChain options history coreSolver
  if options.useBranchCache then CachingSolver.layer history.branchStates solver else solver

def constructSolverChain : SolverCalls :=
  let solver := branchCacheChain options history coreSolver
  let solver := if options.useIndependentSolver then IndependentSolver.layer history.independentClock solver else solver
  let solver := if options.debugValidateSolver then ValidatingSolver.layer history.validateClock solver coreSolver else solver
  match options.debugCrossCheckCoreSolverWith with
  | some oracleSolver => ValidatingSolver.layer history.crossCheckClock solver oracleSolver
  | none => solver

/-- The caches hold what clear calls have put there. -/
structure ChainHistory.Reached : Prop where
  cex : ∀ n, Run (CexCachingSolver.step ⟨options.cexCacheOptions, options.order, (fastCexChain options coreSolver).computeInitialValues⟩)
    (fun _ ask => ask.Clear) .empty (history.cexStates n)
  branch : ∀ n, Run (CachingSolver.step (cexCacheChain options history coreSolver).toSolverImpl) (fun _ ask => ask.Fit) .empty
    (history.branchStates n)

variable {options history coreSolver}

omit [LinearOrder Expr] in
/-- A layer that is switched by an option. -/
theorem correct_switched {P : Query → Prop} (b : Bool) {layer solver : SolverCalls} (hsolver : solver.Correct P)
    (hlayer : layer.Correct P) : (if b then layer else solver).Correct P := by
  cases b with
  | true => exact hlayer
  | false => exact hsolver

/-- **The chain.**  Over a correct core solver, and with a fast solver that knows what it says, every chain is correct whatever
its caches have been asked before: with every combination of the options. -/
theorem solverChain_correct (hcore : coreSolver.Correct fun _ => True) (hfast : options.fastCexSolver.Sound)
    (hreached : history.Reached options coreSolver) : (constructSolverChain options history coreSolver).Correct Query.MayFail := by
  have hfastChain : (fastCexChain options coreSolver).Correct fun _ => True := by
    have hassign := correct_switched options.useAssignmentValidatingSolver hcore
      (AssignmentValidatingSolver.layer_correct options.useVisitorHash hcore)
    exact correct_switched _ hassign (StagedSolver_correct hfast hassign)
  have hcex : (cexCacheChain options history coreSolver).Correct fun _ => True :=
    correct_switched _ hfastChain (CexCachingSolver.layer_correct hfastChain hreached.cex)
  have hbranch : (branchCacheChain options history coreSolver).Correct fun _ => True :=
    correct_switched _ hcex (CachingSolver.layer_correct hcex hreached.branch)
  have hindependent := correct_switched options.useIndependentSolver (hbranch.mono fun q (_ : q.MayFail) => trivial)
    (IndependentSolver.layer_correct history.independentClock hbranch)
  have hvalidate := correct_switched options.debugValidateSolver hindependent
    (ValidatingSolver.layer_correct history.validateClock coreSolver hindependent)
  unfold constructSolverChain
  cases options.debugCrossCheckCoreSolverWith with
  | none => exact hvalidate
  | some oracleSolver => exact ValidatingSolver.layer_correct history.crossCheckClock oracleSolver hvalidate

end

/-! ### The chain by default -/

section

local instance : ExprOptions := .defaults

noncomputable local instance : LinearOrder Expr := CachingSolver.exprOrder

/-- A core solver that answers whenever there is a right answer. -/
noncomputable def exactCore : SolverCalls where
  toSolverImpl := .exact
  computeValue _ q := by
    classical exact if h : ∃ e, CexCachingSolver.ValueRight q e then some h.choose else none
  computeInitialValues _ q objects := by
    classical exact if h : ∃ r, q.SolutionRight objects r then some h.choose else none

theorem exactCore_correct : exactCore.Correct fun _ => True where
  truth n q hq b hb := SolverImpl.exact_correct.truth n q hq.proper b hb
  validity n q hq _ v hv := SolverImpl.exact_correct.validity n q hq.proper v hv
  value n q _ _ _ e he := by
    by_cases h : ∃ e, CexCachingSolver.ValueRight q e
    · obtain rfl := Option.some.inj ((dif_pos h).symm.trans he)
      exact h.choose_spec
    · exact absurd ((dif_neg h).symm.trans he) (by simp)
  initialValues n q objects _ _ _ r hr := by
    by_cases h : ∃ r, q.SolutionRight objects r
    · obtain rfl := Option.some.inj ((dif_pos h).symm.trans hr)
      exact h.choose_spec
    · exact absurd ((dif_neg h).symm.trans hr) (by simp)

/-- The options by default; the fast solver is off, and here it knows nothing. -/
def defaultChain : ChainOptions where
  useAssignmentValidatingSolver := false
  useFastCexSolver := false
  useCexCache := true
  useBranchCache := true
  useIndependentSolver := true
  debugValidateSolver := false
  debugCrossCheckCoreSolverWith := none
  useVisitorHash := true
  fastCexSolver := ⟨fun _ => .None, fun _ => none, fun _ _ => none⟩
  cexCacheOptions := .defaults
  order := CexCachingSolver.falseEnv.order

/-- Nothing was asked before. -/
def emptyHistory : ChainHistory := ⟨fun _ => .empty, fun _ => .empty, fun n => n, fun n => n, fun n => n⟩

/-- Every layer is on. -/
noncomputable def everyLayer : ChainOptions :=
  { defaultChain with
    useAssignmentValidatingSolver := true
    useFastCexSolver := true
    debugValidateSolver := true
    debugCrossCheckCoreSolverWith := some exactCore }

theorem solverChain_correct_default :
    (constructSolverChain defaultChain emptyHistory exactCore).Correct Query.MayFail ∧
      (constructSolverChain everyLayer emptyHistory exactCore).Correct Query.MayFail := by
  have hfast : defaultChain.fastCexSolver.Sound :=
    ⟨fun _ _ => .inr (.inr rfl), fun _ _ _ _ _ he => (by cases he), fun _ _ _ _ _ hr => (by cases hr)⟩
  exact ⟨solverChain_correct exactCore_correct hfast ⟨fun _ => .refl, fun _ => .refl⟩,
    solverChain_correct exactCore_correct hfast ⟨fun _ => .refl, fun _ => .refl⟩⟩

end

end SymBisect
