import SymBisect.Expr.Evaluator
import SymBisect.Solver.CachingSolver
import SymBisect.Solver.MapOfSets

/-!
# The counterexample cache

`CexCachingSolver` of `lib/Solver/CexCachingSolver.cpp`: a set of expressions that were asked to hold together
is mapped to an assignment that satisfies them, or to null when there is none.  A set that is not in the map is
compared with its subsets and supersets there, and cached assignments are tried on it.

The table of assignments is a `std::set` in the order of the addresses of the arrays; `TableOrder` is the order
in which it is walked.

* `KeyRight`: what an entry says about its set.  Every call keeps that all entries are right.
* `Query.Clear`: every assignment satisfies the constraints or makes one of them false, and the expression
  evaluates under those that satisfy them.  This is where division by zero is kept out.
* `computeValidity_no_result`: `computeValidity` can return true without an answer.
* `cexCache_correct`: it does not, and all answers are right, in every history of clear queries.
-/

namespace SymBisect

open Lib Expr ConstraintSet MapOfSets

/-! ### Symbolic objects -/

/-- A list without what is in it already. -/
def pushNew {α : Type} [DecidableEq α] (l : List α) (x : α) : List α := if x ∈ l then l else l ++ [x]

mutual

/-- The symbolic arrays of an expression, in the order in which `SymbolicObjectFinder` meets them. -/
def Expr.symbolicObjects : Expr → List Array
  | .const _ => []
  | .notOptimized src => src.symbolicObjects
  | .read updates index =>
    updates.symbolicObjects ++ (if updates.getRoot.isSymbolicArray then [updates.getRoot] else []) ++
      index.symbolicObjects
  | .select c t f => c.symbolicObjects ++ t.symbolicObjects ++ f.symbolicObjects
  | .concat l r => l.symbolicObjects ++ r.symbolicObjects
  | .extract e _ _ => e.symbolicObjects
  | .zext src _ => src.symbolicObjects
  | .sext src _ => src.symbolicObjects
  | .not e => e.symbolicObjects
  | .bin _ l r => l.symbolicObjects ++ r.symbolicObjects
  | .cmp _ l r => l.symbolicObjects ++ r.symbolicObjects

/-- The symbolic arrays of what is written. -/
def UpdateList.symbolicObjects : UpdateList → List Array
  | .root _ => []
  | .extend next index value => index.symbolicObjects ++ value.symbolicObjects ++ next.symbolicObjects

end

/-- `findSymbolicObjects`. -/
def findSymbolicObjects (key : List Expr) : List Array := (key.flatMap symbolicObjects).foldl pushNew []

theorem mem_foldl_pushNew {α : Type} [DecidableEq α] {x : α} (l : List α) : ∀ {acc : List α},
    x ∈ l.foldl pushNew acc ↔ x ∈ acc ∨ x ∈ l := by
  induction l with
  | nil => simp
  | cons y l ih =>
    intro acc
    rw [List.foldl_cons, ih, pushNew]
    by_cases hy : y ∈ acc
    · rw [if_pos hy, List.mem_cons]
      constructor
      · intro h
        exact h.imp_right .inr
      · intro h
        obtain h | rfl | h := h
        · exact .inl h
        · exact .inl hy
        · exact .inr h
    · rw [if_neg hy, List.mem_append, List.mem_singleton, List.mem_cons, or_assoc]

theorem mem_findSymbolicObjects {key : List Expr} {array : Array} :
    array ∈ findSymbolicObjects key ↔ ∃ c ∈ key, array ∈ c.symbolicObjects := by
  unfold findSymbolicObjects
  rw [mem_foldl_pushNew, List.mem_flatMap]
  simp

/-! ### The solver -/

/-- The options `--cex-cache-try-all`, `--cex-cache-superset`, `--cex-cache-exp` and
`--debug-cex-cache-check-binding`. -/
structure CexCacheOptions where
  tryAll : Bool
  superSet : Bool
  experimental : Bool
  checkBinding : Bool

/-- The options by default. -/
def CexCacheOptions.defaults : CexCacheOptions := ⟨false, false, false, false⟩

/-- The order in which a table of assignments is walked. -/
structure TableOrder where
  walk : List Bindings → List Bindings
  mem_walk : ∀ {table b}, b ∈ walk table ↔ b ∈ table

/-- `computeInitialValues` of the underlying solver at a given time: nothing when the call fails, and else the
values, or that there is no solution. -/
abbrev InitialValues := ℕ → Query → List Array → Option (Option (List (List (BitVec 8))))

/-- `CexCachingSolver`, and the number of calls made to the underlying solver. -/
structure CexCachingSolver where
  cache : Node Expr (Option Bindings)
  assignmentsTable : List Bindings
  clock : ℕ

namespace CexCachingSolver

/-- The cache at the start. -/
def empty : CexCachingSolver := ⟨.empty, [], 0⟩

/-- The parts that the calls only read. -/
structure Env where
  options : CexCacheOptions
  order : TableOrder
  solver : InitialValues

variable [ExprOptions] [LinearOrder Expr]

/-- `key.insert`. -/
def keyInsert (e : Expr) : List Expr → List Expr
  | [] => [e]
  | x :: key => if e < x then e :: x :: key else if e = x then x :: key else x :: keyInsert e key

/-- `KeyType(constraints.begin(), constraints.end())`. -/
def keyOf (constraints : ConstraintSet) : List Expr := constraints.foldl (fun key e => keyInsert e key) []

/-- The key of a query, or nothing when the negated expression is the constant false. -/
def queryKey (query : Query) : Option (List Expr) :=
  match createIsZero query.expr with
  | .const v => if v.toNat = 0 then none else some (keyOf query.constraints)
  | neg => some (keyInsert neg (keyOf query.constraints))

variable (env : Env)

/-- `searchForAssignment`. -/
def searchForAssignment (s : CexCachingSolver) (key : List Expr) : Option (Option Bindings) :=
  match s.cache.lookup key with
  | some result => some result
  | none =>
    match if env.options.superSet then s.cache.findSuperset Option.isSome key else none with
    | some result => some result
    | none =>
      if env.options.tryAll then
        match s.cache.findSubset Option.isNone key with
        | some result => some result
        | none => ((env.order.walk s.assignmentsTable).find? fun a => a.satisfies key).map some
      else
        s.cache.findSubset (fun a => match a with
          | none => true
          | some a => a.satisfies key) key

/-- `lookupAssignment`. -/
def lookupAssignment (s : CexCachingSolver) (query : Query) : Option (Option Bindings) :=
  match queryKey query with
  | none => some none
  | some key => searchForAssignment env s key

/-- A call to the underlying solver. -/
def callSolver (query : Query) (objects : List Array) :
    Prog CexCachingSolver (Option (Option (List (List (BitVec 8))))) := do
  let s ← Prog.get
  Prog.modify fun s => { s with clock := s.clock + 1 }
  pure (env.solver s.clock query objects)

/-- `new Assignment(objects, values)`. -/
def bindingsOf (objects : List Array) (values : List (List (BitVec 8))) : Bindings := objects.zip values

/-- Store what the underlying solver found; an assignment that is in the table is used again. -/
def memoize (key : List Expr) (binding : Option Bindings) : Prog CexCachingSolver PUnit := do
  match binding with
  | some b => do
    Prog.modify fun s => { s with assignmentsTable := pushNew s.assignmentsTable b }
    Prog.assert (env.options.checkBinding = true → b.satisfies key = true)
  | none => pure ⟨⟩
  Prog.modify fun s => { s with cache := s.cache.insert binding key }

/-- `getAssignment`: nothing when it returns false. -/
def getAssignment (query : Query) : Prog CexCachingSolver (Option (Option Bindings)) := do
  let s ← Prog.get
  match lookupAssignment env s query with
  | some result => pure (some result)
  | none => do
    let key ← Prog.unwrap (queryKey query)
    let objects := findSymbolicObjects key
    match ← callSolver env query objects with
    | none => pure none
    | some values => do
      let binding := values.map fun values => bindingsOf objects values
      memoize env key binding
      pure (some binding)

/-- `computeValidity`: nothing when it returns false, and else what it has set `result` to. -/
def computeValidity (query : Query) : Prog CexCachingSolver (Option (Option Validity)) := do
  match ← getAssignment env query.withFalse with
  | none => pure none
  -- computeValidity() must have assignment
  | some none => Prog.abort
  | some (some a) =>
    match a.evaluate query.expr with
    | .const v =>
      if (Expr.const v).isTrue then do
        match ← getAssignment env query with
        | none => pure none
        | some none => pure (some (some .True))
        | some (some _) => pure (some (some .Unknown))
      else do
        match ← getAssignment env query.negateExpr with
        | none => pure none
        | some none => pure (some (some .False))
        | some (some _) => pure (some (some .Unknown))
    | _ => pure (some none)

/-- `computeTruth`. -/
def computeTruth (query : Query) : Prog CexCachingSolver (Option Bool) := do
  let s ← Prog.get
  if env.options.experimental = true ∧ lookupAssignment env s query.negateExpr = some none then pure none
  else do
    match ← getAssignment env query with
    | none => pure none
    | some a => pure (some a.isNone)

/-- `computeValue`. -/
def computeValue (query : Query) : Prog CexCachingSolver (Option Expr) := do
  match ← getAssignment env query.withFalse with
  | none => pure none
  -- computeValue() must have assignment
  | some none => Prog.abort
  | some (some a) => do
    -- assignment evaluation did not result in constant
    Prog.assert ((a.evaluate query.expr).isConstant = true)
    pure (some (a.evaluate query.expr))

/-- `computeInitialValues`: nothing when it returns false, and else the values if there is a solution. -/
def computeInitialValues (query : Query) (objects : List Array) :
    Prog CexCachingSolver (Option (Option (List (List (BitVec 8))))) := do
  match ← getAssignment env query with
  | none => pure none
  | some none => pure (some none)
  | some (some a) =>
    pure (some (some (objects.map fun os => (a.find os).getD (List.replicate os.size 0))))

end CexCachingSolver

/-! ### Clear queries -/

/-- Under every assignment the constraints all hold or one of them is false, and the expression evaluates where
they hold. -/
structure Query.Clear (q : Query) : Prop where
  isBool : q.constraints.IsBool
  wf : q.expr.WF
  decided : ∀ a, Satisfies a q.constraints ∨ FailsSome a q.constraints
  defines : q.constraints.Defines q.expr

namespace Query

variable {q : Query}

theorem Clear.withFalse (h : q.Clear) : q.withFalse.Clear where
  isBool := h.isBool
  wf := (hasWidth_ofBool false).wf
  decided := h.decided
  defines := fun _ _ => (denotes_ofBool false).defined

/-- The answers of `computeInitialValues` on which the cache rests: without a solution the expression cannot
fail, and with one the values, and zero elsewhere, satisfy the constraints and make the expression fail. -/
def AssignmentRight (q : Query) : Option Bindings → Prop
  | none => ¬ q.MayFail
  | some b => Satisfies b.toAssignment q.constraints ∧ q.expr.Fails b.toAssignment

variable [ExprOptions]

theorem Clear.negateExpr (h : q.Clear) (hw : q.expr.HasWidth 1) : q.negateExpr.Clear where
  isBool := h.isBool
  wf := (createIsZero_computes hw).hasWidth.wf
  decided := h.decided
  defines := fun a ha => ((createIsZero_computes hw).denotes (.self (h.defines a ha) 1)).defined

theorem fails_negateExpr (h : q.Clear) (hw : q.expr.HasWidth 1) {a : Assignment} (ha : Satisfies a q.constraints) :
    q.negateExpr.expr.Fails a ↔ q.expr.Holds a :=
  createIsZero_fails_iff hw (h.defines a ha)

end Query

/-- The underlying solver answers correctly when it is asked for all arrays of the constraints and of the negated
expression. -/
def InitialValues.Correct [ExprOptions] (solver : InitialValues) : Prop :=
  ∀ n (q : Query) objects answer, q.Clear → q.expr.HasWidth 1 →
    (∀ c, c ∈ q.constraints ∨ c = createIsZero q.expr → ∀ array ∈ c.symbolicObjects, array ∈ objects) →
    solver n q objects = some answer →
    q.AssignmentRight (answer.map fun values => CexCachingSolver.bindingsOf objects values)

namespace CexCachingSolver

variable [ExprOptions]

/-- What an entry says about its set of expressions. -/
def KeyRight (key : List Expr) : Option Bindings → Prop
  | none => ¬ ∃ a, ∀ c ∈ key, c.Holds a
  | some b => ∀ c ∈ key, c.Holds b.toAssignment

/-- All entries are right. -/
def Right (s : CexCachingSolver) : Prop := ∀ key result, s.cache.Stores key result → KeyRight key result

variable [LinearOrder Expr] {query : Query} {key : List Expr}

omit [ExprOptions] in
theorem mem_keyInsert {c e : Expr} (key : List Expr) : c ∈ keyInsert e key ↔ c = e ∨ c ∈ key := by
  induction key with
  | nil => simp [keyInsert]
  | cons x key ih =>
    unfold keyInsert
    split
    · simp
    split
    · rename_i heq
      subst heq
      simp
    · rw [List.mem_cons, ih, List.mem_cons]
      tauto

omit [ExprOptions] in
theorem mem_keyOf {c : Expr} {constraints : ConstraintSet} : c ∈ keyOf constraints ↔ c ∈ constraints := by
  have hfold : ∀ (constraints : ConstraintSet) (key : List Expr),
      c ∈ constraints.foldl (fun key e => keyInsert e key) key ↔ c ∈ key ∨ c ∈ constraints := by
    intro constraints
    induction constraints with
    | nil => simp
    | cons e constraints ih =>
      intro key
      rw [List.foldl_cons, ih, mem_keyInsert, List.mem_cons]
      tauto
  rw [keyOf, hfold]
  simp

/-- What the key of a query stands for. -/
structure KeyFor (query : Query) (key : List Expr) : Prop where
  isBool : ∀ c ∈ key, c.HasWidth 1
  holds_iff : ∀ a, (∀ c ∈ key, c.Holds a) ↔ Satisfies a query.constraints ∧ query.expr.Fails a
  decided : ∀ a, (∀ c ∈ key, c.Holds a) ∨ ∃ c ∈ key, c.Fails a
  objects : ∀ c, c ∈ query.constraints ∨ c = createIsZero query.expr → ∀ array ∈ c.symbolicObjects,
    array ∈ findSymbolicObjects key

omit [LinearOrder Expr] in
/-- Where the constraints hold, the negated expression holds exactly where the expression fails. -/
theorem holds_and_neg_iff (h : query.Clear) (hw : query.expr.HasWidth 1) (a : Assignment) :
    (Satisfies a query.constraints ∧ (createIsZero query.expr).Holds a) ↔
      Satisfies a query.constraints ∧ query.expr.Fails a :=
  and_congr_right fun ha => Query.createIsZero_holds_iff hw (h.defines a ha)

/-- The key of a query: the constraints, with the negated expression unless that is the constant true. -/
theorem queryKey_some (h : query.Clear) (hw : query.expr.HasWidth 1) (hkey : queryKey query = some key) :
    KeyFor query key := by
  have hneg := (createIsZero_computes hw).hasWidth
  have hiff := holds_and_neg_iff h hw
  have hdecided : ∀ a, (Satisfies a query.constraints ∧ (createIsZero query.expr).Holds a) ∨
      FailsSome a query.constraints ∨ (createIsZero query.expr).Fails a := by
    intro a
    obtain ha | ha := h.decided a
    · obtain hh | hf := holds_or_fails (h.defines a ha)
      · exact .inr (.inr (Query.createIsZero_fails hw hh))
      · exact .inl ⟨ha, Query.createIsZero_holds hw hf⟩
    · exact .inr (.inl ha)
  unfold queryKey at hkey
  split at hkey
  · rename_i w v hv
    split at hkey
    · cases hkey
    · rename_i hv0
      obtain rfl := Option.some.inj hkey
      rw [hv] at hneg hiff hdecided
      obtain rfl := hneg.const_width
      have hone : ∀ v : BitVec 1, ¬ v.toNat = 0 → v = 1#1 := by decide
      obtain rfl := hone v hv0
      have htrue : ∀ a, (Expr.const 1#1).Holds a := fun a => denotes_const 1#1
      have hall : ∀ a, (∀ c ∈ keyOf query.constraints, c.Holds a) ↔ Satisfies a query.constraints :=
        fun a => forall_congr' fun c => by rw [mem_keyOf]
      refine ⟨fun c hc => h.isBool c (mem_keyOf.1 hc), fun a => ?_, fun a => ?_, fun c hc array harray => ?_⟩
      · rw [hall, ← hiff, and_iff_left (htrue a)]
      · rw [hall]
        refine (h.decided a).imp_right fun hf => ?_
        obtain ⟨c, hc, hfails⟩ := hf
        exact ⟨c, mem_keyOf.2 hc, hfails⟩
      · obtain hc | rfl := hc
        · exact mem_findSymbolicObjects.2 ⟨c, mem_keyOf.2 hc, harray⟩
        · rw [hv] at harray
          exact absurd harray List.not_mem_nil
  · obtain rfl := Option.some.inj hkey
    have hmem : ∀ c, c ∈ keyInsert (createIsZero query.expr) (keyOf query.constraints) ↔
        c = createIsZero query.expr ∨ c ∈ query.constraints := fun c => by rw [mem_keyInsert, mem_keyOf]
    have hall : ∀ a, (∀ c ∈ keyInsert (createIsZero query.expr) (keyOf query.constraints), c.Holds a) ↔
        Satisfies a query.constraints ∧ (createIsZero query.expr).Holds a := by
      intro a
      constructor
      · intro hc
        exact ⟨fun c hmem' => hc c ((hmem c).2 (.inr hmem')), hc _ ((hmem _).2 (.inl rfl))⟩
      · intro hc c hmem'
        obtain rfl | hmem' := (hmem c).1 hmem'
        · exact hc.2
        · exact hc.1 c hmem'
    refine ⟨fun c hc => ?_, fun a => (hall a).trans (hiff a), fun a => ?_, fun c hc array harray => ?_⟩
    · obtain rfl | hc := (hmem c).1 hc
      · exact hneg
      · exact h.isBool c hc
    · rw [hall]
      refine (hdecided a).imp_right fun hf => ?_
      obtain ⟨c, hc, hfails⟩ | hfails := hf
      · exact ⟨c, (hmem c).2 (.inr hc), hfails⟩
      · exact ⟨_, (hmem _).2 (.inl rfl), hfails⟩
    · exact mem_findSymbolicObjects.2 ⟨c, (hmem c).2 hc.symm, harray⟩

/-- Without a key the expression cannot fail. -/
theorem queryKey_none (hw : query.expr.HasWidth 1) (hkey : queryKey query = none) :
    ¬ query.MayFail := by
  intro hfail
  obtain ⟨a, ha, hf⟩ := hfail
  have hneg := Query.createIsZero_holds hw hf
  unfold queryKey at hkey
  split at hkey
  · rename_i w v hv
    split at hkey
    · rename_i hv0
      have hwidth := (createIsZero_computes hw).hasWidth
      rw [hv] at hneg hwidth
      obtain rfl := hwidth.const_width
      rw [hneg.const_eq] at hv0
      exact absurd hv0 (by decide)
    · cases hkey
  · cases hkey

omit [LinearOrder Expr] in
/-- An assignment on which the evaluator says yes to all of the key satisfies it. -/
theorem KeyFor.holds_of_satisfies (h : KeyFor query key) {b : Bindings} (hb : b.satisfies key = true) :
    ∀ c ∈ key, c.Holds b.toAssignment := by
  refine (h.decided b.toAssignment).resolve_right fun hf => ?_
  obtain ⟨c, hc, hfails⟩ := hf
  rw [Bindings.satisfies, List.all_eq_true] at hb
  exact Bindings.not_fails_of_isTrue (h.isBool c hc) (hb c hc) hfails

variable {env : Env} {s : CexCachingSolver}

/-- **Inference.**  What `searchForAssignment` finds, in the cache itself or at a subset or a superset or in the table,
is right for the key. -/
theorem searchForAssignment_right (hs : s.Right) (hkey : KeyFor query key) {result : Option Bindings}
    (h : searchForAssignment env s key = some result) : KeyRight key result := by
  have hsub : ∀ {path : List Expr}, path.Sublist key → KeyRight path none → KeyRight key none := by
    intro path hpath hnone hex
    obtain ⟨a, ha⟩ := hex
    exact hnone ⟨a, fun c hc => ha c (hpath.subset hc)⟩
  unfold searchForAssignment at h
  cases hlook : s.cache.lookup key with
  | some found =>
    rw [hlook] at h
    obtain rfl := Option.some.inj h
    exact hs _ _ (stores_of_lookup key hlook)
  | none =>
    rw [hlook] at h
    simp only at h
    cases hsuper : (if env.options.superSet then s.cache.findSuperset Option.isSome key else none) with
    | some found =>
      rw [hsuper] at h
      obtain rfl := Option.some.inj h
      split at hsuper
      · obtain ⟨path, hstores, hsome, hpath⟩ := stores_of_findSuperset s.cache hsuper
        obtain ⟨b, rfl⟩ := Option.isSome_iff_exists.1 hsome
        exact fun c hc => hs _ _ hstores c (hpath c hc)
      · cases hsuper
    | none =>
      rw [hsuper] at h
      simp only at h
      split at h
      · cases hfound : s.cache.findSubset Option.isNone key with
        | some found =>
          rw [hfound] at h
          obtain rfl := Option.some.inj h
          obtain ⟨path, hstores, hnone, hpath⟩ := stores_of_findSubset s.cache hfound
          obtain rfl := Option.isNone_iff_eq_none.1 hnone
          exact hsub hpath (hs _ _ hstores)
        | none =>
          rw [hfound] at h
          obtain ⟨b, hb, rfl⟩ := Option.map_eq_some_iff.1 h
          have hyes : b.satisfies key = true := List.find?_some (p := fun a : Bindings => a.satisfies key) hb
          exact hkey.holds_of_satisfies hyes
      · obtain ⟨path, hstores, hp, hpath⟩ := stores_of_findSubset s.cache h
        cases result with
        | none => exact hsub hpath (hs _ _ hstores)
        | some b => exact hkey.holds_of_satisfies hp

omit [LinearOrder Expr] in
theorem KeyFor.assignmentRight (h : KeyFor query key) {result : Option Bindings} :
    KeyRight key result ↔ query.AssignmentRight result := by
  cases result with
  | none => exact not_congr (exists_congr fun a => h.holds_iff a)
  | some b => exact h.holds_iff b.toAssignment

theorem lookupAssignment_right (hs : s.Right) (h : query.Clear) (hw : query.expr.HasWidth 1)
    {result : Option Bindings} (hlook : lookupAssignment env s query = some result) :
    query.AssignmentRight result := by
  unfold lookupAssignment at hlook
  cases hkey : queryKey query with
  | none =>
    rw [hkey] at hlook
    obtain rfl := Option.some.inj hlook
    exact queryKey_none hw hkey
  | some key =>
    rw [hkey] at hlook
    have hfor := queryKey_some h hw hkey
    exact hfor.assignmentRight.1 (searchForAssignment_right hs hfor hlook)

/-! ### The calls -/

omit [ExprOptions] in
/-- Storing a right result keeps all entries right. -/
theorem Right.insert (hs : s.Right) {result : Option Bindings} (h : KeyRight key result) (table : List Bindings)
    (clock : ℕ) : Right ⟨s.cache.insert result key, table, clock⟩ := by
  intro path r hstores
  obtain hold | ⟨rfl, rfl⟩ := stores_insert key hstores
  · exact hs path r hold
  · exact h

/-- `getAssignment` keeps all entries right, and what it returns is right. -/
theorem getAssignment_spec (hsolver : env.solver.Correct) (h : query.Clear) (hw : query.expr.HasWidth 1)
    (hs : s.Right) :
    Prog.wp (getAssignment env query)
      (fun r t => t.Right ∧ ∀ result, r = some result → query.AssignmentRight result) Right s := by
  unfold getAssignment
  rw [Prog.wp_bind, Prog.wp_get]
  cases hlook : lookupAssignment env s query with
  | some result =>
    rw [Prog.wp_pure]
    exact ⟨hs, fun r hr => Option.some.inj hr ▸ lookupAssignment_right hs h hw hlook⟩
  | none =>
    simp only
    rw [Prog.wp_bind, Prog.wp_unwrap]
    refine ⟨fun key hkey => ?_, fun _ => hs⟩
    have hfor := queryKey_some h hw hkey
    rw [Prog.wp_bind, callSolver, Prog.wp_bind, Prog.wp_get, Prog.wp_bind, Prog.wp_modify, Prog.wp_pure]
    cases hsol : env.solver s.clock query (findSymbolicObjects key) with
    | none => exact ⟨hs, fun r hr => nomatch hr⟩
    | some values =>
      have hright := hsolver s.clock query _ values h hw hfor.objects hsol
      have hkeyRight := hfor.assignmentRight.2 hright
      simp only
      rw [Prog.wp_bind]
      unfold memoize
      cases values with
      | none =>
        exact ⟨hs.insert hkeyRight _ _, fun r hr => Option.some.inj hr ▸ hright⟩
      | some values =>
        simp only [Option.map_some, Prog.wp_bind, Prog.wp_modify, Prog.wp_assert, Prog.wp_pure]
        refine ⟨fun _ => ⟨hs.insert hkeyRight _ _, fun r hr => Option.some.inj hr ▸ hright⟩, fun _ => hs⟩

/-- The result of a call on a cache whose entries are right. -/
theorem computeTruth_spec (hsolver : env.solver.Correct) (h : query.Clear) (hw : query.expr.HasWidth 1)
    (hs : s.Right) :
    Prog.wp (computeTruth env query) (fun r t => t.Right ∧ ∀ b, r = some b → query.TruthRight b) Right s := by
  unfold computeTruth
  rw [Prog.wp_bind, Prog.wp_get, Prog.wp_ite]
  refine ⟨fun _ => ⟨hs, fun b hb => nomatch hb⟩, fun _ => ?_⟩
  refine (getAssignment_spec hsolver h hw hs).bind fun r t ht => ?_
  obtain ⟨ht, hright⟩ := ht
  cases r with
  | none => exact ⟨ht, fun b hb => nomatch hb⟩
  | some result =>
    refine ⟨ht, fun b hb => ?_⟩
    obtain rfl := Option.some.inj hb
    have hright := hright result rfl
    rw [Query.TruthRight, Query.entails_iff_of_defines h.defines]
    cases result with
    | none => exact iff_of_true rfl hright
    | some b => exact iff_of_false Bool.false_ne_true (not_not.2 ⟨b.toAssignment, hright⟩)

theorem computeValidity_spec (hsolver : env.solver.Correct) (h : query.Clear) (hw : query.expr.HasWidth 1)
    (hplain : query.expr.Plain) (hs : s.Right) :
    Prog.wp (computeValidity env query)
      (fun r t => t.Right ∧ ∀ result, r = some result → ∃ v, result = some v ∧ query.ValidityRight v) Right s := by
  unfold computeValidity
  refine (getAssignment_spec hsolver h.withFalse (hasWidth_ofBool false) hs).bind fun r t ht => ?_
  obtain ⟨ht, hright⟩ := ht
  cases r with
  | none => exact ⟨ht, fun b hb => nomatch hb⟩
  | some result =>
    cases result with
    | none => exact ht
    | some a =>
      have ha : Satisfies a.toAssignment query.constraints := (hright _ rfl).1
      obtain ⟨v, heval, hv⟩ := Bindings.evaluate_eq hw hplain (h.defines _ ha)
      simp only
      rw [heval]
      simp only
      by_cases htrue : (Expr.const v).isTrue = true
      · rw [if_pos htrue]
        have hone : ∀ v : BitVec 1, (Expr.const v).isTrue = true → v = 1#1 := by decide
        obtain rfl := hone v htrue
        have hhold : query.MayHold := ⟨a.toAssignment, ha, hv⟩
        refine (getAssignment_spec hsolver h hw ht).bind fun r u hu => ?_
        obtain ⟨hu, hright⟩ := hu
        cases r with
        | none => exact ⟨hu, fun b hb => nomatch hb⟩
        | some result =>
          cases result with
          | none => exact ⟨hu, fun r hr => ⟨.True, (Option.some.inj hr).symm, hright _ rfl⟩⟩
          | some b =>
            exact ⟨hu, fun r hr => ⟨.Unknown, (Option.some.inj hr).symm, hhold, b.toAssignment, hright _ rfl⟩⟩
      · rw [if_neg htrue]
        have hzero : ∀ v : BitVec 1, ¬ (Expr.const v).isTrue = true → v = 0#1 := by decide
        obtain rfl := hzero v htrue
        have hfail : query.MayFail := ⟨a.toAssignment, ha, hv⟩
        have hnegWidth := (createIsZero_computes hw).hasWidth
        refine (getAssignment_spec hsolver (h.negateExpr hw) hnegWidth ht).bind fun r u hu => ?_
        obtain ⟨hu, hright⟩ := hu
        cases r with
        | none => exact ⟨hu, fun b hb => nomatch hb⟩
        | some result =>
          cases result with
          | none =>
            refine ⟨hu, fun r hr => ⟨.False, (Option.some.inj hr).symm, fun hhold => ?_⟩⟩
            obtain ⟨c, hc, hh⟩ := hhold
            exact hright _ rfl ⟨c, hc, (Query.fails_negateExpr h hw hc).2 hh⟩
          | some b =>
            obtain ⟨hb, hneg⟩ := hright _ rfl
            exact ⟨hu, fun r hr => ⟨.Unknown, (Option.some.inj hr).symm,
              ⟨b.toAssignment, hb, (Query.fails_negateExpr h hw hb).1 hneg⟩, hfail⟩⟩

/-- The expression returned by `computeValue` is a constant, the value of the query's expression under an assignment that
satisfies the constraints. -/
def ValueRight (query : Query) (result : Expr) : Prop :=
  ∃ v : BitVec query.expr.getWidth, result = .const v ∧
    ∃ a, Satisfies a query.constraints ∧ query.expr.Denotes a v

theorem computeValue_spec (hsolver : env.solver.Correct) (h : query.Clear) (hplain : query.expr.Plain) (hs : s.Right) :
    Prog.wp (computeValue env query) (fun r t => t.Right ∧ ∀ result, r = some result → ValueRight query result)
      Right s := by
  unfold computeValue
  refine (getAssignment_spec hsolver h.withFalse (hasWidth_ofBool false) hs).bind fun r t ht => ?_
  obtain ⟨ht, hright⟩ := ht
  cases r with
  | none => exact ⟨ht, fun b hb => nomatch hb⟩
  | some result =>
    cases result with
    | none => exact ht
    | some a =>
      have ha : Satisfies a.toAssignment query.constraints := (hright _ rfl).1
      obtain ⟨v, heval, hv⟩ := Bindings.evaluate_eq ⟨h.wf, rfl⟩ hplain (h.defines _ ha)
      simp only [Prog.wp_bind, Prog.wp_assert, Prog.wp_pure]
      refine ⟨fun _ => ⟨ht, fun result hr => ?_⟩, fun _ => ht⟩
      obtain rfl := Option.some.inj hr
      exact ⟨v, heval, a.toAssignment, ha, hv⟩

/-- The values of `computeInitialValues` are those of an assignment that satisfies the constraints and under which
the expression fails; without a solution there is none. -/
def InitialValuesRight (query : Query) (objects : List Array) : Option (List (List (BitVec 8))) → Prop
  | none => ¬ query.MayFail
  | some values => values.length = objects.length ∧
      ∃ a, Satisfies a query.constraints ∧ query.expr.Fails a ∧
        ∀ p ∈ objects.zip values, ∀ j, j < p.2.length → a p.1 j = p.2.getD j 0

theorem computeInitialValues_spec (hsolver : env.solver.Correct) (h : query.Clear) (hw : query.expr.HasWidth 1)
    (objects : List Array) (hs : s.Right) :
    Prog.wp (computeInitialValues env query objects)
      (fun r t => t.Right ∧ ∀ result, r = some result → InitialValuesRight query objects result) Right s := by
  unfold computeInitialValues
  refine (getAssignment_spec hsolver h hw hs).bind fun r t ht => ?_
  obtain ⟨ht, hright⟩ := ht
  cases r with
  | none => exact ⟨ht, fun b hb => nomatch hb⟩
  | some result =>
    cases result with
    | none => exact ⟨ht, fun result hr => Option.some.inj hr ▸ hright _ rfl⟩
    | some b =>
      obtain ⟨hb, hf⟩ := hright _ rfl
      refine ⟨ht, fun result hr => ?_⟩
      obtain rfl := Option.some.inj hr
      refine ⟨List.length_map _, b.toAssignment, hb, hf, fun p hp j hj => ?_⟩
      have hzip : (objects.zip (objects.map fun os => (b.find os).getD (List.replicate os.size 0))) =
          objects.map fun os => (os, (b.find os).getD (List.replicate os.size 0)) := by
        rw [← List.zip_map', List.map_id'']
        exact fun os => rfl
      rw [hzip, List.mem_map] at hp
      obtain ⟨os, -, rfl⟩ := hp
      exact b.byte_eq_getD os j

/-! ### Every history -/

/-- A call of the cache. -/
inductive Ask where
  | truth (query : Query)
  | validity (query : Query)
  | value (query : Query)
  | initialValues (query : Query) (objects : List Array)

/-- The calls on which the cache can be relied: the query is clear, and an expression that is evaluated has no
`NotOptimizedExpr` around a constant. -/
def Ask.Clear : Ask → Prop
  | .truth query => query.Clear ∧ query.expr.HasWidth 1
  | .validity query => query.Clear ∧ query.expr.HasWidth 1 ∧ query.expr.Plain
  | .value query => query.Clear ∧ query.expr.Plain
  | .initialValues query _ => query.Clear ∧ query.expr.HasWidth 1

/-- The cache after a call, or nothing when an assertion fails. -/
def step (env : Env) (s : CexCachingSolver) : Ask → Option CexCachingSolver
  | .truth query => (computeTruth env query).next s
  | .validity query => (computeValidity env query).next s
  | .value query => (computeValue env query).next s
  | .initialValues query objects => (computeInitialValues env query objects).next s

omit [ExprOptions] [LinearOrder Expr] in
theorem right_empty : Right empty := fun _ _ h => absurd h not_stores_empty

theorem step_right (hsolver : env.solver.Correct) {t : CexCachingSolver} {ask : Ask} (hs : s.Right)
    (hask : ask.Clear) (hstep : step env s ask = some t) : t.Right := by
  cases ask with
  | truth query =>
    obtain ⟨r, ht, -⟩ := (computeTruth_spec hsolver hask.1 hask.2 hs).of_next hstep
    exact ht
  | validity query =>
    obtain ⟨r, ht, -⟩ := (computeValidity_spec hsolver hask.1 hask.2.1 hask.2.2 hs).of_next hstep
    exact ht
  | value query =>
    obtain ⟨r, ht, -⟩ := (computeValue_spec hsolver hask.1 hask.2 hs).of_next hstep
    exact ht
  | initialValues query objects =>
    obtain ⟨r, ht, -⟩ := (computeInitialValues_spec hsolver hask.1 hask.2 objects hs).of_next hstep
    exact ht

/-- **The counterexample cache is correct on clear queries.**  After every history of clear calls, over an underlying
solver that answers correctly, a clear call that returns true has set its result, and to a right answer. -/
theorem cexCache_correct (hsolver : env.solver.Correct)
    (hrun : Run (step env) (fun _ ask => ask.Clear) empty s) :
    (∀ query b t, Ask.Clear (.truth query) → computeTruth env query s = (some (some b), t) → query.TruthRight b) ∧
    (∀ query r t, Ask.Clear (.validity query) → computeValidity env query s = (some (some r), t) →
      ∃ v, r = some v ∧ query.ValidityRight v) ∧
    (∀ query e t, Ask.Clear (.value query) → computeValue env query s = (some (some e), t) → ValueRight query e) ∧
    ∀ query objects r t, Ask.Clear (.initialValues query objects) →
      computeInitialValues env query objects s = (some (some r), t) → InitialValuesRight query objects r := by
  have hs : s.Right := hrun.invariant (fun _ _ _ ht hg hstep => step_right hsolver ht hg hstep) right_empty
  refine ⟨fun query b t h hres => ?_, fun query r t h hres => ?_, fun query e t h hres => ?_,
    fun query objects r t h hres => ?_⟩
  · exact ((computeTruth_spec hsolver h.1 h.2 hs).of_eq hres).2 b rfl
  · exact ((computeValidity_spec hsolver h.1 h.2.1 h.2.2 hs).of_eq hres).2 r rfl
  · exact ((computeValue_spec hsolver h.1 h.2 hs).of_eq hres).2 e rfl
  · exact ((computeInitialValues_spec hsolver h.1 h.2 objects hs).of_eq hres).2 r rfl

end CexCachingSolver

/-! ### A division by zero -/

namespace CexCachingSolver

local instance : ExprOptions := .defaults

noncomputable local instance : LinearOrder Expr := CachingSolver.exprOrder

/-- `x[0]`. -/
def cexByte : Expr := .read (.root ⟨0, "x", 1, [], Array.oneByte_lt, Array.oneByte_values⟩) (.const 0#32)

/-- An underlying solver that knows one query, whose constraints and expression say nothing: every assignment is a
solution. -/
def falseSolver : InitialValues := fun _ query _ =>
  if query.constraints = [] ∧ query.expr = ofBool false then some (some []) else none

theorem falseSolver_correct : falseSolver.Correct := by
  intro n q objects answer _ _ _ hres
  unfold falseSolver at hres
  split at hres
  · rename_i h
    obtain rfl := Option.some.inj hres
    refine ⟨fun c hc => ?_, ?_⟩
    · rw [h.1] at hc
      exact absurd hc List.not_mem_nil
    · rw [h.2]
      exact denotes_ofBool false
  · cases hres

/-- The default options over this solver. -/
def falseEnv : Env := ⟨.defaults, ⟨fun table => table, Iff.rfl⟩, falseSolver⟩

/-- The key of a query for an assignment of the constraints. -/
theorem queryKey_withFalse (query : Query) : queryKey query.withFalse = some (keyOf query.constraints) := by
  unfold queryKey
  have hneg : createIsZero query.withFalse.expr = .const 1#1 := by
    show EqExpr.create (.const 0#1) (.const 0#1) = _
    rw [ExprEvaluator.EqExpr.create_isConstant]
    rfl
  rw [hneg]
  rfl

/-- `5 == 10 / x[0]`, without constraints. -/
def divQuery : Query := ⟨[], .cmp .eq (.const 5#8) (.bin .udiv (.const 10#8) cexByte)⟩

/-- The cache after the first query for an assignment of no constraints. -/
noncomputable def falseCache : CexCachingSolver := ⟨Node.empty.insert (some []) [], [[]], 1⟩

theorem getAssignment_withFalse : getAssignment falseEnv divQuery.withFalse empty = (some (some (some [])), falseCache) := by
  have hlook : lookupAssignment falseEnv empty divQuery.withFalse = none := by
    unfold lookupAssignment
    rw [queryKey_withFalse]
    rfl
  have hsol : ∀ n objects, falseEnv.solver n divQuery.withFalse objects = some (some []) := by
    intro n objects
    show falseSolver n divQuery.withFalse objects = _
    rw [falseSolver, if_pos ⟨rfl, rfl⟩]
  have hwp : Prog.wp (getAssignment falseEnv divQuery.withFalse) (fun r t => r = some (some []) ∧ t = falseCache)
      (fun _ => False) empty := by
    unfold getAssignment
    rw [Prog.wp_bind, Prog.wp_get, hlook]
    simp only
    rw [queryKey_withFalse]
    simp only [Prog.unwrap, callSolver, Prog.wp_bind, Prog.wp_get, Prog.wp_modify, Prog.wp_pure, hsol]
    exact ⟨rfl, rfl⟩
  obtain ⟨r, t, hres, rfl, rfl⟩ := hwp.exists_result
  exact hres

/-- The same query again is answered from the cache. -/
theorem getAssignment_withFalse_again :
    getAssignment falseEnv divQuery.withFalse falseCache = (some (some (some [])), falseCache) := by
  have hlook : lookupAssignment falseEnv falseCache divQuery.withFalse = some (some []) := by
    unfold lookupAssignment
    rw [queryKey_withFalse]
    rfl
  have hwp : Prog.wp (getAssignment falseEnv divQuery.withFalse) (fun r t => r = some (some []) ∧ t = falseCache)
      (fun _ => False) falseCache := by
    unfold getAssignment
    rw [Prog.wp_bind, Prog.wp_get, hlook]
    exact ⟨rfl, rfl⟩
  obtain ⟨r, t, hres, rfl, rfl⟩ := hwp.exists_result
  exact hres

/-- On a fresh cache `computeValidity` returns true, and has not set its result: the evaluator leaves the division
alone. -/
theorem computeValidity_no_result :
    falseEnv.solver.Correct ∧ ∃ t, computeValidity falseEnv divQuery empty = (some (some none), t) := by
  refine ⟨falseSolver_correct, ?_⟩
  have heval : Bindings.evaluate [] divQuery.expr = divQuery.expr := rfl
  have hwp : Prog.wp (computeValidity falseEnv divQuery) (fun r _ => r = some none) (fun _ => False) empty := by
    refine Prog.wp.step getAssignment_withFalse ?_
    simp only
    rw [heval]
    rfl
  obtain ⟨r, u, hres, rfl⟩ := hwp.exists_result
  exact ⟨u, hres⟩

theorem computeTruth_withFalse {s : CexCachingSolver}
    (h : getAssignment falseEnv divQuery.withFalse s = (some (some (some [])), falseCache)) :
    computeTruth falseEnv divQuery.withFalse s = (some (some false), falseCache) := by
  have hwp : Prog.wp (computeTruth falseEnv divQuery.withFalse) (fun r t => r = some false ∧ t = falseCache)
      (fun _ => False) s := by
    unfold computeTruth
    rw [Prog.wp_bind, Prog.wp_get, if_neg fun h => nomatch h.1]
    exact Prog.wp.step h ⟨rfl, rfl⟩
  obtain ⟨r, t, hres, rfl, rfl⟩ := hwp.exists_result
  exact hres

/-- A query that is asked twice: the second answer comes from the cache, and is right. -/
theorem cexCache_correct_twice :
    ∃ s, Run (step falseEnv) (fun _ ask => ask.Clear) empty s ∧
      computeTruth falseEnv divQuery.withFalse s = (some (some false), s) ∧ divQuery.withFalse.TruthRight false := by
  have hclear : Ask.Clear (.truth divQuery.withFalse) := by
    refine ⟨⟨fun c hc => absurd hc List.not_mem_nil, (hasWidth_ofBool false).wf, fun a => .inl ?_, fun a _ => ?_⟩,
      hasWidth_ofBool false⟩
    · exact fun c hc => absurd hc List.not_mem_nil
    · exact (denotes_ofBool false).defined
  have hrun : Run (step falseEnv) (fun _ ask => ask.Clear) empty falseCache := by
    refine .single (a := .truth divQuery.withFalse) hclear ?_
    show (computeTruth falseEnv divQuery.withFalse).next empty = _
    rw [Prog.next, computeTruth_withFalse getAssignment_withFalse]
    rfl
  have hagain := computeTruth_withFalse getAssignment_withFalse_again
  exact ⟨falseCache, hrun, hagain, (cexCache_correct falseSolver_correct hrun).1 _ _ _ hclear hagain⟩

end CexCachingSolver

end SymBisect
