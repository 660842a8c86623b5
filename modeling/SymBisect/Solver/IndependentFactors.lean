import SymBisect.Solver.IndependentSolver
import SymBisect.Solver.CexCachingSolver

/-!
# Initial values factor by factor

`getAllIndependentConstraintsSets` and `IndependentSolver::computeInitialValues` of
`lib/Solver/IndependentSolver.cpp`: the constraints and the negated expression of a query are split into factors
that share no byte, each factor is solved on its own, and the answers are put together byte by byte.

* `Factor`: what an element set keeps about its expressions.  `factorLoop_spec`: the factors have all the
  expressions, and no two have a byte in common.
* `Solved`: the invariant of the loop over the factors.  An answer for a later factor changes no byte of an earlier
  one.
* `computeInitialValues_exact`: the values satisfy the query, whichever arrays were asked for.
-/

namespace SymBisect

open Lib Expr ConstraintSet IndependentElementSet

/-! ### The factors -/

/-- The variables of the inner loop. -/
structure Round where
  current : IndependentElementSet
  keep : List IndependentElementSet
  doneLoop : Bool

/-- The body of the inner loop. -/
def Round.visit (r : Round) (compare : IndependentElementSet) : Round :=
  if r.current.intersects compare then
    let (current, modified) := r.current.add compare
    { r with current := current, doneLoop := r.doneLoop && !modified }
  else { r with keep := r.keep ++ [compare] }

/-- One pass: every factor takes up those after it that it intersects. -/
def factorPass : ℕ → List IndependentElementSet → List IndependentElementSet → Bool →
    Option (List IndependentElementSet × Bool)
  | _, [], done, doneLoop => some (done, doneLoop)
  | 0, _ :: _, _, _ => none
  | fuel + 1, current :: factors, done, doneLoop =>
    let r := factors.foldl Round.visit ⟨current, [], doneLoop⟩
    factorPass fuel r.keep (done ++ [r.current]) r.doneLoop

/-- Passes until nothing is added. -/
def factorLoop : ℕ → List IndependentElementSet → Option (List IndependentElementSet)
  | 0, _ => none
  | fuel + 1, factors =>
    match factorPass factors.length factors [] true with
    | none => none
    | some (done, doneLoop) => if doneLoop then some done else factorLoop fuel done

section
variable [ExprOptions]

/-- The expressions that are split: the negated expression, unless it is constant, and the constraints.  A constant
expression is asserted to be false. -/
def factorExprs (query : Query) : Option (List Expr) :=
  match query.expr with
  | .const v => if (Expr.const v) = ofBool false then some query.constraints else none
  | e => some (createIsZero e :: query.constraints)

/-- `getAllIndependentConstraintsSets`; a pass that is not the last one leaves fewer factors. -/
def getAllIndependentConstraintsSets (query : Query) : Option (List IndependentElementSet) := do
  let exprs ← factorExprs query
  let factors ← exprs.mapM ofExpr
  factorLoop (factors.length + 1) factors

end

/-! ### Initial values -/

/-- `calculateArrayReferences`, in the order of the addresses. -/
def calculateArrayReferences (ie : IndependentElementSet) : List Array :=
  (ie.elements.keys ++ ie.wholeObjects).dedup.mergeSort fun x y => decide (x.ptr ≤ y.ptr)

/-- `retMap[array] = bytes`. -/
def Bindings.set (retMap : Bindings) (array : Array) (bytes : List (BitVec 8)) : Bindings :=
  (array, bytes) :: retMap.filter fun x => x.1 ≠ array

/-- Put the answer for an array of a factor into the map: all of it, or only the bytes of the factor when the array
has answers. -/
def placeValue (it : IndependentElementSet) (retMap : Bindings) (answer : Array × List (BitVec 8)) :
    Option Bindings :=
  match retMap.find answer.1 with
  | some old =>
    let ds := (it.elements.lookup answer.1).getD ∅
    -- we're talking about the same array here, and about bytes of it
    if old.length = answer.2.length ∧ ∀ index ∈ ds, index < answer.2.length then
      some (retMap.set answer.1
        ((ds.sort (· ≤ ·)).foldl (fun bytes index => bytes.set index (answer.2.getD index 0)) old))
    else none
  | none => some (retMap.set answer.1 answer.2)

/-- The loop body over the factors: nothing when the solver fails, and else the map, or that the factor has no
solution.  The state is the time. -/
def solveFactor (solver : InitialValues) (it : IndependentElementSet) (retMap : Bindings) :
    Prog ℕ (Option (Option Bindings)) := do
  -- no null/empty factors
  Prog.assert (it.exprs ≠ [])
  let arraysInFactor := calculateArrayReferences it
  if arraysInFactor = [] then pure (some (some retMap))
  else do
    let n ← Prog.get
    Prog.modify (· + 1)
    match solver n ⟨it.exprs, ofBool false⟩ arraysInFactor with
    | none => pure none
    | some none => pure (some none)
    | some (some tempValues) => do
      Prog.assert (tempValues.length = arraysInFactor.length)
      let retMap ← Prog.unwrap ((arraysInFactor.zip tempValues).foldlM (placeValue it) retMap)
      pure (some (some retMap))

def solveFactors (solver : InitialValues) : List IndependentElementSet → Bindings →
    Prog ℕ (Option (Option Bindings))
  | [], retMap => pure (some (some retMap))
  | it :: factors, retMap => do
    match ← solveFactor solver it retMap with
    | some (some retMap) => solveFactors solver factors retMap
    | other => pure other

namespace IndependentSolver

/-- `computeInitialValues`: nothing when it returns false, and else the values and the map they come from, if there is
a solution.  What the assertion at its end checks is `computeInitialValues_exact`. -/
def computeInitialValues [ExprOptions] (solver : InitialValues) (query : Query) (objects : List Array) :
    Prog ℕ (Option (Option (List (List (BitVec 8)) × Bindings))) := do
  let factors ← Prog.unwrap (getAllIndependentConstraintsSets query)
  match ← solveFactors solver factors [] with
  | some (some retMap) =>
    pure (some (some (objects.map fun arr => (retMap.find arr).getD (List.replicate arr.size 0), retMap)))
  | some none => pure (some none)
  | none => pure none

/-- The assignment of `assertCreatedPointEvaluatesToTrue`. -/
def createdPoint (objects : List Array) (values : List (List (BitVec 8))) (retMap : Bindings) : Bindings :=
  objects.zip values ++ retMap

end IndependentSolver

/-! ### What an element set keeps about its expressions -/

namespace IndependentElementSet

/-- No array has an empty set of bytes. -/
def Proper (ies : IndependentElementSet) : Prop :=
  ∀ array dis, ies.elements.lookup array = some dis → dis.Nonempty

variable {s b : IndependentElementSet}

theorem proper_insert {exprs : List Expr} {wholeObjects : List Array} (h : s.Proper) (root : Array) {dis : Finset ℕ}
    (hdis : dis.Nonempty) : Proper ⟨s.elements.insert root dis, wholeObjects, exprs⟩ := by
  intro array dis' hlook
  by_cases heq : array = root
  · subst heq
    rw [AList.lookup_insert] at hlook
    exact Option.some.inj hlook ▸ hdis
  · rw [AList.lookup_insert_ne heq] at hlook
    exact h array dis' hlook

theorem proper_erase {exprs : List Expr} {wholeObjects : List Array} (h : s.Proper) (root : Array) :
    Proper ⟨s.elements.erase root, wholeObjects, exprs⟩ := by
  intro array dis' hlook
  by_cases heq : array = root
  · subst heq
    rw [AList.lookup_erase] at hlook
    cases hlook
  · rw [AList.lookup_erase_ne heq] at hlook
    exact h array dis' hlook

theorem addRead_keeps (h : s.Proper) (re : UpdateList × Expr) :
    (addRead s re).Proper ∧ (addRead s re).exprs = s.exprs := by
  unfold addRead
  dsimp only
  split
  · exact ⟨h, rfl⟩
  · split
    · exact ⟨h, rfl⟩
    · split
      · exact ⟨proper_insert h _ (Finset.insert_nonempty _ _), rfl⟩
      · exact ⟨proper_erase h _, rfl⟩

/-- The element set of an expression. -/
theorem ofExpr_keeps {e : Expr} {ies : IndependentElementSet} (h : ofExpr e = some ies) :
    ies.Proper ∧ ies.exprs = [e] := by
  have hfold : ∀ (reads : List (UpdateList × Expr)) (s : IndependentElementSet), s.Proper →
      (reads.foldl addRead s).Proper ∧ (reads.foldl addRead s).exprs = s.exprs := by
    intro reads
    induction reads with
    | nil => exact fun s hs => ⟨hs, rfl⟩
    | cons re reads ih =>
      intro s hs
      obtain ⟨hproper, hexprs⟩ := addRead_keeps hs re
      obtain ⟨hproper', hexprs'⟩ := ih _ hproper
      exact ⟨hproper', hexprs'.trans hexprs⟩
  unfold ofExpr at h
  obtain ⟨reads, -, rfl⟩ := Option.map_eq_some_iff.1 h
  exact hfold reads ⟨∅, [], [e]⟩ fun array dis hlook => by cases hlook

theorem addWhole_keeps (x : IndependentElementSet × Bool) (h : x.1.Proper) (array : Array) :
    (addWhole x array).1.Proper ∧ (addWhole x array).1.exprs = x.1.exprs := by
  unfold addWhole
  split
  · exact ⟨proper_erase h _, rfl⟩
  · split
    · exact ⟨h, rfl⟩
    · exact ⟨h, rfl⟩

theorem addElements_keeps (x : IndependentElementSet × Bool) (h : x.1.Proper) (entry : (_ : Array) × Finset ℕ)
    (hentry : entry.2.Nonempty) :
    (addElements x entry).1.Proper ∧ (addElements x entry).1.exprs = x.1.exprs := by
  unfold addElements
  split
  · exact ⟨h, rfl⟩
  · split
    · exact ⟨proper_insert h _ hentry, rfl⟩
    · exact ⟨proper_insert h _ (hentry.mono Finset.subset_union_right), rfl⟩

/-- The union keeps the expressions of both. -/
theorem add_keeps (hs : s.Proper) (hb : b.Proper) : (add s b).1.Proper ∧ (add s b).1.exprs = s.exprs ++ b.exprs := by
  have hwhole : ∀ (l : List Array) (x : IndependentElementSet × Bool), x.1.Proper →
      (l.foldl addWhole x).1.Proper ∧ (l.foldl addWhole x).1.exprs = x.1.exprs := by
    intro l
    induction l with
    | nil => exact fun x hx => ⟨hx, rfl⟩
    | cons array l ih =>
      intro x hx
      obtain ⟨hproper, hexprs⟩ := addWhole_keeps x hx array
      obtain ⟨hproper', hexprs'⟩ := ih _ hproper
      exact ⟨hproper', hexprs'.trans hexprs⟩
  have helems : ∀ (l : List ((_ : Array) × Finset ℕ)) (x : IndependentElementSet × Bool), x.1.Proper →
      (∀ entry ∈ l, entry.2.Nonempty) →
      (l.foldl addElements x).1.Proper ∧ (l.foldl addElements x).1.exprs = x.1.exprs := by
    intro l
    induction l with
    | nil => exact fun x hx _ => ⟨hx, rfl⟩
    | cons entry l ih =>
      intro x hx hl
      obtain ⟨hproper, hexprs⟩ := addElements_keeps x hx entry (hl entry List.mem_cons_self)
      obtain ⟨hproper', hexprs'⟩ := ih _ hproper fun e he => hl e (List.mem_cons_of_mem _ he)
      exact ⟨hproper', hexprs'.trans hexprs⟩
  obtain ⟨hproper, hexprs⟩ := hwhole b.wholeObjects ({ s with exprs := s.exprs ++ b.exprs }, false) hs
  obtain ⟨hproper', hexprs'⟩ := helems b.elements.entries _ hproper fun entry hentry =>
    hb entry.1 entry.2 (AList.mem_lookup_iff.2 hentry)
  exact ⟨hproper', hexprs'.trans hexprs⟩

/-- The element set of some expressions: it has all bytes that they may read. -/
structure Factor (f : IndependentElementSet) : Prop where
  nonempty : f.exprs ≠ []
  touches : ∀ e ∈ f.exprs, ∀ array i, e.Touches array i → f.Has array i
  proper : f.Proper

/-- No byte in common. -/
def Separate (f g : IndependentElementSet) : Prop := ∀ array i, ¬(f.Has array i ∧ g.Has array i)

theorem Factor.add (hs : s.Factor) (hb : b.Factor) : (add s b).1.Factor := by
  obtain ⟨hproper, hexprs⟩ := add_keeps hs.proper hb.proper
  refine ⟨?_, fun e he array i ht => ?_, hproper⟩
  · rw [hexprs]
    exact List.append_ne_nil_of_left_ne_nil hs.nonempty _
  · rw [hexprs] at he
    obtain he | he := List.mem_append.1 he
    · exact (adds_add s b).has.2 (.inl (hs.touches e he array i ht))
    · exact (adds_add s b).has.2 (.inr (hb.touches e he array i ht))

end IndependentElementSet

/-! ### Passes -/

/-- The expressions of some factors. -/
def exprsOf (factors : List IndependentElementSet) : List Expr := factors.flatMap (·.exprs)

theorem mem_exprsOf {factors : List IndependentElementSet} {e : Expr} :
    e ∈ exprsOf factors ↔ ∃ f ∈ factors, e ∈ f.exprs := List.mem_flatMap

/-- What the inner loop does to its variables. -/
structure Takes (r : Round) (rest : List IndependentElementSet) (r' : Round) : Prop where
  current : r'.current.Factor
  subset : ∀ k ∈ r'.keep, k ∈ r.keep ∨ k ∈ rest
  exprs : ∀ e, e ∈ exprsOf (r'.current :: r'.keep) ↔ e ∈ exprsOf (r.current :: (r.keep ++ rest))
  length_le : r'.keep.length ≤ r.keep.length + rest.length
  /-- A change takes up a factor. -/
  changed : r.doneLoop = true → r'.doneLoop = false → r'.keep.length < r.keep.length + rest.length
  unchanged : r'.doneLoop = true → r.doneLoop = true ∧ ∀ array i, r'.current.Has array i ↔ r.current.Has array i
  separate : r'.doneLoop = true → (∀ k ∈ r.keep, Separate r.current k) → ∀ k ∈ r'.keep, Separate r'.current k

theorem takes_visit {r : Round} {compare : IndependentElementSet} (hr : r.current.Factor) (hc : compare.Factor) :
    Takes r [compare] (r.visit compare) := by
  unfold Round.visit
  by_cases hint : r.current.intersects compare = true
  · rw [if_pos hint]
    have hadds := adds_add r.current compare
    have hflag : (r.doneLoop && !(add r.current compare).2) = true → r.doneLoop = true ∧
        ∀ array i, Has (add r.current compare).1 array i ↔ r.current.Has array i := by
      intro h
      rw [Bool.and_eq_true, Bool.not_eq_true'] at h
      refine ⟨h.1, fun array i => ?_⟩
      rw [hadds.has]
      exact or_iff_left_of_imp ((hadds.flag h.2).2 array i)
    refine ⟨hr.add hc, fun k hk => .inl hk, fun e => ?_, Nat.le_add_right _ _, fun _ _ => Nat.lt_succ_self _, hflag,
      fun h hsep k hk array i hboth => ?_⟩
    · simp only [exprsOf, List.flatMap_cons, List.flatMap_append, List.flatMap_nil, List.append_nil, List.mem_append,
        (add_keeps hr.proper hc.proper).2]
      rw [or_assoc, or_comm (a := e ∈ compare.exprs)]
    · exact hsep k hk array i ⟨((hflag h).2 array i).1 hboth.1, hboth.2⟩
  · rw [if_neg hint]
    rw [Bool.not_eq_true] at hint
    refine ⟨hr, fun k hk => ?_, fun e => Iff.rfl, ?_, fun h h' => ?_, fun h => ⟨h, fun _ _ => Iff.rfl⟩,
      fun _ hsep k hk => ?_⟩
    · exact List.mem_append.1 hk
    · rw [List.length_append]
    · exact absurd (h.symm.trans h') nofun
    · obtain hk | hk := List.mem_append.1 hk
      · exact hsep k hk
      · rw [List.mem_singleton.1 hk]
        exact fun array i => disjoint_of_not_intersects hint

theorem takes_foldl (rest : List IndependentElementSet) (hrest : ∀ f ∈ rest, f.Factor) :
    ∀ {r : Round}, r.current.Factor → Takes r rest (rest.foldl Round.visit r) := by
  induction rest with
  | nil =>
    intro r hr
    refine ⟨hr, fun k hk => .inl hk, fun e => by rw [List.append_nil]; exact Iff.rfl, le_rfl, fun h h' => ?_,
      fun h => ⟨h, fun _ _ => Iff.rfl⟩, fun _ hsep => hsep⟩
    exact absurd (h.symm.trans h') nofun
  | cons f rest ih =>
    intro r hr
    have hhead := takes_visit hr (hrest f List.mem_cons_self)
    have htail := ih (fun g hg => hrest g (List.mem_cons_of_mem _ hg)) hhead.current
    have hlen := hhead.length_le
    have hlen' := htail.length_le
    rw [List.length_singleton] at hlen
    refine ⟨htail.current, fun k hk => ?_, fun e => ?_, ?_, fun h h' => ?_, fun h => ?_, fun h hsep => ?_⟩
    · obtain hk | hk := htail.subset k hk
      · exact (hhead.subset k hk).imp_right fun hk => List.mem_cons.2 (.inl (List.mem_singleton.1 hk))
      · exact .inr (List.mem_cons_of_mem _ hk)
    · have hsplit : ∀ (c : IndependentElementSet) (keep : List IndependentElementSet),
          e ∈ exprsOf (c :: (keep ++ rest)) ↔ e ∈ exprsOf (c :: keep) ∨ e ∈ exprsOf rest := by
        intro c keep
        simp [exprsOf, or_assoc]
      rw [List.foldl_cons, htail.exprs e, hsplit, hhead.exprs e]
      simp [exprsOf, or_assoc]
    · rw [List.length_cons, List.foldl_cons]
      omega
    · rw [List.length_cons, List.foldl_cons]
      cases hmid : (r.visit f).doneLoop with
      | false =>
        have hlt := hhead.changed h hmid
        rw [List.length_singleton] at hlt
        omega
      | true =>
        have hlt := htail.changed hmid h'
        omega
    · obtain ⟨hmid, hsame⟩ := htail.unchanged h
      obtain ⟨hfirst, hsame'⟩ := hhead.unchanged hmid
      exact ⟨hfirst, fun array i => (hsame array i).trans (hsame' array i)⟩
    · exact htail.separate h (hhead.separate (htail.unchanged h).1 hsep)

/-- A pass ends; if nothing was added then no two of its factors have a byte in common, and else it leaves fewer. -/
theorem factorPass_spec (fuel : ℕ) : ∀ {factors done : List IndependentElementSet} {doneLoop : Bool},
    factors.length ≤ fuel → (∀ f ∈ factors, f.Factor) → (∀ f ∈ done, f.Factor) →
    (doneLoop = true → done.Pairwise Separate ∧ ∀ d ∈ done, ∀ f ∈ factors, Separate d f) →
    ∃ done' doneLoop', factorPass fuel factors done doneLoop = some (done', doneLoop') ∧
      (∀ f ∈ done', f.Factor) ∧ (∀ e, e ∈ exprsOf done' ↔ e ∈ exprsOf (done ++ factors)) ∧
      done'.length ≤ done.length + factors.length ∧
      (doneLoop = true → doneLoop' = false → done'.length < done.length + factors.length) ∧
      (doneLoop' = true → doneLoop = true ∧ done'.Pairwise Separate) := by
  induction fuel with
  | zero =>
    intro factors done doneLoop hfuel _ hdone hsep
    obtain rfl := List.length_eq_zero_iff.1 (Nat.le_zero.1 hfuel)
    refine ⟨done, doneLoop, rfl, hdone, fun e => by rw [List.append_nil], le_rfl, fun h h' => ?_,
      fun h => ⟨h, (hsep h).1⟩⟩
    exact absurd (h.symm.trans h') nofun
  | succ fuel ih =>
    intro factors done doneLoop hfuel hfactors hdone hsep
    cases factors with
    | nil =>
      refine ⟨done, doneLoop, rfl, hdone, fun e => by rw [List.append_nil], le_rfl, fun h h' => ?_,
        fun h => ⟨h, (hsep h).1⟩⟩
      exact absurd (h.symm.trans h') nofun
    | cons current factors =>
      have htakes := takes_foldl factors (fun f hf => hfactors f (List.mem_cons_of_mem _ hf))
        (r := ⟨current, [], doneLoop⟩) (hfactors current List.mem_cons_self)
      unfold factorPass
      dsimp only
      revert htakes
      generalize factors.foldl Round.visit ⟨current, [], doneLoop⟩ = r
      intro htakes
      have hlen : r.keep.length ≤ factors.length := by simpa using htakes.length_le
      have hkeep : ∀ k ∈ r.keep, k ∈ factors := fun k hk =>
        (htakes.subset k hk).resolve_left List.not_mem_nil
      have hsep' : r.doneLoop = true → (done ++ [r.current]).Pairwise Separate ∧
          ∀ d ∈ done ++ [r.current], ∀ f ∈ r.keep, Separate d f := by
        intro h
        obtain ⟨hold, hsame⟩ := htakes.unchanged h
        obtain ⟨hpair, hapart⟩ := hsep hold
        refine ⟨List.pairwise_append.2 ⟨hpair, List.pairwise_singleton _ _, fun d hd c hc => ?_⟩, fun d hd f hf => ?_⟩
        · rw [List.mem_singleton.1 hc]
          exact fun array i hboth =>
            hapart d hd current List.mem_cons_self array i ⟨hboth.1, (hsame array i).1 hboth.2⟩
        · obtain hd | hd := List.mem_append.1 hd
          · exact hapart d hd f (List.mem_cons_of_mem _ (hkeep f hf))
          · rw [List.mem_singleton.1 hd]
            exact htakes.separate h (fun k hk => absurd hk List.not_mem_nil) f hf
      obtain ⟨done', doneLoop', hrun, hfac, hexprs, hle, hlt, hflag⟩ := ih
        (hlen.trans (Nat.le_of_succ_le_succ hfuel)) (fun f hf => hfactors f (List.mem_cons_of_mem _ (hkeep f hf)))
        (fun f hf => by
          obtain hf | hf := List.mem_append.1 hf
          · exact hdone f hf
          · exact List.mem_singleton.1 hf ▸ htakes.current) hsep'
      rw [List.length_append, List.length_singleton] at hle hlt
      refine ⟨done', doneLoop', hrun, hfac, fun e => ?_, ?_, fun h h' => ?_, fun h => ?_⟩
      · have htake := htakes.exprs e
        simp only [exprsOf, List.nil_append, List.flatMap_cons, List.flatMap_append, List.flatMap_nil,
          List.append_nil, List.mem_append] at htake hexprs ⊢
        rw [hexprs e, or_assoc, htake]
      · rw [List.length_cons]
        omega
      · rw [List.length_cons]
        cases hmid : r.doneLoop with
        | true =>
          have := hlt hmid h'
          omega
        | false =>
          have hless : r.keep.length < factors.length := by simpa using htakes.changed h hmid
          omega
      · obtain ⟨hmid, hpair⟩ := hflag h
        exact ⟨(htakes.unchanged hmid).1, hpair⟩

theorem factorLoop_spec (fuel : ℕ) : ∀ {factors : List IndependentElementSet}, factors.length < fuel →
    (∀ f ∈ factors, f.Factor) →
    ∃ done, factorLoop fuel factors = some done ∧ (∀ f ∈ done, f.Factor) ∧
      (∀ e, e ∈ exprsOf done ↔ e ∈ exprsOf factors) ∧ done.Pairwise Separate := by
  induction fuel with
  | zero =>
    intro factors hfuel
    exact absurd hfuel (Nat.not_lt_zero _)
  | succ fuel ih =>
    intro factors hfuel hfactors
    obtain ⟨done, doneLoop, hrun, hfac, hexprs, hle, hlt, hflag⟩ := factorPass_spec factors.length
      le_rfl hfactors (fun f (hf : f ∈ []) => absurd hf List.not_mem_nil)
      fun (_ : true = true) => ⟨List.Pairwise.nil, fun d hd => absurd hd List.not_mem_nil⟩
    unfold factorLoop
    rw [hrun]
    cases doneLoop with
    | true => exact ⟨done, rfl, hfac, hexprs, (hflag rfl).2⟩
    | false =>
      have hless : done.length < factors.length := by simpa using hlt rfl rfl
      obtain ⟨done', hrun', hfac', hexprs', hpair⟩ := ih (Nat.lt_of_lt_of_le hless (Nat.le_of_lt_succ hfuel)) hfac
      exact ⟨done', hrun', hfac', fun e => (hexprs' e).trans (hexprs e), hpair⟩

section
variable [ExprOptions]

/-- The expressions that are split. -/
theorem factorExprs_cases {query : Query} {exprs : List Expr} (h : factorExprs query = some exprs) :
    (query.expr = ofBool false ∧ exprs = query.constraints) ∨
      exprs = createIsZero query.expr :: query.constraints := by
  unfold factorExprs at h
  split at h
  · rename_i v hv
    split at h
    · rename_i hfalse
      exact .inl ⟨hv.trans hfalse, (Option.some.inj h).symm⟩
    · cases h
  · exact .inr (Option.some.inj h).symm

/-- `getAllIndependentConstraintsSets` returns factors that share no byte and have all the expressions. -/
theorem getAllIndependentConstraintsSets_spec {query : Query} {exprs : List Expr}
    (hexprs : factorExprs query = some exprs) :
    ∃ factors, getAllIndependentConstraintsSets query = some factors ∧ (∀ f ∈ factors, f.Factor) ∧
      (∀ e, e ∈ exprsOf factors ↔ e ∈ exprs) ∧ factors.Pairwise Separate := by
  have hmap : ∀ exprs : List Expr, ∃ factors, exprs.mapM ofExpr = some factors ∧ (∀ f ∈ factors, f.Factor) ∧
      ∀ e, e ∈ exprsOf factors ↔ e ∈ exprs := by
    intro exprs
    induction exprs with
    | nil => exact ⟨[], rfl, fun f hf => absurd hf List.not_mem_nil, fun e => Iff.rfl⟩
    | cons e exprs ih =>
      obtain ⟨factors, hrun, hfac, hmem⟩ := ih
      obtain ⟨ies, hies, hbytes⟩ := has_ofExpr e
      obtain ⟨hproper, hex⟩ := ofExpr_keeps hies
      refine ⟨ies :: factors, by simp [List.mapM_cons, hies, hrun], fun f hf => ?_, fun e' => ?_⟩
      · obtain rfl | hf := List.mem_cons.1 hf
        · refine ⟨by rw [hex]; exact List.cons_ne_nil _ _, fun e' he' array i ht => ?_, hproper⟩
          rw [hex] at he'
          rw [List.mem_singleton.1 he'] at ht
          exact (hbytes array i).2 ht
        · exact hfac f hf
      · have hcons : exprsOf (ies :: factors) = ies.exprs ++ exprsOf factors := rfl
        rw [hcons, hex, List.mem_append, hmem, List.mem_singleton, List.mem_cons]
  obtain ⟨factors, hrun, hfac, hmem⟩ := hmap exprs
  obtain ⟨done, hloop, hfac', hmem', hpair⟩ := factorLoop_spec (factors.length + 1) (Nat.lt_succ_self _) hfac
  refine ⟨done, ?_, hfac', fun e => (hmem' e).trans (hmem e), hpair⟩
  simp only [getAllIndependentConstraintsSets, hexprs, hrun, Option.bind_eq_bind, Option.bind_some]
  exact hloop

end

/-! ### The answers -/

/-- The underlying solver.  When it is asked for all arrays that the constraints may read, the values it returns, and
zero elsewhere, satisfy them; and without a solution the constraints have none. -/
structure InitialValues.Solves (solver : InitialValues) : Prop where
  values : ∀ n constraints objects values, solver n ⟨constraints, ofBool false⟩ objects = some (some values) →
    (∀ c ∈ constraints, ∀ array i, c.Touches array i → array ∈ objects) →
    values.length = objects.length ∧ (∀ x ∈ objects.zip values, x.2.length = x.1.size) ∧
      Satisfies (Bindings.toAssignment (objects.zip values)) constraints
  unsolved : ∀ n constraints objects, solver n ⟨constraints, ofBool false⟩ objects = some none →
    ¬∃ a, Satisfies a constraints

theorem mem_calculateArrayReferences {f : IndependentElementSet} {array : Array} :
    array ∈ calculateArrayReferences f ↔ (f.elements.lookup array).isSome = true ∨ array ∈ f.wholeObjects := by
  unfold calculateArrayReferences
  rw [List.mem_mergeSort, List.mem_dedup, List.mem_append, AList.lookup_isSome]
  exact Iff.rfl

theorem nodup_calculateArrayReferences (f : IndependentElementSet) : (calculateArrayReferences f).Nodup :=
  (List.mergeSort_perm _ _).nodup_iff.2 (List.nodup_dedup _)

theorem IndependentElementSet.Has.mem_references {f : IndependentElementSet} {array : Array} {i : ℕ}
    (h : f.Has array i) : array ∈ calculateArrayReferences f := by
  rw [mem_calculateArrayReferences]
  obtain h | ⟨dis, hlook, -⟩ := h
  · exact .inr h
  · exact .inl (by rw [hlook]; rfl)

theorem Bindings.find_set (retMap : Bindings) (array : Array) (bytes : List (BitVec 8)) (x : Array) :
    (retMap.set array bytes).find x = if x = array then some bytes else retMap.find x := by
  unfold Bindings.set Bindings.find
  by_cases hx : x = array
  · subst hx
    rw [if_pos rfl, List.lookup_cons_self]
  · rw [if_neg hx, List.lookup_cons, beq_false_of_ne hx]
    show (retMap.filter fun y => y.1 ≠ array).lookup x = retMap.lookup x
    induction retMap with
    | nil => rfl
    | cons y retMap ih =>
      by_cases hy : y.1 = array
      · rw [List.filter_cons_of_neg (by simpa using hy), ih, List.lookup_cons,
          beq_false_of_ne fun heq => hx (heq.trans hy)]
      · rw [List.filter_cons_of_pos (by simpa using hy), List.lookup_cons, List.lookup_cons, ih]

/-- The bytes at the given indices are replaced. -/
theorem foldl_set (answer : List (BitVec 8)) (indices : List ℕ) : ∀ old : List (BitVec 8),
    (indices.foldl (fun bytes index => bytes.set index (answer.getD index 0)) old).length = old.length ∧
      ((∀ index ∈ indices, index < old.length) → ∀ i,
        (indices.foldl (fun bytes index => bytes.set index (answer.getD index 0)) old).getD i 0 =
          if i ∈ indices then answer.getD i 0 else old.getD i 0) := by
  induction indices with
  | nil => exact fun old => ⟨rfl, fun _ i => (if_neg List.not_mem_nil).symm⟩
  | cons index indices ih =>
    intro old
    obtain ⟨hlen, hget⟩ := ih (old.set index (answer.getD index 0))
    rw [List.length_set] at hlen hget
    refine ⟨hlen, fun hbound i => ?_⟩
    rw [List.foldl_cons, hget (fun j hj => hbound j (List.mem_cons_of_mem _ hj)) i]
    have hindex := hbound index List.mem_cons_self
    by_cases hi : i ∈ indices
    · rw [if_pos hi, if_pos (List.mem_cons_of_mem _ hi)]
    · rw [if_neg hi]
      by_cases heq : i = index
      · subst heq
        rw [if_pos List.mem_cons_self, List.getD_eq_getElem?_getD, List.getElem?_set_self hindex, Option.getD_some]
      · have hnot : i ∉ index :: indices := by
          intro h
          obtain h | h := List.mem_cons.1 h
          · exact heq h
          · exact hi h
        rw [if_neg hnot, List.getD_eq_getElem?_getD, List.getElem?_set_ne fun h => heq h.symm,
          List.getD_eq_getElem?_getD]

/-- What the answer for an array leaves in the map: all its bytes, or those of the factor over the old ones. -/
structure Placed (it : IndependentElementSet) (array : Array) (answer : List (BitVec 8))
    (old new : Option (List (BitVec 8))) : Prop where
  bound : ∃ bytes, new = some bytes ∧ bytes.length = array.size
  fresh : old = none → new = some answer
  kept : ∀ bytes, old = some bytes → ∀ i, (new.getD []).getD i 0 =
    if i ∈ (it.elements.lookup array).getD ∅ then answer.getD i 0 else bytes.getD i 0

/-- Every array is bound to as many bytes as it has. -/
def Sized (retMap : Bindings) : Prop := ∀ array bytes, retMap.find array = some bytes → bytes.length = array.size

theorem placeValue_spec {it : IndependentElementSet} {retMap retMap' : Bindings} {answer : Array × List (BitVec 8)}
    (h : placeValue it retMap answer = some retMap') (hsized : Sized retMap)
    (hanswer : answer.2.length = answer.1.size) :
    (∀ x, x ≠ answer.1 → retMap'.find x = retMap.find x) ∧
      Placed it answer.1 answer.2 (retMap.find answer.1) (retMap'.find answer.1) := by
  unfold placeValue at h
  cases hold : retMap.find answer.1 with
  | none =>
    rw [hold] at h
    obtain rfl := Option.some.inj h
    refine ⟨fun x hx => by rw [Bindings.find_set, if_neg hx], ?_⟩
    rw [Bindings.find_set, if_pos rfl]
    exact ⟨⟨_, rfl, hanswer⟩, fun _ => rfl, nofun⟩
  | some old =>
    rw [hold] at h
    dsimp only at h
    split at h
    · rename_i hbound
      obtain rfl := Option.some.inj h
      obtain ⟨hlen, hget⟩ := foldl_set answer.2 (((it.elements.lookup answer.1).getD ∅).sort (· ≤ ·)) old
      refine ⟨fun x hx => by rw [Bindings.find_set, if_neg hx], ?_⟩
      rw [Bindings.find_set, if_pos rfl]
      refine ⟨⟨_, rfl, hlen.trans (hsized _ _ hold)⟩, nofun, ?_⟩
      rintro _ ⟨⟩ i
      rw [Option.getD_some, hget (fun index hindex => ?_) i]
      · exact if_congr (Finset.mem_sort _) rfl rfl
      · rw [hbound.1]
        exact hbound.2 index ((Finset.mem_sort _).1 hindex)
    · cases h

theorem placeValues_spec {it : IndependentElementSet} (answers : List (Array × List (BitVec 8))) :
    ∀ {retMap retMap' : Bindings}, answers.foldlM (placeValue it) retMap = some retMap' → Sized retMap →
      (answers.map (·.1)).Nodup → (∀ x ∈ answers, x.2.length = x.1.size) →
      Sized retMap' ∧ (∀ x, x ∉ answers.map (·.1) → retMap'.find x = retMap.find x) ∧
        ∀ x ∈ answers, Placed it x.1 x.2 (retMap.find x.1) (retMap'.find x.1) := by
  induction answers with
  | nil =>
    intro retMap retMap' h hsized _ _
    obtain rfl := Option.some.inj h
    exact ⟨hsized, fun _ _ => rfl, fun x hx => absurd hx List.not_mem_nil⟩
  | cons answer answers ih =>
    intro retMap retMap' h hsized hnodup hlens
    obtain ⟨hnot, hnodup⟩ := List.nodup_cons.1 hnodup
    rw [List.foldlM_cons] at h
    obtain ⟨mid, hmid, h⟩ := Option.bind_eq_some_iff.1 h
    obtain ⟨hothers, hplaced⟩ := placeValue_spec hmid hsized (hlens answer List.mem_cons_self)
    have hsized' : Sized mid := by
      intro array bytes hfind
      by_cases heq : array = answer.1
      · subst heq
        obtain ⟨bytes', hbytes', hlen⟩ := hplaced.bound
        obtain rfl := Option.some.inj (hfind.symm.trans hbytes')
        exact hlen
      · exact hsized array bytes ((hothers array heq).symm.trans hfind)
    obtain ⟨hfinal, hothers', hplaced'⟩ := ih h hsized' hnodup fun x hx => hlens x (List.mem_cons_of_mem _ hx)
    refine ⟨hfinal, fun x hx => ?_, fun x hx => ?_⟩
    · rw [hothers' x (List.not_mem_of_not_mem_cons hx), hothers x (List.ne_of_not_mem_cons hx)]
    · obtain rfl | hx := List.mem_cons.1 hx
      · rw [hothers' _ hnot]
        exact hplaced
      · have hne : x.1 ≠ answer.1 := fun heq => hnot (List.mem_map.2 ⟨x, hx, heq⟩)
        rw [← hothers x.1 hne]
        exact hplaced' x hx

theorem Bindings.byte_of_find {b : Bindings} {array : Array} {bytes : List (BitVec 8)} (h : b.find array = some bytes)
    (i : ℕ) : b.byte array i = bytes.getD i 0 := by
  rw [byte_eq_getD, h, Option.getD_some]

theorem Bindings.find_of_mem {b : Bindings} {x : Array × List (BitVec 8)} (hnodup : (b.map (·.1)).Nodup)
    (hx : x ∈ b) : b.find x.1 = some x.2 := by
  unfold Bindings.find
  induction b with
  | nil => exact absurd hx List.not_mem_nil
  | cons y b ih =>
    obtain ⟨hnot, hnodup⟩ := List.nodup_cons.1 hnodup
    obtain rfl | hx := List.mem_cons.1 hx
    · rw [List.lookup_cons, beq_self_eq_true]
    · rw [List.lookup_cons, beq_false_of_ne fun heq => hnot (List.mem_map.2 ⟨x, hx, heq⟩)]
      exact ih hnodup hx

/-! ### The loop over the factors -/

/-- The invariant: the map binds the arrays of the factors that were solved, and satisfies them. -/
structure Solved (processed : List IndependentElementSet) (retMap : Bindings) : Prop where
  sized : Sized retMap
  bound : ∀ f ∈ processed, ∀ array ∈ calculateArrayReferences f, ∃ bytes, retMap.find array = some bytes
  mentioned : ∀ array bytes, retMap.find array = some bytes → ∃ f ∈ processed, array ∈ calculateArrayReferences f
  holds : ∀ f ∈ processed, calculateArrayReferences f ≠ [] → ∀ e ∈ f.exprs, e.Holds retMap.toAssignment

section
variable {processed : List IndependentElementSet} {it : IndependentElementSet} {retMap : Bindings}

/-- A factor without arrays adds nothing. -/
theorem Solved.skip (h : Solved processed retMap) (hnone : calculateArrayReferences it = []) :
    Solved (processed ++ [it]) retMap where
  sized := h.sized
  bound f hf array harray := by
    obtain hf | hf := List.mem_append.1 hf
    · exact h.bound f hf array harray
    · rw [List.mem_singleton.1 hf, hnone] at harray
      exact absurd harray List.not_mem_nil
  mentioned array bytes hfind := by
    obtain ⟨f, hf, harray⟩ := h.mentioned array bytes hfind
    exact ⟨f, List.mem_append_left _ hf, harray⟩
  holds f hf hne := by
    obtain hf | hf := List.mem_append.1 hf
    · exact h.holds f hf hne
    · exact absurd (List.mem_singleton.1 hf ▸ hnone) hne

/-- An array that has answers is not one whose bytes all belong to a later factor. -/
theorem Solved.mem_of_has (h : Solved processed retMap) (hfac : ∀ f ∈ processed, f.Factor)
    (hsep : ∀ f ∈ processed, Separate f it) {array : Array} {bytes : List (BitVec 8)}
    (hfind : retMap.find array = some bytes) {i : ℕ} (hhas : it.Has array i) :
    i ∈ (it.elements.lookup array).getD ∅ := by
  obtain hwhole | ⟨dis, hlook, hi⟩ := hhas
  · obtain ⟨f, hf, harray⟩ := h.mentioned array bytes hfind
    obtain hsome | hf' := mem_calculateArrayReferences.1 harray
    · obtain ⟨dis, hdis⟩ := Option.isSome_iff_exists.1 hsome
      obtain ⟨j, hj⟩ := (hfac f hf).proper array dis hdis
      exact absurd ⟨.inr ⟨dis, hdis, hj⟩, .inl hwhole⟩ (hsep f hf array j)
    · exact absurd ⟨.inl hf', .inl hwhole⟩ (hsep f hf array 0)
  · rw [hlook]
    exact hi

/-- The answers for a factor satisfy it and change nothing for the factors before it. -/
theorem Solved.place (h : Solved processed retMap) (hfac : ∀ f ∈ processed, f.Factor) (hit : it.Factor)
    (hsep : ∀ f ∈ processed, Separate f it) {answers : Bindings}
    (harrays : answers.map (·.1) = calculateArrayReferences it) (hlens : ∀ x ∈ answers, x.2.length = x.1.size)
    (hsat : Satisfies answers.toAssignment it.exprs) {retMap' : Bindings}
    (hplace : answers.foldlM (placeValue it) retMap = some retMap') : Solved (processed ++ [it]) retMap' := by
  have hnodup : (answers.map (·.1)).Nodup := harrays ▸ nodup_calculateArrayReferences it
  obtain ⟨hsized, hothers, hplaced⟩ := placeValues_spec answers hplace h.sized hnodup hlens
  rw [harrays] at hothers
  have hanswer : ∀ array ∈ calculateArrayReferences it, ∃ answer, answers.find array = some answer ∧
      Placed it array answer (retMap.find array) (retMap'.find array) := by
    intro array harray
    obtain ⟨x, hx, rfl⟩ := List.mem_map.1 (harrays ▸ harray)
    exact ⟨x.2, Bindings.find_of_mem hnodup hx, hplaced x hx⟩
  -- the bytes of the factor are those of the answers
  have hnew : ∀ array i, it.Has array i → retMap'.byte array i = answers.byte array i := by
    intro array i hhas
    obtain ⟨answer, hanswer, hp⟩ := hanswer array hhas.mem_references
    obtain ⟨bytes, hbytes, -⟩ := hp.bound
    rw [Bindings.byte_of_find hbytes, Bindings.byte_of_find hanswer]
    cases hold : retMap.find array with
    | none => rw [Option.some.inj (hbytes.symm.trans (hp.fresh hold))]
    | some old =>
      have hkept := hp.kept old hold i
      rw [if_pos (h.mem_of_has hfac hsep hold hhas), hbytes] at hkept
      exact hkept
  -- the bytes of the other factors stay
  have hkeep : ∀ f ∈ processed, ∀ array i, f.Has array i → retMap'.byte array i = retMap.byte array i := by
    intro f hf array i hhas
    obtain ⟨old, hold⟩ := h.bound f hf array hhas.mem_references
    by_cases harray : array ∈ calculateArrayReferences it
    · obtain ⟨answer, -, hp⟩ := hanswer array harray
      obtain ⟨bytes, hbytes, -⟩ := hp.bound
      have hnot : i ∉ (it.elements.lookup array).getD ∅ := by
        intro hi
        cases hlook : it.elements.lookup array with
        | none =>
          rw [hlook] at hi
          exact absurd hi (Finset.notMem_empty i)
        | some dis =>
          rw [hlook] at hi
          exact hsep f hf array i ⟨hhas, .inr ⟨dis, hlook, hi⟩⟩
      have hkept := hp.kept old hold i
      rw [if_neg hnot, hbytes] at hkept
      rw [Bindings.byte_of_find hbytes, Bindings.byte_of_find hold]
      exact hkept
    · rw [Bindings.byte_of_find hold, Bindings.byte_of_find ((hothers array harray).trans hold)]
  refine ⟨hsized, fun f hf array harray => ?_, fun array bytes hfind => ?_, fun f hf hne e he => ?_⟩
  · by_cases hmem : array ∈ calculateArrayReferences it
    · obtain ⟨answer, -, hp⟩ := hanswer array hmem
      obtain ⟨bytes, hbytes, -⟩ := hp.bound
      exact ⟨bytes, hbytes⟩
    · obtain hf | hf := List.mem_append.1 hf
      · obtain ⟨bytes, hbytes⟩ := h.bound f hf array harray
        exact ⟨bytes, (hothers array hmem).trans hbytes⟩
      · exact absurd (List.mem_singleton.1 hf ▸ harray) hmem
  · by_cases hmem : array ∈ calculateArrayReferences it
    · exact ⟨it, List.mem_append_right _ (List.mem_singleton.2 rfl), hmem⟩
    · obtain ⟨f, hf, harray⟩ := h.mentioned array bytes ((hothers array hmem).symm.trans hfind)
      exact ⟨f, List.mem_append_left _ hf, harray⟩
  · obtain hf | hf := List.mem_append.1 hf
    · exact Expr.holds_congr (fun array i ht => hkeep f hf array i ((hfac f hf).touches e he array i ht))
        (h.holds f hf hne e he)
    · rw [List.mem_singleton.1 hf] at he
      exact Expr.holds_congr (fun array i ht => hnew array i (hit.touches e he array i ht)) (hsat e he)

end

theorem solveFactors_spec {solver : InitialValues} (hsolver : solver.Solves) (factors : List IndependentElementSet) :
    ∀ {processed : List IndependentElementSet} {retMap : Bindings} {n : ℕ}, Solved processed retMap →
      (∀ f ∈ processed ++ factors, f.Factor) → (processed ++ factors).Pairwise Separate →
      Prog.wp (solveFactors solver factors retMap)
        (fun r _ => (∀ retMap', r = some (some retMap') → Solved (processed ++ factors) retMap') ∧
          (r = some none → ∃ f ∈ factors, ¬∃ a, Satisfies a f.exprs)) (fun _ => True) n := by
  induction factors with
  | nil =>
    intro processed retMap n h _ _
    refine ⟨fun retMap' hr => ?_, nofun⟩
    obtain rfl := Option.some.inj (Option.some.inj hr)
    rwa [List.append_nil]
  | cons it factors ih =>
    intro processed retMap n h hfac hpair
    have hit := hfac it (List.mem_append_right _ List.mem_cons_self)
    have hsep : ∀ f ∈ processed, Separate f it := fun f hf =>
      (List.pairwise_append.1 hpair).2.2 f hf it List.mem_cons_self
    have hsolve : Prog.wp (solveFactor solver it retMap)
        (fun r _ => (∀ retMap', r = some (some retMap') → Solved (processed ++ [it]) retMap') ∧
          (r = some none → ¬∃ a, Satisfies a it.exprs)) (fun _ => True) n := by
      unfold solveFactor
      rw [Prog.wp_bind, Prog.wp_assert]
      refine ⟨fun _ => ?_, fun _ => trivial⟩
      dsimp only
      rw [Prog.wp_ite]
      refine ⟨fun hnone => ⟨fun retMap' hr => ?_, nofun⟩, fun _ => ?_⟩
      · obtain rfl := Option.some.inj (Option.some.inj hr)
        exact h.skip hnone
      · show Prog.wp (match solver n ⟨it.exprs, ofBool false⟩ (calculateArrayReferences it) with
          | none => pure none
          | some none => pure (some none)
          | some (some tempValues) => _) _ _ (n + 1)
        cases hres : solver n ⟨it.exprs, ofBool false⟩ (calculateArrayReferences it) with
        | none => exact ⟨nofun, nofun⟩
        | some answer =>
          cases answer with
          | none => exact ⟨nofun, fun _ => hsolver.unsolved _ _ _ hres⟩
          | some tempValues =>
            obtain ⟨hlen, hlens, hsat⟩ := hsolver.values _ _ _ _ hres
              fun c hc array i ht => (hit.touches c hc array i ht).mem_references
            rw [Prog.wp_bind, Prog.wp_assert]
            refine ⟨fun _ => ?_, fun _ => trivial⟩
            rw [Prog.wp_bind, Prog.wp_unwrap]
            refine ⟨fun placed hplaced => ⟨fun retMap' hr => ?_, nofun⟩, fun _ => trivial⟩
            obtain rfl := Option.some.inj (Option.some.inj hr)
            exact h.place (fun f hf => hfac f (List.mem_append_left _ hf)) hit hsep
              (List.map_fst_zip hlen.ge) hlens hsat hplaced
    unfold solveFactors
    refine Prog.wp.bind hsolve fun r m hr => ?_
    obtain ⟨hsome, hnone⟩ := hr
    match r with
    | none => exact ⟨nofun, nofun⟩
    | some none => exact ⟨nofun, fun _ => ⟨it, List.mem_cons_self, hnone rfl⟩⟩
    | some (some retMap') =>
      rw [show processed ++ it :: factors = processed ++ [it] ++ factors from by simp] at hfac hpair ⊢
      refine (ih (hsome retMap' rfl) hfac hpair).mono (fun r m hr => ⟨hr.1, fun hrn => ?_⟩) fun _ => id
      obtain ⟨f, hf, hun⟩ := hr.2 hrn
      exact ⟨f, List.mem_cons_of_mem _ hf, hun⟩

namespace IndependentSolver

/-- The created point has the bytes of the map, and zero elsewhere. -/
theorem createdPoint_byte (objects : List Array) (retMap : Bindings) (array : Array) (i : ℕ) :
    (createdPoint objects (objects.map fun arr => (retMap.find arr).getD (List.replicate arr.size 0)) retMap).byte
      array i = retMap.byte array i := by
  rw [Bindings.byte_eq_getD, Bindings.byte_eq_getD]
  congr 1
  unfold createdPoint Bindings.find
  induction objects with
  | nil => rfl
  | cons arr objects ih =>
    rw [List.map_cons, List.zip_cons_cons, List.cons_append, List.lookup_cons]
    by_cases heq : array = arr
    · subst heq
      rw [beq_self_eq_true]
      rfl
    · rw [beq_false_of_ne heq]
      exact ih

section
variable [ExprOptions]

theorem isZero_false_holds {a : Assignment} : (createIsZero (ofBool false)).Holds a := by
  rw [Query.createIsZero_holds_iff (hasWidth_ofBool false) (denotes_ofBool false).defined]
  exact denotes_ofBool false

/-- **Initial values.**  With a solver that answers rightly about each factor: if there is a solution then the values
and the map satisfy the constraints and the negated expression of a satisfiable query, and every array that was asked
for has its size; and there is none only if a factor has none. -/
theorem computeInitialValues_exact (solver : InitialValues) (hsolver : solver.Solves) (query : Query)
    (hsat : ∃ a, Satisfies a query.constraints ∧ (createIsZero query.expr).Holds a) (objects : List Array) (n : ℕ) :
    (∀ values retMap m, computeInitialValues solver query objects n = (some (some (some (values, retMap))), m) →
      Satisfies (createdPoint objects values retMap).toAssignment query.constraints ∧
        (createIsZero query.expr).Holds (createdPoint objects values retMap).toAssignment ∧
        values.map List.length = objects.map Array.size) ∧
      ∀ m, computeInitialValues solver query objects n = (some (some none), m) →
        ∃ factors, getAllIndependentConstraintsSets query = some factors ∧
          ∃ f ∈ factors, ¬∃ a, Satisfies a f.exprs := by
  obtain ⟨a, ha, hneg⟩ := hsat
  have hspec : Prog.wp (computeInitialValues solver query objects)
      (fun r _ => (∀ values retMap, r = some (some (values, retMap)) →
        Satisfies (createdPoint objects values retMap).toAssignment query.constraints ∧
          (createIsZero query.expr).Holds (createdPoint objects values retMap).toAssignment ∧
          values.map List.length = objects.map Array.size) ∧
        (r = some none → ∃ factors, getAllIndependentConstraintsSets query = some factors ∧
          ∃ f ∈ factors, ¬∃ a, Satisfies a f.exprs)) (fun _ => True) n := by
    unfold computeInitialValues
    rw [Prog.wp_bind, Prog.wp_unwrap]
    refine ⟨fun factors hfactors => ?_, fun _ => trivial⟩
    obtain ⟨exprs, hexprs⟩ : ∃ exprs, factorExprs query = some exprs := by
      cases hex : factorExprs query with
      | none =>
        unfold getAllIndependentConstraintsSets at hfactors
        rw [hex] at hfactors
        cases hfactors
      | some exprs => exact ⟨exprs, rfl⟩
    obtain ⟨factors', hfactors', hfac, hmem, hpair⟩ := getAllIndependentConstraintsSets_spec hexprs
    obtain rfl : factors' = factors := Option.some.inj (hfactors'.symm.trans hfactors)
    have hstart : Solved [] [] := ⟨nofun, nofun, nofun, nofun⟩
    refine Prog.wp.bind (solveFactors_spec hsolver factors' hstart hfac hpair) fun r m hr => ?_
    obtain ⟨hsome, hnone⟩ := hr
    match r with
    | none => exact ⟨nofun, nofun⟩
    | some none => exact ⟨nofun, fun _ => ⟨factors', hfactors', hnone rfl⟩⟩
    | some (some retMap) =>
      have hsolved := hsome retMap rfl
      refine ⟨fun values retMap' hr => ?_, nofun⟩
      obtain ⟨rfl, rfl⟩ := Prod.mk.inj (Option.some.inj (Option.some.inj hr))
      have hpoint := createdPoint_byte objects retMap
      -- an expression of a factor with arrays holds in the map, and one without reads nothing
      have hall : ∀ e ∈ exprs, e.Holds a → e.Holds retMap.toAssignment := by
        intro e he hholds
        obtain ⟨f, hf, hef⟩ := mem_exprsOf.1 ((hmem e).2 he)
        by_cases hrefs : calculateArrayReferences f = []
        · refine Expr.holds_congr (fun array i ht => ?_) hholds
          have hin := ((hfac f hf).touches e hef array i ht).mem_references
          rw [hrefs] at hin
          exact absurd hin List.not_mem_nil
        · exact hsolved.holds f hf hrefs e hef
      have hlift : ∀ {e : Expr}, e.Holds retMap.toAssignment → e.Holds (createdPoint objects
          (objects.map fun arr => (retMap.find arr).getD (List.replicate arr.size 0)) retMap).toAssignment :=
        fun h => Expr.holds_congr (fun array i _ => hpoint array i) h
      have hexpr : (createIsZero query.expr).Holds retMap.toAssignment ∧ ∀ c ∈ query.constraints, c ∈ exprs := by
        obtain ⟨hfalse, rfl⟩ | rfl := factorExprs_cases hexprs
        · exact ⟨hfalse ▸ isZero_false_holds, fun c hc => hc⟩
        · exact ⟨hall _ List.mem_cons_self hneg, fun c hc => List.mem_cons_of_mem _ hc⟩
      refine ⟨fun c hc => hlift (hall c (hexpr.2 c hc) (ha c hc)), hlift hexpr.1, ?_⟩
      rw [List.map_map]
      refine List.map_congr_left fun arr _ => ?_
      show ((retMap.find arr).getD (List.replicate arr.size 0)).length = arr.size
      cases hfind : retMap.find arr with
      | none => exact List.length_replicate
      | some bytes => exact hsolved.sized arr bytes hfind
  refine ⟨fun values retMap m hrun => (hspec.of_eq hrun).1 values retMap rfl, fun m hrun => (hspec.of_eq hrun).2 rfl⟩

end

/-! ### Two factors over one array -/

section
local instance factorOptions : ExprOptions := .defaults

theorem pair_lt : 2 < 2 ^ 32 := by decide

theorem pair_values : ([] : List (BitVec 8)) = [] ∨ ([] : List (BitVec 8)).length = 2 := .inl rfl

/-- A symbolic array of two bytes. -/
def pairArray : Array := ⟨0, "x", 2, [], pair_lt, pair_values⟩

/-- `x[i] < 7`. -/
def pairBound (i : BitVec 32) : Expr := .cmp .ult (.read (.root pairArray) (.const i)) (.const 7#8)

def pairQuery : Query := ⟨[pairBound 0, pairBound 1], ofBool false⟩

/-- An underlying solver that knows the two factors. -/
def pairSolver : InitialValues := fun _ q objects =>
  if q.constraints = [pairBound 0] ∨ q.constraints = [pairBound 1] then
    some (some (objects.map fun arr => List.replicate arr.size 0)) else none

theorem pairBound_holds (i : BitVec 32) : (pairBound i).Holds fun _ _ => 0 := by
  exact ⟨⟨⟨trivial, nofun⟩, trivial⟩, rfl⟩

theorem pairSolver_solves : pairSolver.Solves := by
  refine ⟨fun n constraints objects values hres _ => ?_, fun n constraints objects hres => ?_⟩
  · unfold pairSolver at hres
    split at hres
    · rename_i hc
      obtain rfl := Option.some.inj (Option.some.inj hres)
      refine ⟨List.length_map _, fun x hx => ?_, ?_⟩
      · obtain ⟨arr, -, rfl⟩ : ∃ arr ∈ objects, (arr, List.replicate arr.size 0) = x := by
          rw [← List.map_id objects, List.map_map, List.zip_map'] at hx
          simpa using hx
        exact List.length_replicate
      · have hzero : Bindings.toAssignment (objects.zip (objects.map fun arr => List.replicate arr.size 0)) =
            fun _ _ => 0 := by
          funext array i
          have := createdPoint_byte objects [] array i
          unfold createdPoint at this
          rw [List.append_nil] at this
          exact this
        rw [hzero]
        rintro c hm
        have hm : c ∈ constraints := hm
        obtain hc | hc := hc
        · rw [show constraints = _ from hc] at hm
          exact List.mem_singleton.1 hm ▸ pairBound_holds 0
        · rw [show constraints = _ from hc] at hm
          exact List.mem_singleton.1 hm ▸ pairBound_holds 1
    · cases hres
  · unfold pairSolver at hres
    split at hres
    · cases hres
    · cases hres

theorem references_pair (i : ℕ) (e : Expr) :
  calculateArrayReferences ⟨AList.insert pairArray {i} ∅, [], [e]⟩ = [pairArray] := by
  simp [calculateArrayReferences]

/-- The factor of one of the bytes is solved, whatever the map is. -/
theorem solveFactor_pair {i : BitVec 32} (hi : i = 0 ∨ i = 1) {retMap retMap' : Bindings} (n : ℕ)
    (h : placeValue ⟨AList.insert pairArray {i.toNat} ∅, [], [pairBound i]⟩ retMap (pairArray, [0, 0]) = some retMap') :
    Prog.wp (solveFactor pairSolver ⟨AList.insert pairArray {i.toNat} ∅, [], [pairBound i]⟩ retMap)
      (fun r _ => r = some (some retMap')) (fun _ => False) n := by
  have hsolver : pairSolver n ⟨[pairBound i], ofBool false⟩ [pairArray] = some (some [[0, 0]]) := by
    obtain rfl | rfl := hi
    · rfl
    · rfl
  unfold solveFactor
  rw [Prog.wp_bind, Prog.wp_assert]
  refine ⟨fun _ => ?_, fun hne => absurd (List.cons_ne_nil _ _) hne⟩
  dsimp only
  rw [references_pair, if_neg (List.cons_ne_nil _ _)]
  refine .step rfl (.step rfl ?_)
  rw [hsolver]
  refine .step rfl ?_
  rw [show [pairArray].zip [[0, 0]] = [(pairArray, [(0 : BitVec 8), 0])] from rfl, List.foldlM_cons, h]
  exact .step rfl rfl

theorem run_pair : Prog.wp (computeInitialValues pairSolver pairQuery [pairArray])
    (fun r _ => ∃ values retMap, r = some (some (values, retMap))) (fun _ => False) 0 := by
  unfold computeInitialValues
  refine .step (a := [⟨AList.insert pairArray {0} ∅, [], [pairBound 0]⟩, ⟨AList.insert pairArray {1} ∅, [], [pairBound 1]⟩])
    (t := 0) rfl ?_
  refine Prog.wp.bind (Q := fun r _ => ∃ retMap, r = some (some retMap)) ?_ fun r m hr => ?_
  · unfold solveFactors
    refine Prog.wp.bind (solveFactor_pair (.inl rfl) _ rfl) fun r m hr => ?_
    subst hr
    unfold solveFactors
    refine Prog.wp.bind (solveFactor_pair (.inr rfl) _ rfl) fun r m hr => ?_
    subst hr
    exact ⟨_, rfl⟩
  · obtain ⟨retMap, rfl⟩ := hr
    exact ⟨_, _, rfl⟩

/-- Two factors over the same array. -/
theorem computeInitialValues_exact_pair :
    ∃ values retMap m, computeInitialValues pairSolver pairQuery [pairArray] 0 = (some (some (some (values, retMap))), m) ∧
      Satisfies (createdPoint [pairArray] values retMap).toAssignment [pairBound 0, pairBound 1] ∧
      values.map List.length = [2] := by
  obtain ⟨_, m, hrun, values, retMap, rfl⟩ := run_pair.exists_result
  have hsat : ∃ a, Satisfies a pairQuery.constraints ∧ (createIsZero pairQuery.expr).Holds a := by
    refine ⟨fun _ _ => 0, fun c hc => ?_, ?_⟩
    · obtain rfl | hc := List.mem_cons.1 hc
      · exact pairBound_holds 0
      · exact List.mem_singleton.1 hc ▸ pairBound_holds 1
    · exact isZero_false_holds
  obtain ⟨hpoint, -, hsizes⟩ := (computeInitialValues_exact pairSolver pairSolver_solves pairQuery hsat [pairArray] 0).1
    values retMap m hrun
  exact ⟨values, retMap, m, hrun, hpoint, hsizes⟩

end

end IndependentSolver

end SymBisect
