import Mathlib.Data.List.AList
import SymBisect.Expr.Reads
import SymBisect.Solver.Query

/-!
# Slicing the constraints of a query

`IndependentElementSet` and `getIndependentConstraints` of `lib/Solver/IndependentSolver.cpp`: of the
constraints of a query only those are kept that share bytes with its expression, directly or through other
constraints.

* `IndependentElementSet.Has`: the bytes of an element set; `has_ofExpr`, `adds_add` and
  `disjoint_of_not_intersects` say what its operations do to them.
* `Slice`: the invariant of the worklist.  A pass that adds nothing leaves only constraints over other bytes.
* `getIndependentConstraints_spec`: the kept and the dropped constraints have no byte in common, so an
  assignment of the ones can be combined with an assignment of the others.
-/

namespace SymBisect

open Expr ConstraintSet

/-- `IndependentElementSet`: the bytes accessed at concrete indices, the arrays accessed at symbolic ones, and
the expressions they come from. -/
structure IndependentElementSet where
  elements : AList fun _ : Array => Finset ℕ
  wholeObjects : List Array
  exprs : List Expr

namespace IndependentElementSet

/-! ### The operations -/

/-- The loop body of the constructor. -/
def addRead (ies : IndependentElementSet) (re : UpdateList × Expr) : IndependentElementSet :=
  let array := re.1.getRoot
  -- reads of a constant array don't alias
  if array.isConstantArray ∧ re.1.isRoot then ies
  else if array ∈ ies.wholeObjects then ies
  else
    match re.2 with
    | .const v =>
      let dis := (ies.elements.lookup array).getD ∅
      { ies with elements := ies.elements.insert array (insert (v.setWidth 32).toNat dis) }
    | _ => { ies with
        elements := ies.elements.erase array
        wholeObjects := ies.wholeObjects.insert array }

/-- `IndependentElementSet(e)`. -/
def ofExpr (e : Expr) : Option IndependentElementSet :=
  (findReads e true).map fun reads => reads.foldl addRead ⟨∅, [], [e]⟩

/-- `intersects`. -/
def intersects (s b : IndependentElementSet) : Bool :=
  (s.wholeObjects.any fun array => decide (array ∈ b.wholeObjects) || (b.elements.lookup array).isSome) ||
    s.elements.entries.any fun ⟨array, dis⟩ =>
      decide (array ∈ b.wholeObjects) ||
        match b.elements.lookup array with
        | some dis' => decide (dis ∩ dis').Nonempty
        | none => false

/-- The first loop of `add`, with the flag `modified`. -/
def addWhole (s : IndependentElementSet × Bool) (array : Array) : IndependentElementSet × Bool :=
  match s.1.elements.lookup array with
  | some _ =>
    ({ s.1 with elements := s.1.elements.erase array, wholeObjects := s.1.wholeObjects.insert array }, true)
  | none =>
    if array ∈ s.1.wholeObjects then s
    else ({ s.1 with wholeObjects := s.1.wholeObjects.insert array }, true)

/-- The second loop of `add`. -/
def addElements (s : IndependentElementSet × Bool) (entry : (_ : Array) × Finset ℕ) :
    IndependentElementSet × Bool :=
  if entry.1 ∈ s.1.wholeObjects then s
  else
    match s.1.elements.lookup entry.1 with
    | none => ({ s.1 with elements := s.1.elements.insert entry.1 entry.2 }, true)
    | some dis =>
      ({ s.1 with elements := s.1.elements.insert entry.1 (dis ∪ entry.2) }, s.2 || decide (¬ entry.2 ⊆ dis))

/-- `add`: the union, and whether it is a change. -/
def add (s b : IndependentElementSet) : IndependentElementSet × Bool :=
  b.elements.entries.foldl addElements
    (b.wholeObjects.foldl addWhole ({ s with exprs := s.exprs ++ b.exprs }, false))

/-! ### The bytes -/

/-- The element set has the byte. -/
def Has (s : IndependentElementSet) (array : Array) (i : ℕ) : Prop :=
  array ∈ s.wholeObjects ∨ ∃ dis, s.elements.lookup array = some dis ∧ i ∈ dis

variable {s b : IndependentElementSet} {array : Array} {i : ℕ}

/-- Making an array a whole object adds its bytes. -/
theorem has_whole {exprs : List Expr} (root : Array) :
    Has ⟨s.elements.erase root, s.wholeObjects.insert root, exprs⟩ array i ↔ Has s array i ∨ array = root := by
  unfold Has
  by_cases h : array = root
  · subst h
    simp
  · simp [AList.lookup_erase_ne h, h]

/-- Adding bytes of an array that is not a whole object. -/
theorem has_insert {exprs : List Expr} (root : Array) (dis : Finset ℕ)
    (hdis : ∀ j, j ∈ (s.elements.lookup root).getD ∅ → j ∈ dis) :
    Has ⟨s.elements.insert root dis, s.wholeObjects, exprs⟩ array i ↔ Has s array i ∨ (array = root ∧ i ∈ dis) := by
  unfold Has
  by_cases h : array = root
  · subst h
    simp only [AList.lookup_insert, Option.some.injEq, exists_eq_left', true_and]
    constructor
    · intro hi
      exact hi.elim (fun hw => .inl (.inl hw)) .inr
    · intro hi
      obtain (hw | ⟨dis', hlook, hmem⟩) | hi := hi
      · exact .inl hw
      · exact .inr (hdis i (by rw [hlook]; exact hmem))
      · exact .inr hi
  · simp [AList.lookup_insert_ne h, h]

theorem has_addRead (re : UpdateList × Expr) :
    Has (addRead s re) array i ↔ Has s array i ∨
      (re.1.getRoot = array ∧ ¬ (array.isConstantArray = true ∧ re.1.isRoot = true) ∧ re.2.mayIndex i) := by
  obtain ⟨updates, index⟩ := re
  unfold addRead
  by_cases hconst : updates.getRoot.isConstantArray = true ∧ updates.isRoot = true
  · rw [if_pos hconst]
    refine (or_iff_left fun h => ?_).symm
    obtain ⟨rfl, hno, -⟩ := h
    exact hno hconst
  · rw [if_neg hconst]
    by_cases hwhole : updates.getRoot ∈ s.wholeObjects
    · rw [if_pos hwhole]
      refine (or_iff_left_of_imp fun h => ?_).symm
      obtain ⟨rfl, -⟩ := h
      exact .inl hwhole
    · rw [if_neg hwhole]
      cases index with
      | const v =>
        simp only
        rw [has_insert _ _ fun j hj => Finset.mem_insert_of_mem hj]
        constructor
        · intro h
          obtain h | ⟨rfl, hi⟩ := h
          · exact .inl h
          · obtain hi | hi := Finset.mem_insert.1 hi
            · exact .inr ⟨rfl, hconst, hi.symm⟩
            · refine .inl (.inr ?_)
              cases hlook : s.elements.lookup updates.getRoot with
              | none =>
                rw [hlook] at hi
                exact absurd hi (Finset.notMem_empty i)
              | some dis =>
                rw [hlook] at hi
                exact ⟨dis, rfl, hi⟩
        · intro h
          obtain h | ⟨rfl, -, hi⟩ := h
          · exact .inl h
          · exact .inr ⟨rfl, Finset.mem_insert.2 (.inl hi.symm)⟩
      | _ =>
        simp only
        rw [has_whole]
        refine or_congr_right ⟨fun h => ?_, fun h => h.1.symm⟩
        subst h
        exact ⟨rfl, hconst, trivial⟩

/-- The element set of an expression has the bytes that its reads may touch. -/
theorem has_ofExpr (e : Expr) : ∃ ies, ofExpr e = some ies ∧ ∀ array i, Has ies array i ↔ e.Touches array i := by
  obtain ⟨reads, hrun, hreads⟩ := e.mem_findReads
  have hfold : ∀ (reads : List (UpdateList × Expr)) (s : IndependentElementSet) (array : Array) (i : ℕ),
      Has (reads.foldl addRead s) array i ↔ Has s array i ∨ ∃ re ∈ reads, re.1.getRoot = array ∧
        ¬ (array.isConstantArray = true ∧ re.1.isRoot = true) ∧ re.2.mayIndex i := by
    intro reads
    induction reads with
    | nil => simp
    | cons re reads ih =>
      intro s array i
      rw [List.foldl_cons, ih, has_addRead, List.exists_mem_cons_iff, or_assoc]
  refine ⟨reads.foldl addRead ⟨∅, [], [e]⟩, by rw [ofExpr, hrun]; rfl, fun array i => ?_⟩
  rw [hfold]
  constructor
  · intro h
    obtain h | ⟨⟨updates, index⟩, hre, h⟩ := h
    · obtain h | ⟨dis, hlook, -⟩ := h
      · exact absurd h List.not_mem_nil
      · cases hlook
    · exact ⟨updates, index, (hreads updates index).1 hre, h⟩
  · intro h
    obtain ⟨updates, index, hre, h⟩ := h
    exact .inr ⟨(updates, index), (hreads updates index).2 hre, h⟩

/-- Element sets that do not intersect have no byte in common. -/
theorem disjoint_of_not_intersects (h : s.intersects b = false) : ¬ (Has s array i ∧ Has b array i) := by
  simp only [intersects, Bool.or_eq_false_iff, List.any_eq_false, Bool.or_eq_true, not_or,
    decide_eq_true_eq] at h
  obtain ⟨hwhole, helems⟩ := h
  intro hboth
  obtain ⟨hs | ⟨dis, hlook, hi⟩, hb⟩ := hboth
  · obtain ⟨hno, hno'⟩ := hwhole array hs
    obtain hb | ⟨dis, hlook, -⟩ := hb
    · exact hno hb
    · exact hno' (by rw [hlook]; rfl)
  · obtain ⟨hno, hno'⟩ := helems ⟨array, dis⟩ (AList.mem_lookup_iff.1 hlook)
    obtain hb | ⟨dis', hlook', hi'⟩ := hb
    · exact hno hb
    · simp only [hlook', decide_eq_true_eq] at hno'
      exact hno' ⟨i, Finset.mem_inter.2 ⟨hi, hi'⟩⟩

/-- What a loop body of `add` does: bytes are added, and the flag stays down only when they were there. -/
structure Adds (x y : IndependentElementSet × Bool) (new : Array → ℕ → Prop) : Prop where
  has : ∀ {array i}, Has y.1 array i ↔ Has x.1 array i ∨ new array i
  flag : y.2 = false → x.2 = false ∧ ∀ array i, new array i → Has x.1 array i

theorem adds_addWhole (x : IndependentElementSet × Bool) (root : Array) :
    Adds x (addWhole x root) fun array _ => array = root := by
  obtain ⟨s, modified⟩ := x
  unfold addWhole
  cases hlook : s.elements.lookup root with
  | some dis => exact ⟨has_whole root, fun h => nomatch h⟩
  | none =>
    simp only
    by_cases hwhole : root ∈ s.wholeObjects
    · rw [if_pos hwhole]
      have hmem : ∀ array i, array = root → Has s array i := fun array i h => .inl (h ▸ hwhole)
      exact ⟨fun {array i} => (or_iff_left_of_imp (hmem array i)).symm, fun h => ⟨h, hmem⟩⟩
    · rw [if_neg hwhole]
      refine ⟨fun {array i} => ?_, fun h => nomatch h⟩
      simp only [Has, List.mem_insert_iff]
      rw [or_assoc, or_comm (a := array = root)]

theorem adds_addElements (x : IndependentElementSet × Bool) (entry : (_ : Array) × Finset ℕ) :
    Adds x (addElements x entry) fun array i => array = entry.1 ∧ i ∈ entry.2 := by
  obtain ⟨s, modified⟩ := x
  obtain ⟨root, dis⟩ := entry
  unfold addElements
  by_cases hwhole : root ∈ s.wholeObjects
  · rw [if_pos hwhole]
    have hmem : ∀ array i, array = root ∧ i ∈ dis → Has s array i := fun array i h => .inl (h.1 ▸ hwhole)
    exact ⟨fun {array i} => (or_iff_left_of_imp (hmem array i)).symm, fun h => ⟨h, hmem⟩⟩
  · rw [if_neg hwhole]
    cases hlook : s.elements.lookup root with
    | none =>
      refine ⟨has_insert root dis fun j hj => ?_, fun h => nomatch h⟩
      rw [hlook] at hj
      exact absurd hj (Finset.notMem_empty j)
    | some old =>
      simp only
      refine ⟨fun {array i} => ?_, fun h => ?_⟩
      · simp only
        rw [has_insert root (old ∪ dis) fun j hj => by rw [hlook] at hj; exact Finset.mem_union_left _ hj]
        constructor
        · intro h
          obtain h | ⟨rfl, hi⟩ := h
          · exact .inl h
          · obtain hi | hi := Finset.mem_union.1 hi
            · exact .inl (.inr ⟨old, hlook, hi⟩)
            · exact .inr ⟨rfl, hi⟩
        · intro h
          exact h.imp_right fun h => ⟨h.1, Finset.mem_union_right _ h.2⟩
      · simp only [Bool.or_eq_false_iff, decide_eq_false_iff_not, not_not] at h
        refine ⟨h.1, fun array i hnew => ?_⟩
        obtain ⟨rfl, hi⟩ := hnew
        exact .inr ⟨old, hlook, h.2 hi⟩

/-- A loop over such bodies. -/
theorem adds_foldl {α : Type} {f : IndependentElementSet × Bool → α → IndependentElementSet × Bool}
    {new : α → Array → ℕ → Prop} (hf : ∀ x a, Adds x (f x a) (new a)) (l : List α) :
    ∀ x, Adds x (l.foldl f x) fun array i => ∃ a ∈ l, new a array i := by
  induction l with
  | nil =>
    intro x
    refine ⟨by simp, fun h => ⟨h, fun array i hnew => ?_⟩⟩
    obtain ⟨a, ha, -⟩ := hnew
    exact absurd ha List.not_mem_nil
  | cons a l ih =>
    intro x
    have hhead := hf x a
    have htail := ih (f x a)
    refine ⟨fun {array i} => ?_, fun h => ?_⟩
    · rw [List.foldl_cons, htail.has, hhead.has, List.exists_mem_cons_iff, or_assoc]
    · obtain ⟨hflag, hnew⟩ := htail.flag h
      obtain ⟨hflag', hnew'⟩ := hhead.flag hflag
      refine ⟨hflag', fun array i hin => ?_⟩
      obtain hin | hin := (List.exists_mem_cons_iff _ _ _).1 hin
      · exact hnew' array i hin
      · exact (hhead.has.1 (hnew array i hin)).elim (fun h => h) (hnew' array i)

/-- `add` is the union, and reports a change. -/
theorem adds_add (s b : IndependentElementSet) : Adds (s, false) (add s b) (Has b) := by
  have hwhole := adds_foldl adds_addWhole b.wholeObjects ({ s with exprs := s.exprs ++ b.exprs }, false)
  have helems := adds_foldl adds_addElements b.elements.entries
    (b.wholeObjects.foldl addWhole ({ s with exprs := s.exprs ++ b.exprs }, false))
  have hb : ∀ array i, Has b array i ↔
      (∃ root ∈ b.wholeObjects, array = root) ∨ ∃ entry ∈ b.elements.entries, array = entry.1 ∧ i ∈ entry.2 := by
    intro array i
    refine or_congr ⟨fun h => ⟨array, h, rfl⟩, fun h => ?_⟩ ⟨fun h => ?_, fun h => ?_⟩
    · obtain ⟨root, hroot, rfl⟩ := h
      exact hroot
    · obtain ⟨dis, hlook, hi⟩ := h
      exact ⟨⟨array, dis⟩, AList.mem_lookup_iff.1 hlook, rfl, hi⟩
    · obtain ⟨⟨root, dis⟩, hentry, rfl, hi⟩ := h
      exact ⟨dis, AList.mem_lookup_iff.2 hentry, hi⟩
  refine ⟨fun {array i} => ?_, fun h => ?_⟩
  · rw [add, helems.has, hwhole.has, hb, or_assoc]
    exact Iff.rfl
  · obtain ⟨hflag, hnew⟩ := helems.flag h
    obtain ⟨-, hnew'⟩ := hwhole.flag hflag
    refine ⟨rfl, fun array i hin => ?_⟩
    obtain hin | hin := (hb array i).1 hin
    · exact hnew' array i hin
    · obtain h | h := hwhole.has.1 (hnew array i hin)
      · exact h
      · exact hnew' array i h

end IndependentElementSet

/-! ### The worklist -/

open IndependentElementSet

/-- The variables of a pass over the worklist. -/
structure Pass where
  eltsClosure : IndependentElementSet
  result : List Expr
  newWorklist : List (Expr × IndependentElementSet)
  done : Bool

/-- The loop body of a pass. -/
def Pass.visit (p : Pass) (it : Expr × IndependentElementSet) : Pass :=
  if it.2.intersects p.eltsClosure then
    let (eltsClosure, modified) := p.eltsClosure.add it.2
    { p with
      eltsClosure := eltsClosure
      result := p.result ++ [it.1]
      done := p.done && !modified }
  else { p with newWorklist := p.newWorklist ++ [it] }

/-- The outer loop: pass over the worklist until nothing is added. -/
def independentLoop : ℕ → List (Expr × IndependentElementSet) → IndependentElementSet → List Expr →
    Option (IndependentElementSet × List Expr)
  | 0, _, _, _ => none
  | fuel + 1, worklist, eltsClosure, result =>
    let p := worklist.foldl Pass.visit ⟨eltsClosure, result, [], true⟩
    if p.done then some (p.eltsClosure, p.result)
    else independentLoop fuel p.newWorklist p.eltsClosure p.result

/-- `getIndependentConstraints`; a pass that is not the last one takes a constraint from the worklist. -/
def getIndependentConstraints (query : Query) : Option (IndependentElementSet × List Expr) := do
  let eltsClosure ← ofExpr query.expr
  let worklist ← query.constraints.mapM fun constraint => (ofExpr constraint).map fun ies => (constraint, ies)
  independentLoop (query.constraints.length + 1) worklist eltsClosure []

/-- The invariant: the closure has the bytes of the expression and of what was kept, and every constraint is
either kept or on the worklist. -/
structure Slice (query : Query) (eltsClosure : IndependentElementSet) (result : List Expr)
    (worklist : List (Expr × IndependentElementSet)) : Prop where
  expr : ∀ array i, query.expr.Touches array i → eltsClosure.Has array i
  kept : ∀ c ∈ result, c ∈ query.constraints ∧ ∀ array i, c.Touches array i → eltsClosure.Has array i
  items : ∀ it ∈ worklist, it.1 ∈ query.constraints ∧ ∀ array i, it.2.Has array i ↔ it.1.Touches array i
  all : ∀ c ∈ query.constraints, c ∈ result ∨ ∃ it ∈ worklist, it.1 = c

/-- What was put back on the worklist has no byte of the closure. -/
def Apart (eltsClosure : IndependentElementSet) (worklist : List (Expr × IndependentElementSet)) : Prop :=
  ∀ it ∈ worklist, ∀ array i, ¬ (it.2.Has array i ∧ eltsClosure.Has array i)

variable {query : Query}

/-- Keeping a constraint. -/
theorem Slice.keep {elts elts' : IndependentElementSet} {result : List Expr}
    {front rest : List (Expr × IndependentElementSet)} {it : Expr × IndependentElementSet}
    (h : Slice query elts result (front ++ it :: rest))
    (hadds : ∀ array i, elts'.Has array i ↔ elts.Has array i ∨ it.2.Has array i) :
    Slice query elts' (result ++ [it.1]) (front ++ rest) := by
  obtain ⟨hmem, hbytes⟩ := h.items it (List.mem_append_right _ List.mem_cons_self)
  refine ⟨fun array i ht => (hadds array i).2 (.inl (h.expr array i ht)), fun c hc => ?_, fun it' hit => ?_, fun c hc => ?_⟩
  · obtain hc | hc := List.mem_append.1 hc
    · exact ⟨(h.kept c hc).1, fun array i ht => (hadds array i).2 (.inl ((h.kept c hc).2 array i ht))⟩
    · rw [List.mem_singleton.1 hc]
      exact ⟨hmem, fun array i ht => (hadds array i).2 (.inr ((hbytes array i).2 ht))⟩
  · obtain hit | hit := List.mem_append.1 hit
    · exact h.items it' (List.mem_append_left _ hit)
    · exact h.items it' (List.mem_append_right _ (List.mem_cons_of_mem _ hit))
  · obtain hc | ⟨it', hit, rfl⟩ := h.all c hc
    · exact .inl (List.mem_append_left _ hc)
    · obtain hit | hit := List.mem_append.1 hit
      · exact .inr ⟨it', List.mem_append_left _ hit, rfl⟩
      · obtain rfl | hit := List.mem_cons.1 hit
        · exact .inl (List.mem_append_right _ (List.mem_singleton_self _))
        · exact .inr ⟨it', List.mem_append_right _ hit, rfl⟩

/-- A pass keeps the invariant; if it added nothing then the rest is apart, and else it took something from
the worklist. -/
theorem pass_spec (rest : List (Expr × IndependentElementSet)) : ∀ {p : Pass} {n : ℕ},
    Slice query p.eltsClosure p.result (p.newWorklist ++ rest) →
    (p.done = true → Apart p.eltsClosure p.newWorklist) →
    p.newWorklist.length + rest.length ≤ n → (p.done = false → p.newWorklist.length + rest.length < n) →
    Slice query (rest.foldl Pass.visit p).eltsClosure (rest.foldl Pass.visit p).result
        (rest.foldl Pass.visit p).newWorklist ∧
      ((rest.foldl Pass.visit p).done = true →
        Apart (rest.foldl Pass.visit p).eltsClosure (rest.foldl Pass.visit p).newWorklist) ∧
      ((rest.foldl Pass.visit p).done = false → (rest.foldl Pass.visit p).newWorklist.length < n) := by
  induction rest with
  | nil =>
    intro p n hslice hapart _ hlen
    rw [List.append_nil] at hslice
    exact ⟨hslice, hapart, fun h => by simpa using hlen h⟩
  | cons it rest ih =>
    intro p n hslice hapart hle hlt
    rw [List.length_cons] at hle hlt
    rw [List.foldl_cons]
    unfold Pass.visit
    by_cases hint : it.2.intersects p.eltsClosure = true
    · rw [if_pos hint]
      have hadds := adds_add p.eltsClosure it.2
      refine ih (hslice.keep fun array i => hadds.has) ?_ (by simp only; omega) (fun _ => by simp only; omega)
      intro hdone
      simp only [Bool.and_eq_true, Bool.not_eq_true'] at hdone
      obtain ⟨hold, hnew⟩ := hdone
      -- the closure did not change
      intro it' hit array i hboth
      obtain ⟨-, hsame⟩ := hadds.flag hnew
      exact hapart hold it' hit array i ⟨hboth.1, (hadds.has.1 hboth.2).elim (fun h => h) (hsame array i)⟩
    · rw [if_neg hint]
      rw [Bool.not_eq_true] at hint
      refine ih (by simpa using hslice) ?_ (by simp only [List.length_append, List.length_singleton]; omega) ?_
      · intro hdone it' hit array i
        obtain hit | hit := List.mem_append.1 hit
        · exact hapart hdone it' hit array i
        · rw [List.mem_singleton.1 hit]
          exact disjoint_of_not_intersects hint
      · intro hdone
        have := hlt hdone
        simp only [List.length_append, List.length_singleton]
        omega

theorem independentLoop_spec (fuel : ℕ) : ∀ {worklist : List (Expr × IndependentElementSet)}
    {elts : IndependentElementSet} {result : List Expr}, worklist.length < fuel →
    Slice query elts result worklist →
    ∃ elts' result' dropped, independentLoop fuel worklist elts result = some (elts', result') ∧
      Slice query elts' result' dropped ∧ Apart elts' dropped := by
  induction fuel with
  | zero =>
    intro worklist elts result hfuel
    exact absurd hfuel (Nat.not_lt_zero _)
  | succ fuel ih =>
    intro worklist elts result hfuel hslice
    obtain ⟨hslice', hapart, hlen⟩ := pass_spec worklist (p := ⟨elts, result, [], true⟩) (n := worklist.length)
      hslice (fun _ it hit => absurd hit List.not_mem_nil) (by simp) (fun h => nomatch h)
    unfold independentLoop
    simp only
    by_cases hdone : (worklist.foldl Pass.visit ⟨elts, result, [], true⟩).done = true
    · rw [if_pos hdone]
      exact ⟨_, _, _, rfl, hslice', hapart hdone⟩
    · rw [if_neg hdone]
      rw [Bool.not_eq_true] at hdone
      exact ih (lt_of_lt_of_le (hlen hdone) (Nat.lt_succ_iff.1 hfuel)) hslice'

/-- `getIndependentConstraints` returns, and splits the constraints by their bytes. -/
theorem getIndependentConstraints_spec (query : Query) : ∃ elts required dropped,
    getIndependentConstraints query = some (elts, required) ∧ Slice query elts required dropped ∧
      Apart elts dropped := by
  obtain ⟨elts, hrun, hexpr⟩ := has_ofExpr query.expr
  have hworklist : ∀ constraints : ConstraintSet, ∃ worklist,
      constraints.mapM (fun constraint => (ofExpr constraint).map fun ies => (constraint, ies)) = some worklist ∧
        worklist.length = constraints.length ∧
        (∀ it ∈ worklist, it.1 ∈ constraints ∧ ∀ array i, it.2.Has array i ↔ it.1.Touches array i) ∧
        ∀ c ∈ constraints, ∃ it ∈ worklist, it.1 = c := by
    intro constraints
    induction constraints with
    | nil => exact ⟨[], rfl, rfl, by simp, by simp⟩
    | cons c constraints ih =>
      obtain ⟨worklist, hmap, hlen, hitems, hall⟩ := ih
      obtain ⟨ies, hies, hbytes⟩ := has_ofExpr c
      refine ⟨(c, ies) :: worklist, ?_, by simp [hlen], fun it hit => ?_, fun c' hc' => ?_⟩
      · simp [List.mapM_cons, hies, hmap]
      · obtain rfl | hit := List.mem_cons.1 hit
        · exact ⟨List.mem_cons_self, hbytes⟩
        · exact ⟨List.mem_cons_of_mem _ (hitems it hit).1, (hitems it hit).2⟩
      · obtain rfl | hc' := List.mem_cons.1 hc'
        · exact ⟨(c', ies), List.mem_cons_self, rfl⟩
        · obtain ⟨it, hit, heq⟩ := hall c' hc'
          exact ⟨it, List.mem_cons_of_mem _ hit, heq⟩
  obtain ⟨worklist, hmap, hlen, hitems, hall⟩ := hworklist query.constraints
  obtain ⟨elts', required, dropped, hloop, hslice, hapart⟩ := independentLoop_spec (query.constraints.length + 1)
    (by rw [hlen]; exact Nat.lt_succ_self _)
    (show Slice query elts [] worklist from
      ⟨fun array i => (hexpr array i).2, fun c hc => absurd hc List.not_mem_nil, hitems, fun c hc => .inr (hall c hc)⟩)
  refine ⟨elts', required, dropped, ?_, hslice, hapart⟩
  simp only [getIndependentConstraints, hrun, hmap, Option.bind_eq_bind, Option.bind_some]
  exact hloop

/-- The bytes of the closure from one assignment, all others from another. -/
noncomputable def IndependentElementSet.mix (elts : IndependentElementSet) (a b : Assignment) : Assignment :=
  fun array i => open Classical in if elts.Has array i then a array i else b array i

section

variable {elts : IndependentElementSet} {required : List Expr}
  {dropped : List (Expr × IndependentElementSet)} {a b : Assignment}

/-- A model of what is kept and a model of all constraints make a model of all constraints that does not
differ from the first one on the expression. -/
theorem Slice.satisfies_mix (h : Slice query elts required dropped) (hapart : Apart elts dropped)
    (ha : Satisfies a required) (hb : Satisfies b query.constraints) :
    Satisfies (elts.mix a b) query.constraints := by
  intro c hc
  obtain hkept | ⟨it, hit, rfl⟩ := h.all c hc
  · refine Expr.holds_congr (fun array i ht => ?_) (ha c hkept)
    rw [IndependentElementSet.mix, if_pos ((h.kept c hkept).2 array i ht)]
  · refine Expr.holds_congr (fun array i ht => ?_) (hb it.1 hc)
    have hno : ¬ elts.Has array i := fun hhas => hapart it hit array i ⟨((h.items it hit).2 array i).2 ht, hhas⟩
    rw [IndependentElementSet.mix, if_neg hno]

theorem Slice.holds_mix (h : Slice query elts required dropped) :
    query.expr.Holds (elts.mix a b) ↔ query.expr.Holds a := by
  have hsame : ∀ array i, query.expr.Touches array i → elts.mix a b array i = a array i := by
    intro array i ht
    rw [IndependentElementSet.mix, if_pos (h.expr array i ht)]
  exact ⟨Expr.holds_congr fun array i ht => (hsame array i ht).symm, Expr.holds_congr hsame⟩

end

/-- **Slicing.**  Under satisfiable constraints, the expression is valid, and is satisfiable, exactly when it is
under the constraints that `getIndependentConstraints` returns; and no byte that the expression or one of these
may read from an assignment may be read by a constraint that was dropped. -/
theorem getIndependentConstraints_exact (query : Query) (hsat : query.constraints.Satisfiable) :
    ∃ elts required, getIndependentConstraints query = some (elts, required) ∧
      (∀ c ∈ required, c ∈ query.constraints) ∧
      (Entails required query.expr ↔ query.constraints.Entails query.expr) ∧
      (Query.MayHold ⟨required, query.expr⟩ ↔ query.MayHold) ∧
      ∀ c ∈ query.constraints, c ∉ required → ∀ e, e = query.expr ∨ e ∈ required →
        ∀ array i, e.Touches array i → ¬ c.Touches array i := by
  obtain ⟨elts, required, dropped, hrun, hslice, hapart⟩ := getIndependentConstraints_spec query
  obtain ⟨b, hb⟩ := hsat
  have hsub : ∀ c ∈ required, c ∈ query.constraints := fun c hc => (hslice.kept c hc).1
  refine ⟨elts, required, hrun, hsub, ⟨fun h a ha => ?_, fun h a ha => ?_⟩, ⟨fun h => ?_, fun h => ?_⟩, ?_⟩
  · exact h a fun c hc => ha c (hsub c hc)
  · exact hslice.holds_mix.1 (h _ (hslice.satisfies_mix hapart ha hb))
  · obtain ⟨a, ha, hholds⟩ := h
    exact ⟨elts.mix a b, hslice.satisfies_mix hapart ha hb, hslice.holds_mix.2 hholds⟩
  · obtain ⟨a, ha, hholds⟩ := h
    exact ⟨a, fun c hc => ha c (hsub c hc), hholds⟩
  · intro c hc hdropped e he array i ht htc
    obtain ⟨it, hit, rfl⟩ := (hslice.all c hc).resolve_left hdropped
    refine hapart it hit array i ⟨((hslice.items it hit).2 array i).2 htc, ?_⟩
    obtain rfl | he := he
    · exact hslice.expr array i ht
    · exact (hslice.kept e he).2 array i ht

/-! ### Two constraints through one constant table -/

/-- A symbolic array of one byte. -/
def sliceArray (ptr : ℕ) : Array := ⟨ptr, "x", 1, [], Array.oneByte_lt, Array.oneByte_values⟩

/-- A constant array of one byte. -/
def sliceTable : Array := ⟨2, "table", 1, [0#8], Array.oneByte_lt, .inr rfl⟩

/-- `table[x[0]] == 0`. -/
def sliceLookup (ptr : ℕ) : Expr :=
  .cmp .eq (.const 0#8) (.read (.root sliceTable) (.zext (.read (.root (sliceArray ptr)) (.const 0#32)) 32))

theorem sliceLookup_holds (ptr : ℕ) : (sliceLookup ptr).Holds fun _ _ => 0 := by
  refine ⟨⟨trivial, ⟨trivial, ?_⟩, ?_⟩, rfl⟩
  · intro h
    cases h
  · intro _
    exact Nat.zero_lt_one

/-- The slicing at a query whose constraint reads the same constant table at another byte. -/
theorem getIndependentConstraints_exact_table :
    ∃ elts required, getIndependentConstraints ⟨[sliceLookup 1], sliceLookup 0⟩ = some (elts, required) ∧
      (Entails required (sliceLookup 0) ↔ Entails [sliceLookup 1] (sliceLookup 0)) := by
  obtain ⟨elts, required, hrun, -, hvalid, -⟩ := getIndependentConstraints_exact ⟨[sliceLookup 1], sliceLookup 0⟩
    ⟨fun _ _ => 0, fun c hc => List.mem_singleton.1 hc ▸ sliceLookup_holds 1⟩
  exact ⟨elts, required, hrun, hvalid⟩

/-- The dropped constraint reads the table at a symbolic index, and so does the expression. -/
theorem getIndependentConstraints_shares_table :
    Satisfiable [sliceLookup 1] ∧
      (∃ elts, getIndependentConstraints ⟨[sliceLookup 1], sliceLookup 0⟩ = some (elts, [])) ∧
      (sliceLookup 0).ReadsByte sliceTable 0 ∧ (sliceLookup 1).ReadsByte sliceTable 0 := by
  refine ⟨⟨fun _ _ => 0, fun c hc => List.mem_singleton.1 hc ▸ sliceLookup_holds 1⟩, ⟨_, rfl⟩, ?_, ?_⟩
  · exact ⟨.root sliceTable, .zext (.read (.root (sliceArray 0)) (.const 0#32)) 32,
      by simp [sliceLookup, Expr.subexprs], rfl, trivial⟩
  · exact ⟨.root sliceTable, .zext (.read (.root (sliceArray 1)) (.const 0#32)) 32,
      by simp [sliceLookup, Expr.subexprs], rfl, trivial⟩

end SymBisect
