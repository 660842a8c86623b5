import SymBisect.Core.PathCondition
import SymBisect.Expr.AssignmentEvaluate

/-!
# Patching a seed

`SeedInfo::patchSeed` of `lib/Core/SeedInfo.cpp`: the bytes of a seed that contradict a new condition are replaced by what the
solver says, one by one, against a growing set of constraints.  First come the bytes the condition reads directly; when the
condition may hold with them, patching stops, whatever the older constraints say.

* `patchByte_spec`: one byte is kept if it can be, and otherwise taken from a model of what is required.
* `Keeps`: the models whose bytes a run may take, in the order in which it asks.
* `Tied`: the older constraints that tie a replaced byte to one that stays; `satisfies_patched_iff`: only these can fail.
* `patchSeed_satisfies_iff`: for which states, conditions and seeds the patched seed satisfies the constraints and the
  condition.

The seed's assignment may leave bytes free.  The random access `it->second[i]` past the end of the bytes is an abort.
-/

namespace SymBisect

open Expr ConstraintSet Lib

namespace Bindings

/-- `bindings.find(array)->second[index] = value`. -/
def setByte : Bindings → Array → ℕ → BitVec 8 → Bindings
  | [], _, _, _ => []
  | (arr, bytes) :: b, array, index, value =>
    if array = arr then (arr, bytes.set index value) :: b else (arr, bytes) :: setByte b array index value

/-- The assignment with the bytes of another one where it has none. -/
def complete (b : Bindings) (a : Assignment) : Assignment := fun array index => (b.byteAt array index).getD (a array index)

theorem Agrees.complete {b : Bindings} {a : Assignment} (h : b.Agrees a) : b.complete a = a := by
  funext arr i
  show (b.byteAt arr i).getD (a arr i) = a arr i
  cases hbyte : b.byteAt arr i with
  | none => rfl
  | some v => exact (h arr i v hbyte).symm

theorem agrees_complete (b : Bindings) (a : Assignment) : b.Agrees (b.complete a) := fun arr i v h => by
  show (b.byteAt arr i).getD (a arr i) = v
  rw [h]
  rfl

/-- For some choice of the free values the constraints are satisfied. -/
def Satisfies (b : Bindings) (constraints : ConstraintSet) : Prop := ∃ a, ConstraintSet.Satisfies (b.complete a) constraints

end Bindings

namespace SeedInfo

/-! ### The function -/

section
variable [ExprOptions]

/-- `Assignment::evaluate`, where free values are allowed. -/
def evaluate (b : Bindings) (e : Expr) : Expr := ExprEvaluator.visitWith (b.getInitialValue true) e

/-- The byte that a read with a constant index reads directly. -/
def directRead : UpdateList × Expr → Option (Array × ℕ)
  | (updates, .const v) => some (updates.getRoot, (v.setWidth 32).toNat)
  | _ => none

/-- The order of `std::pair<const Array*, unsigned>`. -/
def before (p q : Array × ℕ) : Prop := p.1.ptr < q.1.ptr ∨ p.1.ptr = q.1.ptr ∧ p.2 ≤ q.2

instance : DecidableRel before := fun _ _ => inferInstanceAs (Decidable (_ ∨ _ ∧ _))

/-- The set of `directReads`, in its order. -/
def directReads (condition : Expr) : Option (List (Array × ℕ)) :=
  (findReads condition false).map fun reads => (reads.filterMap directRead).dedup.insertionSort before

/-- What patching works on: the seed's assignment, the constraints required so far and the time. -/
structure Patching where
  assignment : Bindings
  required : ConstraintSet
  clock : ℕ

/-- A call of the solver, with the assertion that it succeeds. -/
def ask {α : Type} (query : ℕ → Option α) : Prog Patching α := do
  let s ← Prog.get
  Prog.modify fun s => { s with clock := s.clock + 1 }
  Prog.unwrap (query s.clock)

/-- `cm.addConstraint`. -/
def addConstraint (e : Expr) : Prog Patching PUnit := do
  let s ← Prog.get
  let required ← Prog.unwrap (ConstraintManager.addConstraint s.required e)
  Prog.modify fun s => { s with required := required }

/-- `ReadExpr::create(UpdateList(array, 0), ConstantExpr::alloc(i, Expr::Int32))`. -/
def readByte (array : Array) (i : ℕ) : Expr := ReadExpr.create (.root array) (.const (BitVec.ofNat 32 i))

/-- `EqExpr::create(read, ConstantExpr::alloc(value, Expr::Int8))`. -/
def isByte (array : Array) (i : ℕ) (value : BitVec 8) : Expr := EqExpr.create (readByte array i) (.const value)

variable (solver : SolverChain)

/-- The body of both loops: the byte is kept if it may be, and otherwise replaced. -/
def patchByte (array : Array) (i : ℕ) : Prog Patching PUnit := do
  let s ← Prog.get
  let seed ← Prog.unwrap (s.assignment.byteAt array i)
  let res ← ask fun n => solver.mustBeTrue n s.required (createIsZero (isByte array i seed))
  if res then do
    let value ← ask fun n => solver.getValue n s.required (readByte array i)
    Prog.modify fun s => { s with assignment := s.assignment.setByte array i (value.setWidth 8) }
    addConstraint (isByte array i (value.setWidth 8))
  else addConstraint (isByte array i seed)

/-- The first loop's body. -/
def patchDirectRead (p : Array × ℕ) : Prog Patching PUnit := do
  let s ← Prog.get
  -- If not in bindings then this can't be a violation?
  Prog.when ((s.assignment.find p.1).isSome = true) (patchByte solver p.1 p.2)

/-- `solver->mayBeTrue(state.constraints, assignment.evaluate(condition))`. -/
def mayHold (constraints : ConstraintSet) (condition : Expr) : Prog Patching Bool := do
  let s ← Prog.get
  ask fun n => solver.mayBeTrue n constraints (evaluate s.assignment condition)

/-- The second loop, and the assertion behind it. -/
def patchAll (constraints : ConstraintSet) (condition : Expr) : Prog Patching PUnit := do
  let s ← Prog.get
  Prog.each (fun array => Prog.each (patchByte solver array) (List.range array.size)) (s.assignment.map Prod.fst)
  let res ← mayHold solver constraints condition
  -- seed patching failed
  Prog.assert (res = true)

/-- `patchSeed`. -/
def patchSeed (constraints : ConstraintSet) (condition : Expr) : Prog Patching PUnit := do
  Prog.modify fun s => { s with required := constraints }
  addConstraint condition
  let reads ← Prog.unwrap (directReads condition)
  -- Try and patch direct reads first, this is likely to resolve the problem quickly and avoids long traversal of all seed
  -- values.
  Prog.each (patchDirectRead solver) reads
  let res ← mayHold solver constraints condition
  if res then pure ⟨⟩ else patchAll solver constraints condition

end

/-! ### The bindings -/

end SeedInfo

namespace Bindings

variable {b : Bindings} {array arr : Array} {i j : ℕ} {v w : BitVec 8}

theorem find_setByte (b : Bindings) (array : Array) (i : ℕ) (v : BitVec 8) (arr : Array) :
    (b.setByte array i v).find arr = if arr = array then (b.find array).map (·.set i v) else b.find arr := by
  induction b with
  | nil =>
    show none = _
    split <;> rfl
  | cons entry b ih =>
    obtain ⟨key, bytes⟩ := entry
    have hcons : ∀ (bytes : List (BitVec 8)) (b : Bindings) (x : Array),
        find ((key, bytes) :: b) x = if x = key then some bytes else b.find x := fun bytes b x => by
      rw [find, List.lookup_cons]
      by_cases hx : x = key
      · simp [hx]
      · have hne : (x == key) = false := beq_eq_false_iff_ne.2 hx
        simp [hne, hx, find]
    unfold setByte
    by_cases hk : array = key
    · rw [if_pos hk, hcons, hcons, hcons, if_pos hk, hk]
      by_cases hx : arr = key
      · rw [if_pos hx, if_pos hx]
        rfl
      · rw [if_neg hx, if_neg hx, if_neg hx]
    · rw [if_neg hk, hcons, hcons, hcons, if_neg hk, ih]
      by_cases hx : arr = key
      · have hne : arr ≠ array := fun h => hk (h.symm.trans hx)
        rw [if_pos hx, if_neg hne, if_pos hx]
      · rw [if_neg hx, if_neg hx]

/-- A byte that is bound is replaced, and no other. -/
theorem byteAt_setByte (b : Bindings) (array : Array) (i : ℕ) (v : BitVec 8) (arr : Array) (j : ℕ) :
    (b.setByte array i v).byteAt arr j =
      if arr = array ∧ j = i then (b.byteAt array i).map fun _ => v else b.byteAt arr j := by
  unfold byteAt
  rw [find_setByte]
  by_cases harr : arr = array
  · subst harr
    rw [if_pos rfl]
    cases b.find arr with
    | none => simp
    | some bytes =>
      show (bytes.set i v)[j]? = if arr = arr ∧ j = i then bytes[i]?.map fun _ => v else bytes[j]?
      rw [List.getElem?_set]
      by_cases hj : j = i
      · subst hj
        rw [if_pos rfl, if_pos (show arr = arr ∧ j = j from ⟨rfl, rfl⟩)]
        by_cases hlt : j < bytes.length
        · rw [if_pos hlt, List.getElem?_eq_getElem hlt]
          rfl
        · rw [if_neg hlt, List.getElem?_eq_none (Nat.not_lt.1 hlt)]
          rfl
      · rw [if_neg (Ne.symm hj), if_neg fun h => hj h.2]
  · rw [if_neg harr, if_neg fun h => harr h.1]

/-- Putting the byte there that is there changes nothing. -/
theorem setByte_self (h : b.byteAt array i = some v) : b.setByte array i v = b := by
  induction b with
  | nil => rfl
  | cons entry b ih =>
    obtain ⟨key, bytes⟩ := entry
    unfold setByte
    unfold byteAt at h ih
    rw [find, List.lookup_cons] at h
    by_cases hk : array = key
    · rw [if_pos hk]
      have hbyte : bytes[i]? = some v := by simpa [hk] using h
      obtain ⟨hlt, hget⟩ := List.getElem?_eq_some_iff.1 hbyte
      rw [← hget, List.set_getElem_self]
    · have hne : (array == key) = false := beq_eq_false_iff_ne.2 hk
      rw [hne] at h
      rw [if_neg hk, ih h]

/-- Taking the bytes of a model. -/
def patched (b : Bindings) (bytes : List (Array × ℕ)) (r : Assignment) : Bindings :=
  bytes.foldl (fun b p => b.setByte p.1 p.2 (r p.1 p.2)) b

theorem find_patched_isSome (bytes : List (Array × ℕ)) (r : Assignment) (arr : Array) :
    ∀ b : Bindings, ((b.patched bytes r).find arr).isSome = (b.find arr).isSome := by
  induction bytes with
  | nil => exact fun _ => rfl
  | cons p bytes ih =>
    intro b
    show ((patched (b.setByte p.1 p.2 (r p.1 p.2)) bytes r).find arr).isSome = _
    rw [ih, find_setByte]
    by_cases harr : arr = p.1
    · rw [if_pos harr, Option.isSome_map, harr]
    · rw [if_neg harr]

theorem setByte_of_find_none (b : Bindings) (array : Array) (i : ℕ) (v : BitVec 8) (h : b.find array = none) :
    b.setByte array i v = b := by
  induction b with
  | nil => rfl
  | cons entry b ih =>
    obtain ⟨key, bytes⟩ := entry
    rw [find, List.lookup_cons] at h
    unfold setByte
    by_cases hk : array = key
    · simp [hk] at h
    · have hne : (array == key) = false := beq_eq_false_iff_ne.2 hk
      rw [hne] at h
      rw [if_neg hk, ih h]

theorem byteAt_setByte_isSome (b : Bindings) (array : Array) (i : ℕ) (v : BitVec 8) (arr : Array) (j : ℕ) :
    ((b.setByte array i v).byteAt arr j).isSome = (b.byteAt arr j).isSome := by
  rw [byteAt_setByte]
  by_cases h : arr = array ∧ j = i
  · rw [if_pos h, Option.isSome_map, h.1, h.2]
  · rw [if_neg h]

theorem byteAt_patched_isSome (bytes : List (Array × ℕ)) (r : Assignment) (arr : Array) (j : ℕ) :
    ∀ b : Bindings, ((b.patched bytes r).byteAt arr j).isSome = (b.byteAt arr j).isSome := by
  induction bytes with
  | nil => exact fun _ => rfl
  | cons p bytes ih => exact fun b => (ih (b.setByte p.1 p.2 (r p.1 p.2))).trans (byteAt_setByte_isSome ..)

theorem byteAt_isSome_find {b : Bindings} {array : Array} {i : ℕ} (h : (b.byteAt array i).isSome = true) :
    (b.find array).isSome = true := by
  unfold byteAt at h
  cases hf : b.find array with
  | none =>
    rw [hf] at h
    cases h
  | some bytes => rfl

/-- The bytes that were taken are the model's, and the others are as before. -/
theorem byteAt_patched (bytes : List (Array × ℕ)) (r : Assignment) (arr : Array) (j : ℕ) :
    ∀ b : Bindings, (b.patched bytes r).byteAt arr j =
      if (arr, j) ∈ bytes then (b.byteAt arr j).map fun _ => r arr j else b.byteAt arr j := by
  induction bytes with
  | nil => exact fun _ => rfl
  | cons p bytes ih =>
    intro b
    obtain ⟨array, i⟩ := p
    show (patched (b.setByte array i (r array i)) bytes r).byteAt arr j = _
    rw [ih, byteAt_setByte]
    by_cases hhead : arr = array ∧ j = i
    · obtain ⟨rfl, rfl⟩ := hhead
      rw [if_pos (show arr = arr ∧ j = j from ⟨rfl, rfl⟩), if_pos List.mem_cons_self, Option.map_map]
      exact ite_self _
    · have hne : (arr, j) ≠ (array, i) := fun h => hhead (Prod.mk.inj h)
      have hmem : (arr, j) ∈ (array, i) :: bytes ↔ (arr, j) ∈ bytes := by
        rw [List.mem_cons, or_iff_right hne]
      rw [if_neg hhead]
      exact if_congr hmem.symm rfl rfl

end Bindings

namespace SeedInfo

/-! ### What is required -/

/-- The constraints are satisfied in `M`, and elsewhere one of them fails. -/
structure Represents (required : ConstraintSet) (M : Assignment → Prop) : Prop where
  isBool : required.IsBool
  satisfies : ∀ a, M a → ConstraintSet.Satisfies a required
  fails : ∀ a, ¬M a → FailsSome a required

variable {required : ConstraintSet} {M M' : Assignment → Prop} {a : Assignment} {e : Expr} {array : Array} {i : ℕ}
  {v seed : BitVec 8}

theorem Represents.satisfies_iff (h : Represents required M) : ConstraintSet.Satisfies a required ↔ M a :=
  ⟨fun hs => by_contra fun hM => not_satisfies_of_failsSome (h.fails a hM) hs, h.satisfies a⟩

theorem Represents.congr (h : Represents required M) (hM : ∀ a, M a ↔ M' a) : Represents required M' :=
  ⟨h.isBool, fun a ha => h.satisfies a ((hM a).2 ha), fun a ha => h.fails a fun h' => ha ((hM a).1 h')⟩

section
variable [ExprOptions] {solver : SolverChain}

/-- A constraint that can be satisfied is added. -/
theorem Represents.addConstraint (h : Represents required M) (he : e.HasWidth 1) (hd : ∀ a, e.Defined a)
    (hex : ∃ a, M a ∧ e.Holds a) :
    ∃ res, ConstraintManager.addConstraint required e = some res ∧ Represents res fun a => M a ∧ e.Holds a := by
  have hpres := ConstraintManager.addConstraint_preserves_decided h.isBool he
  have hadd : ∀ a, M a → e.Holds a → ∃ res, ConstraintManager.addConstraint required e = some res ∧
      ConstraintSet.Satisfies a res := fun a hM hh =>
    hpres.satisfies a trivial (satisfies_push_back.2 ⟨h.satisfies a hM, hh⟩)
  obtain ⟨a₀, hM₀, hh₀⟩ := hex
  obtain ⟨res, hres, -⟩ := hadd a₀ hM₀ hh₀
  refine ⟨res, hres, hpres.isBool res hres, fun a ha => ?_, fun a ha => ?_⟩
  · obtain ⟨res', hres', hsat⟩ := hadd a ha.1 ha.2
    rw [hres] at hres'
    cases hres'
    exact hsat
  · by_cases hM : M a
    · have hfail := (holds_or_fails (hd a)).resolve_left fun hh => ha ⟨hM, hh⟩
      exact hpres.failsSome a res hres (.inl (h.satisfies a hM)) (failsSome_push_back.2 (.inr hfail))
    · have hfail := h.fails a hM
      exact hpres.failsSome a res hres (.inr hfail) (failsSome_push_back.2 (.inl hfail))

omit [ExprOptions] in
theorem constantValues_of_symbolic (h : array.isSymbolicArray = true) : array.constantValues = [] :=
  List.isEmpty_iff.1 h

theorem readByte_spec (hsym : array.isSymbolicArray = true) (hi : i < 2 ^ 32) :
    (readByte array i).HasWidth 8 ∧ ∀ a, (readByte array i).Denotes a (a array i) := by
  have hread := ReadExpr.create_computes (show (UpdateList.root array).WF from trivial) (hasWidth_const (BitVec.ofNat 32 i))
  refine ⟨hread.hasWidth, fun a => ?_⟩
  have hidx : ((Expr.const (BitVec.ofNat 32 i)).eval a 32).toNat = i := by
    rw [Expr.eval, BitVec.setWidth_eq, BitVec.toNat_ofNat, Nat.mod_eq_of_lt hi]
  have hden := hread.denotes (a := a) trivial fun hconst => by
    rw [Array.isConstantArray, hsym] at hconst
    cases hconst
  have hvalue : (UpdateList.root array).evalAt a i = a array i := by
    rw [UpdateList.evalAt, Array.initialValue, constantValues_of_symbolic hsym]
    rfl
  rw [hidx, hvalue] at hden
  exact hden

theorem isByte_spec (hsym : array.isSymbolicArray = true) (hi : i < 2 ^ 32) (v : BitVec 8) :
    (isByte array i v).HasWidth 1 ∧ ∀ a, (isByte array i v).Denotes a (BitVec.ofBool (a array i == v)) := by
  obtain ⟨hw, hden⟩ := readByte_spec hsym hi
  have heq := EqExpr.create_computes hw (hasWidth_const v)
  exact ⟨heq.hasWidth, fun a => heq.denotes (hden a) (denotes_const v)⟩

omit [ExprOptions] in
theorem holds_ofBool_eq {a : Assignment} {e : Expr} {x y : BitVec 8} (h : e.Denotes a (BitVec.ofBool (x == y))) :
    e.Holds a ↔ x = y := by
  constructor
  · intro hh
    have hv : BitVec.ofBool (x == y) = 1#1 := h.value.symm.trans hh.value
    by_contra hne
    rw [beq_eq_false_iff_ne.2 hne] at hv
    exact absurd hv (by decide)
  · intro heq
    rw [heq, beq_self_eq_true] at h
    exact h

theorem isByte_holds (hsym : array.isSymbolicArray = true) (hi : i < 2 ^ 32) :
    (isByte array i v).Holds a ↔ a array i = v := holds_ofBool_eq ((isByte_spec hsym hi v).2 a)

/-! ### One byte -/

/-- Whatever model of the constraints is followed, `getValue` answers with it. -/
def Follows (solver : SolverChain) (r : Assignment) : Prop :=
  ∀ n constraints (e : Expr), ConstraintSet.Satisfies r constraints →
    solver.getValue n constraints e = some (e.eval r e.getWidth)

/-- The byte `w` that a run takes for a byte of the seed: it is that of a model, and the seed's if that can be. -/
structure Taken (solver : SolverChain) (M : Assignment → Prop) (array : Array) (i : ℕ) (seed w : BitVec 8) : Prop where
  model : ∃ m, M m ∧ m array i = w
  kept : (∃ m, M m ∧ m array i = seed) → w = seed
  follows : ∀ r, Follows solver r → M r → ((∃ m, M m ∧ m array i = seed) → r array i = seed) → r array i = w

/-- Between the steps `M` are the models of what is required, and the arrays in `K` are bound. -/
structure Ready (K : Array → Prop) (M : Assignment → Prop) (s : Patching) : Prop where
  represents : Represents s.required M
  feasible : ∃ m, M m
  keys : ∀ arr, (s.assignment.find arr).isSome = true ↔ K arr

variable {K : Array → Prop} {s t : Patching}

omit [ExprOptions] in
theorem wp_ask {α : Type} {query : ℕ → Option α} {Q : α → Patching → Prop} {E : Patching → Prop} {x : α}
    (hx : query s.clock = some x) (hQ : Q x { s with clock := s.clock + 1 }) : Prog.wp (ask query) Q E s := by
  show Prog.wp (Prog.unwrap (query s.clock)) Q E { s with clock := s.clock + 1 }
  rw [hx]
  exact hQ

/-- `cm.addConstraint` with a constraint that can be satisfied. -/
theorem addConstraint_spec (h : Represents s.required M) (he : e.HasWidth 1) (hd : ∀ a, e.Defined a)
    (hex : ∃ a, M a ∧ e.Holds a) :
    Prog.wp (addConstraint e)
      (fun _ t => t.assignment = s.assignment ∧ Represents t.required fun a => M a ∧ e.Holds a) (fun _ => False) s := by
  obtain ⟨res, hres, hrep⟩ := h.addConstraint he hd hex
  show Prog.wp (Prog.unwrap (ConstraintManager.addConstraint s.required e) >>= fun required =>
    Prog.modify fun s => { s with required := required }) _ _ s
  rw [hres]
  exact ⟨rfl, hrep⟩

/-- A byte that some model has is required. -/
theorem addByte_spec (h : Ready K M s) {assignment : Bindings} (hsym : array.isSymbolicArray = true) (hi : i < 2 ^ 32)
    (hex : ∃ m, M m ∧ m array i = v) (hkeys : ∀ arr, (assignment.find arr).isSome = true ↔ K arr) :
    Prog.wp (addConstraint (isByte array i v))
      (fun _ t => t.assignment = assignment ∧ Ready K (fun m => M m ∧ m array i = v) t) (fun _ => False)
      { s with assignment := assignment } := by
  obtain ⟨hw, hden⟩ := isByte_spec hsym hi v
  obtain ⟨m, hm, hv⟩ := hex
  have hadd := addConstraint_spec (s := { s with assignment := assignment }) h.represents hw (fun a => (hden a).defined)
    ⟨m, hm, (isByte_holds hsym hi).2 hv⟩
  refine hadd.mono (fun _ t ht => ⟨ht.1, ?_, ⟨m, hm, hv⟩, ?_⟩) fun _ h => h
  · exact ht.2.congr fun a => and_congr_right fun _ => isByte_holds hsym hi
  · rw [ht.1]
    exact hkeys

omit [ExprOptions] in
/-- What is asked about a byte evaluates. -/
theorem Ready.askable (h : Ready K M s) (he : e.WF) (hd : ∀ a, e.Defined a) : Askable (fun _ => True) s.required e where
  isBool := h.represents.isBool
  feasible := by
    obtain ⟨m, hm⟩ := h.feasible
    exact ⟨m, trivial, h.represents.satisfies m hm⟩
  wf := he
  defined a _ _ := hd a

/-- Whether the seed's byte must be wrong. -/
theorem mustBeFalse_isByte (hright : solver.Right fun _ => True) (htotal : solver.Total) (h : Ready K M s)
    (hsym : array.isSymbolicArray = true) (hi : i < 2 ^ 32) (v : BitVec 8) (n : ℕ) :
    ∃ res, solver.mustBeTrue n s.required (createIsZero (isByte array i v)) = some res ∧
      (res = true ↔ ¬∃ m, M m ∧ m array i = v) := by
  obtain ⟨hw, hden⟩ := isByte_spec hsym hi v
  have hzero := createIsZero_computes hw
  have hask := h.askable hzero.hasWidth.wf fun a => (hzero.denotes (.self (hden a).defined 1)).defined
  obtain ⟨res, hres⟩ := Option.isSome_iff_exists.1 (htotal.mustBeTrue n s.required (createIsZero (isByte array i v)))
  refine ⟨res, hres, (hright.mustBeTrue n _ _ hask hzero.hasWidth.width res hres).trans ?_⟩
  have hholds : ∀ a, (createIsZero (isByte array i v)).Holds a ↔ ¬a array i = v := fun a => by
    rw [Query.createIsZero_holds_iff hw (hden a).defined, ← isByte_holds hsym hi]
    exact ⟨fun hf hh => Query.holds_not_fails hh hf, (holds_or_fails (hden a).defined).resolve_left⟩
  constructor
  · rintro hall ⟨m, hm, hv⟩
    exact (hholds m).1 (hall m ⟨trivial, h.represents.satisfies m hm⟩) hv
  · intro hnone m hm
    exact (hholds m).2 fun hv => hnone ⟨m, h.represents.satisfies_iff.1 hm.2, hv⟩

/-- A byte that is asked for is that of a model, and of the model that is followed. -/
theorem getValue_readByte (hright : solver.Right fun _ => True) (htotal : solver.Total) (h : Ready K M s)
    (hsym : array.isSymbolicArray = true) (hi : i < 2 ^ 32) (n : ℕ) :
    ∃ value, solver.getValue n s.required (readByte array i) = some value ∧
      (∃ m, M m ∧ m array i = value.setWidth 8) ∧ ∀ r, Follows solver r → M r → r array i = value.setWidth 8 := by
  obtain ⟨hw, hden⟩ := readByte_spec hsym hi
  obtain ⟨value, hvalue⟩ := Option.isSome_iff_exists.1 (htotal.getValue n s.required (readByte array i))
  have hwidth : ∀ a, ((readByte array i).eval a (readByte array i).getWidth).setWidth 8 = a array i := fun a => by
    rw [← (hden a).value]
    have hgen : ∀ k, k = 8 → ((readByte array i).eval a k).setWidth 8 = (readByte array i).eval a 8 := by
      rintro k rfl
      exact BitVec.setWidth_eq _
    exact hgen _ hw.width
  refine ⟨value, hvalue, ?_, fun r hfollows hr => ?_⟩
  · obtain ⟨m, hm, hmval⟩ := hright.getValue n _ _ (h.askable hw.wf fun a => (hden a).defined) value hvalue
    refine ⟨m, h.represents.satisfies_iff.1 hm.2, ?_⟩
    rw [← hmval.value, hwidth]
  · have hans := hfollows n s.required (readByte array i) (h.represents.satisfies r hr)
    rw [hvalue] at hans
    rw [Option.some.inj hans, hwidth]

/-- **One byte** is kept if a model has it, and otherwise taken from a model. -/
theorem patchByte_spec (hright : solver.Right fun _ => True) (htotal : solver.Total) (h : Ready K M s)
    (hsym : array.isSymbolicArray = true) (hi : i < 2 ^ 32) :
    Prog.wp (patchByte solver array i)
      (fun _ t => ∃ seed, s.assignment.byteAt array i = some seed ∧ ∃ w, Taken solver M array i seed w ∧
        t.assignment = s.assignment.setByte array i w ∧ Ready K (fun m => M m ∧ m array i = w) t)
      (fun _ => s.assignment.byteAt array i = none) s := by
  show Prog.wp (Prog.unwrap (s.assignment.byteAt array i) >>= _) _ _ s
  cases hbyte : s.assignment.byteAt array i with
  | none => exact rfl
  | some seed =>
    obtain ⟨res, hres, hiff⟩ := mustBeFalse_isByte hright htotal h hsym hi seed s.clock
    refine Prog.wp.step (a := seed) (t := s) rfl ?_
    refine Prog.wp.bind (Q := fun x t => res = x ∧ { s with clock := s.clock + 1 } = t) (wp_ask hres ⟨rfl, rfl⟩)
      fun _ _ hs => ?_
    obtain ⟨rfl, rfl⟩ := hs
    have hclock : Ready K M { s with clock := s.clock + 1 } := ⟨h.represents, h.feasible, h.keys⟩
    by_cases hr : res = true
    · rw [if_pos hr]
      have hnone := hiff.1 hr
      obtain ⟨value, hvalue, hmodel, hfollows⟩ := getValue_readByte hright htotal hclock hsym hi (s.clock + 1)
      refine Prog.wp.bind (Q := fun x t => value = x ∧ { s with clock := s.clock + 1 + 1 } = t) (wp_ask hvalue ⟨rfl, rfl⟩)
        fun _ _ hs => ?_
      obtain ⟨rfl, rfl⟩ := hs
      have hclock' : Ready K M { s with clock := s.clock + 1 + 1 } := ⟨h.represents, h.feasible, h.keys⟩
      have hkeys : ∀ arr, ((s.assignment.setByte array i (value.setWidth 8)).find arr).isSome = true ↔ K arr := fun arr => by
        rw [← h.keys arr, Bindings.find_setByte]
        by_cases harr : arr = array
        · rw [if_pos harr, Option.isSome_map, harr]
        · rw [if_neg harr]
      refine (addByte_spec hclock' hsym hi hmodel hkeys).mono (fun _ t ht => ?_) fun _ h => h.elim
      exact ⟨seed, rfl, value.setWidth 8, ⟨hmodel, fun hex => absurd hex hnone, fun r hfol hM _ => hfollows r hfol hM⟩, ht⟩
    · rw [if_neg hr]
      have hex : ∃ m, M m ∧ m array i = seed := by_contra fun hno => hr (hiff.2 hno)
      refine (addByte_spec hclock hsym hi hex h.keys).mono (fun _ t ht => ?_) fun _ h => h.elim
      refine ⟨seed, rfl, seed, ⟨hex, fun _ => rfl, fun r _ _ hkept => hkept hex⟩, ?_, ht.2⟩
      rw [ht.1, Bindings.setByte_self hbyte]

/-! ### The loops -/

omit [ExprOptions] in
/-- `r` is in `M` and keeps, one after the other, each of the bytes that can be kept by a model that agrees with `r` on the
bytes before it. -/
def Keeps (M : Assignment → Prop) (b : Bindings) : List (Array × ℕ) → Assignment → Prop
  | [], r => M r
  | p :: bytes, r =>
    match b.byteAt p.1 p.2 with
    | none => Keeps M b bytes r
    | some seed => ((∃ m, M m ∧ m p.1 p.2 = seed) → r p.1 p.2 = seed) ∧
        Keeps (fun m => M m ∧ m p.1 p.2 = r p.1 p.2) (b.setByte p.1 p.2 (r p.1 p.2)) bytes r

variable {b : Bindings} {p : Array × ℕ} {bytes : List (Array × ℕ)} {r : Assignment}

omit [ExprOptions] in
theorem keeps_cons_none (h : b.byteAt p.1 p.2 = none) : Keeps M b (p :: bytes) r ↔ Keeps M b bytes r := by
  rw [Keeps, h]

omit [ExprOptions] in
theorem keeps_cons_some (h : b.byteAt p.1 p.2 = some seed) : Keeps M b (p :: bytes) r ↔
    ((∃ m, M m ∧ m p.1 p.2 = seed) → r p.1 p.2 = seed) ∧
      Keeps (fun m => M m ∧ m p.1 p.2 = r p.1 p.2) (b.setByte p.1 p.2 (r p.1 p.2)) bytes r := by
  rw [Keeps, h]

omit [ExprOptions] in
theorem Keeps.model (h : Keeps M b bytes r) : M r := by
  induction bytes generalizing M b with
  | nil => exact h
  | cons p bytes ih =>
    cases hbyte : b.byteAt p.1 p.2 with
    | none => exact ih ((keeps_cons_none hbyte).1 h)
    | some seed => exact (ih ((keeps_cons_some hbyte).1 h).2).1

/-- The byte is in the bytes of its array, if that is bound. -/
def InRange (b : Bindings) (p : Array × ℕ) : Prop := (b.find p.1).isSome = true → (b.byteAt p.1 p.2).isSome = true

omit [ExprOptions] in
theorem inRange_setByte (b : Bindings) (p q : Array × ℕ) (v : BitVec 8) :
    InRange (b.setByte p.1 p.2 v) q ↔ InRange b q := by
  have hfind := Bindings.find_patched_isSome [p] (fun _ _ => v) q.1 b
  have hbyte := Bindings.byteAt_patched_isSome [p] (fun _ _ => v) q.1 q.2 b
  have hone : b.patched [p] (fun _ _ => v) = b.setByte p.1 p.2 v := rfl
  rw [hone] at hfind hbyte
  rw [InRange, InRange, hfind, hbyte]

/-- What a loop body does with a byte: it leaves a byte of a free array alone. -/
structure StepTo (solver : SolverChain) (K : Array → Prop) (M : Assignment → Prop) (b : Bindings) (p : Array × ℕ)
    (t : Patching) : Prop where
  inRange : InRange b p
  free : b.byteAt p.1 p.2 = none → t.assignment = b ∧ Ready K M t
  bound : ∀ seed, b.byteAt p.1 p.2 = some seed → ∃ w, Taken solver M p.1 p.2 seed w ∧
    t.assignment = b.setByte p.1 p.2 w ∧ Ready K (fun m => M m ∧ m p.1 p.2 = w) t

/-- The models after a loop that took the bytes of `r`. -/
def Fixed (M : Assignment → Prop) (b : Bindings) (bytes : List (Array × ℕ)) (r m : Assignment) : Prop :=
  M m ∧ ∀ p ∈ bytes, (b.byteAt p.1 p.2).isSome = true → m p.1 p.2 = r p.1 p.2

/-- What a loop over bytes does: it takes the bytes of a model that keeps what can be kept, the one that is followed if there
is one. -/
structure LoopTo (solver : SolverChain) (K : Array → Prop) (M : Assignment → Prop) (b : Bindings)
    (bytes : List (Array × ℕ)) (r : Assignment) (t : Patching) : Prop where
  inRange : ∀ p ∈ bytes, InRange b p
  keeps : Keeps M b bytes r
  assignment : t.assignment = b.patched bytes r
  ready : Ready K (Fixed M b bytes r) t
  follows : ∀ r₀, Follows solver r₀ → Keeps M b bytes r₀ →
    b.patched bytes r₀ = b.patched bytes r

omit [ExprOptions] in
theorem Ready.congr (h : Ready K M s) (hM : ∀ a, M a ↔ M' a) : Ready K M' s where
  represents := h.represents.congr hM
  feasible := by
    obtain ⟨m, hm⟩ := h.feasible
    exact ⟨m, (hM m).1 hm⟩
  keys := h.keys

omit [ExprOptions] in
/-- **The loops**, one byte after the other. -/
theorem each_spec (solver : SolverChain) {f : Array × ℕ → Prog Patching PUnit} {K : Array → Prop} : ∀ (bytes : List (Array × ℕ)),
    (∀ p ∈ bytes, ∀ (s : Patching) (M : Assignment → Prop), Ready K M s →
      Prog.wp (f p) (fun _ t => StepTo solver K M s.assignment p t) (fun _ => ¬InRange s.assignment p) s) →
    ∀ (s : Patching) (M : Assignment → Prop), Ready K M s →
      Prog.wp (Prog.each f bytes) (fun _ t => ∃ r, LoopTo solver K M s.assignment bytes r t)
        (fun _ => ∃ p ∈ bytes, ¬InRange s.assignment p) s := by
  intro bytes
  induction bytes with
  | nil =>
    intro _ s M h
    obtain ⟨r, hr⟩ := h.feasible
    refine ⟨r, fun p hp => absurd hp List.not_mem_nil, hr, rfl, ?_, fun r₀ _ _ => rfl⟩
    exact h.congr fun a => (and_iff_left fun p hp => absurd hp List.not_mem_nil).symm
  | cons p bytes ih =>
    intro hstep s M h
    have hhead := (hstep p List.mem_cons_self s M h).mono (fun _ _ h => h)
      fun _ (hE : ¬InRange s.assignment p) => (⟨p, List.mem_cons_self, hE⟩ : ∃ q ∈ p :: bytes, ¬InRange s.assignment q)
    refine hhead.bind fun _ t ht => ?_
    have hrest := ih fun q hq => hstep q (List.mem_cons_of_mem _ hq)
    cases hbyte : s.assignment.byteAt p.1 p.2 with
    | none =>
      obtain ⟨hsame, hready⟩ := ht.free hbyte
      have hunbound : s.assignment.find p.1 = none := by
        rw [← Option.not_isSome_iff_eq_none]
        intro hsome
        have hin := ht.inRange hsome
        rw [hbyte] at hin
        cases hin
      have hset : ∀ r : Assignment, s.assignment.patched (p :: bytes) r = s.assignment.patched bytes r := fun r => by
        show (s.assignment.setByte p.1 p.2 (r p.1 p.2)).patched bytes r = _
        rw [Bindings.setByte_of_find_none _ _ _ _ hunbound]
      refine (hrest t M hready).mono (fun _ u hu => ?_) fun _ hE => ?_
      · obtain ⟨r, hloop⟩ := hu
        rw [hsame] at hloop
        refine ⟨r, ?_, (keeps_cons_none hbyte).2 hloop.keeps, hloop.assignment.trans (hset r).symm, ?_, ?_⟩
        · intro q hq
          rcases List.mem_cons.1 hq with rfl | hq
          · exact ht.inRange
          · exact hloop.inRange q hq
        · refine hloop.ready.congr fun a => and_congr_right fun _ => ?_
          rw [List.forall_mem_cons, hbyte]
          exact (and_iff_right fun hsome => absurd hsome (by decide)).symm
        · intro r₀ hfol hkeeps
          rw [hset, hset]
          exact hloop.follows r₀ hfol ((keeps_cons_none hbyte).1 hkeeps)
      · obtain ⟨q, hq, hout⟩ := hE
        rw [hsame] at hout
        exact ⟨q, List.mem_cons_of_mem _ hq, hout⟩
    | some seed =>
      obtain ⟨w, htaken, hset, hready⟩ := ht.bound seed hbyte
      refine (hrest t _ hready).mono (fun _ u hu => ?_) fun _ hE => ?_
      · obtain ⟨r, hloop⟩ := hu
        obtain ⟨hM, hw⟩ := hloop.keeps.model
        rw [hset, ← hw] at hloop
        refine ⟨r, ?_, (keeps_cons_some hbyte).2 ⟨fun hex => hw.trans (htaken.kept hex), hloop.keeps⟩,
          hloop.assignment, ?_, ?_⟩
        · intro q hq
          rcases List.mem_cons.1 hq with rfl | hq
          · exact ht.inRange
          · exact (inRange_setByte _ _ _ _).1 (hloop.inRange q hq)
        · refine hloop.ready.congr fun a => ?_
          rw [Fixed, Fixed, List.forall_mem_cons, hbyte, and_assoc]
          refine and_congr_right fun _ => and_congr ⟨fun hv _ => hv, fun hv => hv rfl⟩ ?_
          refine forall₂_congr fun q _ => ?_
          rw [Bindings.byteAt_setByte_isSome]
        · intro r₀ hfol hkeeps
          obtain ⟨hkept, hkeeps'⟩ := (keeps_cons_some hbyte).1 hkeeps
          have hr₀ : r₀ p.1 p.2 = r p.1 p.2 := (htaken.follows r₀ hfol hkeeps'.model.1 hkept).trans hw.symm
          rw [hr₀] at hkeeps'
          show (s.assignment.setByte p.1 p.2 (r₀ p.1 p.2)).patched bytes r₀ = _
          rw [hr₀]
          exact hloop.follows r₀ hfol hkeeps'
      · obtain ⟨q, hq, hout⟩ := hE
        rw [hset, inRange_setByte] at hout
        exact ⟨q, List.mem_cons_of_mem _ hq, hout⟩

/-- The body of the loops, on a byte of an array that is bound. -/
theorem patchByte_step (hright : solver.Right fun _ => True) (htotal : solver.Total)
    (hsym : ∀ arr, K arr → arr.isSymbolicArray = true) (hK : K p.1) (hi : p.2 < 2 ^ 32) (h : Ready K M s) :
    Prog.wp (patchByte solver p.1 p.2) (fun _ t => StepTo solver K M s.assignment p t)
      (fun _ => ¬InRange s.assignment p) s := by
  refine (patchByte_spec hright htotal h (hsym _ hK) hi).mono (fun _ t ht => ?_) fun _ hE hin => ?_
  · obtain ⟨seed, hbyte, htaken⟩ := ht
    refine ⟨fun _ => by rw [hbyte]; rfl, fun hnone => ?_, fun seed' hbyte' => ?_⟩
    · rw [hbyte] at hnone
      cases hnone
    · rw [hbyte] at hbyte'
      cases hbyte'
      exact htaken
  · have hsome := hin ((h.keys _).2 hK)
    rw [hE] at hsome
    cases hsome

theorem patchDirectRead_step (hright : solver.Right fun _ => True) (htotal : solver.Total)
    (hsym : ∀ arr, K arr → arr.isSymbolicArray = true) (hi : p.2 < 2 ^ 32) (h : Ready K M s) :
    Prog.wp (patchDirectRead solver p) (fun _ t => StepTo solver K M s.assignment p t)
      (fun _ => ¬InRange s.assignment p) s := by
  show Prog.wp (Prog.when ((s.assignment.find p.1).isSome = true) (patchByte solver p.1 p.2)) _ _ s
  refine Prog.wp_when.2 ⟨fun hsome => patchByte_step hright htotal hsym ((h.keys _).1 hsome) hi h, fun hnone => ?_⟩
  have hbyte : s.assignment.byteAt p.1 p.2 = none := by
    rw [← Option.not_isSome_iff_eq_none]
    exact fun hbyte => hnone (Bindings.byteAt_isSome_find hbyte)
  refine ⟨fun hsome => absurd hsome hnone, fun _ => ⟨rfl, h⟩, fun seed hseed => ?_⟩
  rw [hbyte] at hseed
  cases hseed

/-! ### Evaluating the condition -/

/-- Under the bytes that are bound, the condition is evaluated to something of its value. -/
theorem evaluate_refinesOn (b : Bindings) (he : e.WF) : e.RefinesOn b.Agrees (evaluate b e) := by
  have hinit := b.initial_getInitialValue true
  refine ExprEvaluator.visitWith_refinesOn (fun arr i hi hvalue => ?_) e he
  obtain ⟨hwidth, hdenotes⟩ := hinit arr i hi hvalue
  exact ⟨hwidth, fun a ha hd => hdenotes a ⟨ha, fun hfree => absurd hfree (by decide)⟩ hd⟩

/-- The condition, evaluated under the seed's bytes, may hold where the constraints are satisfied. -/
def MayHold (constraints : ConstraintSet) (condition : Expr) (b : Bindings) : Prop :=
  ∃ a, ConstraintSet.Satisfies a constraints ∧ (evaluate b condition).Holds a

/-- What a state, a condition and a seed's assignment are: booleans that evaluate, also when some of their bytes are bound, and
bytes of symbolic arrays. -/
structure Patchable (constraints : ConstraintSet) (condition : Expr) (b : Bindings) : Prop where
  isBool : constraints.IsBool
  width : condition.HasWidth 1
  evaluates : ∀ a, Evaluates a constraints
  defined : ∀ a, condition.Defined a
  evaluated : ∀ (b' : Bindings) a, (evaluate b' condition).Defined a
  symbolic : ∀ arr, (b.find arr).isSome = true → arr.isSymbolicArray = true
  size : ∀ arr i, (b.byteAt arr i).isSome = true → i < arr.size

/-- Every array that is bound has all its bytes. -/
def Full (b : Bindings) : Prop := ∀ arr, (b.find arr).isSome = true → ∀ i < arr.size, (b.byteAt arr i).isSome = true

variable {constraints : ConstraintSet} {condition : Expr}

theorem mayHold_spec (hright : solver.Right fun _ => True) (htotal : solver.Total) (hp : Patchable constraints condition b)
    (hsat : ∃ a, ConstraintSet.Satisfies a constraints) (s : Patching) :
    Prog.wp (mayHold solver constraints condition)
      (fun res t => t = { s with clock := s.clock + 1 } ∧ (res = true ↔ MayHold constraints condition s.assignment))
      (fun _ => False) s := by
  obtain ⟨a, ha⟩ := hsat
  have hw := (evaluate_refinesOn s.assignment hp.width.wf).hasWidth
  have hask : Askable (fun _ => True) constraints (evaluate s.assignment condition) :=
    ⟨hp.isBool, ⟨a, trivial, ha⟩, hw.wf, fun a _ _ => hp.evaluated s.assignment a⟩
  obtain ⟨res, hres⟩ := Option.isSome_iff_exists.1
    (htotal.mayBeTrue s.clock constraints (evaluate s.assignment condition))
  have hiff := hright.mayBeTrue s.clock _ _ hask (hw.width.trans hp.width.width) res hres
  have hmodels : (∃ a, (True ∧ ConstraintSet.Satisfies a constraints) ∧ (evaluate s.assignment condition).Holds a) ↔
      MayHold constraints condition s.assignment := exists_congr fun a => and_congr_left fun _ => and_iff_right trivial
  show Prog.wp (ask fun n => solver.mayBeTrue n constraints (evaluate s.assignment condition)) _ _ s
  exact wp_ask hres ⟨rfl, hiff.trans hmodels⟩

/-! ### The second loop -/

/-- The bytes of the arrays, in the order of the bindings. -/
def allBytes (b : Bindings) : List (Array × ℕ) := (b.map Prod.fst).flatMap fun array => (List.range array.size).map (array, ·)

omit [ExprOptions] in
theorem find_isSome_iff {arr : Array} : ∀ {b : Bindings}, (b.find arr).isSome = true ↔ arr ∈ b.map Prod.fst := by
  intro b
  induction b with
  | nil => exact ⟨fun h => absurd h Bool.false_ne_true, fun h => absurd h List.not_mem_nil⟩
  | cons entry b ih =>
    obtain ⟨key, bytes⟩ := entry
    rw [List.map_cons, List.mem_cons, Bindings.find, List.lookup_cons]
    by_cases hk : arr = key
    · simp [hk]
    · have hne : (arr == key) = false := beq_eq_false_iff_ne.2 hk
      rw [hne, or_iff_right hk]
      exact ih

omit [ExprOptions] in
theorem mem_allBytes {arr : Array} : (arr, i) ∈ allBytes b ↔ (b.find arr).isSome = true ∧ i < arr.size := by
  rw [allBytes, List.mem_flatMap, find_isSome_iff]
  constructor
  · rintro ⟨array, hmem, hpair⟩
    obtain ⟨j, hj, heq⟩ := List.mem_map.1 hpair
    obtain ⟨rfl, rfl⟩ := Prod.mk.inj heq
    exact ⟨hmem, List.mem_range.1 hj⟩
  · rintro ⟨hmem, hi⟩
    exact ⟨arr, hmem, List.mem_map.2 ⟨i, List.mem_range.2 hi, rfl⟩⟩

omit [ExprOptions] in
/-- The loop over the bindings and the loop over the bytes of each. -/
theorem each_allBytes (f : Array → ℕ → Prog Patching PUnit) (arrays : List Array) :
    Prog.each (fun array => Prog.each (f array) (List.range array.size)) arrays =
      Prog.each (fun p => f p.1 p.2) (arrays.flatMap fun array => (List.range array.size).map (array, ·)) := by
  have hinner : ∀ (array : Array) (is : List ℕ),
      Prog.each (fun p => f p.1 p.2) (is.map (array, ·)) = Prog.each (f array) is := fun array is => by
    induction is with
    | nil => rfl
    | cons i is ih =>
      show (f array i >>= fun _ => Prog.each (fun p => f p.1 p.2) (is.map (array, ·))) = _
      rw [ih]
      rfl
  induction arrays with
  | nil => rfl
  | cons array arrays ih =>
    rw [List.flatMap_cons, Prog.each_append, hinner, ← ih]
    rfl

omit [ExprOptions] in
/-- All bytes were taken from `r`, so a model that has them agrees with the assignment. -/
theorem agrees_patched {m : Assignment} (hsize : ∀ arr i, (b.byteAt arr i).isSome = true → i < arr.size)
    (hm : Fixed M b (allBytes b) r m) : (b.patched (allBytes b) r).Agrees m := by
  intro arr i v hbyte
  have hsome : (b.byteAt arr i).isSome = true := by
    rw [← Bindings.byteAt_patched_isSome (allBytes b) r, hbyte]
    rfl
  have hmem : (arr, i) ∈ allBytes b := mem_allBytes.2 ⟨Bindings.byteAt_isSome_find hsome, hsize arr i hsome⟩
  rw [Bindings.byteAt_patched, if_pos hmem] at hbyte
  obtain ⟨_, -, hv⟩ := Option.map_eq_some_iff.1 hbyte
  exact (hm.2 (arr, i) hmem hsome).trans hv

/-- **The second loop** makes the assignment a solution, if every array that is bound has all its bytes. -/
theorem patchAll_spec (hright : solver.Right fun _ => True) (htotal : solver.Total) (hp : Patchable constraints condition b)
    (hsym : ∀ arr, K arr → arr.isSymbolicArray = true) (h : Ready K M s)
    (hM : ∀ m, M m → ConstraintSet.Satisfies m constraints ∧ condition.Holds m)
    (hsize : ∀ arr i, (s.assignment.byteAt arr i).isSome = true → i < arr.size) :
    Prog.wp (patchAll solver constraints condition)
      (fun _ t => Full s.assignment ∧ t.assignment.Satisfies (constraints ++ [condition])) (fun _ => ¬Full s.assignment) s := by
  show Prog.wp (Prog.each (fun array => Prog.each (patchByte solver array) (List.range array.size))
    (s.assignment.map Prod.fst) >>= fun _ => mayHold solver constraints condition >>= fun res => Prog.assert (res = true)) _ _ s
  rw [each_allBytes]
  have hloop := each_spec solver (f := fun p => patchByte solver p.1 p.2) (K := K) (allBytes s.assignment)
    (fun p hmem t M' hready => patchByte_step hright htotal hsym ((h.keys _).1 (mem_allBytes.1 hmem).1)
      ((mem_allBytes.1 hmem).2.trans p.1.size_lt) hready) s M h
  have hfull : ¬(∃ p ∈ allBytes s.assignment, ¬InRange s.assignment p) → Full s.assignment := fun hin arr hfind i hi =>
    (not_not.1 (not_and.1 (not_exists.1 hin (arr, i)) (mem_allBytes.2 ⟨hfind, hi⟩))) hfind
  refine (hloop.mono (fun _ _ h => h) fun _ hE hall => ?_).bind fun _ t ht => ?_
  · obtain ⟨p, hmem, hout⟩ := hE
    exact hout fun hfind => hall p.1 hfind p.2 (mem_allBytes.1 hmem).2
  · obtain ⟨r, hloop⟩ := ht
    obtain ⟨m, hm⟩ := hloop.ready.feasible
    obtain ⟨hsat, hholds⟩ := hM m hm.1
    have hagrees : t.assignment.Agrees m := by
      rw [hloop.assignment]
      exact agrees_patched hsize hm
    have hmay : MayHold constraints condition t.assignment :=
      ⟨m, hsat, (evaluate_refinesOn t.assignment hp.width.wf).denotes_of hagrees hp.width hholds⟩
    refine (mayHold_spec hright htotal hp ⟨m, hsat⟩ t).bind (fun res u hu => ?_) |>.mono (fun _ _ h => h) fun _ h => h.elim
    obtain ⟨rfl, hres⟩ := hu
    rw [Prog.assert, if_pos (hres.2 hmay)]
    refine ⟨hfull fun hout => ?_, m, ?_⟩
    · obtain ⟨p, hmem, hout⟩ := hout
      exact hout (hloop.inRange p hmem)
    · show ConstraintSet.Satisfies (t.assignment.complete m) (constraints ++ [condition])
      rw [hagrees.complete]
      exact ConstraintManager.satisfies_append.2 ⟨hsat, fun c hc => List.mem_singleton.1 hc ▸ hholds⟩

/-! ### The function -/

omit [ExprOptions] in
/-- `findReads` that does not go into the updates ends as well. -/
theorem findReads_false_isSome (e : Expr) : ∃ reads, findReads e false = some reads := by
  unfold findReads
  by_cases he : e.isConstant = true
  · exact ⟨[], if_pos he⟩
  · have hvisited : ∀ x y : Expr, y ∈ x.succ false → y ∈ x.visited true := fun x y hy => by
      have hkids : x.visited false = x.kids := by cases x <;> exact List.append_nil _
      exact List.mem_append_left _ (hkids ▸ (mem_succ.1 hy).1)
    have hclosed : ∀ x ∈ e.subexprs.toFinset, ∀ y ∈ x.succ false, y ∈ e.subexprs.toFinset := fun x hx y hy => by
      rw [List.mem_toFinset] at hx ⊢
      exact subexprs_trans e hx (mem_subexprs.2 (.inr ⟨y, hvisited x y hy, self_mem_subexprs y⟩))
    obtain ⟨out, hrun, -⟩ := Worklist.explore_reaches e.subexprs.toFinset hclosed
      (show e ∈ e.subexprs.toFinset from List.mem_toFinset.2 (self_mem_subexprs e)) (List.toFinset_card_le e.subexprs)
    exact ⟨out.filterMap asRead, by rw [if_neg he, hrun]; rfl⟩

omit [ExprOptions] in
/-- The direct reads are collected, and their indices are 32 bits wide. -/
theorem directReads_spec (condition : Expr) :
    ∃ reads, directReads condition = some reads ∧ ∀ p ∈ reads, p.2 < 2 ^ 32 := by
  obtain ⟨reads, hreads⟩ := findReads_false_isSome condition
  refine ⟨_, by rw [directReads, hreads]; rfl, fun p hp => ?_⟩
  rw [List.mem_insertionSort, List.mem_dedup, List.mem_filterMap] at hp
  obtain ⟨⟨updates, index⟩, -, hread⟩ := hp
  unfold directRead at hread
  cases index with
  | const v =>
    cases hread
    exact (v.setWidth 32).isLt
  | _ => cases hread

/-- The assignment satisfies the constraints and the condition. -/
def Solves (constraints : ConstraintSet) (condition : Expr) (a : Assignment) : Prop :=
  ConstraintSet.Satisfies a constraints ∧ condition.Holds a

/-- The first loop takes the bytes of `r`. -/
structure Repair (solver : SolverChain) (constraints : ConstraintSet) (condition : Expr) (b : Bindings)
    (reads : List (Array × ℕ)) (r : Assignment) : Prop where
  keeps : Keeps (Solves constraints condition) b reads r
  follows : ∀ r₀, Follows solver r₀ → Keeps (Solves constraints condition) b reads r₀ → b.patched reads r₀ = b.patched reads r

/-- **What `patchSeed` does.** It stops behind the first loop if the condition may hold then. -/
theorem patchSeed_spec (hright : solver.Right fun _ => True) (htotal : solver.Total)
    (hp : Patchable constraints condition s.assignment) (hsat : ∃ a, Solves constraints condition a)
    {reads : List (Array × ℕ)} (hreads : directReads condition = some reads) :
    Prog.wp (patchSeed solver constraints condition)
      (fun _ t => (∀ p ∈ reads, InRange s.assignment p) ∧ ∃ r, Repair solver constraints condition s.assignment reads r ∧
        (MayHold constraints condition (s.assignment.patched reads r) ∧ t.assignment = s.assignment.patched reads r ∨
          ¬MayHold constraints condition (s.assignment.patched reads r) ∧ Full s.assignment ∧
            t.assignment.Satisfies (constraints ++ [condition])))
      (fun _ => (∃ p ∈ reads, ¬InRange s.assignment p) ∨ ∃ r, Repair solver constraints condition s.assignment reads r ∧
        ¬MayHold constraints condition (s.assignment.patched reads r) ∧ ¬Full s.assignment) s := by
  have hlt : ∀ p ∈ reads, p.2 < 2 ^ 32 := by
    obtain ⟨reads', hreads', hlt⟩ := directReads_spec condition
    rw [hreads] at hreads'
    cases hreads'
    exact hlt
  have hstart : Represents constraints fun a => ConstraintSet.Satisfies a constraints :=
    ⟨hp.isBool, fun a ha => ha, fun a ha => by_contra fun hf =>
      ha (ConstraintManager.satisfies_of_not_failsSome (hp.evaluates a) hf)⟩
  have hfirst := addConstraint_spec (s := { s with required := constraints }) hstart hp.width hp.defined hsat
  refine Prog.wp.step (t := { s with required := constraints }) rfl ?_
  refine (hfirst.mono (fun _ _ h => h) fun _ h => h.elim).bind fun _ t ht => ?_
  obtain ⟨hassign, hrep⟩ := ht
  have hready : Ready (fun arr => (s.assignment.find arr).isSome = true) (Solves constraints condition) t :=
    ⟨hrep, hsat, fun arr => by rw [hassign]⟩
  rw [hreads]
  refine Prog.wp.step (a := reads) (t := t) rfl ?_
  have hloop := each_spec solver (f := patchDirectRead solver) reads
    (fun p hmem u M' hu => patchDirectRead_step hright htotal hp.symbolic (hlt p hmem) hu) t _ hready
  rw [hassign] at hloop
  refine (hloop.mono (fun _ _ h => h) fun _ hE => Or.inl hE).bind fun _ u hu => ?_
  obtain ⟨r, hr⟩ := hu
  have hrepair : Repair solver constraints condition s.assignment reads r := ⟨hr.keeps, hr.follows⟩
  obtain ⟨m, hm, -⟩ := hsat
  refine ((mayHold_spec hright htotal hp ⟨m, hm⟩ u).mono (fun _ _ h => h) fun _ h => h.elim).bind fun res v hv => ?_
  obtain ⟨rfl, hres⟩ := hv
  rw [hr.assignment] at hres
  by_cases hmay : MayHold constraints condition (s.assignment.patched reads r)
  · rw [if_pos (hres.2 hmay)]
    exact ⟨hr.inRange, r, hrepair, .inl ⟨hmay, hr.assignment⟩⟩
  · rw [if_neg fun h => hmay (hres.1 h)]
    have hfull : Full u.assignment ↔ Full s.assignment := by
      rw [hr.assignment]
      refine forall_congr' fun arr => ?_
      rw [Bindings.find_patched_isSome]
      refine imp_congr_right fun _ => forall₂_congr fun i _ => ?_
      rw [Bindings.byteAt_patched_isSome]
    have hready' : Ready (fun arr => (s.assignment.find arr).isSome = true) (Fixed (Solves constraints condition)
      s.assignment reads r) { u with clock := u.clock + 1 } := ⟨hr.ready.represents, hr.ready.feasible, hr.ready.keys⟩
    refine (patchAll_spec hright htotal hp hp.symbolic hready' (fun m hm => hm.1) fun arr i hsome => ?_).mono
      (fun _ w hw => ⟨hr.inRange, r, hrepair, .inr ⟨hmay, hfull.1 hw.1, hw.2⟩⟩)
      fun _ hE => .inr ⟨r, hrepair, hmay, fun h => hE (hfull.2 h)⟩
    have hsome' : (u.assignment.byteAt arr i).isSome = true := hsome
    rw [hr.assignment, Bindings.byteAt_patched_isSome] at hsome'
    exact hp.size arr i hsome'

/-! ### The solver that follows a model -/

/-- The solver that answers every query by definition, and with `r` where it can. -/
noncomputable def following (r : Assignment) : SolverChain :=
  { SolverChain.exact fun _ => True with
    getValue := fun n constraints e => by
      classical exact
        if ConstraintSet.Satisfies r constraints then some (e.eval r e.getWidth)
        else (SolverChain.exact fun _ => True).getValue n constraints e }

omit [ExprOptions] in
theorem following_follows (r : Assignment) : Follows (following r) r := fun _ _ _ hr => if_pos hr

omit [ExprOptions] in
theorem following_total (r : Assignment) : (following r).Total where
  evaluate := (SolverChain.exact_total _).evaluate
  mustBeTrue := (SolverChain.exact_total _).mustBeTrue
  mayBeTrue := (SolverChain.exact_total _).mayBeTrue
  getValue n constraints e := by
    by_cases hr : ConstraintSet.Satisfies r constraints
    · rw [following_follows r n constraints e hr]
      rfl
    · have hexact : (following r).getValue n constraints e =
          (SolverChain.exact fun _ => True).getValue n constraints e := if_neg hr
      rw [hexact]
      exact (SolverChain.exact_total _).getValue n constraints e

omit [ExprOptions] in
theorem following_right (r : Assignment) : (following r).Right fun _ => True where
  evaluate := (SolverChain.exact_right _).evaluate
  mustBeTrue := (SolverChain.exact_right _).mustBeTrue
  mayBeTrue := (SolverChain.exact_right _).mayBeTrue
  getValue n constraints e hask v hv := by
    by_cases hr : ConstraintSet.Satisfies r constraints
    · rw [following_follows r n constraints e hr] at hv
      exact ⟨r, ⟨trivial, hr⟩, hask.defined r trivial hr, Option.some.inj hv⟩
    · have hexact : (following r).getValue n constraints e =
          (SolverChain.exact fun _ => True).getValue n constraints e := if_neg hr
      rw [hexact] at hv
      exact (SolverChain.exact_right _).getValue n constraints e hask v hv

/-! ### What the older constraints read -/

/-- The byte is one of the direct reads and gets another value. -/
def Replaced (b : Bindings) (reads : List (Array × ℕ)) (r : Assignment) (p : Array × ℕ) : Prop :=
  p ∈ reads ∧ ∃ seed, b.byteAt p.1 p.2 = some seed ∧ r p.1 p.2 ≠ seed

/-- The byte is bound and not one of the direct reads. -/
def LeftAlone (b : Bindings) (reads : List (Array × ℕ)) (p : Array × ℕ) : Prop :=
  p ∉ reads ∧ (b.byteAt p.1 p.2).isSome = true

/-- The expression reads a byte that the seed does not bind. -/
def ReadsFree (b : Bindings) (e : Expr) : Prop := ∃ arr i, e.Touches arr i ∧ b.byteAt arr i = none

/-- The expression reads a byte that is left alone. -/
def ReadsLeftAlone (b : Bindings) (reads : List (Array × ℕ)) (e : Expr) : Prop :=
  ∃ arr i, e.Touches arr i ∧ LeftAlone b reads (arr, i)

/-- An older constraint ties a replaced byte to one that is left alone, or reads a free byte. -/
def Tied (b : Bindings) (reads : List (Array × ℕ)) (r : Assignment) (k : Expr) : Prop :=
  ReadsFree b k ∨ (∃ arr i, k.Touches arr i ∧ Replaced b reads r (arr, i)) ∧ ReadsLeftAlone b reads k

/-- With the bytes of `r` for the direct reads and some free values, the older constraints that tie bytes hold, and so does
the condition if it reads more than the direct reads. -/
def TiesHold (constraints : ConstraintSet) (condition : Expr) (b : Bindings) (reads : List (Array × ℕ)) (r : Assignment) :
    Prop :=
  ∃ a, (∀ k ∈ constraints, Tied b reads r k → k.Holds ((b.patched reads r).complete a)) ∧
    (ReadsFree b condition ∨ ReadsLeftAlone b reads condition → condition.Holds ((b.patched reads r).complete a))

section
omit [ExprOptions]

theorem complete_patched_of_mem {arr : Array} (hbound : (b.byteAt arr i).isSome = true) (hmem : (arr, i) ∈ bytes)
    (a : Assignment) : (b.patched bytes r).complete a arr i = r arr i := by
  obtain ⟨seed, hseed⟩ := Option.isSome_iff_exists.1 hbound
  show ((b.patched bytes r).byteAt arr i).getD (a arr i) = r arr i
  rw [Bindings.byteAt_patched, if_pos hmem, hseed]
  rfl

theorem complete_patched_of_not_replaced {arr : Array} (hbound : (b.byteAt arr i).isSome = true)
    (hkept : ¬Replaced b bytes r (arr, i)) (a a' : Assignment) :
    (b.patched bytes r).complete a arr i = b.complete a' arr i := by
  obtain ⟨seed, hseed⟩ := Option.isSome_iff_exists.1 hbound
  have hold : b.complete a' arr i = seed := b.agrees_complete a' arr i seed hseed
  by_cases hmem : (arr, i) ∈ bytes
  · rw [complete_patched_of_mem hbound hmem, hold]
    by_contra hne
    exact hkept ⟨hmem, seed, hseed, hne⟩
  · rw [hold]
    show ((b.patched bytes r).byteAt arr i).getD (a arr i) = seed
    rw [Bindings.byteAt_patched, if_neg hmem, hseed]
    rfl

/-- An expression that reads direct reads only has the value it has for `r`. -/
theorem holds_of_direct {e : Expr} (hfree : ¬ReadsFree b e) (halone : ¬ReadsLeftAlone b bytes e) (hr : e.Holds r)
    (a : Assignment) : e.Holds ((b.patched bytes r).complete a) := by
  refine Expr.holds_congr (fun arr i htouch => ?_) hr
  have hbound : (b.byteAt arr i).isSome = true := by
    rw [Option.isSome_iff_ne_none]
    exact fun hnone => hfree ⟨arr, i, htouch, hnone⟩
  exact complete_patched_of_mem hbound (by_contra fun hmem => halone ⟨arr, i, htouch, hmem, hbound⟩) a

/-- An expression that reads no replaced and no free byte has the value it has for the seed. -/
theorem holds_of_kept {e : Expr} (hfree : ¬ReadsFree b e) (hkept : ¬∃ arr i, e.Touches arr i ∧ Replaced b bytes r (arr, i))
    {a' : Assignment} (hseed : e.Holds (b.complete a')) (a : Assignment) : e.Holds ((b.patched bytes r).complete a) := by
  refine Expr.holds_congr (fun arr i htouch => ?_) hseed
  have hbound : (b.byteAt arr i).isSome = true := by
    rw [Option.isSome_iff_ne_none]
    exact fun hnone => hfree ⟨arr, i, htouch, hnone⟩
  exact complete_patched_of_not_replaced hbound (fun hrep => hkept ⟨arr, i, htouch, hrep⟩) a a'

/-- **Ties.**  Only the constraints that tie bytes can fail when the direct reads are taken from a solution. -/
theorem satisfies_patched_iff (hseed : b.Satisfies constraints) (hr : Solves constraints condition r) :
    (b.patched bytes r).Satisfies (constraints ++ [condition]) ↔ TiesHold constraints condition b bytes r := by
  obtain ⟨a', ha'⟩ := hseed
  refine exists_congr fun a => ?_
  rw [ConstraintManager.satisfies_append]
  constructor
  · rintro ⟨hold, hnew⟩
    exact ⟨fun k hk _ => hold k hk, fun _ => hnew condition (List.mem_singleton.2 rfl)⟩
  · rintro ⟨hties, hcondition⟩
    refine ⟨fun k hk => ?_, fun c hc => ?_⟩
    · by_cases htied : Tied b bytes r k
      · exact hties k hk htied
      · obtain ⟨hfree, htied⟩ := not_or.1 htied
        obtain hkept | halone := not_and_or.1 htied
        · exact holds_of_kept hfree hkept (ha' k hk) a
        · exact holds_of_direct hfree halone (hr.1 k hk) a
    · obtain rfl := List.mem_singleton.1 hc
      by_cases hmore : ReadsFree b c ∨ ReadsLeftAlone b bytes c
      · exact hcondition hmore
      · obtain ⟨hfree, halone⟩ := not_or.1 hmore
        exact holds_of_direct hfree halone hr.2 a

end

/-- A seed that satisfies both passes the test. -/
theorem mayHold_of_satisfies (hw : condition.HasWidth 1) (h : b.Satisfies (constraints ++ [condition])) :
    MayHold constraints condition b := by
  obtain ⟨a, ha⟩ := h
  obtain ⟨hold, hnew⟩ := ConstraintManager.satisfies_append.1 ha
  exact ⟨_, hold, (evaluate_refinesOn b hw.wf).denotes_of (b.agrees_complete a) hw (hnew condition (List.mem_singleton.2 rfl))⟩

/-- When patching is enough: the bytes the condition reads directly are there, and for every solution that keeps those of them
that can be kept, in their order, either the older constraints that tie bytes hold with its bytes, or the seed has all bytes of
its arrays and the condition, evaluated with these bytes, cannot hold. -/
structure RepairSuffices (constraints : ConstraintSet) (condition : Expr) (b : Bindings) : Prop where
  inRange : ∀ reads, directReads condition = some reads → ∀ p ∈ reads, InRange b p
  repaired : ∀ reads, directReads condition = some reads → ∀ r, Keeps (Solves constraints condition) b reads r →
    TiesHold constraints condition b reads r ∨ (Full b ∧ ¬MayHold constraints condition (b.patched reads r))

/-- **Seeds are patched** by `patchSeed`, whatever a right solver answers, exactly when patching is enough. -/
theorem patchSeed_satisfies_iff (hp : Patchable constraints condition b) (hsat : ∃ a, Solves constraints condition a)
    (hseed : b.Satisfies constraints) :
    (∀ solver : SolverChain, (solver.Right fun _ => True) → solver.Total → ∀ required n,
      ∃ t, patchSeed solver constraints condition ⟨b, required, n⟩ = (some ⟨⟩, t) ∧
        t.assignment.Satisfies (constraints ++ [condition])) ↔
    RepairSuffices constraints condition b := by
  obtain ⟨reads, hreads, -⟩ := directReads_spec condition
  have hspec : ∀ solver : SolverChain, (solver.Right fun _ => True) → solver.Total → ∀ required n, _ :=
    fun solver hright htotal required n =>
      patchSeed_spec (s := ⟨b, required, n⟩) hright htotal hp hsat hreads
  have huniq : ∀ reads', directReads condition = some reads' → reads' = reads := fun reads' h =>
    Option.some.inj (h.symm.trans hreads)
  constructor
  · intro hall
    -- for a solution that is given, the solver that follows it
    have hrun : ∀ r₀, (∀ p ∈ reads, InRange b p) ∧ (Keeps (Solves constraints condition) b reads r₀ →
        TiesHold constraints condition b reads r₀ ∨
          (Full b ∧ ¬MayHold constraints condition (b.patched reads r₀))) := fun r₀ => by
      obtain ⟨t, hres, hsatisfies⟩ := hall (following r₀) (following_right r₀) (following_total r₀) [] 0
      obtain ⟨hin, r, hrepair, hcases⟩ := (hspec (following r₀) (following_right r₀) (following_total r₀) [] 0).of_eq hres
      refine ⟨hin, fun hkeeps => ?_⟩
      have hsame := hrepair.follows r₀ (following_follows r₀) hkeeps
      rw [← hsame] at hcases
      rcases hcases with ⟨-, hassign⟩ | ⟨hnot, hfull, -⟩
      · exact .inl ((satisfies_patched_iff hseed hkeeps.model).1 (hassign ▸ hsatisfies))
      · exact .inr ⟨hfull, hnot⟩
    obtain ⟨a, -⟩ := hsat
    refine ⟨fun reads' h => ?_, fun reads' h r hkeeps => ?_⟩
    · obtain rfl := huniq reads' h
      exact (hrun a).1
    · obtain rfl := huniq reads' h
      exact (hrun r).2 hkeeps
  · intro hsuff solver hright htotal required n
    have hgood : ∀ r, Keeps (Solves constraints condition) b reads r →
        TiesHold constraints condition b reads r → (b.patched reads r).Satisfies (constraints ++ [condition]) :=
      fun r hkeeps => (satisfies_patched_iff hseed hkeeps.model).2
    have hnot := (hspec solver hright htotal required n).mono (fun _ _ h => h) fun _ hE => (show False from ?_)
    · obtain ⟨u, t, hres, -, r, hrepair, hcases⟩ := hnot.exists_result
      refine ⟨t, hres, ?_⟩
      rcases hcases with ⟨hmay, hassign⟩ | ⟨-, -, hsatisfies⟩
      · rw [hassign]
        exact hgood r hrepair.keeps ((hsuff.repaired reads hreads r hrepair.keeps).resolve_right fun h => h.2 hmay)
      · exact hsatisfies
    · rcases hE with ⟨p, hmem, hout⟩ | ⟨r, hrepair, hnot, hfull⟩
      · exact hout (hsuff.inRange reads hreads p hmem)
      · rcases hsuff.repaired reads hreads r hrepair.keeps with hties | ⟨hfull', -⟩
        · exact hnot (mayHold_of_satisfies hp.width (hgood r hrepair.keeps hties))
        · exact hfull hfull'

/-! ### A tied byte -/

omit [ExprOptions] in
theorem seedArray_lt : 2 < 2 ^ 32 := by decide

omit [ExprOptions] in
theorem seedArray_values : ([] : List (BitVec 8)) = [] ∨ ([] : List (BitVec 8)).length = 2 := .inl rfl

/-- Two symbolic bytes. -/
def seedArray : Array := ⟨0, "x", 2, [], seedArray_lt, seedArray_values⟩

/-- The seed binds them to zeros. -/
def zeroSeed : Bindings := [(seedArray, [0, 0])]

/-- The read of one of them. -/
def seedByte (i : ℕ) : Expr := .read (.root seedArray) (.const (BitVec.ofNat 32 i))

/-- The condition: the first byte is 5. -/
def firstIsFive : Expr := .cmp .eq (.const 5#8) (seedByte 0)

/-- The two bytes are the same. -/
def tied : Expr := .cmp .eq (seedByte 0) (seedByte 1)

/-- The second byte is zero. -/
def secondIsZero : Expr := .cmp .eq (.const 0#8) (seedByte 1)

/-- The second byte is at most the first one. -/
def ordered : Expr := .cmp .ule (seedByte 1) (seedByte 0)

omit [ExprOptions] in
theorem directReads_firstIsFive : directReads firstIsFive = some [(seedArray, 0)] := by decide

omit [ExprOptions] in
theorem seedByte_spec (i : ℕ) (hi : i < 2) : (seedByte i).HasWidth 8 ∧ ∀ a, (seedByte i).Denotes a (a seedArray i) := by
  have hidx : (BitVec.ofNat 32 i).toNat = i := by
    rw [BitVec.toNat_ofNat, Nat.mod_eq_of_lt (by omega)]
  refine ⟨⟨⟨trivial, trivial, rfl⟩, rfl⟩, fun a => ⟨⟨trivial, fun h => absurd h (by decide)⟩, ?_⟩⟩
  rw [seedByte, Expr.eval, Expr.eval, BitVec.setWidth_eq, BitVec.setWidth_eq, hidx]
  rfl

theorem evaluate_firstIsFive (b : Bindings) : evaluate b firstIsFive = match b.byteAt seedArray 0 with
    | some v => ofBool (5#8 == v)
    | none => firstIsFive := by
  have hread : ExprEvaluator.visitWith (b.getInitialValue true) (seedByte 0) = b.getInitialValue true seedArray 0 := by
    rw [seedByte, ExprEvaluator.visitWith, ExprEvaluator.visitWith]
    rfl
  show ExprEvaluator.visitWith (b.getInitialValue true) (.cmp .eq (.const 5#8) (seedByte 0)) = _
  rw [ExprEvaluator.visitWith, ExprEvaluator.visitWith, hread]
  unfold Bindings.getInitialValue
  cases b.byteAt seedArray 0 with
  | some v =>
    show ExprEvaluator.visitExprPost (if Expr.cmp .eq (.const 5#8) (.const v) = firstIsFive then firstIsFive
      else EqExpr.create (.const 5#8) (.const v)) = ofBool (5#8 == v)
    rw [if_neg (by simp [firstIsFive, seedByte]), ExprEvaluator.EqExpr.create_isConstant, BitVec.setWidth_eq]
    rfl
  | none => rfl

omit [ExprOptions] in
theorem firstIsFive_spec : firstIsFive.HasWidth 1 ∧ ∀ a, firstIsFive.Denotes a (BitVec.ofBool (5#8 == a seedArray 0)) := by
  obtain ⟨hw, hden⟩ := seedByte_spec 0 (by decide)
  exact ⟨(hasWidth_const (5#8)).cmp hw, fun a => (denotes_const (5#8)).cmp (hasWidth_const (5#8)) (hden a)⟩

theorem zeroSeed_patchable {constraints : ConstraintSet} (hb : constraints.IsBool) (he : ∀ a, Evaluates a constraints) :
    Patchable constraints firstIsFive zeroSeed where
  isBool := hb
  width := firstIsFive_spec.1
  evaluates := he
  defined a := (firstIsFive_spec.2 a).defined
  evaluated b a := by
    rw [evaluate_firstIsFive]
    cases b.byteAt seedArray 0 with
    | some v => trivial
    | none => exact (firstIsFive_spec.2 a).defined
  symbolic arr h := by
    have hmem := find_isSome_iff.1 h
    obtain rfl := List.mem_singleton.1 hmem
    rfl
  size arr i h := by
    have hmem := find_isSome_iff.1 (Bindings.byteAt_isSome_find h)
    obtain rfl := List.mem_singleton.1 hmem
    by_contra hge
    have hnone : zeroSeed.byteAt seedArray i = none := List.getElem?_eq_none (Nat.not_lt.1 hge)
    rw [hnone] at h
    cases h

omit [ExprOptions] in
theorem zeroSeed_inRange : InRange zeroSeed (seedArray, 0) := fun _ => rfl

/-- The seed with 5 for the first byte. -/
def fiveSeed : Bindings := [(seedArray, [5#8, 0])]

omit [ExprOptions] in
/-- The first loop puts 5 for the first byte. -/
theorem zeroSeed_patched {constraints : ConstraintSet} {r : Assignment}
    (h : Keeps (Solves constraints firstIsFive) zeroSeed [(seedArray, 0)] r) :
    zeroSeed.patched [(seedArray, 0)] r = fiveSeed := by
  have hr : 5#8 = r seedArray 0 := (holds_ofBool_eq (firstIsFive_spec.2 r)).1 h.model.2
  show zeroSeed.setByte seedArray 0 (r seedArray 0) = _
  rw [← hr]
  decide

theorem fiveSeed_mayHold {constraints : ConstraintSet} (h : ∃ a, ConstraintSet.Satisfies a constraints) :
    MayHold constraints firstIsFive fiveSeed := by
  obtain ⟨a, ha⟩ := h
  refine ⟨a, ha, ?_⟩
  have heval : evaluate fiveSeed firstIsFive = ofBool (5#8 == 5#8) := evaluate_firstIsFive fiveSeed
  rw [heval]
  exact denotes_ofBool _

omit [ExprOptions] in
theorem tied_spec : tied.HasWidth 1 ∧ ∀ a, tied.Denotes a (BitVec.ofBool (a seedArray 0 == a seedArray 1)) := by
  obtain ⟨hw, hden⟩ := seedByte_spec 0 (by decide)
  obtain ⟨hw', hden'⟩ := seedByte_spec 1 (by decide)
  exact ⟨hw.cmp hw', fun a => (hden a).cmp hw (hden' a)⟩

omit [ExprOptions] in
theorem secondIsZero_spec :
    secondIsZero.HasWidth 1 ∧ ∀ a, secondIsZero.Denotes a (BitVec.ofBool (0#8 == a seedArray 1)) := by
  obtain ⟨hw, hden⟩ := seedByte_spec 1 (by decide)
  exact ⟨(hasWidth_const (0#8)).cmp hw, fun a => (denotes_const (0#8)).cmp (hasWidth_const (0#8)) (hden a)⟩

omit [ExprOptions] in
/-- The seed satisfies that its bytes are the same; the patched seed is 5 and 0. -/
theorem not_patchSeed_tied :
    let _ : ExprOptions := ExprOptions.defaults
    Patchable [tied] firstIsFive zeroSeed ∧ (∃ a, Solves [tied] firstIsFive a) ∧ zeroSeed.Satisfies [tied] ∧
      ∃ solver : SolverChain, (solver.Right fun _ => True) ∧ solver.Total ∧
        ∃ t, patchSeed solver [tied] firstIsFive ⟨zeroSeed, [], 0⟩ = (some ⟨⟩, t) ∧
          t.assignment = [(seedArray, [5, 0])] ∧ ¬t.assignment.Satisfies [tied] := by
  intro _
  have hp : Patchable [tied] firstIsFive zeroSeed := zeroSeed_patchable
    (fun c hc => List.mem_singleton.1 hc ▸ tied_spec.1) fun a c hc => List.mem_singleton.1 hc ▸ (tied_spec.2 a).defined
  have htied : ∀ a : Assignment, a seedArray 0 = a seedArray 1 → ConstraintSet.Satisfies a [tied] := fun a ha c hc =>
    List.mem_singleton.1 hc ▸ (holds_ofBool_eq (tied_spec.2 a)).2 ha
  have hsat : ∃ a, Solves [tied] firstIsFive a :=
    ⟨fun _ _ => 5, htied _ rfl, (holds_ofBool_eq (firstIsFive_spec.2 fun _ _ => 5)).2 rfl⟩
  refine ⟨hp, hsat, ⟨fun _ _ => 0, htied _ rfl⟩, SolverChain.exact fun _ => True, SolverChain.exact_right _,
    SolverChain.exact_total _, ?_⟩
  have hspec := patchSeed_spec (s := ⟨zeroSeed, [], 0⟩) (SolverChain.exact_right _) (SolverChain.exact_total _) hp hsat
    directReads_firstIsFive
  obtain ⟨a, ha, -⟩ := hsat
  have hmay := fiveSeed_mayHold ⟨a, ha⟩
  obtain ⟨_, t, hres, -, r, hrepair, hcases⟩ := (hspec.mono (fun _ _ h => h) fun _ hE => (show False from by
    rcases hE with ⟨p, hmem, hout⟩ | ⟨r, hrepair, hnot, -⟩
    · obtain rfl := List.mem_singleton.1 hmem
      exact hout zeroSeed_inRange
    · rw [zeroSeed_patched hrepair.keeps] at hnot
      exact hnot hmay)).exists_result
  rw [zeroSeed_patched hrepair.keeps] at hcases
  obtain ⟨-, hassign⟩ := hcases.resolve_right fun h => h.1 hmay
  refine ⟨t, hres, hassign, fun hsatisfies => ?_⟩
  obtain ⟨a, ha⟩ := hsatisfies
  have heq := (holds_ofBool_eq (tied_spec.2 _)).1 (ha tied List.mem_cons_self)
  rw [hassign] at heq
  have hfive : (5 : BitVec 8) = 0 := heq
  exact absurd hfive (by decide)

omit [ExprOptions] in
theorem ordered_spec :
    ordered.HasWidth 1 ∧ ∀ a, ordered.Denotes a (BitVec.ofBool ((a seedArray 1).ule (a seedArray 0))) := by
  obtain ⟨hw, hden⟩ := seedByte_spec 0 (by decide)
  obtain ⟨hw', hden'⟩ := seedByte_spec 1 (by decide)
  exact ⟨hw'.cmp hw, fun a => (hden' a).cmp hw' (hden a)⟩

omit [ExprOptions] in
/-- With a tie that 5 does not break, the seed is patched. -/
theorem patchSeed_ordered :
    let _ : ExprOptions := ExprOptions.defaults
    ∀ solver : SolverChain, (solver.Right fun _ => True) → solver.Total → ∀ required n,
      ∃ t, patchSeed solver [secondIsZero, ordered] firstIsFive ⟨zeroSeed, required, n⟩ = (some ⟨⟩, t) ∧
        t.assignment.Satisfies ([secondIsZero, ordered] ++ [firstIsFive]) := by
  intro _
  have hp : Patchable [secondIsZero, ordered] firstIsFive zeroSeed := by
    refine zeroSeed_patchable (fun c hc => ?_) fun a c hc => ?_
    · rcases List.mem_cons.1 hc with rfl | hc
      · exact secondIsZero_spec.1
      · exact List.mem_singleton.1 hc ▸ ordered_spec.1
    · rcases List.mem_cons.1 hc with rfl | hc
      · exact (secondIsZero_spec.2 a).defined
      · exact List.mem_singleton.1 hc ▸ (ordered_spec.2 a).defined
  have hold : ∀ a : Assignment, a seedArray 1 = 0 → ConstraintSet.Satisfies a [secondIsZero, ordered] := fun a ha c hc => by
    rcases List.mem_cons.1 hc with rfl | hc
    · exact (holds_ofBool_eq (secondIsZero_spec.2 a)).2 ha.symm
    · obtain rfl := List.mem_singleton.1 hc
      have hden := ordered_spec.2 a
      rw [ha, show (0 : BitVec 8).ule (a seedArray 0) = true by simp [BitVec.ule]] at hden
      exact hden
  have hfive : firstIsFive.Holds (fiveSeed.complete fun _ _ => 0) := (holds_ofBool_eq (firstIsFive_spec.2 _)).2 (by decide)
  have hreads : ∀ reads, directReads firstIsFive = some reads → reads = [(seedArray, 0)] := fun reads h =>
    Option.some.inj (h.symm.trans directReads_firstIsFive)
  refine (patchSeed_satisfies_iff hp ⟨_, hold _ (by decide), hfive⟩ ⟨fun _ _ => 0, hold _ (by decide)⟩).2
    ⟨fun reads h p hmem => ?_, fun reads h r hkeeps => .inl ?_⟩
  · obtain rfl := hreads reads h
    obtain rfl := List.mem_singleton.1 hmem
    exact zeroSeed_inRange
  · obtain rfl := hreads reads h
    rw [TiesHold, zeroSeed_patched hkeeps]
    exact ⟨fun _ _ => 0, fun k hk _ => hold _ (by decide) k hk, fun _ => hfive⟩

end

end SeedInfo

end SymBisect
