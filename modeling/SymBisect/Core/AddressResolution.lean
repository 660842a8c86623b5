import SymBisect.Core.PathCondition

/-!
# Resolution of symbolic addresses

`AddressSpace::resolveOne` and `AddressSpace::resolve` of `lib/Core/AddressSpace.cpp`.  Both start at an
example of the address and walk the ordered map of objects in both directions, with a question to the
solver at every object and another one that may end the walk.

* `MemoryObject.Checks`: the pointer passes the bounds check of the object.
* `AddressSpace.Disjoint`: no pointer passes the checks of two objects.
* `resolve_spec`, `resolveOne_spec`: what the walks find, for a solver whose answers are right.
* `resolution_exact`: with all answers, both find exactly what can be found.
-/

namespace SymBisect

open Lib Expr ConstraintSet

namespace MemoryObject

/-! ### Bounds checks -/

section
variable [ExprOptions]

/-- `getBoundsCheckOffset(offset)`. -/
def getBoundsCheckOffset₁ (mo : MemoryObject) (offset : Expr) : Expr :=
  if mo.size = 0 then EqExpr.create offset (.const (BitVec.ofNat pointerWidth 0))
  else UltExpr.create offset (.const (BitVec.ofNat pointerWidth mo.size))

/-- `getBoundsCheckPointer(pointer)`. -/
def getBoundsCheckPointer₁ (mo : MemoryObject) (pointer : Expr) : Expr :=
  mo.getBoundsCheckOffset₁ (mo.getOffsetExpr pointer)

end

/-- The pointer is inside the bounds that `getBoundsCheckPointer(pointer)` checks. -/
def Checks (mo : MemoryObject) (v : BitVec pointerWidth) : Prop :=
  if mo.size = 0 then v - mo.address = 0 else (v - mo.address).toNat < mo.size

instance (mo : MemoryObject) (v : BitVec pointerWidth) : Decidable (mo.Checks v) := by
  unfold Checks
  infer_instance

/-- The checked bounds are the range of the object, and the address of an empty object. -/
theorem checks_iff (mo : MemoryObject) (v : BitVec pointerWidth) :
    mo.Checks v ↔ mo.address.toNat ≤ v.toNat ∧ (v.toNat < mo.address.toNat + mo.size ∨ v = mo.address) := by
  have hend : mo.address.toNat + mo.size ≤ 2 ^ 64 := mo.address_add_size
  have hv : v.toNat < 2 ^ 64 := v.isLt
  have ha : mo.address.toNat < 2 ^ 64 := mo.address.isLt
  unfold Checks
  split
  · rename_i h0
    rw [sub_eq_zero, h0]
    constructor
    · rintro rfl
      exact ⟨le_rfl, .inr rfl⟩
    · intro h
      exact h.2.resolve_left (by omega)
  · rename_i h0
    rw [BitVec.toNat_sub]
    show (2 ^ 64 - mo.address.toNat + v.toNat) % 2 ^ 64 < mo.size ↔ _
    constructor
    · intro h
      omega
    · rintro ⟨hle, hlt | rfl⟩
      · omega
      · omega

theorem checks_address (mo : MemoryObject) : mo.Checks mo.address :=
  (mo.checks_iff mo.address).2 ⟨le_rfl, .inr rfl⟩

/-- A pointer at or above a later object is not inside an earlier one. -/
theorem not_checks_of_le {mo mo' : MemoryObject} {v : BitVec pointerWidth}
    (hdisj : ∀ v, mo'.Checks v → ¬mo.Checks v) (hlt : mo'.address.toNat < mo.address.toNat)
    (hle : mo.address.toNat ≤ v.toNat) : ¬mo'.Checks v := by
  intro h
  obtain ⟨-, hend⟩ := (mo'.checks_iff v).1 h
  have hne : v ≠ mo'.address := by
    rintro rfl
    omega
  have hv := hend.resolve_right hne
  exact hdisj mo.address ((mo'.checks_iff _).2 ⟨hlt.le, .inl (hle.trans_lt hv)⟩) mo.checks_address

theorem not_checks_of_lt {mo : MemoryObject} {v : BitVec pointerWidth}
    (hlt : v.toNat < mo.address.toNat) : ¬mo.Checks v := by
  intro h
  have := ((mo.checks_iff v).1 h).1
  omega

variable [ExprOptions]

/-- The check of one byte computes `Checks`. -/
theorem getBoundsCheckPointer₁_computes (mo : MemoryObject) {pointer : Expr}
    (h : pointer.HasWidth pointerWidth) :
    pointer.Computes₁ (fun v : BitVec pointerWidth => BitVec.ofBool (decide (mo.Checks v)))
      (mo.getBoundsCheckPointer₁ pointer) := by
  have hoff := mo.getOffsetExpr_computes h
  unfold getBoundsCheckPointer₁ getBoundsCheckOffset₁
  split
  · rename_i h0
    have heq := EqExpr.create_computes hoff.hasWidth (hasWidth_const (BitVec.ofNat pointerWidth 0))
    refine ⟨heq.hasWidth, fun d => ?_⟩
    have hden := heq.denotes (hoff.denotes d) (denotes_const _)
    simpa [Checks, h0, CmpOp.apply, beq_eq_decide] using hden
  · rename_i h0
    have hult := UltExpr.create_computes hoff.hasWidth
      (hasWidth_const (BitVec.ofNat pointerWidth mo.size))
    refine ⟨hult.hasWidth, fun d => ?_⟩
    have hden := hult.denotes (hoff.denotes d) (denotes_const _)
    have hsize : mo.size < 2 ^ pointerWidth := mo.size_lt.trans (by decide)
    simpa [Checks, h0, CmpOp.apply, BitVec.ult, Nat.mod_eq_of_lt hsize] using hden

end MemoryObject

namespace AddressSpace

/-- No pointer is inside the checked bounds of two objects. -/
def Disjoint (as : AddressSpace) : Prop :=
  ∀ x ∈ as.objects, ∀ y ∈ as.objects, x ≠ y → ∀ v, x.Checks v → ¬y.Checks v

/-- The objects before `upper_bound` of an address. -/
def upTo (as : AddressSpace) (address : ℕ) : List MemoryObject :=
  as.objects.filter fun mo => mo.address.toNat ≤ address

/-- The objects from `upper_bound` of an address on. -/
def above (as : AddressSpace) (address : ℕ) : List MemoryObject :=
  as.objects.filter fun mo => address < mo.address.toNat

/-- The cheap search: the object at or below the example, if it holds the example. -/
def holding (as : AddressSpace) (address : ℕ) : Option MemoryObject :=
  (as.lookup_previous address).filter fun mo => address - mo.address.toNat < mo.size

/-- `lookup_previous` finds the highest object that does not start above the address. -/
theorem le_lookup_previous {as : AddressSpace} {n : ℕ} {mo : MemoryObject} (h : as.lookup_previous n = some mo)
    {x : MemoryObject} (hx : x ∈ as.objects) (hle : x.address.toNat ≤ n) :
    x = mo ∨ x.address.toNat < mo.address.toNat := by
  have hsorted := as.sorted.filter fun mo => decide (mo.address.toNat ≤ n)
  have hmem : x ∈ as.objects.filter fun mo => decide (mo.address.toNat ≤ n) :=
    List.mem_filter.2 ⟨hx, decide_eq_true hle⟩
  unfold lookup_previous at h
  obtain ⟨init, hinit⟩ := List.getLast?_eq_some_iff.1 h
  rw [hinit] at hsorted hmem
  obtain hx | hx := List.mem_append.1 hmem
  · exact .inr ((List.pairwise_append.1 hsorted).2.2 x hx mo (List.mem_singleton.2 rfl))
  · exact .inl (List.mem_singleton.1 hx)

/-- A constant address is resolved to the object whose bounds it is in. -/
theorem resolveOne_eq_some_iff {as : AddressSpace} (hdisj : as.Disjoint) (c : BitVec pointerWidth)
    (mo : MemoryObject) : as.resolveOne c.toNat = some mo ↔ mo ∈ as.objects ∧ mo.Checks c := by
  have hcheck : ∀ x : MemoryObject, x.address.toNat ≤ c.toNat →
      (((x.size = 0 ∧ c.toNat = x.address.toNat) ∨ c.toNat - x.address.toNat < x.size) ↔ x.Checks c) := by
    intro x hle
    rw [x.checks_iff, ← BitVec.toNat_inj]
    omega
  unfold resolveOne
  constructor
  · intro h
    cases hprev : as.lookup_previous c.toNat with
    | none =>
      rw [hprev] at h
      cases h
    | some x =>
      rw [hprev] at h
      obtain ⟨hx, hle⟩ := lookup_previous_spec hprev
      simp only [hcheck x hle] at h
      split_ifs at h with hin
      cases h
      exact ⟨hx, hin⟩
  · rintro ⟨hmo, hin⟩
    have hle := ((mo.checks_iff c).1 hin).1
    have hmem : mo ∈ as.objects.filter fun mo => decide (mo.address.toNat ≤ c.toNat) :=
      List.mem_filter.2 ⟨hmo, decide_eq_true hle⟩
    cases hprev : as.lookup_previous c.toNat with
    | none =>
      rw [lookup_previous, List.getLast?_eq_none_iff] at hprev
      rw [hprev] at hmem
      cases hmem
    | some x =>
      obtain ⟨hx, hlex⟩ := lookup_previous_spec hprev
      obtain rfl | hlt := le_lookup_previous hprev hmo hle
      · simp only [hcheck mo hlex, if_pos hin]
      · have hne : mo ≠ x := by
          rintro rfl
          omega
        exact absurd hin (MemoryObject.not_checks_of_le (hdisj mo hmo x hx hne) hlt hlex)

/-- The cheap search finds an object that holds the example. -/
theorem holding_spec {as : AddressSpace} {c : BitVec pointerWidth} {mo : MemoryObject}
    (h : as.holding c.toNat = some mo) : mo ∈ as.objects ∧ mo.Checks c := by
  obtain ⟨hprev, hin⟩ := Option.filter_eq_some_iff.1 h
  obtain ⟨hmo, hle⟩ := lookup_previous_spec hprev
  rw [decide_eq_true_eq] at hin
  exact ⟨hmo, (mo.checks_iff c).2 ⟨hle, .inl (by omega)⟩⟩

end AddressSpace

namespace Executor

/-! ### The walks -/

/-- `TimingSolver::mayBeTrue`, for a caller that handles a time-out. -/
def askMayBeTrue (env : Env) (p : Ptr) (e : Expr) : Prog Executor (Option Bool) := do
  let state ← read p
  Prog.assert (e.HasWidth 1)
  if e.isConstant then pure (some e.isTrue)
  else do
    let n ← tick
    pure (env.solver.mayBeTrue n state.constraints e)

/-- How the walk of `resolveOne` in one direction ends. -/
inductive Walk where
  | failed
  | missed
  | found (mo : MemoryObject)

/-- What `checkPointerInObject` returns: 0, 1 and 2. -/
inductive Check where
  | complete
  | incomplete
  | goOn

/-- `rl` and what `resolve` returns. -/
structure Resolution where
  rl : List MemoryObject
  incomplete : Bool

section
variable [ExprOptions] (env : Env) (p : Ptr) (address : Expr)

/-- The walk of `resolveOne` down from the example. -/
def walkBackward : List MemoryObject → Prog Executor Walk
  | [] => pure .missed
  | mo :: objects => do
    match ← askMayBeTrue env p (mo.getBoundsCheckPointer₁ address) with
    | none => pure .failed
    | some true => pure (.found mo)
    | some false => do
      match ← mustBeTrue env p (UgeExpr.create address mo.getBaseExpr) with
      | none => pure .failed
      | some true => pure .missed
      | some false => walkBackward objects

/-- The walk of `resolveOne` up from the example. -/
def walkForward : List MemoryObject → Prog Executor Walk
  | [] => pure .missed
  | mo :: objects => do
    match ← mustBeTrue env p (UltExpr.create address mo.getBaseExpr) with
    | none => pure .failed
    | some true => pure .missed
    | some false => do
      match ← askMayBeTrue env p (mo.getBoundsCheckPointer₁ address) with
      | none => pure .failed
      | some true => pure (.found mo)
      | some false => walkForward objects

/-- The search of `resolveOne` around an example that is in no object. -/
def search (as : AddressSpace) (example_ : ℕ) : Prog Executor (Option (Option MemoryObject)) := do
  match ← walkBackward env p address (as.upTo example_).reverse with
  | .failed => pure none
  | .found mo => pure (some (some mo))
  | .missed => do
    match ← walkForward env p address (as.above example_) with
    | .failed => pure none
    | .found mo => pure (some (some mo))
    | .missed => pure (some none)

/-- `resolveOne`: nothing when a query times out, else the object, if there is one. -/
def resolveOne : Prog Executor (Option (Option MemoryObject)) := do
  let state ← read p
  match address with
  | .const c => pure (some (state.addressSpace.resolveOne c.toNat))
  | address => do
    match ← getValue env p address with
    | none => pure none
    | some cex =>
      match state.addressSpace.holding cex.toNat with
      | some mo => pure (some (some mo))
      | none => search env p address state.addressSpace cex.toNat

/-- `checkPointerInObject`. -/
def checkPointerInObject (maxResolutions : ℕ) (mo : MemoryObject) (rl : List MemoryObject) :
    Prog Executor (Check × List MemoryObject) := do
  match ← askMayBeTrue env p (mo.getBoundsCheckPointer₁ address) with
  | none => pure (.incomplete, rl)
  | some false => pure (.goOn, rl)
  | some true =>
    -- fast path check
    if (rl ++ [mo]).length = 1 then do
      match ← mustBeTrue env p (mo.getBoundsCheckPointer₁ address) with
      | none => pure (.incomplete, rl ++ [mo])
      | some true => pure (.complete, rl ++ [mo])
      | some false => pure (.goOn, rl ++ [mo])
    else if (rl ++ [mo]).length = maxResolutions then pure (.incomplete, rl ++ [mo])
    else pure (.goOn, rl ++ [mo])

variable (late : ℕ → Bool) (maxResolutions : ℕ)

/-- The loop of `resolve` down from the example; the first component is the value that it returns with, if
it does.  `late` is `timeout && timeout < timer.delta()`. -/
def resolveBackward : List MemoryObject → List MemoryObject → Prog Executor (Option Bool × List MemoryObject)
  | [], rl => pure (none, rl)
  | mo :: objects, rl => do
    let n ← tick
    if late n then pure (some true, rl)
    else do
      let checked ← checkPointerInObject env p address maxResolutions mo rl
      match checked.1 with
      | .complete => pure (some false, checked.2)
      | .incomplete => pure (some true, checked.2)
      | .goOn => do
        match ← mustBeTrue env p (UgeExpr.create address mo.getBaseExpr) with
        | none => pure (some true, checked.2)
        | some true => pure (none, checked.2)
        | some false => resolveBackward objects checked.2

/-- The loop of `resolve` up from the example. -/
def resolveForward : List MemoryObject → List MemoryObject → Prog Executor (Option Bool × List MemoryObject)
  | [], rl => pure (none, rl)
  | mo :: objects, rl => do
    let n ← tick
    if late n then pure (some true, rl)
    else do
      match ← mustBeTrue env p (UltExpr.create address mo.getBaseExpr) with
      | none => pure (some true, rl)
      | some true => pure (none, rl)
      | some false => do
        let checked ← checkPointerInObject env p address maxResolutions mo rl
        match checked.1 with
        | .complete => pure (some false, checked.2)
        | .incomplete => pure (some true, checked.2)
        | .goOn => resolveForward objects checked.2

/-- The loops of `resolve` around an example. -/
def resolveAround (as : AddressSpace) (example_ : ℕ) : Prog Executor Resolution := do
  let below ← resolveBackward env p address late maxResolutions (as.upTo example_).reverse []
  match below.1 with
  | some incomplete => pure ⟨below.2, incomplete⟩
  | none => do
    let all ← resolveForward env p address late maxResolutions (as.above example_) below.2
    pure ⟨all.2, all.1.getD false⟩

/-- `resolve`. -/
def resolve : Prog Executor Resolution := do
  let state ← read p
  match address with
  | .const c => pure ⟨(state.addressSpace.resolveOne c.toNat).toList, false⟩
  | address => do
    match ← getValue env p address with
    | none => pure ⟨[], true⟩
    | some cex => resolveAround env p address late maxResolutions state.addressSpace cex.toNat

end

/-! ### Where the pointer may be -/

section
variable {env : Env} {p : Ptr} {address : Expr} {D M : Assignment → Prop} {s : Executor}
  {as : AddressSpace} {value : Assignment → BitVec pointerWidth} {E : Executor → Prop}

/-- Some model puts the pointer inside the object. -/
def May (M : Assignment → Prop) (value : Assignment → BitVec pointerWidth) (mo : MemoryObject) : Prop :=
  ∃ a, M a ∧ mo.Checks (value a)

theorem askMayBeTrue_spec {e : Expr} (hright : env.solver.Right D) (h : KnownAt D M s p as)
    (he : e.HasWidth 1) (hdef : ∀ a, M a → e.Defined a) :
    Prog.wp (askMayBeTrue env p e)
      (fun o t => Ticked s t ∧ (∀ b, o = some b → (b = true ↔ ∃ a, M a ∧ e.Holds a)) ∧
        (env.solver.Total → o.isSome = true)) E s := by
  refine wp_ask h he fun state hd => ?_
  rw [Prog.wp_ite]
  refine ⟨fun hc => ?_, fun _ => ?_⟩
  · refine ⟨.refl s, fun b hb => ?_, fun _ => rfl⟩
    obtain rfl : e.isTrue = b := Option.some.inj hb
    exact (isTrue_iff_holds hd.feasible he hc).2
  · refine ⟨.tick s _, fun b hb => ?_, fun htotal => htotal.mayBeTrue _ _ _⟩
    have hiff := hright.mayBeTrue _ _ _ (hd.askable he.wf hdef) he.width b hb
    rw [hiff, ← hd.models_eq]

/-- A boolean computed from the pointer holds where its condition does. -/
theorem holds_iff_of_computes {c : BitVec pointerWidth → Bool} {e : Expr} (hv : Computed M address value)
    (he : address.Computes₁ (fun v : BitVec pointerWidth => BitVec.ofBool (c v)) e) {a : Assignment}
    (ha : M a) : e.Defined a ∧ (e.Holds a ↔ c (value a) = true) := by
  have hden := he.denotes (hv.2 a ha)
  refine ⟨hden.defined, fun hh => ?_, fun hc => ?_⟩
  · have hval := hden.value.symm.trans hh.value
    revert hval
    cases c (value a) with
    | true => exact fun _ => rfl
    | false => exact fun h => absurd h (by decide)
  · rw [hc] at hden
    exact hden

/-- Objects of the address space, from the highest address down. -/
structure Downward (as : AddressSpace) (objects : List MemoryObject) : Prop where
  mem : ∀ mo ∈ objects, mo ∈ as.objects
  descending : objects.Pairwise fun x y => y.address.toNat < x.address.toNat

/-- Objects of the address space, from the lowest address up. -/
structure Upward (as : AddressSpace) (objects : List MemoryObject) : Prop where
  mem : ∀ mo ∈ objects, mo ∈ as.objects
  ascending : objects.Pairwise fun x y => x.address.toNat < y.address.toNat

theorem Downward.tail {mo : MemoryObject} {objects : List MemoryObject} (h : Downward as (mo :: objects)) :
    Downward as objects := ⟨fun x hx => h.mem x (List.mem_cons_of_mem _ hx), h.descending.tail⟩

theorem Upward.tail {mo : MemoryObject} {objects : List MemoryObject} (h : Upward as (mo :: objects)) :
    Upward as objects := ⟨fun x hx => h.mem x (List.mem_cons_of_mem _ hx), h.ascending.tail⟩

theorem downward_upTo (as : AddressSpace) (n : ℕ) : Downward as (as.upTo n).reverse where
  mem _ hmo := (List.mem_filter.1 (List.mem_reverse.1 hmo)).1
  descending := List.pairwise_reverse.2 (as.sorted.filter _)

theorem upward_above (as : AddressSpace) (n : ℕ) : Upward as (as.above n) where
  mem _ hmo := (List.mem_filter.1 hmo).1
  ascending := as.sorted.filter _

/-- Where the pointer is at or above an object, it is in none of the lower ones. -/
theorem Downward.not_may {mo : MemoryObject} {objects : List MemoryObject} (h : Downward as (mo :: objects))
    (hdisj : as.Disjoint) (habove : ∀ a, M a → mo.address.toNat ≤ (value a).toNat) :
    ∀ x ∈ objects, ¬May M value x := by
  rintro x hx ⟨a, ha, hcheck⟩
  have hlt := List.rel_of_pairwise_cons h.descending hx
  have hne : x ≠ mo := by
    rintro rfl
    omega
  exact MemoryObject.not_checks_of_le (hdisj x (h.mem x (List.mem_cons_of_mem _ hx)) mo
    (h.mem mo List.mem_cons_self) hne) hlt (habove a ha) hcheck

/-- Where the pointer is below an object, it is neither in it nor in a higher one. -/
theorem Upward.not_may {mo : MemoryObject} {objects : List MemoryObject} (h : Upward as (mo :: objects))
    (hbelow : ∀ a, M a → (value a).toNat < mo.address.toNat) : ∀ x ∈ mo :: objects, ¬May M value x := by
  rintro x hx ⟨a, ha, hcheck⟩
  have hlt := hbelow a ha
  obtain rfl | hx := List.mem_cons.1 hx
  · exact MemoryObject.not_checks_of_lt hlt hcheck
  · have := List.rel_of_pairwise_cons h.ascending hx
    exact MemoryObject.not_checks_of_lt (hlt.trans this) hcheck

/-- How a walk may end: at an object that the pointer may be in, or past objects that it is not in. -/
def Walk.Right (env : Env) (M : Assignment → Prop) (value : Assignment → BitVec pointerWidth)
    (objects : List MemoryObject) : Walk → Prop
  | .failed => ¬env.solver.Total
  | .missed => ∀ mo ∈ objects, ¬May M value mo
  | .found mo => mo ∈ objects ∧ May M value mo

/-- A walk past the first object. -/
theorem Walk.Right.cons {mo : MemoryObject} {objects : List MemoryObject} {w : Walk}
    (h : w.Right env M value objects) (hmo : ¬May M value mo) : w.Right env M value (mo :: objects) := by
  cases w with
  | failed => exact h
  | missed => exact List.forall_mem_cons.2 ⟨hmo, h⟩
  | found x => exact ⟨List.mem_cons_of_mem _ h.1, h.2⟩

theorem not_total_of_none {o : Option Bool} (ho : o = none) (h : env.solver.Total → o.isSome = true) :
    ¬env.solver.Total := by
  intro htotal
  have := h htotal
  rw [ho] at this
  cases this

/-- An object is below the example or above it. -/
theorem mem_upTo_or_above {mo : MemoryObject} (hmo : mo ∈ as.objects) (n : ℕ) :
    mo ∈ (as.upTo n).reverse ∨ mo ∈ as.above n := by
  by_cases hle : mo.address.toNat ≤ n
  · exact .inl (List.mem_reverse.2 (List.mem_filter.2 ⟨hmo, decide_eq_true hle⟩))
  · exact .inr (List.mem_filter.2 ⟨hmo, decide_eq_true (Nat.lt_of_not_le hle)⟩)

/-- What `resolveOne` may return. -/
def OneRight (env : Env) (M : Assignment → Prop) (value : Assignment → BitVec pointerWidth)
    (as : AddressSpace) : Option (Option MemoryObject) → Prop
  | none => ¬env.solver.Total
  | some none => ∀ mo ∈ as.objects, ¬May M value mo
  | some (some mo) => mo ∈ as.objects ∧ May M value mo

/-- A constant pointer may be in an object exactly where it is. -/
theorem may_const_iff {c : BitVec pointerWidth} (hfeasible : ∃ a, M a)
    (hv : Computed M (.const c) value) (mo : MemoryObject) : May M value mo ↔ mo.Checks c := by
  have hval : ∀ a, M a → value a = c := fun a ha => (hv.2 a ha).const_eq.symm
  constructor
  · rintro ⟨a, ha, hcheck⟩
    rwa [hval a ha] at hcheck
  · intro hcheck
    obtain ⟨a, ha⟩ := hfeasible
    exact ⟨a, ha, (hval a ha).symm ▸ hcheck⟩

/-- The value of a pointer and an example of it are the same number. -/
theorem toNat_getValue {a : Assignment} {x : BitVec pointerWidth} {cex : BitVec address.getWidth}
    (hw : address.HasWidth pointerWidth) (hx : address.Denotes a x) (hcex : address.Denotes a cex) :
    x.toNat = cex.toNat := by
  rw [← hx.value, ← hcex.value, hw.width]

/-! ### What `resolve` collects -/

section
open Classical

/-- The objects of a list that the pointer may be in. -/
noncomputable def mayOf (M : Assignment → Prop) (value : Assignment → BitVec pointerWidth)
    (objects : List MemoryObject) : List MemoryObject :=
  objects.filter fun mo => decide (May M value mo)

theorem mem_mayOf {objects : List MemoryObject} {mo : MemoryObject} :
    mo ∈ mayOf M value objects ↔ mo ∈ objects ∧ May M value mo := by
  rw [mayOf, List.mem_filter, decide_eq_true_eq]

theorem mayOf_eq_nil {objects : List MemoryObject} (h : ∀ mo ∈ objects, ¬May M value mo) :
    mayOf M value objects = [] :=
  List.filter_eq_nil_iff.2 fun mo hmo => by simpa using h mo hmo

theorem mayOf_cons_of_may {mo : MemoryObject} (objects : List MemoryObject) (h : May M value mo) :
    mayOf M value (mo :: objects) = mo :: mayOf M value objects :=
  List.filter_cons_of_pos (decide_eq_true h)

theorem mayOf_cons_of_not {mo : MemoryObject} (objects : List MemoryObject) (h : ¬May M value mo) :
    mayOf M value (mo :: objects) = mayOf M value objects :=
  List.filter_cons_of_neg (by simpa using h)

end

/-- Nothing ends the search early: no time-out and no limit. -/
structure Unlimited (env : Env) (late : ℕ → Bool) (maxResolutions : ℕ) : Prop where
  total : env.solver.Total
  late : ∀ n, late n = false
  maxResolutions : maxResolutions = 0

variable {late : ℕ → Bool} {maxResolutions : ℕ}

/-- What `checkPointerInObject` returns, and the list then. -/
def Checked (env : Env) (M : Assignment → Prop) (value : Assignment → BitVec pointerWidth) (maxResolutions : ℕ)
    (mo : MemoryObject) (rl : List MemoryObject) : Check × List MemoryObject → Prop
  | (.complete, rl') => rl' = [mo] ∧ ∀ a, M a → mo.Checks (value a)
  | (.incomplete, _) => ¬(env.solver.Total ∧ maxResolutions = 0)
  | (.goOn, rl') => rl' = rl ++ mayOf M value [mo]

/-- How a loop of `resolve` may end: with the objects that the pointer may be in, with one that it must be
in, or early. -/
def Looped (env : Env) (M : Assignment → Prop) (value : Assignment → BitVec pointerWidth) (late : ℕ → Bool)
    (maxResolutions : ℕ) (objects rl : List MemoryObject) : Option Bool × List MemoryObject → Prop
  | (none, rl') => rl' = rl ++ mayOf M value objects
  | (some false, rl') => ∃ mo ∈ objects, rl' = [mo] ∧ ∀ a, M a → mo.Checks (value a)
  | (some true, _) => ¬Unlimited env late maxResolutions

/-- A loop past the first object. -/
theorem Looped.cons {mo : MemoryObject} {objects rl : List MemoryObject} {r : Option Bool × List MemoryObject}
    (h : Looped env M value late maxResolutions objects (rl ++ mayOf M value [mo]) r) :
    Looped env M value late maxResolutions (mo :: objects) rl r := by
  obtain ⟨o, rl'⟩ := r
  cases o with
  | none =>
    refine h.trans ?_
    rw [List.append_assoc]
    by_cases hm : May M value mo
    · rw [mayOf_cons_of_may [] hm, mayOf_cons_of_may objects hm]
      rfl
    · rw [mayOf_cons_of_not [] hm, mayOf_cons_of_not objects hm]
      rfl
  | some b =>
    cases b with
    | true => exact h
    | false =>
      obtain ⟨x, hx, hrl, hmust⟩ := h
      exact ⟨x, List.mem_cons_of_mem _ hx, hrl, hmust⟩

/-- Every object that the pointer may be in, once, and nothing else. -/
def Resolution.Exact (M : Assignment → Prop) (value : Assignment → BitVec pointerWidth) (as : AddressSpace)
    (r : Resolution) : Prop :=
  r.rl.Nodup ∧ ∀ mo, mo ∈ r.rl ↔ mo ∈ as.objects ∧ May M value mo

/-- An object that the pointer must be in is the only one that it may be in. -/
theorem exact_of_must {mo : MemoryObject} {incomplete : Bool} (hfeasible : ∃ a, M a) (hdisj : as.Disjoint)
    (hmo : mo ∈ as.objects) (hmust : ∀ a, M a → mo.Checks (value a)) :
    Resolution.Exact M value as ⟨[mo], incomplete⟩ := by
  refine ⟨List.nodup_singleton mo, fun x => ?_⟩
  rw [List.mem_singleton]
  constructor
  · rintro rfl
    obtain ⟨a, ha⟩ := hfeasible
    exact ⟨hmo, a, ha, hmust a ha⟩
  · rintro ⟨hx, a, ha, hcheck⟩
    by_contra hne
    exact hdisj x hx mo hmo hne _ hcheck (hmust a ha)

/-- The objects on both sides of an example are all objects, once. -/
theorem exact_of_both (as : AddressSpace) (n : ℕ) (incomplete : Bool) :
    Resolution.Exact M value as ⟨mayOf M value (as.upTo n).reverse ++ mayOf M value (as.above n), incomplete⟩ := by
  constructor
  · rw [List.nodup_append']
    refine ⟨((downward_upTo as n).descending.imp ?_).filter _, ((upward_above as n).ascending.imp ?_).filter _, ?_⟩
    · rintro x y hlt rfl
      omega
    · rintro x y hlt rfl
      omega
    · intro x hx hy
      have hle := (List.mem_filter.1 (List.mem_reverse.1 (mem_mayOf.1 hx).1)).2
      have hlt := (List.mem_filter.1 (mem_mayOf.1 hy).1).2
      rw [decide_eq_true_eq] at hle hlt
      omega
  · intro mo
    rw [List.mem_append, mem_mayOf, mem_mayOf, ← or_and_right]
    refine and_congr_left fun _ => ⟨fun h => ?_, fun h => mem_upTo_or_above h n⟩
    exact h.elim ((downward_upTo as n).mem mo) ((upward_above as n).mem mo)

/-! ### What the walks find -/

/-- A question whether the pointer must have a property that its value decides. -/
theorem mustBeComputed_spec {c : BitVec pointerWidth → Bool} {e : Expr} (hright : env.solver.Right D)
    (h : KnownAt D M s p as) (hv : Computed M address value)
    (he : address.Computes₁ (fun v : BitVec pointerWidth => BitVec.ofBool (c v)) e) :
    Prog.wp (mustBeTrue env p e)
      (fun o t => Ticked s t ∧ (∀ b, o = some b → (b = true ↔ ∀ a, M a → c (value a) = true)) ∧
        (env.solver.Total → o.isSome = true)) E s := by
  refine (mustBeTrue_spec hright h he.hasWidth fun a ha => (holds_iff_of_computes hv he ha).1).mono
    (fun o t ht => ⟨ht.1, fun b hb => ?_, ht.2.2⟩) fun _ => id
  rw [ht.2.1 b hb]
  exact forall₂_congr fun a ha => (holds_iff_of_computes hv he ha).2

variable [ExprOptions]

/-- The question whether the pointer may be in an object. -/
theorem askInside_spec (hright : env.solver.Right D) (h : KnownAt D M s p as)
    (hv : Computed M address value) (mo : MemoryObject) :
    Prog.wp (askMayBeTrue env p (mo.getBoundsCheckPointer₁ address))
      (fun o t => Ticked s t ∧ (∀ b, o = some b → (b = true ↔ May M value mo)) ∧
        (env.solver.Total → o.isSome = true)) E s := by
  have hcheck := mo.getBoundsCheckPointer₁_computes hv.1
  refine (askMayBeTrue_spec hright h hcheck.hasWidth fun a ha =>
    (holds_iff_of_computes hv hcheck ha).1).mono (fun o t ht => ⟨ht.1, fun b hb => ?_, ht.2.2⟩) fun _ => id
  rw [ht.2.1 b hb]
  refine exists_congr fun a => and_congr_right fun ha => ?_
  rw [(holds_iff_of_computes hv hcheck ha).2, decide_eq_true_eq]

/-- The question whether the pointer must be at or above an object. -/
theorem askAbove_spec (hright : env.solver.Right D) (h : KnownAt D M s p as)
    (hv : Computed M address value) (mo : MemoryObject) :
    Prog.wp (mustBeTrue env p (UgeExpr.create address mo.getBaseExpr))
      (fun o t => Ticked s t ∧
        (∀ b, o = some b → (b = true ↔ ∀ a, M a → mo.address.toNat ≤ (value a).toNat)) ∧
        (env.solver.Total → o.isSome = true)) E s := by
  have hule := UleExpr.create_computes mo.getBaseExpr_hasWidth hv.1
  have he : address.Computes₁ (fun v : BitVec pointerWidth => BitVec.ofBool (mo.address.ule v))
      (UgeExpr.create address mo.getBaseExpr) :=
    ⟨hule.hasWidth, fun d => hule.denotes (mo.getBaseExpr_denotes _) d⟩
  refine (mustBeComputed_spec hright h hv he).mono (fun o t ht => ⟨ht.1, fun b hb => ?_, ht.2.2⟩) fun _ => id
  rw [ht.2.1 b hb]
  exact forall₂_congr fun a _ => by rw [BitVec.ule, decide_eq_true_eq]

/-- The question whether the pointer must be below an object. -/
theorem askBelow_spec (hright : env.solver.Right D) (h : KnownAt D M s p as)
    (hv : Computed M address value) (mo : MemoryObject) :
    Prog.wp (mustBeTrue env p (UltExpr.create address mo.getBaseExpr))
      (fun o t => Ticked s t ∧
        (∀ b, o = some b → (b = true ↔ ∀ a, M a → (value a).toNat < mo.address.toNat)) ∧
        (env.solver.Total → o.isSome = true)) E s := by
  have hult := UltExpr.create_computes hv.1 mo.getBaseExpr_hasWidth
  have he : address.Computes₁ (fun v : BitVec pointerWidth => BitVec.ofBool (v.ult mo.address))
      (UltExpr.create address mo.getBaseExpr) :=
    ⟨hult.hasWidth, fun d => hult.denotes d (mo.getBaseExpr_denotes _)⟩
  refine (mustBeComputed_spec hright h hv he).mono (fun o t ht => ⟨ht.1, fun b hb => ?_, ht.2.2⟩) fun _ => id
  rw [ht.2.1 b hb]
  exact forall₂_congr fun a _ => by rw [BitVec.ult, decide_eq_true_eq]

theorem walkBackward_spec (hright : env.solver.Right D) (hv : Computed M address value) (hdisj : as.Disjoint)
    (objects : List MemoryObject) (hobj : Downward as objects) {s : Executor} (h : KnownAt D M s p as) :
    Prog.wp (walkBackward env p address objects)
      (fun w t => Ticked s t ∧ w.Right env M value objects) E s := by
  induction objects generalizing s with
  | nil => exact ⟨.refl s, nofun⟩
  | cons mo objects ih =>
    unfold walkBackward
    refine Prog.wp.bind (askInside_spec hright h hv mo) fun o t ht => ?_
    obtain ⟨ht, hmay, htotal⟩ := ht
    cases o with
    | none => exact ⟨ht, not_total_of_none rfl htotal⟩
    | some b =>
      cases b with
      | true => exact ⟨ht, List.mem_cons_self, (hmay true rfl).1 rfl⟩
      | false =>
        have hnot : ¬May M value mo := fun hm => absurd ((hmay false rfl).2 hm) nofun
        refine Prog.wp.bind (askAbove_spec hright (h.of_ticked ht) hv mo) fun o u hu => ?_
        obtain ⟨hu, hmust, htotal⟩ := hu
        cases o with
        | none => exact ⟨ht.trans hu, not_total_of_none rfl htotal⟩
        | some b =>
          cases b with
          | true =>
            refine ⟨ht.trans hu, ?_⟩
            exact List.forall_mem_cons.2 ⟨hnot, hobj.not_may hdisj ((hmust true rfl).1 rfl)⟩
          | false =>
            refine (ih hobj.tail (h.of_ticked (ht.trans hu))).mono (fun w v hw => ?_) fun _ => id
            exact ⟨(ht.trans hu).trans hw.1, hw.2.cons hnot⟩

theorem walkForward_spec (hright : env.solver.Right D) (hv : Computed M address value)
    (objects : List MemoryObject) (hobj : Upward as objects) {s : Executor} (h : KnownAt D M s p as) :
    Prog.wp (walkForward env p address objects)
      (fun w t => Ticked s t ∧ w.Right env M value objects) E s := by
  induction objects generalizing s with
  | nil => exact ⟨.refl s, nofun⟩
  | cons mo objects ih =>
    unfold walkForward
    refine Prog.wp.bind (askBelow_spec hright h hv mo) fun o t ht => ?_
    obtain ⟨ht, hmust, htotal⟩ := ht
    cases o with
    | none => exact ⟨ht, not_total_of_none rfl htotal⟩
    | some b =>
      cases b with
      | true => exact ⟨ht, hobj.not_may ((hmust true rfl).1 rfl)⟩
      | false =>
        refine Prog.wp.bind (askInside_spec hright (h.of_ticked ht) hv mo) fun o u hu => ?_
        obtain ⟨hu, hmay, htotal⟩ := hu
        cases o with
        | none => exact ⟨ht.trans hu, not_total_of_none rfl htotal⟩
        | some b =>
          cases b with
          | true => exact ⟨ht.trans hu, List.mem_cons_self, (hmay true rfl).1 rfl⟩
          | false =>
            have hnot : ¬May M value mo := fun hm => absurd ((hmay false rfl).2 hm) nofun
            refine (ih hobj.tail (h.of_ticked (ht.trans hu))).mono (fun w v hw => ?_) fun _ => id
            exact ⟨(ht.trans hu).trans hw.1, hw.2.cons hnot⟩

theorem search_spec (hright : env.solver.Right D) (hv : Computed M address value) (hdisj : as.Disjoint)
    (h : KnownAt D M s p as) (n : ℕ) :
    Prog.wp (search env p address as n) (fun r t => Ticked s t ∧ OneRight env M value as r) E s := by
  unfold search
  refine Prog.wp.bind (walkBackward_spec hright hv hdisj _ (downward_upTo as n) h) fun w t ht => ?_
  obtain ⟨ht, hw⟩ := ht
  cases w with
  | failed => exact ⟨ht, hw⟩
  | found mo => exact ⟨ht, (downward_upTo as n).mem mo hw.1, hw.2⟩
  | missed =>
    refine Prog.wp.bind (walkForward_spec hright hv _ (upward_above as n) (h.of_ticked ht))
      fun w' u hu => ?_
    obtain ⟨hu, hw'⟩ := hu
    cases w' with
    | failed => exact ⟨ht.trans hu, hw'⟩
    | found mo => exact ⟨ht.trans hu, (upward_above as n).mem mo hw'.1, hw'.2⟩
    | missed => exact ⟨ht.trans hu, fun mo hmo => (mem_upTo_or_above hmo n).elim (hw mo) (hw' mo)⟩

theorem resolveOne_spec (hright : env.solver.Right D) (hv : Computed M address value) (hdisj : as.Disjoint)
    (h : KnownAt D M s p as) :
    Prog.wp (resolveOne env p address) (fun r t => Ticked s t ∧ OneRight env M value as r) E s := by
  unfold resolveOne
  obtain ⟨state, hstate, rfl, hd⟩ := id h
  rw [Prog.wp_bind, wp_read]
  refine ⟨fun state' hstate' => ?_, fun hnone => absurd (hstate.symm.trans hnone) nofun⟩
  obtain rfl : state = state' := Option.some.inj (hstate.symm.trans hstate')
  split
  · rename_i w c
    obtain rfl := hv.1.const_width
    have hmay := may_const_iff hd.feasible hv
    have hres := state.addressSpace.resolveOne_eq_some_iff hdisj c
    refine ⟨.refl s, ?_⟩
    cases hr : state.addressSpace.resolveOne c.toNat with
    | none =>
      intro mo hmo hm
      have := (hres mo).2 ⟨hmo, (hmay mo).1 hm⟩
      rw [hr] at this
      cases this
    | some mo => exact ⟨((hres mo).1 hr).1, (hmay mo).2 ((hres mo).1 hr).2⟩
  · refine Prog.wp.bind (getValue_spec hright h hv.1.wf fun a ha => (hv.2 a ha).defined) fun o t ht => ?_
    obtain ⟨ht, hval, htotal⟩ := ht
    cases o with
    | none =>
      refine ⟨ht, fun hall => ?_⟩
      cases htotal hall
    | some cex =>
      show Prog.wp (match state.addressSpace.holding cex.toNat with
        | some mo => pure (some (some mo))
        | none => search env p address state.addressSpace cex.toNat) _ _ t
      cases hhold : state.addressSpace.holding cex.toNat with
      | none =>
        exact (search_spec hright hv hdisj (h.of_ticked ht) cex.toNat).mono
          (fun r u hu => ⟨ht.trans hu.1, hu.2⟩) fun _ => id
      | some mo =>
        obtain ⟨a, ha, hden⟩ := hval cex rfl
        refine ⟨ht, ?_⟩
        rw [← toNat_getValue hv.1 (hv.2 a ha) hden] at hhold
        obtain ⟨hmo, hin⟩ := AddressSpace.holding_spec hhold
        exact ⟨hmo, a, ha, hin⟩

theorem checkPointerInObject_spec (hright : env.solver.Right D) (hv : Computed M address value)
    (h : KnownAt D M s p as) (mo : MemoryObject) (rl : List MemoryObject) :
    Prog.wp (checkPointerInObject env p address maxResolutions mo rl)
      (fun r t => Ticked s t ∧ Checked env M value maxResolutions mo rl r) E s := by
  unfold checkPointerInObject
  refine Prog.wp.bind (askInside_spec hright h hv mo) fun o t ht => ?_
  obtain ⟨ht, hmay, htotal⟩ := ht
  cases o with
  | none => exact ⟨ht, fun hall => not_total_of_none rfl htotal hall.1⟩
  | some b =>
    cases b with
    | false =>
      have hnot : ¬May M value mo := fun hm => absurd ((hmay false rfl).2 hm) nofun
      refine ⟨ht, ?_⟩
      show rl = rl ++ mayOf M value [mo]
      rw [mayOf_cons_of_not [] hnot]
      exact (List.append_nil rl).symm
    | true =>
      have hadd : rl ++ [mo] = rl ++ mayOf M value [mo] := by
        rw [mayOf_cons_of_may [] ((hmay true rfl).1 rfl)]
        rfl
      show Prog.wp (if (rl ++ [mo]).length = 1 then _ else _) _ _ t
      rw [Prog.wp_ite]
      refine ⟨fun hone => ?_, fun hmany => ?_⟩
      · have hrl : rl = [] := by
          rw [List.length_append, List.length_singleton] at hone
          exact List.eq_nil_of_length_eq_zero (by omega)
        refine Prog.wp.bind (mustBeComputed_spec hright (h.of_ticked ht) hv
          (mo.getBoundsCheckPointer₁_computes hv.1)) fun o u hu => ?_
        obtain ⟨hu, hmust, htotal⟩ := hu
        cases o with
        | none => exact ⟨ht.trans hu, fun hall => not_total_of_none rfl htotal hall.1⟩
        | some b =>
          cases b with
          | true =>
            refine ⟨ht.trans hu, ?_, fun a ha => of_decide_eq_true ((hmust true rfl).1 rfl a ha)⟩
            rw [hrl]
            rfl
          | false => exact ⟨ht.trans hu, hadd⟩
      · rw [Prog.wp_ite]
        refine ⟨fun hmax => ⟨ht, fun hall => ?_⟩, fun _ => ⟨ht, hadd⟩⟩
        rw [hall.2, List.length_append, List.length_singleton] at hmax
        omega

theorem resolveBackward_spec (hright : env.solver.Right D) (hv : Computed M address value)
    (hdisj : as.Disjoint) (objects : List MemoryObject) (hobj : Downward as objects) (rl : List MemoryObject)
    {s : Executor} (h : KnownAt D M s p as) :
    Prog.wp (resolveBackward env p address late maxResolutions objects rl)
      (fun r t => Ticked s t ∧ Looped env M value late maxResolutions objects rl r) E s := by
  induction objects generalizing s rl with
  | nil => exact ⟨.refl s, (List.append_nil rl).symm⟩
  | cons mo objects ih =>
    unfold resolveBackward
    rw [Prog.wp_bind]
    show Prog.wp (if late s.aux.clock = true then _ else _) _ _ _
    rw [Prog.wp_ite]
    have ht := Ticked.tick s (s.aux.clock + 1)
    refine ⟨fun hlate => ⟨ht, fun hun => ?_⟩, fun _ => ?_⟩
    · rw [hun.late] at hlate
      cases hlate
    · refine Prog.wp.bind (checkPointerInObject_spec hright hv (h.of_ticked ht) mo rl) fun r u hu => ?_
      obtain ⟨hu, hchecked⟩ := hu
      obtain ⟨c, rl'⟩ := r
      have htu := ht.trans hu
      cases c with
      | complete => exact ⟨htu, mo, List.mem_cons_self, hchecked⟩
      | incomplete => exact ⟨htu, fun hun => hchecked ⟨hun.total, hun.maxResolutions⟩⟩
      | goOn =>
        obtain rfl : rl' = _ := hchecked
        refine Prog.wp.bind (askAbove_spec hright (h.of_ticked htu) hv mo) fun o u' hu' => ?_
        obtain ⟨hu', hmust, htotal⟩ := hu'
        cases o with
        | none => exact ⟨htu.trans hu', fun hun => not_total_of_none rfl htotal hun.total⟩
        | some b =>
          cases b with
          | true =>
            refine ⟨htu.trans hu', Looped.cons ?_⟩
            show _ = _ ++ mayOf M value objects
            rw [mayOf_eq_nil (hobj.not_may hdisj ((hmust true rfl).1 rfl)), List.append_nil]
          | false =>
            refine (ih hobj.tail _ (h.of_ticked (htu.trans hu'))).mono (fun r v hr => ?_) fun _ => id
            exact ⟨(htu.trans hu').trans hr.1, hr.2.cons⟩

theorem resolveForward_spec (hright : env.solver.Right D) (hv : Computed M address value)
    (objects : List MemoryObject) (hobj : Upward as objects) (rl : List MemoryObject)
    {s : Executor} (h : KnownAt D M s p as) :
    Prog.wp (resolveForward env p address late maxResolutions objects rl)
      (fun r t => Ticked s t ∧ Looped env M value late maxResolutions objects rl r) E s := by
  induction objects generalizing s rl with
  | nil => exact ⟨.refl s, (List.append_nil rl).symm⟩
  | cons mo objects ih =>
    unfold resolveForward
    rw [Prog.wp_bind]
    show Prog.wp (if late s.aux.clock = true then _ else _) _ _ _
    rw [Prog.wp_ite]
    have ht := Ticked.tick s (s.aux.clock + 1)
    refine ⟨fun hlate => ⟨ht, fun hun => ?_⟩, fun _ => ?_⟩
    · rw [hun.late] at hlate
      cases hlate
    · refine Prog.wp.bind (askBelow_spec hright (h.of_ticked ht) hv mo) fun o u hu => ?_
      obtain ⟨hu, hmust, htotal⟩ := hu
      have htu := ht.trans hu
      cases o with
      | none => exact ⟨htu, fun hun => not_total_of_none rfl htotal hun.total⟩
      | some b =>
        cases b with
        | true =>
          refine ⟨htu, ?_⟩
          show rl = rl ++ mayOf M value (mo :: objects)
          rw [mayOf_eq_nil (hobj.not_may ((hmust true rfl).1 rfl)), List.append_nil]
        | false =>
          refine Prog.wp.bind (checkPointerInObject_spec hright hv (h.of_ticked htu) mo rl)
            fun r u' hu' => ?_
          obtain ⟨hu', hchecked⟩ := hu'
          obtain ⟨c, rl'⟩ := r
          cases c with
          | complete => exact ⟨htu.trans hu', mo, List.mem_cons_self, hchecked⟩
          | incomplete =>
            exact ⟨htu.trans hu', fun hun => hchecked ⟨hun.total, hun.maxResolutions⟩⟩
          | goOn =>
            obtain rfl : rl' = _ := hchecked
            refine (ih hobj.tail _ (h.of_ticked (htu.trans hu'))).mono (fun r v hr => ?_) fun _ => id
            exact ⟨(htu.trans hu').trans hr.1, hr.2.cons⟩

/-- `resolve` finds every object that the pointer may be in, unless it says that it is incomplete. -/
theorem resolve_spec (hright : env.solver.Right D) (hv : Computed M address value) (hdisj : as.Disjoint)
    (late : ℕ → Bool) (maxResolutions : ℕ) (h : KnownAt D M s p as) :
    Prog.wp (resolve env p address late maxResolutions)
      (fun r t => Ticked s t ∧ (r.incomplete = false → r.Exact M value as) ∧
        (Unlimited env late maxResolutions → r.incomplete = false)) E s := by
  unfold resolve
  obtain ⟨state, hstate, rfl, hd⟩ := id h
  rw [Prog.wp_bind, wp_read]
  refine ⟨fun state' hstate' => ?_, fun hnone => absurd (hstate.symm.trans hnone) (Option.some_ne_none _)⟩
  obtain rfl : state = state' := Option.some.inj (hstate.symm.trans hstate')
  split
  · rename_i w c
    obtain rfl := hv.1.const_width
    have hres := state.addressSpace.resolveOne_eq_some_iff hdisj c
    refine ⟨.refl s, fun _ => ⟨?_, fun mo => ?_⟩, fun _ => rfl⟩
    · cases state.addressSpace.resolveOne c.toNat with
      | none => exact List.nodup_nil
      | some mo => exact List.nodup_singleton mo
    · rw [Option.mem_toList, hres mo, may_const_iff hd.feasible hv mo]
  · refine Prog.wp.bind (getValue_spec hright h hv.1.wf fun a ha => (hv.2 a ha).defined) fun o t ht => ?_
    obtain ⟨ht, -, htotal⟩ := ht
    cases o with
    | none =>
      refine ⟨ht, fun hinc => absurd hinc Bool.false_ne_true.symm, fun hun => ?_⟩
      cases htotal hun.total
    | some cex =>
      show Prog.wp (resolveAround env p address late maxResolutions state.addressSpace cex.toNat) _ _ t
      unfold resolveAround
      refine Prog.wp.bind (resolveBackward_spec hright hv hdisj _
        (downward_upTo state.addressSpace cex.toNat) [] (h.of_ticked ht)) fun r u hu => ?_
      obtain ⟨hu, hloop⟩ := hu
      have htu := ht.trans hu
      obtain ⟨o, rl⟩ := r
      cases o with
      | some stop =>
        cases stop with
        | true => exact ⟨htu, fun hinc => absurd hinc Bool.false_ne_true.symm, fun hun => absurd hun hloop⟩
        | false =>
          obtain ⟨mo, hmo, hrl, hmust⟩ := hloop
          subst hrl
          exact ⟨htu, fun _ => exact_of_must hd.feasible hdisj
            ((downward_upTo state.addressSpace cex.toNat).mem mo hmo) hmust, fun _ => rfl⟩
      | none =>
        obtain rfl : rl = _ := hloop
        refine Prog.wp.bind (resolveForward_spec hright hv _ (upward_above state.addressSpace cex.toNat) _
          (h.of_ticked htu)) fun r u' hu' => ?_
        obtain ⟨hu', hloop'⟩ := hu'
        obtain ⟨o', rl'⟩ := r
        cases o' with
        | some stop =>
          cases stop with
          | true =>
            exact ⟨htu.trans hu', fun hinc => absurd hinc Bool.false_ne_true.symm, fun hun => absurd hun hloop'⟩
          | false =>
            obtain ⟨mo, hmo, hrl, hmust⟩ := hloop'
            subst hrl
            exact ⟨htu.trans hu', fun _ => exact_of_must hd.feasible hdisj
              ((upward_above state.addressSpace cex.toNat).mem mo hmo) hmust, fun _ => rfl⟩
        | none =>
          obtain rfl : rl' = _ := hloop'
          exact ⟨htu.trans hu', fun _ => exact_of_both state.addressSpace cex.toNat false, fun _ => rfl⟩

/-- **Resolution is exact.**  With disjoint objects and a solver that answers every query rightly, `resolve`
returns the objects that the pointer may be in, each once, and `resolveOne` returns one of them if there is
one. -/
theorem resolution_exact (env : Env) (hright : env.solver.Right fun _ => True) (htotal : env.solver.Total)
    (s : Executor) (p : Ptr) (state : ExecutionState) (hstate : s.heap p = some state)
    (hb : state.constraints.IsBool) (hsat : state.constraints.Satisfiable) (address : Expr)
    (hw : address.HasWidth pointerWidth) (hdef : state.constraints.Defines address)
    (hdisj : state.addressSpace.Disjoint) :
    let inside := fun mo => mo ∈ state.addressSpace.objects ∧
      ∃ a, Satisfies a state.constraints ∧ mo.Checks (address.eval a pointerWidth)
    (∃ r t, resolve env p address (fun _ => false) 0 s = (some r, t) ∧ r.incomplete = false ∧ r.rl.Nodup ∧
      ∀ mo, mo ∈ r.rl ↔ inside mo) ∧
    ∃ r t, resolveOne env p address s = (some (some r), t) ∧ (r.isSome = true ↔ ∃ mo, inside mo) ∧
      ∀ mo, r = some mo → inside mo := by
  intro inside
  have hknown : KnownAt (fun _ => True) (fun a => Satisfies a state.constraints) s p state.addressSpace :=
    ⟨state, hstate, rfl, hb, hsat, fun _ => ⟨fun h => h.2, fun h => ⟨trivial, h⟩⟩⟩
  have hv : Computed (fun a => Satisfies a state.constraints) address (fun a => address.eval a pointerWidth) :=
    ⟨hw, fun a ha => .self (hdef a ha) _⟩
  constructor
  · obtain ⟨r, t, hrun, -, hexact, hcomplete⟩ := (resolve_spec (E := fun _ => False) hright hv hdisj
      (fun _ => false) 0 hknown).exists_result
    have hinc := hcomplete ⟨htotal, fun _ => rfl, rfl⟩
    exact ⟨r, t, hrun, hinc, (hexact hinc).1, (hexact hinc).2⟩
  · obtain ⟨r, t, hrun, -, hone⟩ :=
      (resolveOne_spec (E := fun _ => False) hright hv hdisj hknown).exists_result
    match r, hone with
    | none, hone => exact absurd htotal hone
    | some none, hone =>
      refine ⟨none, t, hrun, ⟨nofun, ?_⟩, nofun⟩
      rintro ⟨mo, hmo, hmay⟩
      exact absurd hmay (hone mo hmo)
    | some (some mo), hone =>
      refine ⟨some mo, t, hrun, ⟨fun _ => ⟨mo, hone⟩, fun _ => rfl⟩, ?_⟩
      rintro x ⟨⟩
      exact hone

end

section
local instance resolutionOptions : ExprOptions := .defaults

/-- A symbolic byte as an address. -/
def byteAddress : Expr :=
  .zext (.read (.root ⟨0, "x", 1, [], Array.oneByte_lt, Array.oneByte_values⟩) (.const 0#32)) pointerWidth

theorem byteAddress_hasWidth : byteAddress.HasWidth pointerWidth := by decide

theorem byteAddress_defined (a : Assignment) : byteAddress.Defined a := ⟨trivial, nofun⟩

theorem lowObject_end : (0x80#64).toNat + 16 ≤ 2 ^ pointerWidth := by decide

/-- An object of 16 bytes that some of these addresses are in. -/
def lowObject : MemoryObject :=
  ⟨0x80#64, 16, none, MemoryObject.sixteen_lt, lowObject_end, MemoryObject.symsize_none⟩

theorem lowObject_sorted : [lowObject].Pairwise fun x y => x.address.toNat < y.address.toNat :=
  List.pairwise_singleton _ _

/-- The only object of the address space. -/
def lowState : ExecutionState := { ExecutionState.init "f" 0 0 with addressSpace := ⟨[lowObject], lowObject_sorted⟩ }

theorem lowState_disjoint : lowState.addressSpace.Disjoint := by
  intro x hx y hy hne
  exact absurd ((List.mem_singleton.1 hx).trans (List.mem_singleton.1 hy).symm) hne

/-- The environment with the solver that knows everything. -/
noncomputable def exactEnv (D : Assignment → Prop) : Env :=
  .plain {} (fun _ => ⟨.unreachable, ⟨0, "", 0⟩, "f", "", "", none, true⟩) (fun _ _ => none) (.exact D)

/-- The byte may be an address in the object, so that `resolve` returns it. -/
theorem resolution_exact_byte : ∃ r t,
    resolve (exactEnv fun _ => True) 0 byteAddress (fun _ => false) 0 (start lowState {}) = (some r, t) ∧
      r.incomplete = false ∧ lowObject ∈ r.rl := by
  obtain ⟨⟨r, t, hrun, hinc, -, hmem⟩, -⟩ := resolution_exact (exactEnv fun _ => True)
    (SolverChain.exact_right _) (SolverChain.exact_total _) (start lowState {}) 0 lowState rfl nofun
    ⟨fun _ _ => 0, nofun⟩ byteAddress byteAddress_hasWidth (fun a _ => byteAddress_defined a) lowState_disjoint
  refine ⟨r, t, hrun, hinc, (hmem lowObject).2 ⟨List.mem_singleton.2 rfl, fun _ _ => 0x80#8, nofun, ?_⟩⟩
  decide

end

end Executor

end SymBisect
