import SymBisect.Core.AddressResolution
import SymBisect.Core.ObjectBytes

/-!
# Memory operations

`Executor::executeMemoryOperation` of `lib/Core/Executor.cpp`, with the bytes that it reads and writes.  A `Machine` is
the executor together with the contents of the objects of every state; a new state starts with the contents of the
state that it was forked from.

* `executeMemoryOperation`: the fast path, where the address is in one object, and the loop over all objects that the
  address may be in.
* `store_const`: what a store at a constant address does to an object.
-/

namespace SymBisect

open Lib Expr ConstraintSet

/-- `getDestCell(state, target).value`, of the innermost frame. -/
def ExecutionState.bindLocal (state : ExecutionState) (target : ℕ) (value : Option Expr) : ExecutionState :=
  { state with
    stack := match state.stack with
      | [] => []
      | sf :: frames => { sf with locals := Function.update sf.locals target value } :: frames }

/-- The executor, the contents of the objects of each state, and the number of the next array. -/
structure Machine where
  executor : Executor
  contents : Ptr → MemoryObject → Memory.ObjectState
  nextArray : ℕ

/-- The environment of memory operations: the byte order, and `timeout && timeout < timer.delta()` in `resolve`. -/
structure MemoryEnv extends Env where
  littleEndian : Bool
  late : ℕ → Bool

/-- A store of a value, or a load of a type into a register. -/
inductive Access where
  | store (value : Expr)
  | load (target type : ℕ)

namespace Access

/-- `Expr::getMinBytesForWidth(type)`. -/
def bytes : Access → ℕ
  | store value => (value.getWidth + 7) / 8
  | load _ type => (type + 7) / 8

variable [ExprOptions]

/-- The value of a store is simplified. -/
def simplify (constraints : ConstraintSet) : Access → Access
  | store value => store (if value.isConstant then value else ConstraintManager.simplifyExpr constraints value)
  | load target type => load target type

end Access

namespace Machine

variable {α : Type}

/-- The machine after an operation on the state at `p`; the states that it made have the contents of that state. -/
def after (s : Machine) (p : Ptr) (t : Executor) : Machine :=
  { s with executor := t, contents := fun q => if s.executor.nextPtr ≤ q then s.contents p else s.contents q }

/-- An operation of the executor on the state at `p`. -/
def lift (p : Ptr) (m : Prog Executor α) : Prog Machine α := fun s =>
  ((m s.executor).1, s.after p (m s.executor).2)

/-- An operation on an object of a state, which may need a new array. -/
def onObject (p : Ptr) (mo : MemoryObject) (m : ℕ → Prog Memory.ObjectState α) : Prog Machine α := fun s =>
  ((m s.nextArray (s.contents p mo)).1,
    { s with
      contents := Function.update s.contents p
        (Function.update (s.contents p) mo (m s.nextArray (s.contents p mo)).2)
      nextArray := s.nextArray + 1 })

/-- `bindLocal`; the null value is nothing. -/
def bindLocal (p : Ptr) (target : ℕ) (value : Option Expr) : Prog Machine Unit :=
  lift p (Executor.write p fun state => state.bindLocal target value)

variable [ExprOptions] (env : MemoryEnv)

/-- The access to an object that the address is in. -/
def perform (p : Ptr) (mo : MemoryObject) (offset : Expr) : Access → Prog Machine Unit
  | .store value => do
    let s ← Prog.get
    if (s.contents p mo).readOnly then lift p (Executor.terminateState p)
    else onObject p mo fun _ => Memory.ObjectState.write env.littleEndian offset value
  | .load target type => do
    let result ← onObject p mo fun id => Memory.ObjectState.read env.littleEndian id offset type
    bindLocal p target (some result)

/-- The access in the state of `fork` in which the object holds the address, if there is one. -/
def performBound (mo : MemoryObject) (address : Expr) (access : Access) : Option Ptr → Prog Machine Unit
  | none => pure ()
  | some bound => perform env bound mo (mo.getOffsetExpr address) access

/-- The loop over the objects that the address may be in; what is returned is `unbound`. -/
def bindObjects (address : Expr) (access : Access) : List MemoryObject → Ptr → Prog Machine (Option Ptr)
  | [], unbound => pure (some unbound)
  | mo :: rl, unbound => do
    let branches ← lift unbound (Executor.fork env.toEnv unbound (mo.getBoundsCheckPointer address access.bytes) true)
    performBound env mo address access branches.1
    match branches.2 with
    | none => pure none
    | some unbound => bindObjects address access rl unbound

/-- The end of a memory operation: what is left of the address is in no object.  The register that is set to null is
that of `state`. -/
def errorTail (p : Ptr) (access : Access) (incomplete : Bool) : Option Ptr → Prog Machine Unit
  | none => pure ()
  | some unbound =>
    if incomplete then lift unbound (Executor.terminateState unbound)
    else
      match access with
      | .store _ => pure ()
      | .load target _ => bindLocal p target none

/-- The error path: no resolution, several, or one out of bounds. -/
def resolveError (p : Ptr) (access : Access) (address : Expr) : Prog Machine Unit := do
  let r ← lift p (Executor.resolve env.toEnv p address env.late 0)
  let unbound ← bindObjects env address access r.rl p
  errorTail p access r.incomplete unbound

/-- The single object that the address may be in; a time-out concretizes the address. -/
def locate (p : Ptr) (address : Expr) : Prog Executor (Expr × Option MemoryObject) := do
  match ← Executor.resolveOne env.toEnv p address with
  | some op => pure (address, op)
  | none => do
    let address ← Executor.toConstant env.toEnv p address
    let state ← Executor.read p
    pure (address, state.addressSpace.resolveOne (address.eval (fun _ _ => 0) pointerWidth).toNat)

/-- The access to the single object, if the address must be in it. -/
def accessObject (p : Ptr) (access : Access) (mo : MemoryObject) (address : Expr) : Prog Machine Unit := do
  let inBounds ← lift p (Executor.mustBeTrue env.toEnv p (mo.getBoundsCheckPointer address access.bytes))
  match inBounds with
  | none => lift p (Executor.write p (fun state => { state with pc := state.prevPC }) >>= fun _ => Executor.terminateState p)
  | some true => perform env p mo (mo.getOffsetExpr address) access
  | some false => resolveError env p access address

/-- The address, simplified. -/
def simplifyAddress (constraints : ConstraintSet) (address : Expr) : Expr :=
  if env.config.SimplifySymIndices && !address.isConstant then ConstraintManager.simplifyExpr constraints address
  else address

/-- The access, with its value simplified. -/
def simplifyAccess (constraints : ConstraintSet) (access : Access) : Access :=
  if env.config.SimplifySymIndices then access.simplify constraints else access

/-- The access once the address is located. -/
def executeLocated (p : Ptr) (access : Access) (located : Expr × Option MemoryObject) : Prog Machine Unit :=
  match located.2 with
  | none => resolveError env p access located.1
  | some mo => do
    let address ← lift p (Executor.limitSymArray env.toEnv p mo located.1)
    accessObject env p access mo address

/-- `executeMemoryOperation`. -/
def executeMemoryOperation (p : Ptr) (access : Access) (address : Expr) : Prog Machine Unit := do
  let state ← lift p (Executor.read p)
  let located ← lift p (locate env p (simplifyAddress env state.constraints address))
  executeLocated env p (simplifyAccess env state.constraints access) located

end Machine

/-! ### What has changed -/

namespace Machine

variable {β : Type} {s t u : Machine} {p : Ptr} {mo : MemoryObject} {E : Machine → Prop} {env : MemoryEnv}

theorem wp_lift {m : Prog Executor β} {Q : β → Machine → Prop} :
    Prog.wp (lift p m) Q E s ↔ Prog.wp m (fun b t => Q b (s.after p t)) (fun t => E (s.after p t)) s.executor := by
  unfold Prog.wp lift
  cases m s.executor with
  | mk o t =>
    cases o with
    | none => exact Iff.rfl
    | some b => exact Iff.rfl

/-- The machine after an operation on an object. -/
def withObject (s : Machine) (p : Ptr) (mo : MemoryObject) (os : Memory.ObjectState) : Machine :=
  { s with
    contents := Function.update s.contents p (Function.update (s.contents p) mo os)
    nextArray := s.nextArray + 1 }

theorem wp_onObject {m : ℕ → Prog Memory.ObjectState β} {Q : β → Machine → Prop} :
    Prog.wp (onObject p mo m) Q E s ↔ Prog.wp (m s.nextArray) (fun b os => Q b (s.withObject p mo os))
      (fun os => E (s.withObject p mo os)) (s.contents p mo) := by
  unfold Prog.wp onObject
  cases m s.nextArray (s.contents p mo) with
  | mk o t =>
    cases o with
    | none => exact Iff.rfl
    | some b => exact Iff.rfl

/-- Nothing has changed but the time. -/
structure Idle (s t : Machine) : Prop where
  ticked : Executor.Ticked s.executor t.executor
  contents : ∀ q < s.executor.nextPtr, t.contents q = s.contents q

/-- An object of the state at `p` has changed. -/
structure Changed (p : Ptr) (mo : MemoryObject) (R : Memory.ObjectState → Memory.ObjectState → Prop) (s t : Machine) :
    Prop where
  ticked : Executor.Ticked s.executor t.executor
  object : R (s.contents p mo) (t.contents p mo)
  others : ∀ q < s.executor.nextPtr, ∀ mo', (q ≠ p ∨ mo' ≠ mo) → t.contents q mo' = s.contents q mo'

theorem Ticked.nextPtr {s t : Executor} (h : Executor.Ticked s t) : t.nextPtr = s.nextPtr := by
  obtain ⟨n, rfl⟩ := h
  rfl

theorem Ticked.heap {s t : Executor} (h : Executor.Ticked s t) : t.heap = s.heap := by
  obtain ⟨n, rfl⟩ := h
  rfl

theorem Idle.trans (h : Idle s t) (h' : Idle t u) : Idle s u :=
  ⟨h.ticked.trans h'.ticked, fun q hq => (h'.contents q (Ticked.nextPtr h.ticked ▸ hq)).trans (h.contents q hq)⟩

/-- A question to the executor. -/
theorem Idle.after (s : Machine) (p : Ptr) {t : Executor} (h : Executor.Ticked s.executor t) : Idle s (s.after p t) :=
  ⟨h, fun _ hq => if_neg (Nat.not_le.2 hq)⟩

theorem Changed.of_idle {R : Memory.ObjectState → Memory.ObjectState → Prop} (h : Idle s t) (h' : Changed p mo R t u)
    (hp : p < s.executor.nextPtr) : Changed p mo R s u := by
  refine ⟨h.ticked.trans h'.ticked, ?_, fun q hq mo' hne => ?_⟩
  · rw [← h.contents p hp]
    exact h'.object
  · rw [h'.others q (Ticked.nextPtr h.ticked ▸ hq) mo' hne, h.contents q hq]

theorem changed_withObject {R : Memory.ObjectState → Memory.ObjectState → Prop} {os : Memory.ObjectState}
    (h : R (s.contents p mo) os) : Changed p mo R s (s.withObject p mo os) := by
  refine ⟨.refl _, ?_, fun q _ mo' hne => ?_⟩
  · show R _ (Function.update s.contents p (Function.update (s.contents p) mo os) p mo)
    rw [Function.update_self, Function.update_self]
    exact h
  · show Function.update s.contents p (Function.update (s.contents p) mo os) q mo' = _
    by_cases hq : q = p
    · subst hq
      rw [Function.update_self, Function.update_of_ne (hne.resolve_left fun h => h rfl)]
    · rw [Function.update_of_ne hq]

/-- Neither a view nor the contents of an object have changed. -/
structure Still (s t : Machine) : Prop where
  views : Executor.SameViews s.executor t.executor
  addedStates : t.executor.addedStates = s.executor.addedStates
  contents : ∀ q < s.executor.nextPtr, t.contents q = s.contents q

theorem Still.trans (h : Still s t) (h' : Still t u) : Still s u :=
  ⟨h.views.trans h'.views, h'.addedStates.trans h.addedStates,
    fun q hq => (h'.contents q (h.views.nextPtr ▸ hq)).trans (h.contents q hq)⟩

theorem Ticked.addedStates {s t : Executor} (h : Executor.Ticked s t) : t.addedStates = s.addedStates := by
  obtain ⟨n, rfl⟩ := h
  rfl

theorem Idle.still (h : Idle s t) : Still s t := ⟨h.ticked.sameViews, Ticked.addedStates h.ticked, h.contents⟩

/-- A question to the executor that is always answered. -/
theorem lift_question {β : Type} {m : Prog Executor β} {P : β → Prop}
    (h : Prog.wp m (fun b t => P b ∧ Executor.Ticked s.executor t) (fun _ => False) s.executor) :
    Prog.wp (lift p m) (fun b t => P b ∧ Idle s t) E s :=
  wp_lift.2 (h.mono (fun _ _ hb => ⟨hb.1, .after s p hb.2⟩) fun _ hf => hf.elim)

/-! ### Constant addresses -/

/-- The bytes of an access are those that the word has. -/
theorem bytes_eq_numBytes {w : ℕ} (hw : Memory.ObjectState.WidthAllowed w) : (w + 7) / 8 = PlainArray.numBytes w := by
  unfold PlainArray.numBytes
  obtain rfl | ⟨hmul, -⟩ := hw
  · rfl
  · split
    · omega
    · omega

/-- The `n` bytes at a constant address are in the object. -/
def Holds (mo : MemoryObject) (c : BitVec pointerWidth) (n : ℕ) : Prop :=
  mo.address.toNat ≤ c.toNat ∧ c.toNat + n ≤ mo.address.toNat + mo.size

instance (mo : MemoryObject) (c : BitVec pointerWidth) (n : ℕ) : Decidable (Holds mo c n) := by
  unfold Holds
  infer_instance

theorem Holds.checks {c : BitVec pointerWidth} {n : ℕ} (h : Holds mo c n) (hn : 0 < n) : mo.Checks c :=
  (mo.checks_iff c).2 ⟨h.1, .inl (by have := h.2; omega)⟩

theorem Holds.toNat_offset {c : BitVec pointerWidth} {n : ℕ} (h : Holds mo c n) :
    (c - mo.address).toNat = c.toNat - mo.address.toNat := by
  rw [BitVec.toNat_sub]
  have hc : c.toNat < 2 ^ 64 := c.isLt
  have hle := h.1
  show (2 ^ 64 - mo.address.toNat + c.toNat) % 2 ^ 64 = _
  have ha : mo.address.toNat < 2 ^ 64 := mo.address.isLt
  omega

section

variable {e : Executor} {state : ExecutionState} {F : Executor → Prop}

/-- A question about a constant is answered at once. -/
theorem evaluate_const (env : Env) (hstate : e.heap p = some state) (b : Bool) :
    Prog.wp (Executor.evaluate env p (ofBool b)) (fun v t => v = some (if b then .True else .False) ∧ t = e) F e := by
  unfold Executor.evaluate
  rw [Prog.wp_bind, Executor.wp_read]
  refine ⟨fun _ _ => ?_, fun hnone => absurd (hstate.symm.trans hnone) (Option.some_ne_none _)⟩
  rw [Prog.wp_bind, Prog.wp_assert]
  refine ⟨fun _ => ?_, fun hn => absurd (hasWidth_ofBool b) hn⟩
  cases b with
  | true => exact ⟨rfl, rfl⟩
  | false => exact ⟨rfl, rfl⟩

theorem mustBeTrue_const (env : Env) (hstate : e.heap p = some state) (b : Bool) :
    Prog.wp (Executor.mustBeTrue env p (ofBool b)) (fun o t => o = some b ∧ Executor.Ticked e t) F e := by
  unfold Executor.mustBeTrue
  rw [Prog.wp_bind, Executor.wp_read]
  refine ⟨fun _ _ => ?_, fun hnone => absurd (hstate.symm.trans hnone) (Option.some_ne_none _)⟩
  rw [Prog.wp_bind, Prog.wp_assert]
  refine ⟨fun _ => ?_, fun hn => absurd (hasWidth_ofBool b) hn⟩
  cases b with
  | true => exact ⟨rfl, .refl e⟩
  | false => exact ⟨rfl, .refl e⟩

end

variable [ExprOptions]

/-- The value of a store, simplified. -/
def storedValue (env : MemoryEnv) (constraints : ConstraintSet) (value : Expr) : Expr :=
  if env.config.SimplifySymIndices then
    if value.isConstant then value else ConstraintManager.simplifyExpr constraints value
  else value

theorem simplifyAccess_store (constraints : ConstraintSet) (value : Expr) :
    simplifyAccess env constraints (.store value) = .store (storedValue env constraints value) := by
  unfold simplifyAccess storedValue
  split
  · rfl
  · rfl

/-- The assignments for which a stored value is the value: all of them, or where values are simplified those that
satisfy the path condition. -/
def Sees (env : MemoryEnv) (constraints : ConstraintSet) (a : Assignment) : Prop :=
  env.config.SimplifySymIndices = true → Satisfies a constraints

theorem storedValue_hasWidth {constraints : ConstraintSet} (hb : constraints.IsBool) {value : Expr} {w : ℕ}
    (hv : value.HasWidth w) : (storedValue env constraints value).HasWidth w := by
  have href := ConstraintManager.simplifyExpr_refinesOn hb hv.wf
  unfold storedValue
  split
  · split
    · exact hv
    · exact ⟨href.hasWidth.wf, href.hasWidth.width.trans hv.width⟩
  · exact hv

theorem storedValue_denotes {constraints : ConstraintSet} (hb : constraints.IsBool) {value : Expr} {w : ℕ}
    (hv : value.HasWidth w) {a : Assignment} (ha : Sees env constraints a) {x : BitVec w} (h : value.Denotes a x) :
    (storedValue env constraints value).Denotes a x := by
  have href := ConstraintManager.simplifyExpr_refinesOn hb hv.wf
  unfold storedValue
  split
  · rename_i hsimp
    split
    · exact h
    · exact href.denotes_of (ha hsimp) hv h
  · exact h

theorem getOffsetExpr_const (mo : MemoryObject) (c : BitVec pointerWidth) :
    mo.getOffsetExpr (.const c) = .const (c - mo.address) := by
  unfold MemoryObject.getOffsetExpr MemoryObject.getBaseExpr
  rw [SubExpr.create_const_left, SubExpr.createConst, BitVec.setWidth_eq]

/-- The bounds check at a constant address. -/
theorem getBoundsCheckPointer_const (mo : MemoryObject) (c : BitVec pointerWidth) {n : ℕ} (hn : 0 < n)
    (hc : mo.Checks c) : mo.getBoundsCheckPointer (.const c) n = ofBool (decide (Holds mo c n)) := by
  have hsize := mo.size_lt
  obtain ⟨hle, hin⟩ := (mo.checks_iff c).1 hc
  have hoff : (c - mo.address).toNat = c.toNat - mo.address.toNat :=
    Holds.toNat_offset (n := 0) ⟨hle, by
      obtain h | rfl := hin
      · omega
      · omega⟩
  unfold MemoryObject.getBoundsCheckPointer MemoryObject.getBoundsCheckOffset
  split
  · rename_i hbytes
    rw [getOffsetExpr_const]
    show ofBool (BitVec.ult (c - mo.address) ((BitVec.ofNat 64 ((mo.size - n + 1) % 2 ^ 32)).setWidth 64)) = _
    rw [BitVec.setWidth_eq]
    congr 1
    unfold BitVec.ult Holds
    have hmod : (mo.size - n + 1) % 2 ^ 32 = mo.size - n + 1 := Nat.mod_eq_of_lt (by omega)
    have hmod' : (mo.size - n + 1) % 2 ^ 64 = mo.size - n + 1 := Nat.mod_eq_of_lt (by omega)
    rw [hoff, BitVec.toNat_ofNat, hmod, hmod']
    apply decide_eq_decide.2
    omega
  · rename_i hbytes
    congr 1
    symm
    rw [decide_eq_false_iff_not]
    rintro ⟨-, hend⟩
    omega

section

variable {e : Executor} {state : ExecutionState} {F : Executor → Prop}

/-- A condition that is the constant false has one side, in every configuration. -/
theorem fork_false (env : Env) (hstate : e.heap p = some state) : Prog.wp (Executor.fork env p (ofBool false) true)
    (fun branches t => branches = (none, some p) ∧ Executor.Ticked e t) F e := by
  unfold Executor.fork Executor.seedsOf
  rw [Prog.wp_bind, Prog.wp_gets]
  have hlimit : Executor.limitStatically env p (e.aux.seedMap p).isSome (ofBool false) e =
      (some (ofBool false), { e with aux := { e.aux with clock := e.aux.clock + 1 } }) := by
    show (if (!(e.aux.seedMap p).isSome && !(ofBool false).isConstant && env.staticLimit e.aux.clock) = true then _ else _ :
      Prog Executor Expr) _ = _
    rw [if_neg (by simp [ofBool, isConstant])]
    rfl
  refine Prog.wp.step hlimit ?_
  have htick := Executor.Ticked.tick e (e.aux.clock + 1)
  have hstate' : ({ e with aux := { e.aux with clock := e.aux.clock + 1 } } : Executor).heap p = some state := hstate
  revert htick hstate'
  generalize ({ e with aux := { e.aux with clock := e.aux.clock + 1 } } : Executor) = e'
  intro htick hstate'
  refine Prog.wp.bind (evaluate_const env hstate' false) fun v t hv => ?_
  obtain ⟨rfl, rfl⟩ := hv
  cases e.aux.seedMap p with
  | none =>
    show Prog.wp (Executor.pickSide env p (ofBool false) true false .False >>= _) _ _ _
    have hpick : Executor.pickSide env p (ofBool false) true false .False = pure .False := by
      unfold Executor.pickSide
      cases env.config.replayPath with
      | none => rfl
      | some path => rfl
    rw [hpick]
    exact ⟨rfl, htick⟩
  | some seeds =>
    show Prog.wp (Executor.fixBySeeds env p (ofBool false) seeds false .False >>= _) _ _ _
    unfold Executor.fixBySeeds
    rw [Prog.wp_bind, Prog.wp_bind, Executor.wp_read]
    refine ⟨fun st _ => ?_, fun hnone => absurd (hstate'.symm.trans hnone) (Option.some_ne_none _)⟩
    rw [if_neg (by simp)]
    exact ⟨rfl, htick⟩

/-- A constant is located without a query. -/
theorem locate_const (env : MemoryEnv) (hstate : e.heap p = some state) (c : BitVec pointerWidth) :
    Prog.wp (locate env p (.const c)) (fun l t => l = (.const c, state.addressSpace.resolveOne c.toNat) ∧ Executor.Ticked e t) F e := by
  unfold locate Executor.resolveOne
  rw [Prog.wp_bind, Prog.wp_bind, Executor.wp_read]
  refine ⟨fun st hst => ?_, fun hnone => absurd (hstate.symm.trans hnone) (Option.some_ne_none _)⟩
  obtain rfl : state = st := Option.some.inj (hstate.symm.trans hst)
  exact ⟨rfl, .refl e⟩

theorem limitSymArray_const (env : Env) (hstate : e.heap p = some state) (mo : MemoryObject) (c : BitVec pointerWidth) :
    Prog.wp (Executor.limitSymArray env p mo (.const c)) (fun a t => a = .const c ∧ Executor.Ticked e t) F e := by
  unfold Executor.limitSymArray
  rw [Prog.wp_ite]
  refine ⟨fun _ => ?_, fun _ => ⟨rfl, .refl e⟩⟩
  unfold Executor.toConstant
  rw [Prog.wp_bind, Executor.wp_read]
  refine ⟨fun st _ => ?_, fun hnone => absurd (hstate.symm.trans hnone) (Option.some_ne_none _)⟩
  exact ⟨rfl, .refl e⟩

/-- A constant is resolved without a query. -/
theorem resolve_const (env : Env) (hstate : e.heap p = some state) (late : ℕ → Bool) (c : BitVec pointerWidth) :
    Prog.wp (Executor.resolve env p (.const c) late 0)
      (fun r t => r = ⟨(state.addressSpace.resolveOne c.toNat).toList, false⟩ ∧ Executor.Ticked e t) F e := by
  unfold Executor.resolve
  rw [Prog.wp_bind, Executor.wp_read]
  refine ⟨fun st hst => ?_, fun hnone => absurd (hstate.symm.trans hnone) (Option.some_ne_none _)⟩
  obtain rfl : state = st := Option.some.inj (hstate.symm.trans hst)
  exact ⟨rfl, .refl e⟩

end

section

variable {state : ExecutionState} {c : BitVec pointerWidth} {w : ℕ} {value : Expr}

/-- A store at a constant address, up to the object. -/
theorem store_located {Q : Unit → Machine → Prop} (hstate : s.executor.heap p = some state)
    (hrest : ∀ t, Idle s t → Prog.wp (executeLocated env p (.store (storedValue env state.constraints value))
      (.const c, state.addressSpace.resolveOne c.toNat)) Q E t) :
    Prog.wp (executeMemoryOperation env p (.store value) (.const c)) Q E s := by
  unfold executeMemoryOperation
  have hread : Prog.wp (Executor.read p) (fun st t => st = state ∧ Executor.Ticked s.executor t) (fun _ => False)
      s.executor := by
    rw [Executor.wp_read]
    exact ⟨fun st hst => ⟨Option.some.inj (hst.symm.trans hstate), .refl _⟩,
      fun hnone => absurd (hstate.symm.trans hnone) (Option.some_ne_none _)⟩
  refine Prog.wp.bind (lift_question hread) fun st s₁ h₁ => ?_
  obtain ⟨rfl, h₁⟩ := h₁
  have haddr : simplifyAddress env st.constraints (.const c) = .const c := by
    unfold simplifyAddress
    rw [if_neg (by simp [isConstant])]
  have hstate₁ : s₁.executor.heap p = some st := by
    rw [Ticked.heap h₁.ticked]
    exact hstate
  rw [haddr, simplifyAccess_store]
  refine Prog.wp.bind (lift_question (locate_const env hstate₁ c)) fun l s₂ h₂ => ?_
  obtain ⟨rfl, h₂⟩ := h₂
  exact hrest s₂ (h₁.trans h₂)

/-- A store at a constant address in the bounds of an object, up to the bounds check. -/
theorem store_checked {Q : Unit → Machine → Prop} (hstate : s.executor.heap p = some state)
    (hb : state.constraints.IsBool) (hdisj : state.addressSpace.Disjoint) (hmo : mo ∈ state.addressSpace.objects)
    (hv : value.HasWidth w) (hw : Memory.ObjectState.WidthAllowed w) (hc : mo.Checks c)
    (hinside : Holds mo c (PlainArray.numBytes w) → ∀ t, Idle s t →
      Prog.wp (perform env p mo (.const (c - mo.address)) (.store (storedValue env state.constraints value))) Q E t)
    (houtside : ¬Holds mo c (PlainArray.numBytes w) → ∀ t, Idle s t →
      Prog.wp (resolveError env p (.store (storedValue env state.constraints value)) (.const c)) Q E t) :
    Prog.wp (executeMemoryOperation env p (.store value) (.const c)) Q E s := by
  refine store_located hstate fun t ht => ?_
  have hstate' : t.executor.heap p = some state := by
    rw [Ticked.heap ht.ticked]
    exact hstate
  rw [(state.addressSpace.resolveOne_eq_some_iff hdisj c mo).2 ⟨hmo, hc⟩]
  show Prog.wp (lift p (Executor.limitSymArray env.toEnv p mo (.const c)) >>= _) Q E t
  refine Prog.wp.bind (lift_question (limitSymArray_const env.toEnv hstate' mo c)) fun address u hu => ?_
  obtain ⟨rfl, hu⟩ := hu
  have hstate'' : u.executor.heap p = some state := by
    rw [Ticked.heap hu.ticked]
    exact hstate'
  have hbytes : (Access.store (storedValue env state.constraints value)).bytes = PlainArray.numBytes w := by
    show ((storedValue env state.constraints value).getWidth + 7) / 8 = _
    rw [(storedValue_hasWidth hb hv).width, bytes_eq_numBytes hw]
  unfold accessObject
  rw [hbytes, getBoundsCheckPointer_const mo c (Memory.numBytes_pos hw) hc]
  refine Prog.wp.bind (lift_question (mustBeTrue_const env.toEnv hstate'' _)) fun o u' hu' => ?_
  obtain ⟨rfl, hu'⟩ := hu'
  have hidle := (ht.trans hu).trans hu'
  by_cases hin : Holds mo c (PlainArray.numBytes w)
  · rw [decide_eq_true hin, getOffsetExpr_const]
    exact hinside hin u' hidle
  · rw [decide_eq_false hin]
    exact houtside hin u' hidle

/-- **A store at a constant address inside of an object** writes the word there. -/
theorem store_inside (hstate : s.executor.heap p = some state) (hp : p < s.executor.nextPtr)
    (hb : state.constraints.IsBool) (hdisj : state.addressSpace.Disjoint) (hmo : mo ∈ state.addressSpace.objects)
    (hv : value.HasWidth w) (hw : Memory.ObjectState.WidthAllowed w) (hin : Holds mo c (PlainArray.numBytes w))
    (hos : Memory.Consistent (s.contents p mo)) (hsize : (s.contents p mo).size = mo.size)
    (hro : (s.contents p mo).readOnly = false) :
    Prog.wp (executeMemoryOperation env p (.store value) (.const c))
      (fun _ t => Changed p mo (Memory.Stores env.littleEndian (c.toNat - mo.address.toNat) w
        (storedValue env state.constraints value)) s t) E s := by
  refine store_checked hstate hb hdisj hmo hv hw (hin.checks (Memory.numBytes_pos hw)) (fun _ t ht => ?_)
    fun hn => absurd hin hn
  have hsame := congrFun (ht.contents p hp) mo
  unfold perform
  rw [Prog.wp_bind, Prog.wp_get, hsame, hro]
  show Prog.wp (onObject p mo fun _ => _) _ _ t
  rw [wp_onObject, hsame]
  have hend : (c - mo.address).toNat + PlainArray.numBytes w ≤ (s.contents p mo).size := by
    rw [hin.toNat_offset, hsize]
    have := hin.1
    have := hin.2
    omega
  refine (Memory.write_stores hos (storedValue_hasWidth hb hv) hw hend).mono (fun _ os hstores => ?_) fun _ hf => hf.elim
  rw [hin.toNat_offset] at hstores
  exact Changed.of_idle ht (changed_withObject (hsame ▸ hstores)) hp

/-- A store at a constant address inside of a read only object, in full: the state is terminated. -/
theorem store_readOnly_terminated (hstate : s.executor.heap p = some state) (hp : p < s.executor.nextPtr)
    (hb : state.constraints.IsBool) (hdisj : state.addressSpace.Disjoint)
    (hmo : mo ∈ state.addressSpace.objects) (hv : value.HasWidth w) (hw : Memory.ObjectState.WidthAllowed w)
    (hin : Holds mo c (PlainArray.numBytes w)) (hro : (s.contents p mo).readOnly = true) :
    Prog.wp (executeMemoryOperation env p (.store value) (.const c))
      (fun _ t => ∃ u, Idle s u ∧ t = u.after p (u.executor.terminated p)) E s := by
  refine store_checked hstate hb hdisj hmo hv hw (hin.checks (Memory.numBytes_pos hw)) (fun _ t ht => ?_)
    fun hn => absurd hin hn
  unfold perform
  rw [Prog.wp_bind, Prog.wp_get, congrFun (ht.contents p hp) mo, hro]
  show Prog.wp (lift p (Executor.terminateState p)) _ _ t
  rw [wp_lift, Executor.wp_terminateState]
  exact ⟨t, ht, rfl⟩

/-- **A store at a constant address inside of a read only object** terminates the state. -/
theorem store_readOnly (hstate : s.executor.heap p = some state) (hp : p < s.executor.nextPtr)
    (hadd : p ∉ s.executor.addedStates) (hb : state.constraints.IsBool) (hdisj : state.addressSpace.Disjoint)
    (hmo : mo ∈ state.addressSpace.objects) (hv : value.HasWidth w) (hw : Memory.ObjectState.WidthAllowed w)
    (hin : Holds mo c (PlainArray.numBytes w)) (hro : (s.contents p mo).readOnly = true) :
    Prog.wp (executeMemoryOperation env p (.store value) (.const c)) (fun _ t => Still s t) E s := by
  refine (store_readOnly_terminated hstate hp hb hdisj hmo hv hw hin hro).mono ?_ fun _ h => h
  rintro - _ ⟨t, ht, rfl⟩
  have hadd' : p ∉ t.executor.addedStates := by
    rw [Ticked.addedStates ht.ticked]
    exact hadd
  exact ht.still.trans ⟨Executor.sameViews_terminated hadd', Executor.addedStates_terminated hadd',
    fun q hq => if_neg (Nat.not_le.2 hq)⟩

/-- The error path of a store at a constant address. -/
theorem resolveError_const {access : Access} (hstate : s.executor.heap p = some state)
    (hstore : ∃ v, access = .store v)
    (hout : ∀ mo, state.addressSpace.resolveOne c.toNat = some mo →
      mo.getBoundsCheckPointer (.const c) access.bytes = ofBool false) :
    Prog.wp (resolveError env p access (.const c)) (fun _ t => Idle s t) E s := by
  unfold resolveError
  refine Prog.wp.bind (lift_question (resolve_const env.toEnv hstate env.late c)) fun r t ht => ?_
  obtain ⟨rfl, ht⟩ := ht
  have hstate' : t.executor.heap p = some state := by
    rw [Ticked.heap ht.ticked]
    exact hstate
  obtain ⟨v, rfl⟩ := hstore
  cases hres : state.addressSpace.resolveOne c.toNat with
  | none => exact ht
  | some mo =>
    show Prog.wp ((lift p _ >>= _) >>= _) _ _ t
    rw [hout mo hres, Prog.bind_assoc]
    refine Prog.wp.bind (lift_question (fork_false env.toEnv hstate')) fun branches u hu => ?_
    obtain ⟨rfl, hu⟩ := hu
    exact ht.trans hu

/-- **A store at a constant address that is not inside of an object** changes nothing. -/
theorem store_outside (hstate : s.executor.heap p = some state) (hb : state.constraints.IsBool)
    (hdisj : state.addressSpace.Disjoint) (hv : value.HasWidth w) (hw : Memory.ObjectState.WidthAllowed w)
    (hout : ∀ mo ∈ state.addressSpace.objects, ¬Holds mo c (PlainArray.numBytes w)) :
    Prog.wp (executeMemoryOperation env p (.store value) (.const c)) (fun _ t => Idle s t) E s := by
  have hbytes : (Access.store (storedValue env state.constraints value)).bytes = PlainArray.numBytes w := by
    show ((storedValue env state.constraints value).getWidth + 7) / 8 = _
    rw [(storedValue_hasWidth hb hv).width, bytes_eq_numBytes hw]
  have herror : ∀ t, Idle s t → Prog.wp (resolveError env p (.store (storedValue env state.constraints value)) (.const c))
      (fun _ t => Idle s t) E t := by
    intro t ht
    have hstate' : t.executor.heap p = some state := by
      rw [Ticked.heap ht.ticked]
      exact hstate
    refine (resolveError_const hstate' ⟨_, rfl⟩ fun mo hres => ?_).mono (fun _ u hu => ht.trans hu) fun _ h => h
    obtain ⟨hmo, hc⟩ := (state.addressSpace.resolveOne_eq_some_iff hdisj c mo).1 hres
    rw [hbytes, getBoundsCheckPointer_const mo c (Memory.numBytes_pos hw) hc, decide_eq_false (hout mo hmo)]
  by_cases hex : ∃ mo ∈ state.addressSpace.objects, mo.Checks c
  · obtain ⟨mo, hmo, hc⟩ := hex
    exact store_checked hstate hb hdisj hmo hv hw hc (fun hin => absurd hin (hout mo hmo)) fun _ => herror
  · refine store_located hstate fun t ht => ?_
    have hnone : state.addressSpace.resolveOne c.toNat = none := by
      rw [Option.eq_none_iff_forall_ne_some]
      intro mo hres
      exact hex ⟨mo, (state.addressSpace.resolveOne_eq_some_iff hdisj c mo).1 hres⟩
    rw [hnone]
    exact herror t ht

omit [ExprOptions] in
/-- Two objects that hold the same bytes are one. -/
theorem Holds.unique {mo' : MemoryObject} {n : ℕ} (h : Holds mo c n) (h' : Holds mo' c n) (hn : 0 < n)
    (hdisj : state.addressSpace.Disjoint) (hmo : mo ∈ state.addressSpace.objects)
    (hmo' : mo' ∈ state.addressSpace.objects) : mo = mo' := by
  by_contra hne
  exact hdisj mo hmo mo' hmo' hne c (h.checks hn) (h'.checks hn)

/-- **A store at a constant address, seen from one object.**  The word is written if it lies in the object and the object is
not read only; else the object is as before.  Of the state only `pc` may change. -/
theorem store_const (hstate : s.executor.heap p = some state) (hp : p < s.executor.nextPtr)
    (hadd : p ∉ s.executor.addedStates) (hb : state.constraints.IsBool) (hdisj : state.addressSpace.Disjoint)
    (hmo : mo ∈ state.addressSpace.objects) (hv : value.HasWidth w) (hw : Memory.ObjectState.WidthAllowed w)
    (hos : ∀ mo' ∈ state.addressSpace.objects, Memory.Consistent (s.contents p mo'))
    (hsize : ∀ mo' ∈ state.addressSpace.objects, (s.contents p mo').size = mo'.size) :
    Prog.wp (executeMemoryOperation env p (.store value) (.const c))
      (fun _ t => (∃ pc, t.executor.heap p = some { state with pc := pc }) ∧
        if Holds mo c (PlainArray.numBytes w) ∧ (s.contents p mo).readOnly = false then
          Memory.Stores env.littleEndian (c.toNat - mo.address.toNat) w (storedValue env state.constraints value)
            (s.contents p mo) (t.contents p mo)
        else t.contents p mo = s.contents p mo) E s := by
  have hpos := Memory.numBytes_pos hw
  by_cases hex : ∃ mo' ∈ state.addressSpace.objects, Holds mo' c (PlainArray.numBytes w)
  · obtain ⟨mo', hmo', hin⟩ := hex
    cases hro : (s.contents p mo').readOnly with
    | true =>
      refine (store_readOnly_terminated hstate hp hb hdisj hmo' hv hw hin hro).mono ?_ fun _ h => h
      rintro - _ ⟨t, ht, rfl⟩
      refine ⟨⟨state.prevPC, ?_⟩, ?_⟩
      · show (t.executor.terminated p).heap p = _
        unfold Executor.terminated
        rw [if_neg (Ticked.addedStates ht.ticked ▸ hadd), Ticked.heap ht.ticked, hstate]
        exact Function.update_self ..
      · rw [if_neg]
        · show (if t.executor.nextPtr ≤ p then _ else t.contents p) mo = _
          rw [if_neg (Ticked.nextPtr ht.ticked ▸ Nat.not_le.2 hp), ht.contents p hp]
        · rintro ⟨hin', hro'⟩
          rw [hin'.unique hin hpos hdisj hmo hmo', hro] at hro'
          cases hro'
    | false =>
      refine (store_inside hstate hp hb hdisj hmo' hv hw hin (hos mo' hmo') (hsize mo' hmo') hro).mono
        (fun _ t ht => ⟨⟨state.pc, ?_⟩, ?_⟩) fun _ h => h
      · rw [Ticked.heap ht.ticked]
        exact hstate
      · by_cases heq : mo = mo'
        · subst heq
          rw [if_pos ⟨hin, hro⟩]
          exact ht.object
        · rw [if_neg fun h => heq (h.1.unique hin hpos hdisj hmo hmo')]
          exact ht.others p hp mo (.inr heq)
  · refine (store_outside hstate hb hdisj hv hw fun mo' hmo' hin => hex ⟨mo', hmo', hin⟩).mono
      (fun _ t ht => ⟨⟨state.pc, ?_⟩, ?_⟩) fun _ h => h
    · rw [Ticked.heap ht.ticked]
      exact hstate
    · rw [if_neg fun h => hex ⟨mo, hmo, h.1⟩, ht.contents p hp]

end

end Machine

end SymBisect
