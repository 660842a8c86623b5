import SymBisect.Core.ExecutionState
import SymBisect.Core.ObjectStateSound

/-!
# Merging two states

`ExecutionState::merge`: state A takes over what state B is, and B is thrown away.  The constraints that both have
stay, and `inA`, the conjunction of those that only A has, selects between the values of A and of B in every register
and in every byte of an object that the states do not share.

The checks come before the first change: the same place, the same symbolic objects, frames of the same functions, and
maps with the same memory objects.  A failed assertion aborts.

The two states share a heap of object states, which a state changes in place if it owns them and else copies.  Memory
objects and object states are pointers, here numbers.
-/

namespace SymBisect.Merge

open Lib Expr Memory ConstraintSet

/-- An object state on the heap: its memory object, its owner and its bytes. -/
structure HeapObject where
  object : ℕ
  copyOnWriteOwner : UInt32
  bytes : ObjectState

/-- What `merge` reads and writes of an `ExecutionState`.  `objects` are the memory objects and their object states, in
the order of the map. -/
structure State where
  pc : ℕ
  symbolics : List (ℕ × Array)
  stack : List StackFrame
  constraints : ConstraintSet
  cowKey : UInt32
  objects : List (ℕ × ℕ)

/-- The states A and B over their heap. -/
structure Pair where
  a : State
  b : State
  heap : ℕ → Option HeapObject
  nextRef : ℕ

/-- What `merge` depends on beside the states: the functions, the memory objects, the order of `std::set<ref<Expr>>`,
and the number that names the constant array of an object state, if it is made. -/
structure Env where
  numRegisters : String → ℕ
  memoryObject : ℕ → MemoryObject
  compare : Expr → Expr → Bool
  constArrayId : ℕ → ℕ
  littleEndian : Bool

/-! ### The checks -/

/-- The frames of both stacks are of the same functions, called at the same places. -/
def sameFrames : List StackFrame → List StackFrame → Bool
  | [], [] => true
  | af :: as, bf :: bs => decide (af.caller = bf.caller ∧ af.kf = bf.kf) && sameFrames as bs
  | _, _ => false

/-- The memory objects whose object states differ, if both maps have the same memory objects. -/
def mutated : List (ℕ × ℕ) → List (ℕ × ℕ) → Option (List ℕ)
  | [], [] => some []
  | (mo, os) :: as, (mo', os') :: bs =>
    if mo ≠ mo' then none else (mutated as bs).map fun mos => if os ≠ os' then mo :: mos else mos
  | _, _ => none

/-! ### Constraints -/

section

variable [ExprOptions] (env : Env)

/-- `std::set<ref<Expr>>` of the constraints. -/
def constraintSet (constraints : ConstraintSet) : List Expr := constraints.dedup.mergeSort env.compare

/-- `commonConstraints`. -/
def commonConstraints (p : Pair) : List Expr :=
  (constraintSet env p.a.constraints).filter fun c => c ∈ constraintSet env p.b.constraints

/-- `aSuffix`. -/
def aSuffix (p : Pair) : List Expr := (constraintSet env p.a.constraints).filter fun c => c ∉ commonConstraints env p

/-- `bSuffix`. -/
def bSuffix (p : Pair) : List Expr := (constraintSet env p.b.constraints).filter fun c => c ∉ commonConstraints env p

/-- The conjunction of a suffix. -/
def conjunction (suffix : List Expr) : Expr := suffix.foldl AndExpr.create (ofBool true)

/-- `inA`. -/
def inA (p : Pair) : Expr := conjunction (aSuffix env p)

/-- `inB`. -/
def inB (p : Pair) : Expr := conjunction (bSuffix env p)

/-- The new constraints of A. -/
def mergeConstraints (p : Pair) : Option ConstraintSet :=
  ((commonConstraints env p).foldlM ConstraintManager.addConstraint []).bind fun constraints =>
    ConstraintManager.addConstraint constraints (OrExpr.create (inA env p) (inB env p))

/-! ### Registers -/

/-- `SelectExpr::create`, with its assertion. -/
def select (c av bv : Expr) : Option Expr :=
  if av.getWidth = bv.getWidth then some (SelectExpr.create c av bv) else none

/-- One register. -/
def mergeLocal (c : Expr) (av bv : Option Expr) : Option (Option Expr) :=
  match av, bv with
  | some av, some bv => (select c av bv).map some
  -- if one is null then by implication (we are at same pc) we cannot reuse this local, so just ignore
  | av, _ => some av

/-- The registers of a frame. -/
def mergeLocals (c : Expr) (bf : ℕ → Option Expr) : List ℕ → (ℕ → Option Expr) → Option (ℕ → Option Expr)
  | [], af => some af
  | i :: is, af => (mergeLocal c (af i) (bf i)).bind fun v => mergeLocals c bf is (Function.update af i v)

/-- A frame. -/
def mergeFrame (c : Expr) (af bf : StackFrame) : Option StackFrame :=
  (mergeLocals c bf.locals (List.range (env.numRegisters af.kf)) af.locals).map fun locals =>
    { af with locals := locals }

/-- The frames, of which there are as many on both stacks. -/
def mergeStack (c : Expr) : List StackFrame → List StackFrame → Option (List StackFrame)
  | af :: as, bf :: bs => (mergeFrame env c af bf).bind fun f => (mergeStack c as bs).map fun fs => f :: fs
  | as, _ => some as

/-! ### Objects -/

/-- `findObject`. -/
def findObject (objects : List (ℕ × ℕ)) (mo : ℕ) : Option ℕ := (objects.find? fun x => x.1 = mo).map Prod.snd

/-- `objects.replace(std::make_pair(mo, os))`. -/
def replace (objects : List (ℕ × ℕ)) (mo os : ℕ) : List (ℕ × ℕ) :=
  objects.map fun x => if x.1 = mo then (mo, os) else x

/-- A heap with other bytes in an object state. -/
def Pair.setBytes (p : Pair) (r : ℕ) (o : HeapObject) (bytes : ObjectState) : Pair :=
  { p with heap := Function.update p.heap r (some { o with bytes := bytes }) }

/-- A program on an object state of the heap. -/
def onObject {α : Type} (r : ℕ) (m : Prog ObjectState α) : Prog Pair α := fun p =>
  match p.heap r with
  | some o => ((m o.bytes).1, p.setBytes r o (m o.bytes).2)
  | none => (none, p)

/-- A copy of the object state `o` that A owns. -/
def Pair.bindCopy (p : Pair) (mo : ℕ) (o : HeapObject) (copy : ObjectState) : Pair :=
  { p with
    a := { p.a with objects := replace p.a.objects mo p.nextRef }
    heap := Function.update p.heap p.nextRef (some ⟨o.object, p.a.cowKey, copy⟩)
    nextRef := p.nextRef + 1 }

/-- `getWriteable` of the address space of A. -/
def getWriteable (mo os : ℕ) : Prog Pair ℕ := do
  let p ← Prog.get
  let o ← Prog.unwrap (p.heap os)
  Prog.assert (o.bytes.readOnly = false)
  if p.a.cowKey = o.copyOnWriteOwner then pure os
  else do
    let copy ← Prog.unwrap o.bytes.copy
    Prog.modify fun p => p.bindCopy mo o copy
    pure p.nextRef

/-- One byte of an object. -/
def mergeByte (c : Expr) (wos otherOS i : ℕ) : Prog Pair PUnit := do
  let av ← onObject wos (ObjectState.read8At (env.constArrayId wos) (BitVec.ofNat 32 i))
  let bv ← onObject otherOS (ObjectState.read8At (env.constArrayId otherOS) (BitVec.ofNat 32 i))
  let v ← Prog.unwrap (select c av bv)
  onObject wos (ObjectState.writeAt env.littleEndian (BitVec.ofNat 32 i) v)

/-- An object that was mutated. -/
def mergeObject (c : Expr) (mo : ℕ) : Prog Pair PUnit := do
  let p ← Prog.get
  -- objects mutated but not writable in merging state
  let os ← Prog.unwrap (findObject p.a.objects mo)
  let otherOS ← Prog.unwrap (findObject p.b.objects mo)
  let wos ← getWriteable mo os
  Prog.each (mergeByte env c wos otherOS) (List.range (env.memoryObject mo).size)

/-! ### The whole -/

/-- `ExecutionState::merge`. -/
def merge : Prog Pair Bool := do
  let p ← Prog.get
  if p.a.pc ≠ p.b.pc then pure false
  else if p.a.symbolics ≠ p.b.symbolics then pure false
  else if sameFrames p.a.stack p.b.stack = false then pure false
  else
    match mutated p.a.objects p.b.objects with
    | none => pure false
    | some mos => do
      let stack ← Prog.unwrap (mergeStack env (inA env p) p.a.stack p.b.stack)
      Prog.modify fun p => { p with a := { p.a with stack := stack } }
      Prog.each (mergeObject env (inA env p)) mos
      let constraints ← Prog.unwrap (mergeConstraints env p)
      Prog.modify fun p => { p with a := { p.a with constraints := constraints } }
      pure true

end

end SymBisect.Merge
