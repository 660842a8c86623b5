import SymBisect.Core.Memory

/-!
# Execution states

The fields of `ExecutionState` (`lib/Core/ExecutionState.h`) that the modelled functions read or write,
and the copy that `ExecutionState::branch` makes of them.
-/

namespace SymBisect

/-- `std::map<ref<Expr>, ref<Expr>>`. -/
abbrev ExprMap := Expr → Option Expr

/-- `map[key] = value`. -/
def ExprMap.set (m : ExprMap) (key value : Expr) : ExprMap := Function.update m key (some value)

/-- `map.erase(key)`. -/
def ExprMap.erase (m : ExprMap) (key : Expr) : ExprMap := Function.update m key none

/-- The empty map. -/
def ExprMap.empty : ExprMap := fun _ => none

/-- An operand is a register of the innermost frame or an entry of the constant table. -/
inductive Operand where
  | reg (n : ℕ)
  | const (n : ℕ)
  deriving DecidableEq

/-- `StackFrame`: the position of the call that made it, the function and its registers. -/
structure StackFrame where
  caller : Option ℕ
  kf : String
  locals : ℕ → Option Expr

/-- `ExecutionState`.  `pc` and `prevPC` are positions in the module's instructions; the innermost
frame is the head of `stack`.  `BBcount` is 0 at the keys that the map does not have. -/
structure ExecutionState where
  pc : ℕ
  prevPC : ℕ
  stack : List StackFrame
  incomingBBIndex : ℕ
  depth : ℕ
  addressSpace : AddressSpace
  constraints : ConstraintSet
  coveredLines : List String
  completecoveredLines : List String
  BBcount : String → UInt32
  OOBW : Bool
  symaddr_base : ExprMap
  map_symbolic_address : ExprMap
  map_address_symbolic : ExprMap
  id : ℕ
  coveredNew : Bool
  forkDisabled : Bool

namespace ExecutionState

/-- `ExecutionState(KFunction *kf)`: one frame of `kf`, at its first instruction. -/
def init (kf : String) (entry nextID : ℕ) : ExecutionState where
  pc := entry
  prevPC := entry
  stack := [⟨none, kf, fun _ => none⟩]
  incomingBBIndex := 0
  depth := 0
  addressSpace := ⟨[], List.Pairwise.nil⟩
  constraints := []
  coveredLines := []
  completecoveredLines := []
  BBcount := fun _ => 0
  OOBW := false
  symaddr_base := ExprMap.empty
  map_symbolic_address := ExprMap.empty
  map_address_symbolic := ExprMap.empty
  id := nextID
  coveredNew := false
  forkDisabled := false

/-- The copy constructor.  Its initialiser list names every field but `id` and the two pointer maps,
which are default-constructed. -/
def copy (state : ExecutionState) : ExecutionState where
  pc := state.pc
  prevPC := state.prevPC
  stack := state.stack
  incomingBBIndex := state.incomingBBIndex
  depth := state.depth
  addressSpace := state.addressSpace
  constraints := state.constraints
  coveredLines := state.coveredLines
  completecoveredLines := state.completecoveredLines
  BBcount := state.BBcount
  OOBW := state.OOBW
  symaddr_base := state.symaddr_base
  map_symbolic_address := ExprMap.empty
  map_address_symbolic := ExprMap.empty
  id := 0
  coveredNew := state.coveredNew
  forkDisabled := state.forkDisabled

/-- `ExecutionState::branch`: the parent, whose depth grows, and the new state with the next id. -/
def branch (state : ExecutionState) (nextID : ℕ) : ExecutionState × ExecutionState :=
  let state := { state with depth := state.depth + 1 }
  let falseState := state.copy
  (state, { falseState with id := nextID, coveredNew := false, coveredLines := [] })

end ExecutionState

end SymBisect
