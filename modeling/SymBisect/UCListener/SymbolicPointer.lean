import SymBisect.Core.ExecutionState
import SymBisect.Lib.PairedMap

/-!
# Symbolic pointers

The hooks of `lib/Kernel/Listener/UCListener.cpp` around loads, stores and calls.  A symbolic pointer
that is dereferenced is bound to the base of a new object; the binding goes into
`map_symbolic_address` and, reversed, into `map_address_symbolic`.  Before the instruction the operand is
rewritten to the concrete address, after it the symbolic pointer is put back.

* `symbolic_before_load`, `symbolic_before_store` bind the pointer only.
* `create_symaddr_object`, used for the arguments of the modelled functions, also binds
  `base + 1`, …, `base + size - 1`.

The objects come from the memory manager, which is a parameter: `memory n` is the object of the `n`-th
allocation, with the symbolic size that `assign_symsize` gives it.  A missing operand value ends in `none`.
-/

namespace SymBisect

open Lib

/-- The types that the hooks tell apart. -/
inductive TypeID where
  | integer
  | pointer
  | other
  deriving DecidableEq

/-- A state with what it shares with the others: the constant table of the module, which `un_eval` may
write, and the number of objects allocated so far. -/
structure UCState where
  state : ExecutionState
  constantTable : ℕ → Option Expr
  allocated : ℕ

/-- The two pointer maps. -/
def ExecutionState.pointerMaps (state : ExecutionState) : PairedMap Expr Expr :=
  ⟨state.map_symbolic_address, state.map_address_symbolic⟩

namespace UCState

/-- `Executor::eval`. -/
def eval (u : UCState) : Operand → Option Expr
  | .const n => u.constantTable n
  | .reg n =>
    match u.state.stack with
    | [] => none
    | sf :: _ => sf.locals n

/-- Assignment through `Executor::un_eval`. -/
def un_eval (u : UCState) (op : Operand) (value : Expr) : UCState :=
  match op with
  | .const n => { u with constantTable := Function.update u.constantTable n (some value) }
  | .reg n =>
    match u.state.stack with
    | [] => u
    | sf :: rest =>
      { u with state := { u.state with
          stack := { sf with locals := Function.update sf.locals n (some value) } :: rest } }

/-- `Executor::create_mo`: the object and the state in which it is bound. -/
def create_mo (memory : ℕ → MemoryObject) (u : UCState) : MemoryObject × UCState :=
  let mo := memory u.allocated
  (mo, { u with
    state := { u.state with addressSpace := u.state.addressSpace.bindObject mo }
    allocated := u.allocated + 1 })

/-- `map_symbolic_address[base] = address; map_address_symbolic[address] = base`. -/
def bindAddress (u : UCState) (base address : Expr) : UCState :=
  { u with state := { u.state with
      map_symbolic_address := u.state.map_symbolic_address.set base address
      map_address_symbolic := u.state.map_address_symbolic.set address base } }

/-- `map_symbolic_address.erase(base)`. -/
def eraseAddress (u : UCState) (base : Expr) : UCState :=
  { u with state := { u.state with
      map_symbolic_address := u.state.map_symbolic_address.erase base } }

end UCState

namespace UCListener

/-- `cast<ConstantExpr>(address)->getZExtValue()`. -/
def constantAddress : Expr → Option ℕ
  | .const v => some v.toNat
  | _ => none

/-- `find_equalsymaddr` returns at once. -/
def find_equalsymaddr (_ : UCState) (_ : Expr) : Bool := false

/-- The common body of `symbolic_before_load` and `symbolic_before_store`: `address` is the address
operand, `ty` the type that is looked at. -/
def symbolic_before (memory : ℕ → MemoryObject) (u : UCState) (address : Operand) (ty : TypeID) :
    Option UCState := do
  let base ← u.eval address
  if base.isConstant then return u
  else match u.state.map_symbolic_address base with
    | some real_address => return u.un_eval address real_address
    | none =>
      if find_equalsymaddr u base then do
        let real_address ← u.state.map_symbolic_address base
        return u.un_eval address real_address
      else if ty = .integer ∨ ty = .pointer then
        let (mo, u) := u.create_mo memory
        return (u.un_eval address mo.getBaseExpr).bindAddress base mo.getBaseExpr
      -- symbolic address, type is not integer or pointer
      else return u

/-- The common body of `symbolic_after_load` and `symbolic_after_store`: restore the symbolic
address. -/
def symbolic_after (u : UCState) (address : Operand) : Option UCState := do
  let base ← u.eval address
  match u.state.map_address_symbolic base with
  | some symbolic => return u.un_eval address symbolic
  | none => return u

/-- `symbolic_before_load`.  Operand 0, of pointer type, is both the address and the operand whose type
is looked at. -/
def symbolic_before_load (memory : ℕ → MemoryObject) (u : UCState) (address : Operand) :
    Option UCState :=
  symbolic_before memory u address .pointer

/-- `symbolic_after_load`. -/
def symbolic_after_load (u : UCState) (address : Operand) : Option UCState := symbolic_after u address

/-- `symbolic_before_store`.  The address is operand 1, the type is that of the stored operand 0. -/
def symbolic_before_store (memory : ℕ → MemoryObject) (u : UCState) (address : Operand)
    (valueType : TypeID) : Option UCState :=
  symbolic_before memory u address valueType

/-- `symbolic_after_store`. -/
def symbolic_after_store (u : UCState) (address : Operand) : Option UCState := symbolic_after u address

section
variable [ExprOptions]

/-- `AddExpr::create(e, 1)`. -/
def addOne (e : Expr) : Expr := AddExpr.create e (.const (1#64))

/-- The loop of `create_symaddr_object`, with `n` iterations left. -/
def bindFollowing : ℕ → Expr → Expr → UCState → UCState
  | 0, _, _, u => u
  | n + 1, base, concrete_addr, u =>
    bindFollowing n (addOne base) (addOne concrete_addr)
      (u.bindAddress (addOne base) (addOne concrete_addr))

/-- The last part of `create_symaddr_object`: make an object of `size` bytes and bind `base` and the
`size - 1` addresses after it. -/
def bindNewObject (memory : ℕ → MemoryObject) (u : UCState) (base : Expr) (size : UInt32) :
    Expr × UCState :=
  let (mo, u) := u.create_mo memory
  (mo.getBaseExpr,
    bindFollowing (size.toNat - 1) base mo.getBaseExpr (u.bindAddress base mo.getBaseExpr))

/-- `create_symaddr_object`. -/
def create_symaddr_object (memory : ℕ → MemoryObject) (u : UCState) (base : Expr) (size : UInt32) :
    Option (Expr × UCState) :=
  if base.isConstant then some (base, u)
  else match u.state.map_symbolic_address base with
    | some address => do
      let addr ← constantAddress address
      match u.state.addressSpace.resolveOne addr with
      | some _ => return (address, u)
      -- cannot find corresponding object with the real_address, create a new object instead
      | none => return bindNewObject memory (u.eraseAddress base) base size
    | none => some (bindNewObject memory u base size)

/-- One argument of a modelled function: its operand is replaced by the concrete address. -/
def concretizeArgument (memory : ℕ → MemoryObject) (u : UCState) (arg : Operand) (size : UInt32) :
    Option UCState := do
  let base ← u.eval arg
  let (concrete_addr, u) ← create_symaddr_object memory u base size
  return u.un_eval arg concrete_addr

/-- The operands that the `Call` case of `beforeExecuteInstruction` concretizes, with the size of the
object. -/
def concretizedArguments (name : String) : List (ℕ × UInt32) :=
  if name = "strcmp" then [(1, 64)]
  else if name = "memcpy" ∨ name = "_copy_from_user" ∨ name = "_copy_to_user" ∨
      name = "strncpy_from_user" then [(1, 4096), (2, 4096)]
  else if name = "memset" ∨ name = "kfree" then [(1, 4096)]
  else if name = "strchr" then [(1, 64)]
  else if name = "kmem_cache_free" then [(2, 64)]
  else []

/-- Concretize one argument after the other. -/
def concretizeArguments (memory : ℕ → MemoryObject) : UCState → List (Operand × UInt32) → Option UCState
  | u, [] => some u
  | u, (arg, size) :: args => do
    let u ← concretizeArgument memory u arg size
    concretizeArguments memory u args

/-- The `Call` case of `beforeExecuteInstruction`; `operands` are the operands of the call. -/
def symbolic_before_call (memory : ℕ → MemoryObject) (u : UCState) (name : String)
    (operands : ℕ → Operand) : Option UCState :=
  concretizeArguments memory u ((concretizedArguments name).map fun p => (operands p.1, p.2))

end

end UCListener

end SymBisect
