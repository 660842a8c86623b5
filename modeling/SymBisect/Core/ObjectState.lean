import SymBisect.Expr.RebuildSound
import SymBisect.Lib.PlainArray
import SymBisect.Lib.Prog

/-!
# The bytes of an object

`ObjectState` of `lib/Core/Memory.cpp`.  A byte is in the concrete store, in the cache of known symbolic bytes or in
the update list, and may be in the update list beside one of the others; three lazily made masks say where.  Reads
at a symbolic offset flush all bytes to the update list, writes at one move them there.

A mask or a cache that was not made yet is `none`.  Offsets are `unsigned`, here `BitVec 32`.  An access past the
end of the store, which C++ leaves undefined, aborts, as a failed assertion does.
-/

namespace SymBisect.Memory

open Lib Expr PlainArray

/-- `UpdateList`, whose root may be null; the most recent write comes first. -/
structure Updates where
  root : Option Array
  head : List (Expr × Expr)

/-- The update list over an array. -/
def Updates.over (arr : Array) (head : List (Expr × Expr)) : UpdateList :=
  head.foldr (fun write next => .extend next write.1 write.2) (.root arr)

/-- `ObjectState`. -/
structure ObjectState where
  size : ℕ
  concreteStore : ℕ → BitVec 8
  concreteMask : Option (ℕ → Bool)
  flushMask : Option (ℕ → Bool)
  knownSymbolics : Option (ℕ → Option Expr)
  updates : Updates
  readOnly : Bool
  size_lt : size < 2 ^ 32

namespace ObjectState

/-! ### Masks -/

/-- `isByteConcrete`. -/
def isByteConcrete (os : ObjectState) (offset : ℕ) : Bool :=
  match os.concreteMask with
  | none => true
  | some mask => mask offset

/-- `isByteFlushed`. -/
def isByteFlushed (os : ObjectState) (offset : ℕ) : Bool :=
  match os.flushMask with
  | none => false
  | some mask => !mask offset

/-- `knownSymbolics[offset]`, if there is one. -/
def knownSymbolic (os : ObjectState) (offset : ℕ) : Option Expr :=
  match os.knownSymbolics with
  | none => none
  | some known => known offset

/-- `isByteKnownSymbolic`. -/
def isByteKnownSymbolic (os : ObjectState) (offset : ℕ) : Bool := (os.knownSymbolic offset).isSome

/-- `markByteConcrete`. -/
def markByteConcrete (os : ObjectState) (offset : ℕ) : ObjectState :=
  { os with concreteMask := os.concreteMask.map fun mask => Function.update mask offset true }

/-- `markByteSymbolic`. -/
def markByteSymbolic (os : ObjectState) (offset : ℕ) : ObjectState :=
  { os with concreteMask := some (Function.update (os.concreteMask.getD fun _ => true) offset false) }

/-- `markByteUnflushed`. -/
def markByteUnflushed (os : ObjectState) (offset : ℕ) : ObjectState :=
  { os with flushMask := os.flushMask.map fun mask => Function.update mask offset true }

/-- `markByteFlushed`: a mask that is made here marks all bytes. -/
def markByteFlushed (os : ObjectState) (offset : ℕ) : ObjectState :=
  { os with flushMask := match os.flushMask with
      | none => some fun _ => false
      | some mask => some (Function.update mask offset false) }

/-- `setKnownSymbolic`. -/
def setKnownSymbolic (os : ObjectState) (offset : ℕ) (value : Option Expr) : ObjectState :=
  { os with knownSymbolics := match os.knownSymbolics with
      | some known => some (Function.update known offset value)
      | none => value.map fun value => Function.update (fun _ => none) offset (some value) }

/-- `makeConcrete`. -/
def makeConcrete (os : ObjectState) : ObjectState :=
  { os with concreteMask := none, flushMask := none, knownSymbolics := none }

/-- `initializeToZero`. -/
def initializeToZero (os : ObjectState) : ObjectState := { os.makeConcrete with concreteStore := fun _ => 0 }

/-- `initializeToRandom`. -/
def initializeToRandom (os : ObjectState) : ObjectState := { os.makeConcrete with concreteStore := fun _ => 0xAB }

/-- `makeSymbolic`, without its assertion, on the bytes of a list. -/
def makeBytesSymbolic (os : ObjectState) : List ℕ → ObjectState
  | [] => os
  | i :: is => makeBytesSymbolic (((os.markByteSymbolic i).setKnownSymbolic i none).markByteFlushed i) is

/-! ### Constructors -/

/-- A size that is an `unsigned`. -/
abbrev Size := { size : ℕ // size < 2 ^ 32 }

/-- `tmp_arr`: the array below an object when constant arrays are not used. -/
def tmpArray (size : Size) (id : ℕ) : Array := ⟨id, "tmp_arr" ++ toString id, size, [], size.2, .inl rfl⟩

/-- `ObjectState(mo)`. -/
def new (useConstantArrays : Bool) (size : Size) (id : ℕ) : ObjectState where
  size := size
  concreteStore := fun _ => 0
  concreteMask := none
  flushMask := none
  knownSymbolics := none
  updates := ⟨if useConstantArrays then none else some (tmpArray size id), []⟩
  readOnly := false
  size_lt := size.2

/-- `ObjectState(mo, array)` and `ObjectState(size, array)`.  The list of updates is empty, so that the assertion of
`makeSymbolic` holds. -/
def newSymbolic (size : Size) (array : Array) : ObjectState :=
  makeBytesSymbolic
    { size := size
      concreteStore := fun _ => 0
      concreteMask := none
      flushMask := none
      knownSymbolics := none
      updates := ⟨some array, []⟩
      readOnly := false
      size_lt := size.2 }
    (List.range size)

/-- `ObjectState(os)`; there is no need to copy a read only object. -/
def copy (os : ObjectState) : Option ObjectState :=
  if os.readOnly = true then none else some { os with readOnly := false }

/-! ### The update list -/

/-- The constant writes at the start of a list, the oldest write first, are put into the contents. -/
def pullConstants : List (Expr × Expr) → List (BitVec 8) → List (BitVec 8) × List (Expr × Expr)
  | (.const i, .const v) :: writes, contents => pullConstants writes (contents.set i.toNat (v.setWidth 8))
  | writes, contents => (contents, writes)

theorem pullConstants_length : ∀ (writes : List (Expr × Expr)) (contents : List (BitVec 8)),
    (pullConstants writes contents).1.length = contents.length := by
  intro writes contents
  fun_induction pullConstants writes contents with
  | case1 k i w v writes contents ih => rw [ih, List.length_set]
  | case2 writes contents h => rfl

/-- `const_arr`: the constant array of an object's first writes. -/
def constArray (os : ObjectState) (id : ℕ) : Array where
  ptr := id
  name := "const_arr" ++ toString id
  size := os.size
  constantValues := (pullConstants os.updates.head.reverse (List.replicate os.size 0)).1
  size_lt := os.size_lt
  constantValues_size := .inr (by rw [pullConstants_length, List.length_replicate])

/-- `getUpdates`: the constant array below the writes is made now. -/
def getUpdates (id : ℕ) : Prog ObjectState UpdateList := do
  let os ← Prog.get
  match os.updates.root with
  | some root => pure (Updates.over root os.updates.head)
  | none => do
    let writes := (pullConstants os.updates.head.reverse (List.replicate os.size 0)).2.reverse
    Prog.modify fun os => { os with updates := ⟨some (os.constArray id), writes⟩ }
    pure (Updates.over (os.constArray id) writes)

/-- `updates.extend`. -/
def extend (index value : Expr) : Prog ObjectState PUnit := do
  let os ← Prog.get
  Prog.assert (os.updates.root.isSome = true → index.getWidth = 32 ∧ value.getWidth = 8)
  Prog.modify fun os => { os with updates := ⟨os.updates.root, (index, value) :: os.updates.head⟩ }

/-- `if (!flushMask) flushMask = new BitArray(size, true)`. -/
def makeFlushMask (os : ObjectState) : ObjectState :=
  { os with flushMask := some (os.flushMask.getD fun _ => true) }

/-- `flushMask->unset(offset)`. -/
def unsetFlushMask (os : ObjectState) (offset : ℕ) : ObjectState :=
  { os with flushMask := os.flushMask.map fun mask => Function.update mask offset false }

/-- The constant index of a byte. -/
def indexExpr (offset : ℕ) : Expr := .const (BitVec.ofNat 32 offset)

/-- One turn of the loop of `flushRangeForRead`. -/
def flushByteForRead (offset : ℕ) : Prog ObjectState PUnit := do
  let os ← Prog.get
  if os.isByteFlushed offset = true then pure ⟨⟩
  else
    (if os.isByteConcrete offset = true then extend (indexExpr offset) (.const (os.concreteStore offset))
    else do
      -- invalid bit set in flushMask
      let value ← Prog.unwrap (os.knownSymbolic offset)
      extend (indexExpr offset) value) >>= fun _ =>
    Prog.modify fun os => os.unsetFlushMask offset

/-- `flushRangeForRead`. -/
def flushRangeForRead (rangeBase rangeSize : ℕ) : Prog ObjectState PUnit := do
  Prog.modify makeFlushMask
  Prog.each flushByteForRead (List.range' rangeBase rangeSize)

/-- One turn of the loop of `flushRangeForWrite`. -/
def flushByteForWrite (offset : ℕ) : Prog ObjectState PUnit := do
  let os ← Prog.get
  if os.isByteFlushed offset = true then
    -- flushed bytes that are written over still need to be marked out
    if os.isByteConcrete offset = true then Prog.modify fun os => os.markByteSymbolic offset
    else Prog.when (os.isByteKnownSymbolic offset = true) (Prog.modify fun os => os.setKnownSymbolic offset none)
  else
    (if os.isByteConcrete offset = true then do
      extend (indexExpr offset) (.const (os.concreteStore offset))
      Prog.modify fun os => os.markByteSymbolic offset
    else do
      -- invalid bit set in flushMask
      let value ← Prog.unwrap (os.knownSymbolic offset)
      extend (indexExpr offset) value
      Prog.modify fun os => os.setKnownSymbolic offset none) >>= fun _ =>
    Prog.modify fun os => os.unsetFlushMask offset

/-- `flushRangeForWrite`. -/
def flushRangeForWrite (rangeBase rangeSize : ℕ) : Prog ObjectState PUnit := do
  Prog.modify makeFlushMask
  Prog.each flushByteForWrite (List.range' rangeBase rangeSize)

/-! ### Bytes -/

section

variable [ExprOptions] (littleEndian : Bool) (id : ℕ)

/-- `read8` at a constant offset. -/
def read8At (offset : BitVec 32) : Prog ObjectState Expr := do
  let os ← Prog.get
  Prog.assert (offset.toNat < os.size)
  if os.isByteConcrete offset.toNat = true then pure (.const (os.concreteStore offset.toNat))
  else
    match os.knownSymbolic offset.toNat with
    | some value => pure value
    | none => do
      -- unflushed byte without cache value
      Prog.assert (os.isByteFlushed offset.toNat = true)
      let updates ← getUpdates id
      pure (ReadExpr.create updates (.const offset))

/-- `read8` at a symbolic offset; `fastRangeCheckOffset` gives the whole object. -/
def read8 (offset : Expr) : Prog ObjectState Expr := do
  let os ← Prog.get
  -- constant offset passed to symbolic read8
  Prog.assert (offset.isConstant = false)
  flushRangeForRead 0 os.size
  let updates ← getUpdates id
  pure (ReadExpr.create updates (ZExtExpr.create offset 32))

/-- `write8` of a constant at a constant offset. -/
def write8Const (offset : BitVec 32) (value : BitVec 8) : Prog ObjectState PUnit := do
  let os ← Prog.get
  Prog.assert (offset.toNat < os.size)
  Prog.modify fun os =>
    ((({ os with concreteStore := Function.update os.concreteStore offset.toNat value }.setKnownSymbolic
      offset.toNat none).markByteConcrete offset.toNat).markByteUnflushed offset.toNat)

/-- `write8` at a constant offset. -/
def write8At (offset : BitVec 32) (value : Expr) : Prog ObjectState PUnit :=
  match value with
  | .const v => write8Const offset (v.setWidth 8)
  | value => do
    let os ← Prog.get
    Prog.assert (offset.toNat < os.size)
    Prog.modify fun os =>
      ((os.setKnownSymbolic offset.toNat (some value)).markByteSymbolic offset.toNat).markByteUnflushed offset.toNat

/-- `write8` at a symbolic offset. -/
def write8 (offset value : Expr) : Prog ObjectState PUnit := do
  let os ← Prog.get
  -- constant offset passed to symbolic write8
  Prog.assert (offset.isConstant = false)
  flushRangeForWrite 0 os.size
  extend (ZExtExpr.create offset 32) value

/-! ### Words -/

/-- The loop of `read`: `byte i` reads the `i`-th byte.  Without a byte the result is a null reference. -/
def readBytes (byte : ℕ → Prog ObjectState Expr) : ℕ → Prog ObjectState Expr
  | 0 => Prog.abort
  | 1 => byte 0
  | n + 2 => do
    let res ← readBytes byte (n + 1)
    let b ← byte (n + 1)
    pure (ConcatExpr.create b res)

/-- `read` at a constant offset. -/
def readAt (offset : BitVec 32) (width : ℕ) : Prog ObjectState Expr :=
  if width = 1 then do
    let b ← read8At id offset
    pure (ExtractExpr.create b 0 1)
  else do
    -- Invalid width for read size!
    Prog.assert (width = width / 8 * 8)
    readBytes (fun i => read8At id (byteIndex littleEndian (width / 8) offset i)) (width / 8)

/-- The offset of the `i`-th byte of a word. -/
def byteOffset (n : ℕ) (offset : Expr) (i : ℕ) : Expr :=
  AddExpr.create offset (.const (BitVec.ofNat 32 (bytePosition littleEndian n i)))

/-- `read`. -/
def read (offset : Expr) (width : ℕ) : Prog ObjectState Expr :=
  match ZExtExpr.create offset 32 with
  | .const c => readAt littleEndian id (c.setWidth 32) width
  | offset =>
    if width = 1 then do
      let b ← read8 id offset
      pure (ExtractExpr.create b 0 1)
    else do
      -- Invalid read size!
      Prog.assert (width = width / 8 * 8)
      readBytes (fun i => read8 id (byteOffset littleEndian (width / 8) offset i)) (width / 8)

/-- The loop of `write16`, `write32` and `write64`. -/
def writeConst {w : ℕ} (numBytes : ℕ) (offset : BitVec 32) (value : BitVec w) : Prog ObjectState PUnit :=
  Prog.each (fun i => write8Const (byteIndex littleEndian numBytes offset i) ((value >>> (8 * i)).setWidth 8))
    (List.range numBytes)

/-- `write16`. -/
def write16 (offset : BitVec 32) (value : BitVec 16) : Prog ObjectState PUnit := writeConst littleEndian 2 offset value

/-- `write32`. -/
def write32 (offset : BitVec 32) (value : BitVec 32) : Prog ObjectState PUnit := writeConst littleEndian 4 offset value

/-- `write64`. -/
def write64 (offset : BitVec 32) (value : BitVec 64) : Prog ObjectState PUnit := writeConst littleEndian 8 offset value

/-- The general case of `write` at a constant offset. -/
def writeGeneral (offset : BitVec 32) (value : Expr) : Prog ObjectState PUnit :=
  if value.getWidth = 1 then write8At offset (ZExtExpr.create value 8)
  else do
    -- Invalid write size!
    Prog.assert (value.getWidth = value.getWidth / 8 * 8)
    Prog.each (fun i => write8At (byteIndex littleEndian (value.getWidth / 8) offset i)
      (ExtractExpr.create value (8 * i) 8)) (List.range (value.getWidth / 8))

/-- `write` at a constant offset. -/
def writeAt (offset : BitVec 32) (value : Expr) : Prog ObjectState PUnit :=
  match value with
  | .const (w := w) v =>
    -- `w <= 64 && isPowerOfTwo(w)`
    if w ∈ [1, 2, 4, 8, 16, 32, 64] then
      if w = 1 ∨ w = 8 then write8Const offset (v.setWidth 8)
      else if w = 16 then write16 littleEndian offset (v.setWidth 16)
      else if w = 32 then write32 littleEndian offset (v.setWidth 32)
      else if w = 64 then write64 littleEndian offset (v.setWidth 64)
      -- Invalid write size!
      else Prog.abort
    else writeGeneral littleEndian offset (.const v)
  | value => writeGeneral littleEndian offset value

/-- `write`. -/
def write (offset value : Expr) : Prog ObjectState PUnit :=
  match ZExtExpr.create offset 32 with
  | .const c => writeAt littleEndian (c.setWidth 32) value
  | offset =>
    if value.getWidth = 1 then write8 offset (ZExtExpr.create value 8)
    else do
      -- Invalid write size!
      Prog.assert (value.getWidth = value.getWidth / 8 * 8)
      Prog.each (fun i => write8 (byteOffset littleEndian (value.getWidth / 8) offset i)
        (ExtractExpr.create value (8 * i) 8)) (List.range (value.getWidth / 8))

/-- One turn of the loop of `flushToConcreteStore`; `getValue` is the answer of the solver, if there is one. -/
def flushByteToStore (getValue : Expr → Option (BitVec 8)) (i : ℕ) : Prog ObjectState PUnit := do
  let os ← Prog.get
  Prog.when (os.isByteKnownSymbolic i = true) do
    let e ← read8At id (BitVec.ofNat 32 i)
    match getValue e with
    | some v => Prog.modify fun os => { os with concreteStore := Function.update os.concreteStore i v }
    | none => pure ⟨⟩

/-- `flushToConcreteStore`. -/
def flushToConcreteStore (getValue : Expr → Option (BitVec 8)) : Prog ObjectState PUnit := do
  let os ← Prog.get
  Prog.each (flushByteToStore id getValue) (List.range os.size)

end

end ObjectState

end SymBisect.Memory
