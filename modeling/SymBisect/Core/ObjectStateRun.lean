import SymBisect.Core.ObjectStateSound

/-!
# Operations on a family of objects

Any sequence of the operations of `ObjectState`, on any number of objects, copies among them, beside the same
operations on plain arrays.

* `Op`, `step`: the operations; `plainStep` makes the same one on the arrays, for a given assignment.
* `Family.step`: an operation keeps that every object represents its array.
* `objectState_refines`: after any operations every read returns the word of the array, and a read that is allowed
  returns.
-/

namespace SymBisect.Memory

open Lib Expr PlainArray ObjectState

/-- An operation on the `k`-th object, or a new object. -/
inductive Op where
  | new (useConstantArrays : Bool) (size : Size) (id : ℕ)
  | newSymbolic (size : Size) (array : Array)
  | copy (k : ℕ)
  | setReadOnly (k : ℕ) (readOnly : Bool)
  | initializeToZero (k : ℕ)
  | initializeToRandom (k : ℕ)
  | flushToConcreteStore (k : ℕ) (getValue : Expr → Option (BitVec 8)) (id : ℕ)
  | read8At (k : ℕ) (offset : BitVec 32) (id : ℕ)
  | read8 (k : ℕ) (offset : Expr) (id : ℕ)
  | readAt (k : ℕ) (offset : BitVec 32) (width id : ℕ)
  | read (k : ℕ) (offset : Expr) (width id : ℕ)
  | write8Const (k : ℕ) (offset : BitVec 32) (value : BitVec 8)
  | write16 (k : ℕ) (offset : BitVec 32) (value : BitVec 16)
  | write32 (k : ℕ) (offset : BitVec 32) (value : BitVec 32)
  | write64 (k : ℕ) (offset : BitVec 32) (value : BitVec 64)
  | write8At (k : ℕ) (offset : BitVec 32) (value : Expr)
  | write8 (k : ℕ) (offset value : Expr)
  | writeAt (k : ℕ) (offset : BitVec 32) (value : Expr)
  | write (k : ℕ) (offset value : Expr)

/-- The expressions of an operation are well formed, and have the widths that its type of access has. -/
def Op.WF : Op → Prop
  | .read8 _ offset _ => offset.HasWidth 32
  | .read _ offset _ _ => offset.WF
  | .write8At _ _ value => value.HasWidth 8
  | .write8 _ offset value => offset.HasWidth 32 ∧ value.HasWidth 8
  | .writeAt _ _ value => value.WF
  | .write _ offset value => offset.WF ∧ value.WF
  | _ => True

/-- A program on the `k`-th object. -/
def onObject {α : Type} (objects : List ObjectState) (k : ℕ) (m : Prog ObjectState α) : Option (List ObjectState) :=
  match objects[k]? with
  | some os => (m.next os).map fun os' => objects.set k os'
  | none => none

section

variable [ExprOptions] (littleEndian : Bool)

/-- The objects after an operation, or nothing when it aborts. -/
def step (objects : List ObjectState) : Op → Option (List ObjectState)
  | .new useConstantArrays size id => some (objects ++ [ObjectState.new useConstantArrays size id])
  | .newSymbolic size array => some (objects ++ [ObjectState.newSymbolic size array])
  | .copy k => ((objects[k]?).bind ObjectState.copy).map fun os => objects ++ [os]
  | .setReadOnly k readOnly => onObject objects k (Prog.modify fun os => { os with readOnly := readOnly })
  | .initializeToZero k => onObject objects k (Prog.modify ObjectState.initializeToZero)
  | .initializeToRandom k => onObject objects k (Prog.modify ObjectState.initializeToRandom)
  | .flushToConcreteStore k getValue id => onObject objects k (ObjectState.flushToConcreteStore id getValue)
  | .read8At k offset id => onObject objects k (ObjectState.read8At id offset)
  | .read8 k offset id => onObject objects k (ObjectState.read8 id offset)
  | .readAt k offset width id => onObject objects k (ObjectState.readAt littleEndian id offset width)
  | .read k offset width id => onObject objects k (ObjectState.read littleEndian id offset width)
  | .write8Const k offset value => onObject objects k (ObjectState.write8Const offset value)
  | .write16 k offset value => onObject objects k (ObjectState.write16 littleEndian offset value)
  | .write32 k offset value => onObject objects k (ObjectState.write32 littleEndian offset value)
  | .write64 k offset value => onObject objects k (ObjectState.write64 littleEndian offset value)
  | .write8At k offset value => onObject objects k (ObjectState.write8At offset value)
  | .write8 k offset value => onObject objects k (ObjectState.write8 offset value)
  | .writeAt k offset value => onObject objects k (ObjectState.writeAt littleEndian offset value)
  | .write k offset value => onObject objects k (ObjectState.write littleEndian offset value)

/-- The objects after the operations, or nothing when one aborts. -/
def objectsAfter (ops : List Op) : Option (List ObjectState) := ops.foldlM (step littleEndian) []

end

/-- The same operation on plain arrays, under an assignment.  A read changes no array. -/
noncomputable def plainStep (littleEndian : Bool) (a : Assignment) (arrays : List PlainArray) : Op → List PlainArray
  | .new _ size _ => arrays ++ [List.replicate size (some 0)]
  | .newSymbolic size array => arrays ++ [initialBytes a size array]
  | .copy k => arrays ++ (arrays[k]?).toList
  | .initializeToZero k => arrays.modify k fun m => m.map fun _ => some 0
  | .initializeToRandom k => arrays.modify k fun m => m.map fun _ => some 0xAB
  | .write8Const k offset value => arrays.modify k fun m => m.setByte (some offset) (some value)
  | .write16 k offset value => arrays.modify k fun m => m.store littleEndian (some offset) (some value)
  | .write32 k offset value => arrays.modify k fun m => m.store littleEndian (some offset) (some value)
  | .write64 k offset value => arrays.modify k fun m => m.store littleEndian (some offset) (some value)
  | .write8At k offset value => arrays.modify k fun m => m.setByte (some offset) (valueAt a value 8)
  | .write8 k offset value => arrays.modify k fun m => m.setByte (valueAt a offset 32) (valueAt a value 8)
  | .writeAt k offset value =>
    arrays.modify k fun m => m.store littleEndian (some offset) (valueAt a value value.getWidth)
  | .write k offset value =>
    arrays.modify k fun m => m.store littleEndian (indexAt a offset) (valueAt a value value.getWidth)
  | _ => arrays

/-- The arrays after the operations. -/
noncomputable def arraysAfter (littleEndian : Bool) (a : Assignment) (ops : List Op) : List PlainArray :=
  ops.foldl (plainStep littleEndian a) []

/-- Every object represents its array. -/
structure Family (a : Assignment) (objects : List ObjectState) (arrays : List PlainArray) : Prop where
  length : objects.length = arrays.length
  represents : ∀ {k : ℕ} {os}, objects[k]? = some os → Consistent os ∧ ∃ m, arrays[k]? = some m ∧ Represents a os m

namespace Family

variable {a : Assignment} {objects objects' : List ObjectState} {arrays : List PlainArray}

theorem empty : Family a [] [] := ⟨rfl, fun h => nomatch h⟩

/-- A new object beside a new array. -/
theorem append (h : Family a objects arrays) {os : ObjectState} {m : PlainArray} (hos : Consistent os)
    (hm : Represents a os m) : Family a (objects ++ [os]) (arrays ++ [m]) := by
  refine ⟨by simp [h.length], fun {k os'} hk => ?_⟩
  by_cases hlt : k < objects.length
  · rw [List.getElem?_append_left hlt] at hk
    rw [List.getElem?_append_left (h.length ▸ hlt)]
    exact h.represents hk
  · rw [List.getElem?_append_right (by omega)] at hk
    rw [List.getElem?_append_right (by have := h.length; omega), ← h.length]
    cases hsub : k - objects.length with
    | zero =>
      rw [hsub] at hk
      obtain rfl : os = os' := Option.some.inj hk
      exact ⟨hos, m, rfl, hm⟩
    | succ n =>
      rw [hsub] at hk
      cases hk

/-- A program that changes its object's array by `f`. -/
theorem onObject {α : Type} {k : ℕ} {m : Prog ObjectState α} {f : Assignment → PlainArray → PlainArray}
    {E : ObjectState → ObjectState → Prop} (h : Family a objects arrays)
    (hm : ∀ {os}, Consistent os → Prog.wp m (fun _ t => Becomes f os t) (E os) os)
    (hstep : Memory.onObject objects k m = some objects') : Family a objects' (arrays.modify k (f a)) := by
  unfold Memory.onObject at hstep
  split at hstep
  · rename_i os hos
    obtain ⟨os', hnext, rfl⟩ := Option.map_eq_some_iff.1 hstep
    obtain ⟨hcons, array, harray, hrep⟩ := h.represents hos
    obtain ⟨_, hbec⟩ := (hm hcons).of_next hnext
    refine ⟨by simp [h.length], fun {j os''} hj => ?_⟩
    rw [List.getElem?_set] at hj
    rw [List.getElem?_modify]
    by_cases hkj : k = j
    · subst hkj
      rw [if_pos rfl] at hj
      split at hj
      · obtain rfl := Option.some.inj hj
        exact ⟨hbec.consistent, f a array, by simp [harray], hbec.represents hrep⟩
      · cases hj
    · rw [if_neg hkj] at hj
      obtain ⟨hc, m', hm', hr⟩ := h.represents hj
      exact ⟨hc, m', by simp [hm', hkj], hr⟩
  · cases hstep

/-- A program that changes no byte. -/
theorem onObject_moves {α : Type} {k : ℕ} {m : Prog ObjectState α} {E : ObjectState → ObjectState → Prop}
    (h : Family a objects arrays) (hm : ∀ {os}, Consistent os → Prog.wp m (fun _ t => Moves os t) (E os) os)
    (hstep : Memory.onObject objects k m = some objects') : Family a objects' arrays := by
  have hfamily := h.onObject hm hstep
  rwa [show (fun m : PlainArray => m) = id from rfl, List.modify_id] at hfamily

variable [ExprOptions] {littleEndian : Bool}

/-- An operation keeps that every object represents its array. -/
theorem step (h : Family a objects arrays) {op : Op} (hwf : op.WF)
    (hstep : Memory.step littleEndian objects op = some objects') :
    Family a objects' (plainStep littleEndian a arrays op) := by
  cases op with
  | new useConstantArrays size id =>
    obtain rfl := Option.some.inj hstep
    exact h.append (consistent_new _ _ _) (represents_new a _ _ _)
  | newSymbolic size array =>
    obtain rfl := Option.some.inj hstep
    obtain ⟨hcons, hrep⟩ := newSymbolic_represents size array
    exact h.append hcons (hrep a)
  | copy k =>
    obtain ⟨os', hcopy, rfl⟩ := Option.map_eq_some_iff.1 hstep
    obtain ⟨os, hk, hcopy⟩ := Option.bind_eq_some_iff.1 hcopy
    unfold ObjectState.copy at hcopy
    split at hcopy
    · cases hcopy
    · obtain rfl := Option.some.inj hcopy
      obtain ⟨hcons, m, hm, hrep⟩ := h.represents hk
      show Family a _ (arrays ++ (arrays[k]?).toList)
      rw [hm]
      exact h.append ⟨hcons.known_symbolic, hcons.unflushed, hcons.known_width, hcons.writes⟩
        ⟨hrep.length, hrep.concrete, hrep.known, hrep.flushed⟩
  | setReadOnly k readOnly =>
    refine h.onObject_moves (E := fun _ _ => False) (fun {os} hos => ?_) hstep
    exact ⟨⟨hos.known_symbolic, hos.unflushed, hos.known_width, hos.writes⟩, rfl,
      fun hr => ⟨hr.length, hr.concrete, hr.known, hr.flushed⟩⟩
  | initializeToZero k =>
    exact h.onObject (E := fun _ _ => False) (fun hos => (Prog.wp_modify _).2 (makeConcrete_becomes hos 0)) hstep
  | initializeToRandom k =>
    exact h.onObject (E := fun _ _ => False) (fun hos => (Prog.wp_modify _).2 (makeConcrete_becomes hos 0xAB)) hstep
  | flushToConcreteStore k getValue id => exact h.onObject_moves (fun hos => flushToConcreteStore_spec hos getValue) hstep
  | read8At k offset id =>
    exact h.onObject_moves (fun hos => (read8At_spec hos offset).mono (fun _ _ ht => ht.1) fun _ h => h) hstep
  | read8 k offset id =>
    exact h.onObject_moves (fun hos => (read8_spec hos hwf).mono (fun _ _ ht => ht.1) fun _ h => h) hstep
  | readAt k offset width id =>
    exact h.onObject_moves (fun hos => (readAt_spec hos offset width).mono (fun _ _ ht => ht.1) fun _ h => h) hstep
  | read k offset width id =>
    exact h.onObject_moves (fun hos => (read_spec hos hwf width).mono (fun _ _ ht => ht.1) fun _ h => h) hstep
  | write8Const k offset value =>
    exact h.onObject (fun hos => write8Const_spec hos offset value fun _ _ h => Option.some.inj h) hstep
  | write16 k offset value =>
    exact h.onObject (fun hos => writeConst_spec hos offset value rfl fun _ _ h => Option.some.inj h) hstep
  | write32 k offset value =>
    exact h.onObject (fun hos => writeConst_spec hos offset value rfl fun _ _ h => Option.some.inj h) hstep
  | write64 k offset value =>
    exact h.onObject (fun hos => writeConst_spec hos offset value rfl fun _ _ h => Option.some.inj h) hstep
  | write8At k offset value =>
    exact h.onObject (fun hos => write8At_spec hos offset hwf fun _ _ h => valueAt_eq_some.1 h) hstep
  | write8 k offset value =>
    exact h.onObject (fun hos => write8_spec hos hwf.1 hwf.2 (fun _ _ h => valueAt_eq_some.1 h)
      fun _ _ h => valueAt_eq_some.1 h) hstep
  | writeAt k offset value =>
    exact h.onObject (fun hos => writeAt_spec hos offset hwf fun _ _ h => valueAt_eq_some.1 h) hstep
  | write k offset value => exact h.onObject (fun hos => write_spec hos hwf.1 hwf.2) hstep

/-- The operations, from the first to the last. -/
theorem foldlM (ops : List Op) : ∀ {objects : List ObjectState} {arrays : List PlainArray}, Family a objects arrays →
    (∀ op ∈ ops, op.WF) → ops.foldlM (Memory.step littleEndian) objects = some objects' →
    Family a objects' (ops.foldl (plainStep littleEndian a) arrays) := by
  induction ops with
  | nil =>
    intro objects arrays h _ hrun
    obtain rfl : objects = objects' := Option.some.inj hrun
    exact h
  | cons op ops ih =>
    intro objects arrays h hwf hrun
    rw [List.foldlM_cons, Option.bind_eq_bind, Option.bind_eq_some_iff] at hrun
    obtain ⟨objects₁, hstep, hrest⟩ := hrun
    exact ih (h.step (hwf op List.mem_cons_self) hstep) (fun op hop => hwf op (List.mem_cons_of_mem _ hop)) hrest

end Family

section

variable [ExprOptions] {littleEndian : Bool}

/-- The expression is what the word at an index of the `k`-th array evaluates to, where that is known. -/
def ReadsPlain (littleEndian : Bool) (ops : List Op) (k : ℕ) (index : Assignment → Option (BitVec 32)) (width : ℕ)
    (e : Expr) : Prop :=
  e.HasWidth width ∧ ∀ a m v, (arraysAfter littleEndian a ops)[k]? = some m → m.load littleEndian (index a) width = some v →
    e.Denotes a v

/-- **An object refines a byte array.**  After any operations on a family of objects, a read of any of them, of any
width and at any constant or symbolic offset, returns an expression that evaluates, under every assignment, to the
word that the same operations leave in a plain array; and a read that is allowed does return. -/
theorem objectState_refines {ops : List Op} (hwf : ∀ op ∈ ops, op.WF) {objects : List ObjectState}
    (hrun : objectsAfter littleEndian ops = some objects) {k : ℕ} {os : ObjectState} (hk : objects[k]? = some os)
    (id : ℕ) :
    (∀ offset width, offset.WF →
      Prog.wp (read littleEndian id offset width)
        (fun e _ => ReadsPlain littleEndian ops k (fun a => indexAt a offset) width e)
        (fun _ => ¬ Allowed littleEndian os offset width) os) ∧
    (∀ offset width,
      Prog.wp (readAt littleEndian id offset width)
        (fun e _ => ReadsPlain littleEndian ops k (fun _ => some offset) width e)
        (fun _ => ¬ (WidthAllowed width ∧
          ∀ i < numBytes width, (byteIndex littleEndian (numBytes width) offset i).toNat < os.size)) os) ∧
    (∀ offset,
      Prog.wp (read8At id offset) (fun e _ => ReadsPlain littleEndian ops k (fun _ => some offset) 8 e)
        (fun _ => ¬ offset.toNat < os.size) os) ∧
    (∀ offset, offset.HasWidth 32 →
      Prog.wp (read8 id offset) (fun e _ => ReadsPlain littleEndian ops k (fun a => valueAt a offset 32) 8 e)
        (fun _ => offset.isConstant = true) os) := by
  have hfamily : ∀ a, Family a objects (arraysAfter littleEndian a ops) :=
    fun a => Family.empty.foldlM ops hwf hrun
  have hcons : Consistent os := ((hfamily fun _ _ => 0).represents hk).1
  have hword : ∀ {index width e}, ReadsWord littleEndian os index width e →
      ReadsPlain littleEndian ops k index width e := by
    intro index width e h
    refine ⟨h.1, fun a m v hm hload => ?_⟩
    obtain ⟨-, m', hm', hrep⟩ := (hfamily a).represents hk
    rw [hm] at hm'
    obtain rfl := Option.some.inj hm'
    exact h.2 a m v hrep hload
  -- a byte is a word of eight bits
  have hbyte : ∀ {index : Assignment → Option (BitVec 32)} {J : Assignment → BitVec 32 → Prop} {e},
      (∀ a o, index a = some o → J a o) → ReadsByte os J e → ReadsPlain littleEndian ops k index 8 e := by
    intro index J e hJ h
    refine hword ⟨h.1, fun a m v hr hload => ?_⟩
    obtain ⟨o, ho, hbytes⟩ := load_bytes (show 8 = 1 * 8 from rfl) hload
    have hb := hbytes 0 (by decide)
    rw [byteIndex_one] at hb
    have hd := h.2 a m o _ hr (hJ a o ho) hb
    simpa using hd
  refine ⟨fun offset width hoff => ?_, fun offset width => ?_, fun offset => ?_, fun offset hoff => ?_⟩
  · exact (read_spec hcons hoff width).mono (fun e t ht => hword ht.2) fun _ h => h
  · exact (readAt_spec hcons offset width).mono (fun e t ht => hword ht.2) fun _ h => h
  · exact (read8At_spec hcons offset).mono (fun e t ht => hbyte (fun _ _ h => (Option.some.inj h).symm) ht.2) fun _ h => h
  · exact (read8_spec hcons hoff).mono (fun e t ht => hbyte (fun _ _ h => valueAt_eq_some.1 h) ht.2) fun _ h => h

end

/-- `x[0]` as an offset. -/
def byteAsOffset : Expr := .zext (.read (.root ⟨0, "x", 1, [], Array.oneByte_lt, Array.oneByte_values⟩) (.const 0#32)) 32

/-- A new object of two bytes, a byte of it, and a byte at a symbolic offset. -/
def mixedOps : List Op :=
  [.new true ⟨2, by decide⟩ 0, .write8Const 0 1#32 7#8, .write8 0 byteAsOffset (.const 3#8)]

/-- A byte that is read through the update list, after a write at a symbolic offset has moved it there. -/
theorem objectState_refines_mixed :
    let _ : ExprOptions := ⟨false, true⟩
    ∃ objects os e t, objectsAfter true mixedOps = some objects ∧ objects[0]? = some os ∧
      read8At 1 1#32 os = (some e, t) ∧ ReadsPlain true mixedOps 0 (fun _ => some 1#32) 8 e := by
  intro _
  have hwf : ∀ op ∈ mixedOps, op.WF := by
    intro op hop
    simp only [mixedOps, List.mem_cons, List.not_mem_nil, or_false] at hop
    obtain rfl | rfl | rfl := hop
    · exact trivial
    · exact trivial
    · exact ⟨by decide, hasWidth_const _⟩
  have hobjects : ∃ os, objectsAfter true mixedOps = some [os] ∧ ∃ e t, read8At 1 1#32 os = (some e, t) :=
    ⟨_, rfl, _, _, rfl⟩
  obtain ⟨os, hrun, e, t, hres⟩ := hobjects
  exact ⟨[os], os, e, t, hrun, rfl, hres, ((objectState_refines hwf hrun (k := 0) rfl 1).2.2.1 1#32).of_eq hres⟩

end SymBisect.Memory
