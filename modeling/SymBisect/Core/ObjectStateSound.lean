import SymBisect.Core.ObjectState

/-!
# An object refines a byte array

The bytes of an object under an assignment are those of a plain array on which the same operations were made.

* `Consistent`: the cache invariants of `lib/Core/Memory.cpp`.
* `Represents a os m`: wherever a byte is kept, it evaluates under `a` to the byte of the array `m`.
* `read_spec`, `write_spec` and the like: one lemma for each operation.  An operation that aborts was not
  allowed.
* `objectState_refines`: what is read after any operations on a family of objects, copies among them.
-/

namespace SymBisect.Memory

open Lib Expr PlainArray

/-! ### Masks -/

namespace ObjectState

variable (os : ObjectState) (i j : ℕ)

@[simp] theorem isByteConcrete_markByteConcrete :
    (os.markByteConcrete i).isByteConcrete j = if j = i then true else os.isByteConcrete j := by
  unfold isByteConcrete markByteConcrete
  cases os.concreteMask with
  | none => simp
  | some mask => simp [Function.update_apply]

@[simp] theorem isByteConcrete_markByteSymbolic :
    (os.markByteSymbolic i).isByteConcrete j = if j = i then false else os.isByteConcrete j := by
  unfold isByteConcrete markByteSymbolic
  cases os.concreteMask with
  | none => simp [Function.update_apply]
  | some mask => simp [Function.update_apply]

@[simp] theorem isByteFlushed_markByteUnflushed :
    (os.markByteUnflushed i).isByteFlushed j = if j = i then false else os.isByteFlushed j := by
  unfold isByteFlushed markByteUnflushed
  cases os.flushMask with
  | none => simp
  | some mask =>
    simp only [Option.map_some, Function.update_apply]
    split <;> rfl

theorem isByteFlushed_unsetFlushMask (h : os.flushMask.isSome = true) :
    (os.unsetFlushMask i).isByteFlushed j = if j = i then true else os.isByteFlushed j := by
  unfold isByteFlushed unsetFlushMask
  cases hmask : os.flushMask with
  | none => simp [hmask] at h
  | some mask =>
    simp only [Option.map_some, Function.update_apply]
    split <;> rfl

@[simp] theorem isByteFlushed_makeFlushMask : os.makeFlushMask.isByteFlushed j = os.isByteFlushed j := by
  unfold isByteFlushed makeFlushMask
  cases os.flushMask with
  | none => rfl
  | some mask => rfl

@[simp] theorem knownSymbolic_setKnownSymbolic (value : Option Expr) :
    (os.setKnownSymbolic i value).knownSymbolic j = if j = i then value else os.knownSymbolic j := by
  unfold knownSymbolic setKnownSymbolic
  cases os.knownSymbolics with
  | none =>
    cases value with
    | none => simp
    | some value => simp [Function.update_apply]
  | some known => simp [Function.update_apply]

@[simp] theorem isByteFlushed_markByteConcrete : (os.markByteConcrete i).isByteFlushed j = os.isByteFlushed j := rfl
@[simp] theorem isByteFlushed_markByteSymbolic : (os.markByteSymbolic i).isByteFlushed j = os.isByteFlushed j := rfl
@[simp] theorem isByteConcrete_markByteUnflushed :
    (os.markByteUnflushed i).isByteConcrete j = os.isByteConcrete j := rfl
@[simp] theorem isByteConcrete_unsetFlushMask : (os.unsetFlushMask i).isByteConcrete j = os.isByteConcrete j := rfl
@[simp] theorem isByteConcrete_setKnownSymbolic (value : Option Expr) :
    (os.setKnownSymbolic i value).isByteConcrete j = os.isByteConcrete j := rfl
@[simp] theorem isByteFlushed_setKnownSymbolic (value : Option Expr) :
    (os.setKnownSymbolic i value).isByteFlushed j = os.isByteFlushed j := rfl
@[simp] theorem knownSymbolic_markByteConcrete : (os.markByteConcrete i).knownSymbolic j = os.knownSymbolic j := rfl
@[simp] theorem knownSymbolic_markByteSymbolic : (os.markByteSymbolic i).knownSymbolic j = os.knownSymbolic j := rfl
@[simp] theorem knownSymbolic_markByteUnflushed : (os.markByteUnflushed i).knownSymbolic j = os.knownSymbolic j := rfl
@[simp] theorem knownSymbolic_unsetFlushMask : (os.unsetFlushMask i).knownSymbolic j = os.knownSymbolic j := rfl

end ObjectState

/-! ### The value of a list of writes -/

/-- Over a base, the list of writes holds the byte `v` at `i`. -/
def HoldsAt (a : Assignment) (base : ℕ → BitVec 8 → Prop) : List (Expr × Expr) → ℕ → BitVec 8 → Prop
  | [], i, v => base i v
  | (index, value) :: head, i, v =>
    index.Defined a ∧ if (index.eval a 32).toNat = i then value.Denotes a v else HoldsAt a base head i v

/-- What is below the writes: zeros where the array was not made yet. -/
def Updates.Base (a : Assignment) (root : Option Array) (i : ℕ) (v : BitVec 8) : Prop :=
  match root with
  | none => v = 0
  | some arr => (arr.isConstantArray = true → i < arr.size) ∧ arr.initialValue a i = v

/-- The updates hold the byte `v` at `i`. -/
def Updates.HoldsAt (a : Assignment) (updates : Updates) (i : ℕ) (v : BitVec 8) : Prop :=
  Memory.HoldsAt a (Updates.Base a updates.root) updates.head i v

section HoldsAt

variable {a : Assignment} {base base' : ℕ → BitVec 8 → Prop} {i : ℕ} {v : BitVec 8}

theorem HoldsAt.mono (h : base i v → base' i v) : ∀ {head : List (Expr × Expr)},
    HoldsAt a base head i v → HoldsAt a base' head i v := by
  intro head
  induction head with
  | nil => exact h
  | cons write head ih =>
    intro hh
    refine ⟨hh.1, ?_⟩
    by_cases hi : (write.1.eval a 32).toNat = i
    · rw [if_pos hi]
      simpa only [if_pos hi] using hh.2
    · rw [if_neg hi]
      exact ih (by simpa only [if_neg hi] using hh.2)

theorem holdsAt_append (newer older : List (Expr × Expr)) :
    HoldsAt a base (newer ++ older) = HoldsAt a (HoldsAt a base older) newer := by
  induction newer with
  | nil => rfl
  | cons write newer ih =>
    funext i v
    rw [List.cons_append, HoldsAt, HoldsAt, ih]

/-- The update list over an array has the values of its writes. -/
theorem over_holdsAt {arr : Array} : ∀ {head : List (Expr × Expr)}, HoldsAt a (Updates.Base a (some arr)) head i v →
    (Updates.over arr head).DefinedAt a i ∧ (Updates.over arr head).evalAt a i = v := by
  intro head
  induction head with
  | nil => exact id
  | cons write head ih =>
    intro h
    by_cases hi : (write.1.eval a 32).toNat = i
    · have hv : write.2.Denotes a v := by simpa only [if_pos hi] using h.2
      refine ⟨⟨h.1, ?_⟩, ?_⟩
      · rw [if_pos hi]
        exact hv.defined
      · show UpdateList.evalAt a (.extend (Updates.over arr head) write.1 write.2) i = v
        rw [UpdateList.evalAt, if_pos hi]
        exact hv.value
    · obtain ⟨hd, he⟩ := ih (by simpa only [if_neg hi] using h.2)
      refine ⟨⟨h.1, ?_⟩, ?_⟩
      · rw [if_neg hi]
        exact hd
      · show UpdateList.evalAt a (.extend (Updates.over arr head) write.1 write.2) i = v
        rw [UpdateList.evalAt, if_neg hi]
        exact he

theorem over_wf {arr : Array} : ∀ {head : List (Expr × Expr)},
    (∀ write ∈ head, write.1.HasWidth 32 ∧ write.2.HasWidth 8) → (Updates.over arr head).WF := by
  intro head
  induction head with
  | nil => exact fun _ => trivial
  | cons write head ih =>
    intro h
    obtain ⟨hi, hv⟩ := h write List.mem_cons_self
    exact ⟨ih fun w hw => h w (List.mem_cons_of_mem _ hw), hi.wf, hi.width, hv.wf, hv.width⟩

theorem ObjectState.pullConstants_subset (writes : List (Expr × Expr)) (contents : List (BitVec 8)) :
    (ObjectState.pullConstants writes contents).2 ⊆ writes := by
  fun_induction ObjectState.pullConstants writes contents with
  | case1 k c w x writes contents ih => exact fun write h => List.mem_cons_of_mem _ (ih h)
  | case2 writes contents _ => exact fun write h => h

/-- Putting constant writes into the contents changes no value. -/
theorem pullConstants_holdsAt : ∀ (writes : List (Expr × Expr)) (contents : List (BitVec 8)), i < contents.length →
    (∀ write ∈ writes, write.1.HasWidth 32) →
    HoldsAt a (fun i v => contents[i]? = some v) writes.reverse i v →
    HoldsAt a (fun i v => (ObjectState.pullConstants writes contents).1[i]? = some v)
      (ObjectState.pullConstants writes contents).2.reverse i v := by
  intro writes contents
  fun_induction ObjectState.pullConstants writes contents with
  | case1 k c w x writes contents ih =>
    intro hi hw h
    obtain rfl : k = 32 := (hw _ List.mem_cons_self).const_width
    rw [List.reverse_cons, holdsAt_append] at h
    refine ih (by simpa using hi) (fun write hwrite => hw write (List.mem_cons_of_mem _ hwrite)) (h.mono ?_)
    intro h1
    have hc : ((Expr.const c).eval a 32).toNat = c.toNat := by rw [Expr.eval, BitVec.setWidth_eq]
    have h2 := h1.2
    rw [hc] at h2
    rw [List.getElem?_set]
    by_cases hci : c.toNat = i
    · rw [if_pos hci] at h2
      rw [if_pos hci, if_pos (by omega)]
      exact congrArg some h2.value
    · rw [if_neg hci] at h2
      rw [if_neg hci]
      exact h2
  | case2 writes contents _ =>
    intro _ _ h
    exact h

end HoldsAt

/-! ### The invariant -/

/-- The cache invariants, and the widths of what is stored. -/
structure Consistent (os : ObjectState) : Prop where
  known_symbolic : ∀ {i e}, os.knownSymbolic i = some e → os.isByteConcrete i = false
  unflushed : ∀ {i}, i < os.size → os.isByteFlushed i = false →
    os.isByteConcrete i = true ∨ (os.knownSymbolic i).isSome = true
  known_width : ∀ {i e}, os.knownSymbolic i = some e → e.HasWidth 8
  writes : ∀ write ∈ os.updates.head, write.1.HasWidth 32 ∧ write.2.HasWidth 8

/-- Every place where a byte of the array is kept evaluates to it. -/
structure Represents (a : Assignment) (os : ObjectState) (m : PlainArray) : Prop where
  length : m.length = os.size
  concrete : ∀ {i v}, m[i]? = some (some v) → os.isByteConcrete i = true → os.concreteStore i = v
  known : ∀ {i v e}, m[i]? = some (some v) → os.knownSymbolic i = some e → e.Denotes a v
  flushed : ∀ {i v}, m[i]? = some (some v) → os.isByteFlushed i = true → os.updates.HoldsAt a i v

theorem Represents.lt_size {a : Assignment} {os : ObjectState} {m : PlainArray} (h : Represents a os m) {i : ℕ}
    {b : Option (BitVec 8)} (hi : m[i]? = some b) : i < os.size := by
  rw [← h.length]
  exact (List.getElem?_eq_some_iff.1 hi).1

/-- An object represents any array of which less is known. -/
theorem Represents.below {a : Assignment} {os : ObjectState} {m m' : PlainArray} (h : Represents a os m')
    (hm : m.Below m') : Represents a os m where
  length := hm.1.trans h.length
  concrete := fun hi hc => h.concrete (hm.2 _ _ hi) hc
  known := fun hi hk => h.known (hm.2 _ _ hi) hk
  flushed := fun hi hf => h.flushed (hm.2 _ _ hi) hf

/-- From `os` to `os'` the array changes by `f`. -/
structure Becomes (f : Assignment → PlainArray → PlainArray) (os os' : ObjectState) : Prop where
  consistent : Consistent os'
  size : os'.size = os.size
  represents : ∀ {a m}, Represents a os m → Represents a os' (f a m)

/-- From `os` to `os'` no byte changes. -/
abbrev Moves (os os' : ObjectState) : Prop := Becomes (fun _ m => m) os os'

theorem Moves.refl {os : ObjectState} (h : Consistent os) : Moves os os := ⟨h, rfl, id⟩

theorem Becomes.trans {f g : Assignment → PlainArray → PlainArray} {os os' os'' : ObjectState} (h : Becomes f os os')
    (h' : Becomes g os' os'') : Becomes (fun a m => g a (f a m)) os os'' :=
  ⟨h'.consistent, h'.size.trans h.size, fun hr => h'.represents (h.represents hr)⟩

/-- The value of an expression, where it evaluates. -/
noncomputable def valueAt (a : Assignment) (e : Expr) (w : ℕ) : Option (BitVec w) :=
  open Classical in if e.Defined a then some (e.eval a w) else none

theorem valueAt_eq_some {a : Assignment} {e : Expr} {w : ℕ} {v : BitVec w} :
    valueAt a e w = some v ↔ e.Denotes a v := by
  unfold valueAt
  split
  · rename_i hd
    rw [Option.some.injEq]
    exact ⟨fun h => ⟨hd, h⟩, fun h => h.value⟩
  · rename_i hd
    exact ⟨fun h => (nomatch h), fun h => absurd h.defined hd⟩

/-! ### Flushing -/

namespace ObjectState

variable {os : ObjectState}

/-- The constant array has the contents that were pulled into it. -/
theorem constArray_base (a : Assignment) (id : ℕ) {i : ℕ} {v : BitVec 8} (hi : i < os.size)
    (h : (pullConstants os.updates.head.reverse (List.replicate os.size 0)).1[i]? = some v) :
    Updates.Base a (some (os.constArray id)) i v := by
  refine ⟨fun _ => hi, ?_⟩
  rw [Array.initialValue]
  simp only [constArray, h]

/-- `getUpdates` returns the writes over an array, and moves no byte. -/
theorem getUpdates_spec (id : ℕ) (hos : Consistent os) :
    Prog.wp (getUpdates id)
      (fun ul t => Moves os t ∧ ul.WF ∧
        ∀ a i v, i < os.size → os.updates.HoldsAt a i v → ul.DefinedAt a i ∧ ul.evalAt a i = v)
      (fun _ => False) os := by
  unfold getUpdates
  rw [Prog.wp_bind, Prog.wp_get]
  cases hroot : os.updates.root with
  | some root =>
    refine ⟨.refl hos, over_wf hos.writes, fun a i v _ h => over_holdsAt ?_⟩
    unfold Updates.HoldsAt at h
    rwa [hroot] at h
  | none =>
    have hwrites : ∀ write ∈ (pullConstants os.updates.head.reverse (List.replicate os.size 0)).2,
        write ∈ os.updates.head := fun write h => List.mem_reverse.1 (pullConstants_subset _ _ h)
    have hpull : ∀ a i v, i < os.size → os.updates.HoldsAt a i v →
        HoldsAt a (Updates.Base a (some (os.constArray id)))
          (pullConstants os.updates.head.reverse (List.replicate os.size 0)).2.reverse i v := by
      intro a i v hi h
      unfold Updates.HoldsAt at h
      rw [hroot, ← List.reverse_reverse os.updates.head] at h
      have hzero : Updates.Base a none i v → (List.replicate os.size (0 : BitVec 8))[i]? = some v := by
        intro hv
        rw [List.getElem?_replicate, if_pos hi]
        exact congrArg some (Eq.symm hv)
      have hp := pullConstants_holdsAt os.updates.head.reverse (List.replicate os.size 0) (by simpa using hi)
        (fun write hw => (hos.writes write (List.mem_reverse.1 hw)).1) (h.mono hzero)
      exact hp.mono fun hv => constArray_base a id hi hv
    refine ⟨⟨⟨hos.known_symbolic, hos.unflushed, hos.known_width, ?_⟩, rfl, fun {a m} hr => ?_⟩, ?_, ?_⟩
    · exact fun write hw => hos.writes write (hwrites write (List.mem_reverse.1 hw))
    · refine ⟨hr.length, hr.concrete, hr.known, fun {i v} hi hf => ?_⟩
      exact hpull a i v (hr.lt_size hi) (hr.flushed hi hf)
    · exact over_wf fun write hw => hos.writes write (hwrites write (List.mem_reverse.1 hw))
    · exact fun a i v hi h => over_holdsAt (hpull a i v hi h)

/-- What a flush keeps: the bytes, and that the mask is there. -/
structure Flushes (os os' : ObjectState) : Prop extends Becomes (fun _ m => m) os os' where
  mask : os'.flushMask.isSome = true

/-- The byte is in the update list only. -/
def Cleared (i : ℕ) (os : ObjectState) : Prop :=
  os.isByteFlushed i = true ∧ os.isByteConcrete i = false ∧ os.knownSymbolic i = none

/-- The object after `extend`. -/
def extended (os : ObjectState) (index value : Expr) : ObjectState :=
  { os with updates := ⟨os.updates.root, (index, value) :: os.updates.head⟩ }

theorem extend_spec {index value : Expr} {Q : PUnit → ObjectState → Prop} {E : ObjectState → Prop}
    (hi : index.HasWidth 32) (hv : value.HasWidth 8) (h : Q ⟨⟩ (os.extended index value)) :
    Prog.wp (extend index value) Q E os := by
  unfold extend
  simp only [Prog.wp_bind, Prog.wp_get, Prog.wp_assert, Prog.wp_modify]
  exact ⟨fun _ => h, fun hn => absurd (fun _ => ⟨hi.width, hv.width⟩) hn⟩

theorem indexExpr_eval (a : Assignment) {i : ℕ} (hi : i < os.size) : ((indexExpr i).eval a 32).toNat = i := by
  rw [indexExpr, Expr.eval, BitVec.setWidth_eq, BitVec.toNat_ofNat, Nat.mod_eq_of_lt (hi.trans os.size_lt)]

/-- A byte that is not flushed moves to the update list as well. -/
theorem flushed_extended (hos : Consistent os) (hmask : os.flushMask.isSome = true) {i : ℕ} (hi : i < os.size)
    {value : Expr} (hv : value.HasWidth 8)
    (hval : ∀ a m v, Represents a os m → m[i]? = some (some v) → value.Denotes a v) :
    Flushes os ((os.extended (indexExpr i) value).unsetFlushMask i) := by
  have hf : ∀ j, ((os.extended (indexExpr i) value).unsetFlushMask i).isByteFlushed j =
      if j = i then true else os.isByteFlushed j := fun j => isByteFlushed_unsetFlushMask (os.extended _ _) i j hmask
  refine ⟨⟨⟨hos.known_symbolic, fun {j} hj hfj => ?_, hos.known_width, fun write hw => ?_⟩, rfl, fun {a m} hr => ?_⟩, ?_⟩
  · rw [hf] at hfj
    split at hfj
    · cases hfj
    · exact hos.unflushed hj hfj
  · obtain rfl | hw := List.mem_cons.1 hw
    · exact ⟨hasWidth_const _, hv⟩
    · exact hos.writes write hw
  · refine ⟨hr.length, hr.concrete, hr.known, fun {j v} hj hfj => ⟨trivial, ?_⟩⟩
    rw [indexExpr_eval a hi]
    rw [hf] at hfj
    by_cases hij : i = j
    · rw [if_pos hij]
      exact hval a m v hr (hij ▸ hj)
    · rw [if_neg hij]
      rw [if_neg (Ne.symm hij)] at hfj
      exact hr.flushed hj hfj
  · show (os.flushMask.map _).isSome = true
    rw [Option.isSome_map]
    exact hmask

theorem isByteFlushed_flushed_extended (hmask : os.flushMask.isSome = true) (i j : ℕ) (value : Expr) :
    ((os.extended (indexExpr i) value).unsetFlushMask i).isByteFlushed j =
      if j = i then true else os.isByteFlushed j :=
  isByteFlushed_unsetFlushMask (os.extended _ _) i j hmask

theorem flushByteForRead_spec {start : ObjectState} {i : ℕ} (hi : i < start.size) (hos : Flushes start os) :
    Prog.wp (flushByteForRead i)
      (fun _ t => Flushes start t ∧ t.isByteFlushed i = true ∧
        ∀ j, os.isByteFlushed j = true → t.isByteFlushed j = true) (fun _ => False) os := by
  have hsize : i < os.size := hos.size ▸ hi
  unfold flushByteForRead
  rw [Prog.wp_bind, Prog.wp_get, Prog.wp_ite]
  refine ⟨fun hf => ⟨hos, hf, fun j h => h⟩, fun hf => ?_⟩
  rw [Bool.not_eq_true] at hf
  -- the value that is written is the one that the byte has
  have hdone : ∀ value : Expr, value.HasWidth 8 →
      (∀ a m v, Represents a os m → m[i]? = some (some v) → value.Denotes a v) →
      Flushes start ((os.extended (indexExpr i) value).unsetFlushMask i) ∧
        ((os.extended (indexExpr i) value).unsetFlushMask i).isByteFlushed i = true ∧
        ∀ j, os.isByteFlushed j = true → ((os.extended (indexExpr i) value).unsetFlushMask i).isByteFlushed j = true := by
    intro value hv hval
    have hfl := flushed_extended hos.consistent hos.mask hsize hv hval
    refine ⟨⟨hos.trans hfl.toBecomes, hfl.mask⟩, ?_, fun j hj => ?_⟩
    · rw [isByteFlushed_flushed_extended hos.mask, if_pos rfl]
    · rw [isByteFlushed_flushed_extended hos.mask, hj, ite_self]
  rw [Prog.wp_bind, Prog.wp_ite]
  refine ⟨fun hc => ?_, fun hc => ?_⟩
  · refine extend_spec (hasWidth_const _) (hasWidth_const _) (hdone _ (hasWidth_const _) fun a m v hr hm => ?_)
    rw [hr.concrete hm hc]
    exact denotes_const v
  · obtain hc' | hk := hos.consistent.unflushed hsize hf
    · exact absurd hc' hc
    · obtain ⟨value, hvalue⟩ := Option.isSome_iff_exists.1 hk
      rw [hvalue]
      have hv := hos.consistent.known_width hvalue
      exact extend_spec (hasWidth_const _) hv (hdone value hv fun a m v hr hm => hr.known hm hvalue)

theorem makeFlushMask_moves (hos : Consistent os) : Flushes os os.makeFlushMask := by
  refine ⟨⟨⟨hos.known_symbolic, fun {j} hj hf => ?_, hos.known_width, hos.writes⟩, rfl, fun {a m} hr => ?_⟩, rfl⟩
  · rw [isByteFlushed_makeFlushMask] at hf
    exact hos.unflushed hj hf
  · refine ⟨hr.length, hr.concrete, hr.known, fun {j v} hj hf => ?_⟩
    rw [isByteFlushed_makeFlushMask] at hf
    exact hr.flushed hj hf

/-- After the flush for a read all bytes are flushed, and none has changed. -/
theorem flushRangeForRead_spec (hos : Consistent os) :
    Prog.wp (flushRangeForRead 0 os.size) (fun _ t => Moves os t ∧ ∀ i < os.size, t.isByteFlushed i = true)
      (fun _ => False) os := by
  unfold flushRangeForRead
  rw [Prog.wp_bind, Prog.wp_modify]
  have hloop := Prog.wp.each (I := Flushes os) (P := fun i t => t.isByteFlushed i = true) (f := flushByteForRead)
    (E := fun _ => False) (s := os.makeFlushMask) (List.range' 0 os.size)
    (fun i hi t ht => flushByteForRead_spec (by simpa using List.mem_range'_1.1 hi) ht) (makeFlushMask_moves hos)
  refine hloop.mono (fun _ t ht => ⟨ht.1.toBecomes, fun i hi => ht.2.1 i ?_⟩) fun _ h => h
  exact List.mem_range'_1.2 ⟨Nat.zero_le i, by omega⟩

/-- A flushed byte can be dropped from the concrete store. -/
theorem markByteSymbolic_moves (hos : Consistent os) {i : ℕ} (hf : os.isByteFlushed i = true) :
    Moves os (os.markByteSymbolic i) := by
  refine ⟨⟨fun {j e} hk => ?_, fun {j} hj hfj => ?_, hos.known_width, hos.writes⟩, rfl, fun {a m} hr => ?_⟩
  · rw [isByteConcrete_markByteSymbolic, hos.known_symbolic hk, ite_self]
  · obtain hc | hk := hos.unflushed hj hfj
    · left
      rw [isByteConcrete_markByteSymbolic, if_neg, hc]
      intro hji
      rw [isByteFlushed_markByteSymbolic, hji, hf] at hfj
      cases hfj
    · exact .inr hk
  · refine ⟨hr.length, fun {j v} hj hc => hr.concrete hj ?_, hr.known, hr.flushed⟩
    rw [isByteConcrete_markByteSymbolic] at hc
    split at hc
    · cases hc
    · exact hc

/-- A flushed byte can be dropped from the cache. -/
theorem setKnownSymbolic_none_moves (hos : Consistent os) {i : ℕ} (hf : os.isByteFlushed i = true) :
    Moves os (os.setKnownSymbolic i none) := by
  have hknown : ∀ {j e}, (os.setKnownSymbolic i none).knownSymbolic j = some e → os.knownSymbolic j = some e := by
    intro j e hk
    rw [knownSymbolic_setKnownSymbolic] at hk
    split at hk
    · cases hk
    · exact hk
  refine ⟨⟨fun hk => hos.known_symbolic (hknown hk), fun {j} hj hfj => ?_, fun hk => hos.known_width (hknown hk),
    hos.writes⟩, rfl, fun {a m} hr => ⟨hr.length, hr.concrete, fun hj hk => hr.known hj (hknown hk), hr.flushed⟩⟩
  obtain hc | hk := hos.unflushed hj hfj
  · exact .inl hc
  · right
    rw [knownSymbolic_setKnownSymbolic, if_neg]
    · exact hk
    · intro hji
      rw [isByteFlushed_setKnownSymbolic, hji, hf] at hfj
      cases hfj

/-- Dropping a byte leaves the others as they are. -/
theorem cleared_markByteSymbolic {i j : ℕ} (h : Cleared j os) : Cleared j (os.markByteSymbolic i) :=
  ⟨h.1, by rw [isByteConcrete_markByteSymbolic, h.2.1, ite_self], h.2.2⟩

theorem cleared_setKnownSymbolic_none {i j : ℕ} (h : Cleared j os) : Cleared j (os.setKnownSymbolic i none) :=
  ⟨h.1, h.2.1, by rw [knownSymbolic_setKnownSymbolic, h.2.2, ite_self]⟩

/-- A flushed byte that is in the concrete store is cleared by `markByteSymbolic`. -/
theorem markByteSymbolic_clears (hos : Consistent os) {i : ℕ} (hf : os.isByteFlushed i = true)
    (hc : os.isByteConcrete i = true) : Cleared i (os.markByteSymbolic i) := by
  refine ⟨hf, by rw [isByteConcrete_markByteSymbolic, if_pos rfl], ?_⟩
  cases hk : os.knownSymbolic i with
  | none => exact hk
  | some e => exact absurd hc (by rw [hos.known_symbolic hk]; decide)

/-- A flushed byte that is not in the concrete store is cleared by `setKnownSymbolic`. -/
theorem setKnownSymbolic_clears {i : ℕ} (hf : os.isByteFlushed i = true) (hc : os.isByteConcrete i = false) :
    Cleared i (os.setKnownSymbolic i none) :=
  ⟨hf, hc, by rw [knownSymbolic_setKnownSymbolic, if_pos rfl]⟩

theorem flushByteForWrite_spec {start : ObjectState} {i : ℕ} (hi : i < start.size) (hos : Flushes start os) :
    Prog.wp (flushByteForWrite i)
      (fun _ t => Flushes start t ∧ Cleared i t ∧ ∀ j, Cleared j os → Cleared j t) (fun _ => False) os := by
  have hsize : i < os.size := hos.size ▸ hi
  unfold flushByteForWrite
  rw [Prog.wp_bind, Prog.wp_get, Prog.wp_ite]
  refine ⟨fun hf => ?_, fun hf => ?_⟩
  · rw [Prog.wp_ite]
    refine ⟨fun hc => ?_, fun hc => ?_⟩
    · exact ⟨⟨hos.trans (markByteSymbolic_moves hos.consistent hf), hos.mask⟩,
        markByteSymbolic_clears hos.consistent hf hc, fun j h => cleared_markByteSymbolic h⟩
    · rw [Bool.not_eq_true] at hc
      rw [Prog.wp_when]
      refine ⟨fun _ => ?_, fun hk => ⟨hos, ⟨hf, hc, ?_⟩, fun j h => h⟩⟩
      · exact ⟨⟨hos.trans (setKnownSymbolic_none_moves hos.consistent hf), hos.mask⟩, setKnownSymbolic_clears hf hc,
          fun j h => cleared_setKnownSymbolic_none h⟩
      · rwa [isByteKnownSymbolic, Option.not_isSome_iff_eq_none] at hk
  · rw [Bool.not_eq_true] at hf
    -- the byte is flushed first, and dropped from where it was then
    have hflush : ∀ value : Expr, value.HasWidth 8 →
        (∀ a m v, Represents a os m → m[i]? = some (some v) → value.Denotes a v) →
        Flushes start ((os.extended (indexExpr i) value).unsetFlushMask i) ∧
          ((os.extended (indexExpr i) value).unsetFlushMask i).isByteFlushed i = true ∧
          ∀ j, Cleared j os → Cleared j ((os.extended (indexExpr i) value).unsetFlushMask i) := by
      intro value hv hval
      have hfl := flushed_extended hos.consistent hos.mask hsize hv hval
      refine ⟨⟨hos.trans hfl.toBecomes, hfl.mask⟩, ?_, fun j hj => ⟨?_, hj.2⟩⟩
      · rw [isByteFlushed_flushed_extended hos.mask, if_pos rfl]
      · rw [isByteFlushed_flushed_extended hos.mask, hj.1, ite_self]
    rw [Prog.wp_bind, Prog.wp_ite]
    refine ⟨fun hc => ?_, fun hc => ?_⟩
    · obtain ⟨hfl, hfi, hkeep⟩ := hflush _ (hasWidth_const (os.concreteStore i)) fun a m v hr hm => by
        rw [hr.concrete hm hc]
        exact denotes_const v
      rw [Prog.wp_bind]
      refine extend_spec (hasWidth_const _) (hasWidth_const _) ?_
      exact ⟨⟨hfl.trans (markByteSymbolic_moves hfl.consistent hfi), hfl.mask⟩,
        markByteSymbolic_clears hfl.consistent hfi hc, fun j h => cleared_markByteSymbolic (hkeep j h)⟩
    · obtain hc' | hk := hos.consistent.unflushed hsize hf
      · exact absurd hc' hc
      · obtain ⟨value, hvalue⟩ := Option.isSome_iff_exists.1 hk
        rw [hvalue]
        rw [Bool.not_eq_true] at hc
        have hv := hos.consistent.known_width hvalue
        obtain ⟨hfl, hfi, hkeep⟩ := hflush value hv fun a m v hr hm => hr.known hm hvalue
        rw [Prog.unwrap, Prog.wp_bind, Prog.wp_pure, Prog.wp_bind]
        refine extend_spec (hasWidth_const _) hv ?_
        exact ⟨⟨hfl.trans (setKnownSymbolic_none_moves hfl.consistent hfi), hfl.mask⟩, setKnownSymbolic_clears hfi hc,
          fun j h => cleared_setKnownSymbolic_none (hkeep j h)⟩

/-- After the flush for a write all bytes are in the update list only, and none has changed. -/
theorem flushRangeForWrite_spec (hos : Consistent os) :
    Prog.wp (flushRangeForWrite 0 os.size) (fun _ t => Moves os t ∧ ∀ i < os.size, Cleared i t)
      (fun _ => False) os := by
  unfold flushRangeForWrite
  rw [Prog.wp_bind, Prog.wp_modify]
  have hloop := Prog.wp.each (I := Flushes os) (P := Cleared) (f := flushByteForWrite)
    (E := fun _ => False) (s := os.makeFlushMask) (List.range' 0 os.size)
    (fun i hi t ht => flushByteForWrite_spec (by simpa using List.mem_range'_1.1 hi) ht) (makeFlushMask_moves hos)
  refine hloop.mono (fun _ t ht => ⟨ht.1.toBecomes, fun i hi => ht.2.1 i ?_⟩) fun _ h => h
  exact List.mem_range'_1.2 ⟨Nat.zero_le i, by omega⟩

/-! ### Bytes -/

section

variable {id : ℕ}

/-- The expression has the byte of the array at an index, where that is known. -/
def ReadsByte (os : ObjectState) (index : Assignment → BitVec 32 → Prop) (e : Expr) : Prop :=
  e.HasWidth 8 ∧ ∀ a m o v, Represents a os m → index a o → m[o.toNat]? = some (some v) → e.Denotes a v

/-- A read through the update list. -/
theorem readsByte_create [ExprOptions] {ul : UpdateList} {index : Expr} (hul : ul.WF) (hidx : index.HasWidth 32)
    (h : ∀ a i v, i < os.size → os.updates.HoldsAt a i v → ul.DefinedAt a i ∧ ul.evalAt a i = v)
    (hflushed : ∀ a (o : BitVec 32), index.Denotes a o → o.toNat < os.size → os.isByteFlushed o.toNat = true) :
    ReadsByte os (fun a o => index.Denotes a o) (ReadExpr.create ul index) := by
  have hread := ReadExpr.create_computes hul hidx
  refine ⟨hread.hasWidth, fun a m o v hr ho hm => ?_⟩
  have hlt := hr.lt_size hm
  obtain ⟨hd, he⟩ := h a o.toNat v hlt (hr.flushed hm (hflushed a o ho hlt))
  have hden := hread.denotes ho.defined (by rw [ho.value]; exact hd)
  rwa [ho.value, he] at hden

theorem read8At_spec [ExprOptions] (hos : Consistent os) (o : BitVec 32) :
    Prog.wp (read8At id o) (fun e t => Moves os t ∧ ReadsByte os (fun _ o' => o' = o) e)
      (fun _ => ¬ o.toNat < os.size) os := by
  unfold read8At
  rw [Prog.wp_bind, Prog.wp_get, Prog.wp_bind, Prog.wp_assert]
  refine ⟨fun hlt => ?_, fun h => h⟩
  rw [Prog.wp_ite]
  refine ⟨fun hc => ⟨.refl hos, hasWidth_const _, ?_⟩, fun hc => ?_⟩
  · rintro a m o' v hr rfl hm
    rw [hr.concrete hm hc]
    exact denotes_const v
  cases hk : os.knownSymbolic o.toNat with
  | some e =>
    refine ⟨.refl hos, hos.known_width hk, ?_⟩
    rintro a m o' v hr rfl hm
    exact hr.known hm hk
  | none =>
    have hf : os.isByteFlushed o.toNat = true := by
      cases hf : os.isByteFlushed o.toNat with
      | true => rfl
      | false =>
        obtain hc' | hk' := hos.unflushed hlt hf
        · exact absurd hc' hc
        · simp [hk] at hk'
    simp only
    rw [Prog.wp_bind, Prog.wp_assert]
    refine ⟨fun _ => ?_, fun h => absurd hf h⟩
    rw [Prog.wp_bind]
    refine (getUpdates_spec id hos).mono (fun ul t ht => ?_) fun _ h => h.elim
    obtain ⟨hmoves, hul, hat⟩ := ht
    have hread := readsByte_create hul (hasWidth_const o) hat fun a o' ho _ => ho.const_eq ▸ hf
    refine ⟨hmoves, hread.1, ?_⟩
    rintro a m o' v hr rfl hm
    exact hread.2 a m o' v hr (denotes_const o') hm

/-- An offset as an index of 32 bits, which it is truncated to. -/
theorem zextOffset_computes {offset : Expr} {k : ℕ} (h : offset.HasWidth k) :
    offset.Computes₁ (fun x : BitVec k => x.setWidth 32) (ZExtExpr.create offset 32) := by
  by_cases hk : k ≤ 32
  · exact ZExtExpr.create_computes h hk
  · have heq : ZExtExpr.create offset 32 = ExtractExpr.create offset 0 32 := by
      unfold ZExtExpr.create
      rw [if_neg (by rw [h.width]; omega), if_pos (by rw [h.width]; omega)]
    rw [heq]
    have hext := ExtractExpr.create_computes h (show 0 + 32 ≤ k by omega)
    refine ⟨hext.hasWidth, fun {a x} d => ?_⟩
    have hval : x.extractLsb' 0 32 = x.setWidth 32 := by
      apply BitVec.eq_of_getLsbD_eq
      intro i hi
      simp [hi]
    rw [← hval]
    exact hext.denotes d

theorem read8_spec [ExprOptions] (hos : Consistent os) {offset : Expr} (hoff : offset.HasWidth 32) :
    Prog.wp (read8 id offset) (fun e t => Moves os t ∧ ReadsByte os (fun a o => offset.Denotes a o) e)
      (fun _ => offset.isConstant = true) os := by
  have hidx := zextOffset_computes hoff
  unfold read8
  rw [Prog.wp_bind, Prog.wp_get, Prog.wp_bind, Prog.wp_assert]
  refine ⟨fun _ => ?_, fun h => by simpa using h⟩
  rw [Prog.wp_bind]
  refine (flushRangeForRead_spec hos).mono (fun _ t ht => ?_) fun _ h => h.elim
  obtain ⟨hmoves, hflushed⟩ := ht
  rw [Prog.wp_bind]
  refine (getUpdates_spec id hmoves.consistent).mono (fun ul u hu => ?_) fun _ h => h.elim
  obtain ⟨hmoves', hul, hat⟩ := hu
  have hread := readsByte_create hul hidx.hasWidth hat fun a o _ hlt => hflushed _ (hmoves.size ▸ hlt)
  refine ⟨hmoves.trans hmoves', hread.1, fun a m o v hr ho hm => ?_⟩
  refine hread.2 a m o v (hmoves.represents hr) ?_ hm
  simpa using hidx.denotes ho

/-- What a write of the byte `i` outside the update list does to an object. -/
structure WritesByte (os : ObjectState) (i : ℕ) (x : Assignment → Option (BitVec 8)) (t : ObjectState) : Prop where
  size : t.size = os.size
  updates : t.updates = os.updates
  unflushed : ∀ j, t.isByteFlushed j = if j = i then false else os.isByteFlushed j
  other : ∀ j, j ≠ i →
    t.isByteConcrete j = os.isByteConcrete j ∧ t.knownSymbolic j = os.knownSymbolic j ∧ t.concreteStore j = os.concreteStore j
  placed : (t.isByteConcrete i = true ∧ t.knownSymbolic i = none ∧ ∀ a v, x a = some v → t.concreteStore i = v) ∨
    t.isByteConcrete i = false ∧ ∃ e, t.knownSymbolic i = some e ∧ e.HasWidth 8 ∧ ∀ a v, x a = some v → e.Denotes a v

theorem WritesByte.becomes {o : BitVec 32} {x : Assignment → Option (BitVec 8)} {t : ObjectState}
    (hos : Consistent os) (h : WritesByte os o.toNat x t) : Becomes (fun a m => m.setByte (some o) (x a)) os t := by
  refine ⟨⟨fun {j e} hk => ?_, fun {j} hj hf => ?_, fun {j e} hk => ?_, h.updates ▸ hos.writes⟩, h.size,
    fun {a m} hr => ⟨?_, fun {j v} hj hc => ?_, fun {j v e} hj hk => ?_, fun {j v} hj hf => ?_⟩⟩
  · by_cases hji : j = o.toNat
    · subst hji
      obtain ⟨-, hnone, -⟩ | ⟨hc, -⟩ := h.placed
      · rw [hnone] at hk
        cases hk
      · exact hc
    · obtain ⟨hcj, hkj, -⟩ := h.other j hji
      rw [hcj]
      exact hos.known_symbolic (hkj ▸ hk)
  · by_cases hji : j = o.toNat
    · subst hji
      obtain ⟨hc, -⟩ | ⟨-, e, hk, -⟩ := h.placed
      · exact .inl hc
      · exact .inr (by rw [hk]; rfl)
    · obtain ⟨hcj, hkj, -⟩ := h.other j hji
      rw [h.unflushed, if_neg hji] at hf
      rw [hcj, hkj]
      exact hos.unflushed (h.size ▸ hj) hf
  · by_cases hji : j = o.toNat
    · subst hji
      obtain ⟨-, hnone, -⟩ | ⟨-, e', hk', hw, -⟩ := h.placed
      · rw [hnone] at hk
        cases hk
      · rw [hk'] at hk
        exact Option.some.inj hk ▸ hw
    · exact hos.known_width ((h.other j hji).2.1 ▸ hk)
  · rw [length_setByte, h.size]
    exact hr.length
  · obtain ⟨o', ho, ⟨rfl, hx⟩ | ⟨hne, hm⟩⟩ := setByte_cases hj
    · obtain rfl := Option.some.inj ho
      obtain ⟨-, -, hs⟩ | ⟨hc', -⟩ := h.placed
      · exact hs a v hx
      · rw [hc'] at hc
        cases hc
    · obtain rfl := Option.some.inj ho
      obtain ⟨hcj, -, hsj⟩ := h.other j hne.symm
      rw [hsj]
      exact hr.concrete hm (hcj ▸ hc)
  · obtain ⟨o', ho, ⟨rfl, hx⟩ | ⟨hne, hm⟩⟩ := setByte_cases hj
    · obtain rfl := Option.some.inj ho
      obtain ⟨-, hnone, -⟩ | ⟨-, e', hk', -, hd⟩ := h.placed
      · rw [hnone] at hk
        cases hk
      · rw [hk'] at hk
        exact Option.some.inj hk ▸ hd a v hx
    · obtain rfl := Option.some.inj ho
      exact hr.known hm ((h.other j hne.symm).2.1 ▸ hk)
  · rw [h.unflushed] at hf
    split at hf
    · cases hf
    · rename_i hji
      obtain ⟨o', ho, ⟨rfl, -⟩ | ⟨-, hm⟩⟩ := setByte_cases hj
      · obtain rfl := Option.some.inj ho
        exact absurd rfl hji
      · rw [h.updates]
        exact hr.flushed hm hf

theorem write8Const_spec (hos : Consistent os) (o : BitVec 32) (value : BitVec 8) {x : Assignment → Option (BitVec 8)}
    (hx : ∀ a v, x a = some v → value = v) :
    Prog.wp (write8Const o value) (fun _ t => Becomes (fun a m => m.setByte (some o) (x a)) os t)
      (fun _ => ¬ o.toNat < os.size) os := by
  unfold write8Const
  rw [Prog.wp_bind, Prog.wp_get, Prog.wp_bind, Prog.wp_assert]
  refine ⟨fun _ => WritesByte.becomes hos ⟨rfl, rfl, fun j => ?_, fun j hj => ⟨?_, ?_, ?_⟩, .inl ⟨?_, ?_, ?_⟩⟩, fun h => h⟩
  · rw [isByteFlushed_markByteUnflushed]
    rfl
  · rw [isByteConcrete_markByteUnflushed, isByteConcrete_markByteConcrete, if_neg hj]
    rfl
  · rw [knownSymbolic_markByteUnflushed, knownSymbolic_markByteConcrete, knownSymbolic_setKnownSymbolic, if_neg hj]
    rfl
  · exact Function.update_of_ne hj _ _
  · rw [isByteConcrete_markByteUnflushed, isByteConcrete_markByteConcrete, if_pos rfl]
  · rw [knownSymbolic_markByteUnflushed, knownSymbolic_markByteConcrete, knownSymbolic_setKnownSymbolic, if_pos rfl]
  · intro a v hv
    exact (Function.update_self o.toNat value os.concreteStore).trans (hx a v hv)

theorem write8At_spec (hos : Consistent os) (o : BitVec 32) {value : Expr} (hv : value.HasWidth 8)
    {x : Assignment → Option (BitVec 8)} (hx : ∀ a v, x a = some v → value.Denotes a v) :
    Prog.wp (write8At o value) (fun _ t => Becomes (fun a m => m.setByte (some o) (x a)) os t)
      (fun _ => ¬ o.toNat < os.size) os := by
  unfold write8At
  split
  · rename_i w v
    obtain rfl := hv.const_width
    rw [BitVec.setWidth_eq]
    exact write8Const_spec hos o v fun a v' h => (hx a v' h).const_eq
  · rw [Prog.wp_bind, Prog.wp_get, Prog.wp_bind, Prog.wp_assert]
    refine ⟨fun _ => WritesByte.becomes hos ⟨rfl, rfl, fun j => ?_, fun j hj => ⟨?_, ?_, rfl⟩,
      .inr ⟨?_, value, ?_, hv, hx⟩⟩, fun h => h⟩
    · rw [isByteFlushed_markByteUnflushed]
      rfl
    · rw [isByteConcrete_markByteUnflushed, isByteConcrete_markByteSymbolic, if_neg hj]
      rfl
    · rw [knownSymbolic_markByteUnflushed, knownSymbolic_markByteSymbolic, knownSymbolic_setKnownSymbolic, if_neg hj]
    · rw [isByteConcrete_markByteUnflushed, isByteConcrete_markByteSymbolic, if_pos rfl]
    · rw [knownSymbolic_markByteUnflushed, knownSymbolic_markByteSymbolic, knownSymbolic_setKnownSymbolic, if_pos rfl]

/-- A write that goes to the update list of an object all of whose bytes are there. -/
theorem extended_becomes (hos : Consistent os) (hclear : ∀ i < os.size, Cleared i os) {index value : Expr}
    (hi : index.HasWidth 32) (hv : value.HasWidth 8) {o : Assignment → Option (BitVec 32)}
    {x : Assignment → Option (BitVec 8)} (ho : ∀ a v, o a = some v → index.Denotes a v)
    (hx : ∀ a v, x a = some v → value.Denotes a v) :
    Becomes (fun a m => m.setByte (o a) (x a)) os (os.extended index value) := by
  refine ⟨⟨hos.known_symbolic, hos.unflushed, hos.known_width, fun write hw => ?_⟩, rfl,
    fun {a m} hr => ⟨?_, fun {j v} hj hc => ?_, fun {j v e} hj hk => ?_, fun {j v} hj hf => ?_⟩⟩
  · obtain rfl | hw := List.mem_cons.1 hw
    · exact ⟨hi, hv⟩
    · exact hos.writes write hw
  · rw [length_setByte]
    exact hr.length
  · have hlt : j < os.size := by
      have := (List.getElem?_eq_some_iff.1 hj).1
      rwa [length_setByte, hr.length] at this
    exact absurd hc (by rw [show (os.extended index value).isByteConcrete j = false from (hclear j hlt).2.1]; decide)
  · have hlt : j < os.size := by
      have := (List.getElem?_eq_some_iff.1 hj).1
      rwa [length_setByte, hr.length] at this
    rw [show (os.extended index value).knownSymbolic j = none from (hclear j hlt).2.2] at hk
    cases hk
  · obtain ⟨i, hi, ⟨rfl, hval⟩ | ⟨hne, hm⟩⟩ := setByte_cases hj
    · have hd := ho a i hi
      refine ⟨hd.defined, ?_⟩
      rw [if_pos (by rw [hd.value])]
      exact hx a v hval
    · have hd := ho a i hi
      refine ⟨hd.defined, ?_⟩
      rw [if_neg (by rw [hd.value]; exact hne)]
      exact hr.flushed hm hf

theorem write8_spec (hos : Consistent os) {offset value : Expr} (hoff : offset.HasWidth 32) (hv : value.HasWidth 8)
    {o : Assignment → Option (BitVec 32)} {x : Assignment → Option (BitVec 8)}
    (ho : ∀ a v, o a = some v → offset.Denotes a v) (hx : ∀ a v, x a = some v → value.Denotes a v) :
    Prog.wp (write8 offset value) (fun _ t => Becomes (fun a m => m.setByte (o a) (x a)) os t)
      (fun _ => offset.isConstant = true) os := by
  have hidx := zextOffset_computes hoff
  unfold write8
  rw [Prog.wp_bind, Prog.wp_get, Prog.wp_bind, Prog.wp_assert]
  refine ⟨fun _ => ?_, fun h => by simpa using h⟩
  rw [Prog.wp_bind]
  refine (flushRangeForWrite_spec hos).mono (fun _ t ht => ?_) fun _ h => h.elim
  obtain ⟨hmoves, hclear⟩ := ht
  refine extend_spec hidx.hasWidth hv (hmoves.trans ?_)
  refine extended_becomes hmoves.consistent (hmoves.size ▸ hclear) hidx.hasWidth hv (fun a i hi => ?_) hx
  simpa using hidx.denotes (ho a i hi)

/-! ### Words -/

variable {littleEndian : Bool}

/-- The expression has the word of the array at an index, where that is known. -/
def ReadsWord (littleEndian : Bool) (os : ObjectState) (index : Assignment → Option (BitVec 32)) (width : ℕ) (e : Expr) :
    Prop :=
  e.HasWidth width ∧ ∀ a m v, Represents a os m → load littleEndian m (index a) width = some v → e.Denotes a v

/-- One more byte on the left of a word. -/
theorem extractLsb'_succ {w : ℕ} (v : BitVec w) (n : ℕ) :
    v.extractLsb' (8 * n) 8 ++ v.extractLsb' 0 (8 * n) = v.extractLsb' 0 (8 + 8 * n) := by
  apply BitVec.eq_of_getLsbD_eq
  intro i hi
  rw [BitVec.getLsbD_append]
  by_cases h : i < 8 * n
  · simp [h, hi]
  · have hsub : i - 8 * n < 8 := by omega
    have hadd : 8 * n + (i - 8 * n) = i := by omega
    simp [h, hi, hsub, hadd]

/-- The loop of `read`: where the bytes of a word are read one by one, the word is. -/
theorem readBytes_spec {byte : ℕ → Prog ObjectState Expr} {J : ℕ → Assignment → BitVec 32 → Prop} {B : Prop}
    (start : ObjectState) : ∀ n, (∀ i < n, ∀ {os}, Moves start os →
      Prog.wp (byte i) (fun e t => Moves os t ∧ ReadsByte os (J i) e) (fun _ => B) os) →
    ∀ {os}, Moves start os → Prog.wp (readBytes byte n)
      (fun e t => Moves start t ∧ e.HasWidth (8 * n) ∧ ∀ a m w (v : BitVec w), Represents a start m →
        (∀ i < n, ∃ o, J i a o ∧ m[o.toNat]? = some (some (v.extractLsb' (8 * i) 8))) →
        e.Denotes a (v.extractLsb' 0 (8 * n)))
      (fun _ => n = 0 ∨ B) os := by
  intro n
  induction n with
  | zero => exact fun _ os _ => .inl rfl
  | succ n ih =>
    intro hbyte os hos
    cases n with
    | zero =>
      refine (hbyte 0 (by decide) hos).mono (fun e t ht => ?_) fun _ h => .inr h
      obtain ⟨hmoves, hw, hread⟩ := ht
      refine ⟨hos.trans hmoves, hw, fun a m w v hr h => ?_⟩
      obtain ⟨o, ho, hm⟩ := h 0 (by decide)
      exact hread a m o _ (hos.represents hr) ho hm
    | succ n =>
      rw [readBytes, Prog.wp_bind]
      have hres := ih (fun i hi => hbyte i (by omega)) hos
      refine hres.mono (fun res t ht => ?_) fun _ h => .inr (h.resolve_left (by omega))
      obtain ⟨hmoves, hresWidth, hresDenotes⟩ := ht
      rw [Prog.wp_bind]
      refine (hbyte (n + 1) (by omega) hmoves).mono (fun b u hu => ?_) fun _ h => .inr h
      obtain ⟨hmoves', hbWidth, hbDenotes⟩ := hu
      have hcat := ConcatExpr.create_computes hbWidth hresWidth
      have hlen : 8 * (n + 1 + 1) = 8 + 8 * (n + 1) := by omega
      rw [Prog.wp_pure, hlen]
      refine ⟨hmoves.trans hmoves', hcat.hasWidth, fun a m w v hr h => ?_⟩
      obtain ⟨o, ho, hm⟩ := h (n + 1) (by omega)
      rw [← extractLsb'_succ]
      exact hcat.denotes (hbDenotes a m o _ (hmoves.represents hr) ho hm)
        (hresDenotes a m w v hr fun i hi => h i (by omega))

/-- The widths of the words that are read and written. -/
def WidthAllowed (width : ℕ) : Prop := width = 1 ∨ width = width / 8 * 8 ∧ 0 < width

/-- A bit is the lowest bit of its byte. -/
theorem readsWord_bool {index : Assignment → BitVec 32 → Prop} {o : Assignment → Option (BitVec 32)} {b : Expr}
    (ho : ∀ a x, o a = some x → index a x) (h : ReadsByte os index b) :
    ReadsWord littleEndian os o 1 (ExtractExpr.create b 0 1) := by
  have hext := ExtractExpr.create_computes h.1 (show 0 + 1 ≤ 8 by decide)
  refine ⟨hext.hasWidth, fun a m v hr hload => ?_⟩
  obtain ⟨x, byte, hx, hm, rfl⟩ := load_bool hload
  exact hext.denotes (h.2 a m x byte hr (ho a x hx) hm)

/-- A word of whole bytes. -/
theorem readsWord_bytes {idx : ℕ → Assignment → BitVec 32 → Prop} {o : Assignment → Option (BitVec 32)} {width : ℕ}
    {e : Expr} (hwidth : width = width / 8 * 8)
    (ho : ∀ a x, o a = some x → ∀ i < width / 8, idx i a (byteIndex littleEndian (width / 8) x i))
    (hw : e.HasWidth (8 * (width / 8)))
    (h : ∀ a m w (v : BitVec w), Represents a os m →
      (∀ i < width / 8, ∃ o, idx i a o ∧ m[o.toNat]? = some (some (v.extractLsb' (8 * i) 8))) →
      e.Denotes a (v.extractLsb' 0 (8 * (width / 8)))) :
    ReadsWord littleEndian os o width e := by
  have hlen : 8 * (width / 8) = width := by omega
  refine ⟨hlen ▸ hw, fun a m v hr hload => ?_⟩
  obtain ⟨x, hx, hbytes⟩ := load_bytes hwidth hload
  have hd := h a m width v hr fun i hi => ⟨_, ho a x hx i hi, hbytes i hi⟩
  rw [hlen] at hd
  simpa using hd

/-- `read` at a constant offset returns the word, if all its bytes are within the object. -/
theorem readAt_spec [ExprOptions] (hos : Consistent os) (o : BitVec 32) (width : ℕ) :
    Prog.wp (readAt littleEndian id o width)
      (fun e t => Moves os t ∧ ReadsWord littleEndian os (fun _ => some o) width e)
      (fun _ => ¬ (WidthAllowed width ∧
        ∀ i < numBytes width, (byteIndex littleEndian (numBytes width) o i).toNat < os.size)) os := by
  unfold readAt
  rw [Prog.wp_ite]
  refine ⟨fun h1 => ?_, fun h1 => ?_⟩
  · subst h1
    rw [Prog.wp_bind]
    refine (read8At_spec hos o).mono (fun b t ht => ?_) fun _ h hall => h ?_
    · exact ⟨ht.1, readsWord_bool (fun a x hx => (Option.some.inj hx).symm) ht.2⟩
    · exact byteIndex_one littleEndian o ▸ hall.2 0 (by decide)
  · have hn : numBytes width = width / 8 := if_neg h1
    rw [Prog.wp_bind, Prog.wp_assert]
    refine ⟨fun hwidth => ?_, fun h hall => h (hall.1.resolve_left h1).1⟩
    refine (readBytes_spec (B := ¬ ∀ i < width / 8, (byteIndex littleEndian (width / 8) o i).toNat < os.size)
      (J := fun i _ o' => o' = byteIndex littleEndian (width / 8) o i) os (width / 8) (fun i hi t ht => ?_)
      (.refl hos)).mono (fun e t ht => ?_) fun _ h hall => ?_
    · refine (read8At_spec ht.consistent _).mono (fun _ _ h => h) fun _ h hall => h ?_
      rw [ht.size]
      exact hall i hi
    · refine ⟨ht.1, readsWord_bytes hwidth (fun a x hx i _ => ?_) ht.2.1 ht.2.2⟩
      rw [Option.some.inj hx]
    · rw [hn] at hall
      obtain h0 | hbad := h
      · have := (hall.1.resolve_left h1).2
        omega
      · exact hbad hall.2

/-- The offset of the `i`-th byte is its index. -/
theorem byteOffset_computes [ExprOptions] (littleEndian : Bool) {offset : Expr} (n i : ℕ) (h : offset.HasWidth 32) :
    offset.Computes₁ (fun x : BitVec 32 => byteIndex littleEndian n x i) (byteOffset littleEndian n offset i) := by
  have hadd := AddExpr.create_computes h (hasWidth_const (BitVec.ofNat 32 (bytePosition littleEndian n i)))
  exact ⟨hadd.hasWidth, fun d => hadd.denotes d (denotes_const _) nofun⟩

/-- The index that an offset stands for. -/
noncomputable def indexAt (a : Assignment) (offset : Expr) : Option (BitVec 32) :=
  (valueAt a offset offset.getWidth).map fun x => x.setWidth 32

theorem indexAt_eq_some {a : Assignment} {offset : Expr} (hoff : offset.WF) {o : BitVec 32}
    (h : indexAt a offset = some o) : (ZExtExpr.create offset 32).Denotes a o := by
  obtain ⟨x, hx, rfl⟩ := Option.map_eq_some_iff.1 h
  exact (zextOffset_computes ⟨hoff, rfl⟩).denotes (valueAt_eq_some.1 hx)

theorem isConstant_eq_false {e : Expr} (h : ∀ w (c : BitVec w), e = .const c → False) : e.isConstant = false := by
  cases e with
  | const c => exact (h _ c rfl).elim
  | _ => rfl

/-- A word of this width at this offset can be accessed: the bytes at a constant offset are within the object, and
those at a symbolic one have symbolic offsets. -/
def Allowed [ExprOptions] (littleEndian : Bool) (os : ObjectState) (offset : Expr) (width : ℕ) : Prop :=
  WidthAllowed width ∧
    (∀ c : BitVec 32, ZExtExpr.create offset 32 = .const c →
      ∀ i < numBytes width, (byteIndex littleEndian (numBytes width) c i).toNat < os.size) ∧
    ((ZExtExpr.create offset 32).isConstant = false → width ≠ 1 → ∀ i < numBytes width,
      (byteOffset littleEndian (numBytes width) (ZExtExpr.create offset 32) i).isConstant = false)

/-- `read` returns the word at the offset. -/
theorem read_spec [ExprOptions] (hos : Consistent os) {offset : Expr} (hoff : offset.WF) (width : ℕ) :
    Prog.wp (read littleEndian id offset width)
      (fun e t => Moves os t ∧ ReadsWord littleEndian os (fun a => indexAt a offset) width e)
      (fun _ => ¬ Allowed littleEndian os offset width) os := by
  have hidx := zextOffset_computes (k := offset.getWidth) ⟨hoff, rfl⟩
  have hden : ∀ a x, indexAt a offset = some x → (ZExtExpr.create offset 32).Denotes a x :=
    fun a x => indexAt_eq_some hoff
  unfold read Allowed
  revert hidx hden
  generalize ZExtExpr.create offset 32 = off
  intro hidx hden
  split
  · rename_i w c
    obtain rfl := hidx.hasWidth.const_width
    rw [BitVec.setWidth_eq]
    refine (readAt_spec hos c width).mono (fun e t ht => ⟨ht.1, ht.2.1, fun a m v hr hload => ?_⟩)
      fun _ h hall => h ⟨hall.1, hall.2.1 c rfl⟩
    cases hx : indexAt a offset with
    | none =>
      simp only [hx] at hload
      cases hload
    | some x =>
      simp only [hx, ← (hden a x hx).const_eq] at hload
      exact ht.2.2 a m v hr hload
  · rename_i hconst
    rw [Prog.wp_ite]
    refine ⟨fun h1 => ?_, fun h1 => ?_⟩
    · subst h1
      rw [Prog.wp_bind]
      refine (read8_spec hos hidx.hasWidth).mono (fun b t ht => ⟨ht.1, readsWord_bool hden ht.2⟩) fun _ h => ?_
      exact absurd h (by rw [isConstant_eq_false hconst]; decide)
    · have hn : numBytes width = width / 8 := if_neg h1
      rw [Prog.wp_bind, Prog.wp_assert, hn]
      refine ⟨fun hwidth => ?_, fun h hall => h (hall.1.resolve_left h1).1⟩
      refine (readBytes_spec (B := ¬ ∀ i < width / 8, (byteOffset littleEndian (width / 8) off i).isConstant = false)
        (J := fun i a o => (byteOffset littleEndian (width / 8) off i).Denotes a o) os (width / 8) (fun i hi t ht => ?_)
        (.refl hos)).mono (fun e t ht => ?_) fun _ h hall => ?_
      · refine (read8_spec ht.consistent (byteOffset_computes littleEndian _ i hidx.hasWidth).hasWidth).mono (fun _ _ h => h)
          fun _ h hall => ?_
        rw [hall i hi] at h
        cases h
      · exact ⟨ht.1, readsWord_bytes hwidth
          (fun a x hx i _ => (byteOffset_computes littleEndian _ i hidx.hasWidth).denotes (hden a x hx)) ht.2.1 ht.2.2⟩
      · obtain h0 | hbad := h
        · have := (hall.1.resolve_left h1).2
          omega
        · exact hbad (hall.2.2 (isConstant_eq_false hconst) h1)

/-- The loop of `write`: where the bytes of a word are written one by one, the word is. -/
theorem each_storeBytes {f : ℕ → Prog ObjectState PUnit} {n w : ℕ} {o : Assignment → Option (BitVec 32)}
    {x : Assignment → Option (BitVec w)} {B : Prop} (size : ℕ) : ∀ (is : List ℕ),
    (∀ i ∈ is, ∀ {os}, Consistent os → os.size = size →
      Prog.wp (f i) (fun _ t => Becomes (fun a m => m.setByte ((o a).map fun o => byteIndex littleEndian n o i)
        ((x a).map fun v => v.extractLsb' (8 * i) 8)) os t) (fun _ => B) os) →
    ∀ {os}, Consistent os → os.size = size →
      Prog.wp (Prog.each f is) (fun _ t => Becomes (fun a m => storeBytes littleEndian n (o a) (x a) is m) os t)
        (fun _ => B) os := by
  intro is
  induction is with
  | nil => exact fun _ os hos _ => Moves.refl hos
  | cons i is ih =>
    intro hf os hos hsize
    refine (hf i List.mem_cons_self hos hsize).bind fun _ t ht => ?_
    have hrest := ih (fun j hj => hf j (List.mem_cons_of_mem _ hj)) ht.consistent (ht.size.trans hsize)
    exact hrest.mono (fun _ u hu => ht.trans hu) fun _ h => h

/-- `write16`, `write32` and `write64`. -/
theorem writeConst_spec (hos : Consistent os) {n : ℕ} (o : BitVec 32) {w : ℕ} (value : BitVec w)
    {x : Assignment → Option (BitVec w)} (hn : numBytes w = n) (hx : ∀ a v, x a = some v → value = v) :
    Prog.wp (writeConst littleEndian n o value)
      (fun _ t => Becomes (fun a m => store littleEndian m (some o) (x a)) os t)
      (fun _ => ¬ ∀ i < n, (byteIndex littleEndian n o i).toNat < os.size) os := by
  unfold writeConst store
  rw [hn]
  refine each_storeBytes os.size _ (fun i hi t ht hsize => ?_) hos rfl
  refine (write8Const_spec ht _ _ fun a v hv => ?_).mono (fun _ u hu => hu) fun _ h hall => h ?_
  · obtain ⟨y, hy, rfl⟩ := Option.map_eq_some_iff.1 hv
    rw [hx a y hy, extractLsb'_eq_shift]
  · rw [hsize]
    exact hall i (List.mem_range.1 hi)

/-- The byte that a boolean is written as. -/
theorem zextBool_denotes {value : Expr} (hw : value.HasWidth 1) {a : Assignment} {b : BitVec 8}
    {x : Assignment → Option (BitVec value.getWidth)} (hx : ∀ a v, x a = some v → value.Denotes a v)
    (h : ((x a).map fun v => v.setWidth 8) = some b) : (ZExtExpr.create value 8).Denotes a b := by
  obtain ⟨y, hy, rfl⟩ := Option.map_eq_some_iff.1 h
  exact (ZExtExpr.create_computes ⟨hw.wf, rfl⟩ (by rw [hw.width]; decide)).denotes (hx a y hy)

/-- A byte of a word. -/
theorem extractByte_denotes {value : Expr} (hv : value.WF) {a : Assignment} {b : BitVec 8} {i : ℕ}
    (hi : 8 * i + 8 ≤ value.getWidth) {x : Assignment → Option (BitVec value.getWidth)}
    (hx : ∀ a v, x a = some v → value.Denotes a v)
    (h : ((x a).map fun v => v.extractLsb' (8 * i) 8) = some b) :
    (ExtractExpr.create value (8 * i) 8).Denotes a b := by
  obtain ⟨y, hy, rfl⟩ := Option.map_eq_some_iff.1 h
  exact (ExtractExpr.create_computes ⟨hv, rfl⟩ hi).denotes (hx a y hy)

/-- The general case of `write` at a constant offset. -/
theorem writeGeneral_spec (hos : Consistent os) (o : BitVec 32) {value : Expr} (hv : value.WF)
    {x : Assignment → Option (BitVec value.getWidth)} (hx : ∀ a v, x a = some v → value.Denotes a v) :
    Prog.wp (writeGeneral littleEndian o value)
      (fun _ t => Becomes (fun a m => store littleEndian m (some o) (x a)) os t)
      (fun _ => ¬ (WidthAllowed value.getWidth ∧ ∀ i < numBytes value.getWidth,
        (byteIndex littleEndian (numBytes value.getWidth) o i).toNat < os.size)) os := by
  unfold writeGeneral
  rw [Prog.wp_ite]
  refine ⟨fun h1 => ?_, fun h1 => ?_⟩
  · have hn : numBytes value.getWidth = 1 := if_pos h1
    simp only [store_one littleEndian _ _ _ hn, hn]
    have hz := ZExtExpr.create_computes (w := 8) ⟨hv, h1⟩ (by decide)
    refine (write8At_spec hos o hz.hasWidth fun a b h => zextBool_denotes ⟨hv, h1⟩ hx h).mono (fun _ t ht => ht)
      fun _ h hall => h ?_
    exact byteIndex_one littleEndian o ▸ hall.2 0 (by decide)
  · have hn : numBytes value.getWidth = value.getWidth / 8 := if_neg h1
    rw [Prog.wp_bind, Prog.wp_assert]
    refine ⟨fun hwidth => ?_, fun h hall => h (hall.1.resolve_left h1).1⟩
    unfold store
    rw [hn]
    refine each_storeBytes os.size _ (fun i hi t ht hsize => ?_) hos rfl
    have hi := List.mem_range.1 hi
    have hle : 8 * i + 8 ≤ value.getWidth := by omega
    refine (write8At_spec ht _ (ExtractExpr.create_computes ⟨hv, rfl⟩ hle).hasWidth
      fun a b h => extractByte_denotes hv hle hx h).mono (fun _ u hu => hu) fun _ h hall => h ?_
    rw [hsize]
    exact hall.2 i hi

/-- `write` at a constant offset. -/
theorem writeAt_spec (hos : Consistent os) (o : BitVec 32) {value : Expr} (hv : value.WF)
    {x : Assignment → Option (BitVec value.getWidth)} (hx : ∀ a v, x a = some v → value.Denotes a v) :
    Prog.wp (writeAt littleEndian o value)
      (fun _ t => Becomes (fun a m => store littleEndian m (some o) (x a)) os t)
      (fun _ => ¬ (WidthAllowed value.getWidth ∧ ∀ i < numBytes value.getWidth,
        (byteIndex littleEndian (numBytes value.getWidth) o i).toNat < os.size)) os := by
  unfold writeAt
  split
  · rename_i w v
    have hval : ∀ a y, x a = some y → v = y := fun a y hy => (hx a y hy).const_eq
    rw [Prog.wp_ite]
    refine ⟨fun hmem => ?_, fun _ => writeGeneral_spec hos o hv hx⟩
    rw [Prog.wp_ite]
    refine ⟨fun h8 => ?_, fun h8 => ?_⟩
    · have hn : numBytes w = 1 := by
        obtain rfl | rfl := h8
        · rfl
        · rfl
      refine (write8Const_spec hos o (v.setWidth 8) (x := fun a => (x a).map fun y => y.setWidth 8)
        fun a b h => ?_).mono (fun _ t ht => ?_) fun _ h hall => h ?_
      · obtain ⟨y, hy, rfl⟩ := Option.map_eq_some_iff.1 h
        exact congrArg _ (hval a y hy)
      · have hstore : ∀ a m, store littleEndian m (some o) (x a) = m.setByte (some o) ((x a).map fun y => y.setWidth 8) :=
          fun a m => store_one littleEndian m (some o) (x a) hn
        simp only [hstore]
        exact ht
      · have hlt := hall.2
        simp only [getWidth, hn] at hlt
        exact byteIndex_one littleEndian o ▸ hlt 0 (by decide)
    · rw [Prog.wp_ite]
      refine ⟨fun h16 => ?_, fun h16 => ?_⟩
      · subst h16
        rw [BitVec.setWidth_eq]
        exact (writeConst_spec hos o v rfl hval).mono (fun _ t ht => ht) fun _ h hall => h hall.2
      rw [Prog.wp_ite]
      refine ⟨fun h32 => ?_, fun h32 => ?_⟩
      · subst h32
        rw [BitVec.setWidth_eq]
        exact (writeConst_spec hos o v rfl hval).mono (fun _ t ht => ht) fun _ h hall => h hall.2
      rw [Prog.wp_ite]
      refine ⟨fun h64 => ?_, fun h64 => ?_⟩
      · subst h64
        rw [BitVec.setWidth_eq]
        exact (writeConst_spec hos o v rfl hval).mono (fun _ t ht => ht) fun _ h hall => h hall.2
      -- two and four bits are left
      rintro ⟨hw, -⟩
      have hw : w = 1 ∨ w = w / 8 * 8 ∧ 0 < w := hw
      simp only [List.mem_cons, List.not_mem_nil, or_false] at hmem
      omega
  · exact writeGeneral_spec hos o hv hx

/-- `write` puts the word at the offset. -/
theorem write_spec [ExprOptions] (hos : Consistent os) {offset value : Expr} (hoff : offset.WF) (hv : value.WF) :
    Prog.wp (write littleEndian offset value)
      (fun _ t => Becomes (fun a m => store littleEndian m (indexAt a offset) (valueAt a value value.getWidth)) os t)
      (fun _ => ¬ Allowed littleEndian os offset value.getWidth) os := by
  have hidx := zextOffset_computes (k := offset.getWidth) ⟨hoff, rfl⟩
  have hden : ∀ a x, indexAt a offset = some x → (ZExtExpr.create offset 32).Denotes a x :=
    fun a x => indexAt_eq_some hoff
  have hx : ∀ a v, valueAt a value value.getWidth = some v → value.Denotes a v := fun a v => valueAt_eq_some.1
  unfold write Allowed
  revert hidx hden
  generalize ZExtExpr.create offset 32 = off
  intro hidx hden
  split
  · rename_i w c
    obtain rfl := hidx.hasWidth.const_width
    rw [BitVec.setWidth_eq]
    refine (writeAt_spec hos c hv hx).mono (fun _ t ht => ?_) fun _ h hall => h ⟨hall.1, hall.2.1 c rfl⟩
    refine ⟨ht.consistent, ht.size, fun {a m} hr => ?_⟩
    cases hi : indexAt a offset with
    | none => exact (ht.represents hr).below (storeBytes_below _ _ c _ _ ⟨rfl, fun _ _ h => h⟩)
    | some i =>
      rw [← (hden a i hi).const_eq]
      exact ht.represents hr
  · rename_i hconst
    rw [Prog.wp_ite]
    refine ⟨fun h1 => ?_, fun h1 => ?_⟩
    · have hn : numBytes value.getWidth = 1 := if_pos h1
      simp only [store_one littleEndian _ _ _ hn]
      have hz := ZExtExpr.create_computes (w := 8) ⟨hv, h1⟩ (by decide)
      refine (write8_spec hos hidx.hasWidth hz.hasWidth hden fun a b h => zextBool_denotes ⟨hv, h1⟩ hx h).mono
        (fun _ t ht => ht) fun _ h => ?_
      exact absurd h (by rw [isConstant_eq_false hconst]; decide)
    · have hn : numBytes value.getWidth = value.getWidth / 8 := if_neg h1
      rw [Prog.wp_bind, Prog.wp_assert]
      refine ⟨fun hwidth => ?_, fun h hall => h (hall.1.resolve_left h1).1⟩
      unfold store
      rw [hn]
      refine each_storeBytes os.size _ (fun i hi t ht hsize => ?_) hos rfl
      have hi := List.mem_range.1 hi
      have hle : 8 * i + 8 ≤ value.getWidth := by omega
      have hbyte := byteOffset_computes littleEndian (value.getWidth / 8) i hidx.hasWidth
      refine (write8_spec ht hbyte.hasWidth (ExtractExpr.create_computes ⟨hv, rfl⟩ hle).hasWidth (fun a y hy => ?_)
        fun a b h => extractByte_denotes hv hle hx h).mono (fun _ u hu => hu) fun _ h hall => ?_
      · obtain ⟨z, hz, rfl⟩ := Option.map_eq_some_iff.1 hy
        exact hbyte.denotes (hden a z hz)
      · rw [hall.2.2 (isConstant_eq_false hconst) h1 i hi] at h
        cases h

/-! ### The other operations -/

theorem makeConcrete_becomes (hos : Consistent os) (x : BitVec 8) :
    Becomes (fun _ m => m.map fun _ => some x) os { os.makeConcrete with concreteStore := fun _ => x } := by
  refine ⟨⟨fun {j e} hk => (nomatch hk), fun {j} _ _ => .inl rfl, fun {j e} hk => (nomatch hk), hos.writes⟩, rfl,
    fun {a m} hr => ⟨?_, fun {j v} hj _ => ?_, fun {j v e} _ hk => (nomatch hk), fun {j v} _ hf => (nomatch hf)⟩⟩
  · rw [List.length_map]
    exact hr.length
  · rw [List.getElem?_map] at hj
    cases hm : m[j]? with
    | none => simp [hm] at hj
    | some b => simpa [hm] using hj

theorem flushByteToStore_spec [ExprOptions] {start : ObjectState} {getValue : Expr → Option (BitVec 8)} {i : ℕ}
    (hos : Moves start os) (hi : i < start.size) :
    Prog.wp (flushByteToStore id getValue i) (fun _ t => Moves start t) (fun _ => False) os := by
  have hlt : i < os.size := hos.size ▸ hi
  have hnat : (BitVec.ofNat 32 i).toNat = i := by
    rw [BitVec.toNat_ofNat, Nat.mod_eq_of_lt (hlt.trans os.size_lt)]
  unfold flushByteToStore
  rw [Prog.wp_bind, Prog.wp_get, Prog.wp_when]
  refine ⟨fun hk => ?_, fun _ => hos⟩
  obtain ⟨e, he⟩ := Option.isSome_iff_exists.1 hk
  have hc := hos.consistent.known_symbolic he
  -- the byte that is read is the known one, and the object stays as it is
  have hread : read8At id (BitVec.ofNat 32 i) os = (some e, os) := by
    have hwp : Prog.wp (read8At id (BitVec.ofNat 32 i)) (fun r t => r = e ∧ t = os) (fun _ => False) os := by
      unfold read8At
      rw [Prog.wp_bind, Prog.wp_get, Prog.wp_bind, Prog.wp_assert, hnat]
      refine ⟨fun _ => ?_, fun h => h hlt⟩
      rw [if_neg (by rw [hc]; decide), he]
      exact ⟨rfl, rfl⟩
    obtain ⟨r, t, hres, rfl, rfl⟩ := hwp.exists_result
    exact hres
  refine Prog.wp.step hread ?_
  cases getValue e with
  | none => exact hos
  | some v =>
    refine hos.trans ⟨⟨hos.consistent.known_symbolic, hos.consistent.unflushed, hos.consistent.known_width,
      hos.consistent.writes⟩, rfl, fun {a m} hr => ⟨hr.length, fun {j x} hj hcj => ?_, hr.known, hr.flushed⟩⟩
    have hne : j ≠ i := by
      rintro rfl
      exact Bool.false_ne_true (hc.symm.trans hcj)
    exact (Function.update_of_ne hne v os.concreteStore).trans (hr.concrete hj hcj)

theorem flushToConcreteStore_spec [ExprOptions] (hos : Consistent os) (getValue : Expr → Option (BitVec 8)) :
    Prog.wp (flushToConcreteStore id getValue) (fun _ t => Moves os t) (fun _ => False) os := by
  unfold flushToConcreteStore
  rw [Prog.wp_bind, Prog.wp_get]
  have hloop := Prog.wp.each (I := Moves os) (P := fun _ _ => True) (f := flushByteToStore id getValue)
    (E := fun _ => False) (s := os) (List.range os.size)
    (fun i hi t ht => (flushByteToStore_spec ht (List.mem_range.1 hi)).mono (fun _ u hu => ⟨hu, trivial, fun _ _ => trivial⟩)
      fun _ h => h) (.refl hos)
  exact hloop.mono (fun _ t ht => ht.1) fun _ h => h

theorem consistent_new (useConstantArrays : Bool) (size : Size) (n : ℕ) : Consistent (new useConstantArrays size n) :=
  ⟨fun h => (nomatch h), fun _ _ => .inl rfl, fun h => (nomatch h), fun _ h => absurd h List.not_mem_nil⟩

theorem represents_new (a : Assignment) (useConstantArrays : Bool) (size : Size) (n : ℕ) :
    Represents a (new useConstantArrays size n) (List.replicate size (some 0)) := by
  refine ⟨List.length_replicate, fun {i v} hi _ => ?_, fun _ h => (nomatch h), fun _ h => (nomatch h)⟩
  rw [List.getElem?_replicate] at hi
  split at hi
  · exact Option.some.inj (Option.some.inj hi)
  · cases hi

/-- The bytes of a list become symbolic, and are flushed. -/
theorem makeBytesSymbolic_spec (is : List ℕ) : ∀ (os : ObjectState), (∀ j, os.knownSymbolic j = none) →
    (∀ j, (os.makeBytesSymbolic is).knownSymbolic j = none) ∧
      (os.makeBytesSymbolic is).updates = os.updates ∧ (os.makeBytesSymbolic is).size = os.size ∧
      (∀ j, os.isByteFlushed j = true ∧ os.isByteConcrete j = false →
        (os.makeBytesSymbolic is).isByteFlushed j = true ∧ (os.makeBytesSymbolic is).isByteConcrete j = false) ∧
      ∀ j ∈ is, (os.makeBytesSymbolic is).isByteFlushed j = true ∧ (os.makeBytesSymbolic is).isByteConcrete j = false := by
  induction is with
  | nil => exact fun os h => ⟨h, rfl, rfl, fun j h => h, fun j hj => absurd hj List.not_mem_nil⟩
  | cons i is ih =>
    intro os hos
    have hflush : ∀ j, (((os.markByteSymbolic i).setKnownSymbolic i none).markByteFlushed i).isByteFlushed j = true ↔
        j = i ∨ os.flushMask = none ∨ os.isByteFlushed j = true := by
      intro j
      unfold markByteFlushed isByteFlushed
      simp only [setKnownSymbolic, markByteSymbolic]
      cases os.flushMask with
      | none => simp
      | some mask =>
        simp only [Function.update_apply]
        by_cases hji : j = i
        · simp [hji]
        · simp [hji]
    obtain ⟨hk, hu, hs, hkeep, his⟩ := ih (((os.markByteSymbolic i).setKnownSymbolic i none).markByteFlushed i)
      (fun j => (knownSymbolic_setKnownSymbolic (os.markByteSymbolic i) i j none).trans
        (by rw [knownSymbolic_markByteSymbolic, hos j, ite_self]))
    refine ⟨hk, hu, hs, fun j hj => hkeep j ⟨(hflush j).2 (.inr (.inr hj.1)), ?_⟩, fun j hj => ?_⟩
    · exact (isByteConcrete_markByteSymbolic os i j).trans (by rw [hj.2, ite_self])
    · obtain rfl | hj := List.mem_cons.1 hj
      · exact hkeep j ⟨(hflush j).2 (.inl rfl), (isByteConcrete_markByteSymbolic os j j).trans (if_pos rfl)⟩
      · exact his j hj

/-- The initial bytes of an array, of which a constant one has only as many as its size. -/
def initialBytes (a : Assignment) (size : Size) (array : Array) : PlainArray :=
  (List.range size).map fun i =>
    if array.isConstantArray = true ∧ array.size ≤ i then none else some (array.initialValue a i)

theorem newSymbolic_represents (size : Size) (array : Array) : Consistent (newSymbolic size array) ∧
    ∀ a, Represents a (newSymbolic size array) (initialBytes a size array) := by
  obtain ⟨hk, hu, hs, -, his⟩ := makeBytesSymbolic_spec (List.range size)
    ⟨size, fun _ => 0, none, none, none, ⟨some array, []⟩, false, size.2⟩ (fun _ => rfl)
  refine ⟨⟨fun {j e} h => ?_, fun {j} hj hf => ?_, fun {j e} h => ?_, fun write h => ?_⟩, fun a =>
    ⟨?_, fun {j v} hj hc => ?_, fun {j v e} _ h => ?_, fun {j v} hj hf => ?_⟩⟩
  · rw [show (newSymbolic size array).knownSymbolic j = none from hk j] at h
    cases h
  · rw [show (newSymbolic size array).size = size from hs] at hj
    rw [show (newSymbolic size array).isByteFlushed j = true from (his j (List.mem_range.2 hj)).1] at hf
    cases hf
  · rw [show (newSymbolic size array).knownSymbolic j = none from hk j] at h
    cases h
  · rw [show (newSymbolic size array).updates = ⟨some array, []⟩ from hu] at h
    exact absurd h List.not_mem_nil
  · rw [initialBytes, List.length_map, List.length_range]
    exact hs.symm
  · have hlt : j < size := by
      have := (List.getElem?_eq_some_iff.1 hj).1
      rwa [initialBytes, List.length_map, List.length_range] at this
    rw [show (newSymbolic size array).isByteConcrete j = false from (his j (List.mem_range.2 hlt)).2] at hc
    cases hc
  · rw [show (newSymbolic size array).knownSymbolic j = none from hk j] at h
    cases h
  · have hlt : j < size := by
      have := (List.getElem?_eq_some_iff.1 hj).1
      rwa [initialBytes, List.length_map, List.length_range] at this
    rw [initialBytes, List.getElem?_map, List.getElem?_range hlt, Option.map_some, Option.some.injEq] at hj
    rw [show (newSymbolic size array).updates = ⟨some array, []⟩ from hu]
    split at hj
    · cases hj
    · rename_i hne
      exact ⟨fun hconst => Nat.lt_of_not_le fun hle => hne ⟨hconst, hle⟩, Option.some.inj hj⟩

end

end ObjectState

end SymBisect.Memory
