import Mathlib

/-!
# Types and their sizes

The types of the program that is run, and the sizes that `llvm::DataLayout` gives them.  The sizes are not part of the
executor: they are a structure whose fields are what the executor asks for, with what is documented of them.

* `DataLayout.getTypeStoreSize`: the bytes a value takes, without the padding behind it.
* `DataLayout.getTypeAllocSize`: the distance of two values in an array.
* `DataLayout.x86_64`: the sizes of the usual target.
-/

namespace SymBisect

/-- `llvm::Type`, as far as values in memory have one; a pointer is the same whatever it points to. -/
inductive LLVMType where
  | integer (width : ℕ)
  | float (width : ℕ)
  | pointer
  | array (count : ℕ) (element : LLVMType)
  | vector (count : ℕ) (element : LLVMType)
  | struct (packed : Bool) (fields : List LLVMType)

/-- `llvm::DataLayout`: `getElementOffset` is that of the `StructLayout` of the fields. -/
structure DataLayout where
  getTypeSizeInBits : LLVMType → ℕ
  getTypeAllocSize : LLVMType → ℕ
  getElementOffset : Bool → List LLVMType → ℕ → ℕ
  size_integer : ∀ w, getTypeSizeInBits (.integer w) = w
  size_float : ∀ w, getTypeSizeInBits (.float w) = w
  size_pointer : getTypeSizeInBits .pointer = 64
  size_array : ∀ n e, getTypeSizeInBits (.array n e) = n * (8 * getTypeAllocSize e)
  size_vector : ∀ n e, getTypeSizeInBits (.vector n e) = n * getTypeSizeInBits e
  size_le_alloc : ∀ t, getTypeSizeInBits t ≤ 8 * getTypeAllocSize t
  offset_zero : ∀ packed fields, getElementOffset packed fields 0 = 0
  offset_next : ∀ packed fields i f, fields[i]? = some f → i + 1 < fields.length →
    getElementOffset packed fields i + getTypeAllocSize f ≤ getElementOffset packed fields (i + 1)
  offset_last : ∀ packed fields i f, fields[i]? = some f → i + 1 = fields.length →
    8 * (getElementOffset packed fields i + getTypeAllocSize f) ≤ getTypeSizeInBits (.struct packed fields)

namespace DataLayout

/-- `getTypeStoreSize`. -/
def getTypeStoreSize (dl : DataLayout) (t : LLVMType) : ℕ := (dl.getTypeSizeInBits t + 7) / 8

theorem store_le_alloc (dl : DataLayout) (t : LLVMType) : dl.getTypeStoreSize t ≤ dl.getTypeAllocSize t := by
  have h := dl.size_le_alloc t
  unfold getTypeStoreSize
  omega

/-! ### The usual target -/

/-- The size in bits and the alignment in bytes of a type. -/
structure Metrics where
  bits : ℕ
  align : ℕ
  deriving DecidableEq, Repr

/-- `alignTo`. -/
def alignTo (offset align : ℕ) : ℕ := (offset + align - 1) / align * align

/-- `alignTo` the alignment, of the bytes that hold the bits. -/
def Metrics.alloc (m : Metrics) : ℕ := alignTo ((m.bits + 7) / 8) m.align

/-- The offset of the next field, from the end of the fields before. -/
def fieldStart (packed : Bool) (offset : ℕ) (m : Metrics) : ℕ := alignTo offset (if packed then 1 else m.align)

/-- The offsets of the fields, from the end of the fields before. -/
def fieldOffsets (packed : Bool) : ℕ → List Metrics → List ℕ
  | _, [] => []
  | offset, m :: ms => fieldStart packed offset m :: fieldOffsets packed (fieldStart packed offset m + m.alloc) ms

/-- The end of the last field. -/
def fieldsEnd (packed : Bool) : ℕ → List Metrics → ℕ
  | offset, [] => offset
  | offset, m :: ms => fieldsEnd packed (fieldStart packed offset m + m.alloc) ms

/-- The alignment of a structure. -/
def structAlign (packed : Bool) (ms : List Metrics) : ℕ := if packed then 1 else ms.foldr (fun m n => max m.align n) 1

mutual

/-- Size and alignment on x86-64. -/
def metrics : LLVMType → Metrics
  | .integer w => ⟨w, if w ≤ 8 then 1 else if w ≤ 16 then 2 else if w ≤ 32 then 4 else 8⟩
  | .float w => ⟨w, if w ≤ 16 then 2 else if w ≤ 32 then 4 else if w ≤ 64 then 8 else 16⟩
  | .pointer => ⟨64, 8⟩
  | .array n e => ⟨n * (8 * (metrics e).alloc), (metrics e).align⟩
  | .vector n e => ⟨n * (metrics e).bits, 2 ^ Nat.clog 2 (n * (metrics e).alloc)⟩
  | .struct packed fields =>
    ⟨8 * alignTo (fieldsEnd packed 0 (fieldMetrics fields)) (structAlign packed (fieldMetrics fields)),
      structAlign packed (fieldMetrics fields)⟩

def fieldMetrics : List LLVMType → List Metrics
  | [] => []
  | t :: ts => metrics t :: fieldMetrics ts

end

theorem le_alignTo (offset : ℕ) {align : ℕ} (h : 0 < align) : offset ≤ alignTo offset align := by
  unfold alignTo
  have hdiv := Nat.div_add_mod (offset + align - 1) align
  have hmod := Nat.mod_lt (offset + align - 1) h
  rw [Nat.mul_comm] at hdiv
  omega

theorem alignTo_zero {align : ℕ} (h : 0 < align) : alignTo 0 align = 0 := by
  unfold alignTo
  rw [Nat.div_eq_of_lt (by omega), Nat.zero_mul]

theorem structAlign_pos (packed : Bool) (ms : List Metrics) : 0 < structAlign packed ms := by
  unfold structAlign
  split
  · exact Nat.one_pos
  · induction ms with
    | nil => exact Nat.one_pos
    | cons m ms ih => exact ih.trans_le (le_max_right _ _)

mutual

theorem metrics_align_pos (t : LLVMType) : 0 < (metrics t).align := by
  match t with
  | .integer w =>
    rw [metrics]
    split_ifs <;> exact Nat.succ_pos _
  | .float w =>
    rw [metrics]
    split_ifs <;> exact Nat.succ_pos _
  | .pointer => decide
  | .array n e => exact metrics_align_pos e
  | .vector n e => exact Nat.two_pow_pos _
  | .struct packed fields => exact structAlign_pos packed _

theorem fieldMetrics_align_pos (ts : List LLVMType) : ∀ m ∈ fieldMetrics ts, 0 < m.align := by
  match ts with
  | [] =>
    intro m hm
    cases hm
  | t :: ts =>
    intro m hm
    rw [fieldMetrics, List.mem_cons] at hm
    cases hm with
    | inl h =>
      rw [h]
      exact metrics_align_pos t
    | inr h => exact fieldMetrics_align_pos ts m h

end

theorem fieldMetrics_eq_map (ts : List LLVMType) : fieldMetrics ts = ts.map metrics := by
  induction ts with
  | nil => rfl
  | cons t ts ih => rw [fieldMetrics, ih, List.map_cons]

theorem fieldStart_ge {packed : Bool} {offset : ℕ} {m : Metrics} (h : 0 < m.align) : offset ≤ fieldStart packed offset m := by
  unfold fieldStart
  split
  · exact le_alignTo _ Nat.one_pos
  · exact le_alignTo _ h

/-- A field starts behind the one before. -/
theorem fieldOffsets_next {packed : Bool} {ms : List Metrics} {offset i : ℕ} {m : Metrics} (hpos : ∀ m ∈ ms, 0 < m.align)
    (hm : ms[i]? = some m) (hi : i + 1 < ms.length) :
    (fieldOffsets packed offset ms).getD i 0 + m.alloc ≤ (fieldOffsets packed offset ms).getD (i + 1) 0 := by
  induction ms generalizing offset i with
  | nil => cases hm
  | cons m' ms ih =>
    have hrest : ∀ m ∈ ms, 0 < m.align := fun m hm => hpos m (List.mem_cons_of_mem _ hm)
    cases i with
    | zero =>
      cases hm
      cases ms with
      | nil => exact absurd hi (lt_irrefl 1)
      | cons m'' ms => exact fieldStart_ge (hpos m'' (List.mem_cons_of_mem _ List.mem_cons_self))
    | succ i => exact ih hrest hm (Nat.lt_of_succ_lt_succ hi)

theorem fieldsEnd_ge {packed : Bool} {ms : List Metrics} {offset : ℕ} (hpos : ∀ m ∈ ms, 0 < m.align) :
    offset ≤ fieldsEnd packed offset ms := by
  induction ms generalizing offset with
  | nil => exact le_rfl
  | cons m ms ih =>
    have hrest : fieldStart packed offset m + m.alloc ≤ fieldsEnd packed (fieldStart packed offset m + m.alloc) ms :=
      ih fun m hm => hpos m (List.mem_cons_of_mem _ hm)
    have hstart : offset ≤ fieldStart packed offset m := fieldStart_ge (hpos m List.mem_cons_self)
    rw [fieldsEnd]
    omega

/-- The last field ends where the fields end. -/
theorem fieldOffsets_last {ms : List Metrics} {i : ℕ} {m : Metrics} (packed : Bool) (offset : ℕ) (hpos : ∀ m ∈ ms, 0 < m.align)
    (hm : ms[i]? = some m) : (fieldOffsets packed offset ms).getD i 0 + m.alloc ≤ fieldsEnd packed offset ms := by
  induction ms generalizing offset i with
  | nil => cases hm
  | cons m' ms ih =>
    have hrest : ∀ m ∈ ms, 0 < m.align := fun m hm => hpos m (List.mem_cons_of_mem _ hm)
    cases i with
    | zero =>
      cases hm
      exact fieldsEnd_ge hrest
    | succ i => exact ih _ hrest hm

theorem Metrics.bits_le_alloc {m : Metrics} (h : 0 < m.align) : m.bits ≤ 8 * m.alloc := by
  have hle := le_alignTo ((m.bits + 7) / 8) h
  unfold Metrics.alloc
  omega

/-- The sizes on x86-64. -/
def x86_64 : DataLayout where
  getTypeSizeInBits := fun t => (metrics t).bits
  getTypeAllocSize := fun t => (metrics t).alloc
  getElementOffset := fun packed fields i => (fieldOffsets packed 0 (fieldMetrics fields)).getD i 0
  size_integer := fun _ => rfl
  size_float := fun _ => rfl
  size_pointer := rfl
  size_array := fun _ _ => rfl
  size_vector := fun _ _ => rfl
  size_le_alloc := fun t => Metrics.bits_le_alloc (metrics_align_pos t)
  offset_zero := by
    intro packed fields
    cases fields with
    | nil => rfl
    | cons t ts =>
      show fieldStart packed 0 (metrics t) = 0
      unfold fieldStart
      split
      · rfl
      · exact alignTo_zero (metrics_align_pos t)
  offset_next := by
    intro packed fields i f hf hi
    have hm : (fieldMetrics fields)[i]? = some (metrics f) := by
      rw [fieldMetrics_eq_map, List.getElem?_map, hf]
      rfl
    refine fieldOffsets_next (fieldMetrics_align_pos fields) hm ?_
    rw [fieldMetrics_eq_map, List.length_map]
    exact hi
  offset_last := by
    intro packed fields i f hf hi
    have hm : (fieldMetrics fields)[i]? = some (metrics f) := by
      rw [fieldMetrics_eq_map, List.getElem?_map, hf]
      rfl
    have hend := fieldOffsets_last packed 0 (fieldMetrics_align_pos fields) hm
    have hsize := le_alignTo (fieldsEnd packed 0 (fieldMetrics fields)) (structAlign_pos packed (fieldMetrics fields))
    exact Nat.mul_le_mul_left 8 (hend.trans hsize)

end DataLayout

end SymBisect
