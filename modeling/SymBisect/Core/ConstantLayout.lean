import Mathlib
import SymBisect.Core.GetElementPtr

/-!
# Constants in memory

`evalConstant` of `lib/Core/ExecutorUtil.cpp` on constants that are built from integers, arrays, vectors, zero initialisers
and structures.  The fields of a structure are padded to their offsets; the elements of an array are joined without padding.

* `createN_getLsbD`: where a part is found in what `ConcatExpr::createN` joins.
* `evalConstant_width`: the value is as wide as the type.
* `evalConstant_at`: each part is at its offset, for every distance of array elements between store and allocation size.
* `constants_laid_out_iff`: a constant and what it is built from have their memory layout exactly when the elements of every
  array are as wide as they are apart, and no zero initialiser has no size.
-/

namespace SymBisect

/-- `llvm::Constant`, as far as `evalConstant` builds it from other constants; `zero` is a zero initialiser or `undef`. -/
inductive LLVMConstant where
  | int {w : ℕ} (value : BitVec w)
  | fp {w : ℕ} (bits : BitVec w)
  | null
  | zero (type : LLVMType)
  | array (element : LLVMType) (elements : List LLVMConstant)
  | vector (element : LLVMType) (elements : List LLVMConstant)
  | struct (packed : Bool) (fields : List LLVMConstant)

namespace LLVMConstant

mutual

/-- `getType`. -/
def type : LLVMConstant → LLVMType
  | .int (w := w) _ => .integer w
  | .fp (w := w) _ => .float w
  | .null => .pointer
  | .zero t => t
  | .array element elements => .array elements.length element
  | .vector element elements => .vector elements.length element
  | .struct packed fields => .struct packed (types fields)

def types : List LLVMConstant → List LLVMType
  | [] => []
  | c :: cs => c.type :: types cs

end

mutual

/-- The constant and what it is built from. -/
def parts : LLVMConstant → List LLVMConstant
  | .array element elements => .array element elements :: partsOf elements
  | .vector element elements => .vector element elements :: partsOf elements
  | .struct packed fields => .struct packed fields :: partsOf fields
  | c => [c]

def partsOf : List LLVMConstant → List LLVMConstant
  | [] => []
  | c :: cs => c.parts ++ partsOf cs

end

/-- What LLVM promises of a constant: the width of a number is an `unsigned`, an aggregate that is written out has elements,
and they are of the element type. -/
def NodeTyped : LLVMConstant → Prop
  | .int (w := w) _ => w < 2 ^ 32
  | .fp (w := w) _ => w < 2 ^ 32
  | .array element elements => elements ≠ [] ∧ ∀ c ∈ elements, c.type = element
  | .vector element elements => elements ≠ [] ∧ ∀ c ∈ elements, c.type = element
  | .struct _ fields => fields ≠ []
  | _ => True

def Typed (c : LLVMConstant) : Prop := ∀ k ∈ c.parts, k.NodeTyped

end LLVMConstant

open LLVMConstant

/-! ### Evaluation -/

/-- `ConcatExpr::create` of two constants; a width that is no `unsigned` fails the assertion of `APInt::zext`. -/
def concatConstants (l r : ConstantValue) : Option ConstantValue :=
  if l.1 + r.1 < 2 ^ 32 then some ⟨l.1 + r.1, l.2 ++ r.2⟩ else none

/-- `ConcatExpr::createN` of constants, the first of which is the highest. -/
def createN : List ConstantValue → Option ConstantValue
  | [] => none
  | [k] => some k
  | k :: ks => do
    let r ← createN ks
    concatConstants k r

/-- `ConstantExpr::create(0, width)`, which takes an `unsigned` other than zero. -/
def createZero (width : ℕ) : Option ConstantValue :=
  if width % 2 ^ 32 = 0 then none else some ⟨width % 2 ^ 32, 0⟩

/-- Where the field with number `op` ends, with the padding behind it. -/
def fieldEnd (dl : DataLayout) (packed : Bool) (fields : List LLVMType) (op : ℕ) : ℕ :=
  if op + 1 = fields.length then dl.getTypeSizeInBits (.struct packed fields) else 8 * dl.getElementOffset packed fields (op + 1)

/-- The padding behind a field, in the room up to the next one. -/
def fieldPadding (room width : ℕ) : Option (List ConstantValue) :=
  if width < room then (createZero (room - width)).map fun p => [p] else some []

/-- The fields of a structure from the field with number `op` on, each with the padding behind it. -/
def padFields (dl : DataLayout) (packed : Bool) (fields : List LLVMType) : ℕ → List ConstantValue → Option (List ConstantValue)
  | _, [] => some []
  | op, kid :: kids => do
    let padding ← fieldPadding (fieldEnd dl packed fields op - 8 * dl.getElementOffset packed fields op) kid.1
    let others ← padFields dl packed fields (op + 1) kids
    return kid :: padding ++ others

mutual

/-- `evalConstant`; `landingPad` says that the instruction of the constant is a landing pad. -/
def evalConstant (dl : DataLayout) (landingPad : Bool) : LLVMConstant → Option ConstantValue
  | .int v => some ⟨_, v⟩
  | .fp v => some ⟨_, v⟩
  | .null => some ⟨64, 0⟩
  | .zero t =>
    if dl.getTypeSizeInBits t % 2 ^ 32 = 0 && landingPad then createZero 1 else createZero (dl.getTypeSizeInBits t)
  | .array _ elements => do
    let kids ← evalConstants dl landingPad elements
    createN kids.reverse
  | .vector _ elements => do
    let kids ← evalConstants dl landingPad elements
    createN kids.reverse
  | .struct packed fields => do
    let kids ← evalConstants dl landingPad fields
    let padded ← padFields dl packed (types fields) 0 kids
    createN padded.reverse

def evalConstants (dl : DataLayout) (landingPad : Bool) : List LLVMConstant → Option (List ConstantValue)
  | [] => some []
  | c :: cs => do
    let kid ← evalConstant dl landingPad c
    let kids ← evalConstants dl landingPad cs
    return kid :: kids

end

/-! ### Layout -/

/-- What an index selects in a type, with the distance in bits; `size` is the distance of two array elements in bytes. -/
def LLVMType.child (dl : DataLayout) (size : LLVMType → ℕ) : LLVMType → ℕ → Option (ℕ × LLVMType)
  | .array n e, i => if i < n then some (i * (8 * size e), e) else none
  | .vector n e, i => if i < n then some (i * dl.getTypeSizeInBits e, e) else none
  | .struct packed fields, i => fields[i]?.map fun t => (8 * dl.getElementOffset packed fields i, t)
  | _, _ => none

/-- What an index selects in a constant. -/
def LLVMConstant.child (dl : DataLayout) (size : LLVMType → ℕ) : LLVMConstant → ℕ → Option (ℕ × LLVMConstant)
  | .zero t, i => (t.child dl size i).map fun p => (p.1, .zero p.2)
  | .array e elements, i => elements[i]?.map fun c => (i * (8 * size e), c)
  | .vector e elements, i => elements[i]?.map fun c => (i * dl.getTypeSizeInBits e, c)
  | .struct packed fields, i => fields[i]?.map fun c => (8 * dl.getElementOffset packed (types fields) i, c)
  | _, _ => none

/-- What a list of indices selects in a constant. -/
def LLVMConstant.at? (dl : DataLayout) (size : LLVMType → ℕ) : LLVMConstant → List ℕ → Option (ℕ × LLVMConstant)
  | c, [] => some (0, c)
  | c, i :: path => do
    let (offset, part) ← c.child dl size i
    let (rest, leaf) ← part.at? dl size path
    return (offset + rest, leaf)

/-- The value of a scalar. -/
def LLVMConstant.leaf? : LLVMConstant → Option ConstantValue
  | .int v => some ⟨_, v⟩
  | .fp v => some ⟨_, v⟩
  | .null => some ⟨64, 0⟩
  | .zero (.integer w) => some ⟨w, 0⟩
  | .zero (.float w) => some ⟨w, 0⟩
  | .zero .pointer => some ⟨64, 0⟩
  | _ => none

/-! ### Joined values -/

/-- The bits of some values. -/
def totalWidth (ks : List ConstantValue) : ℕ := (ks.map fun k => k.1).sum

section Joined

variable {k x r : ConstantValue} {ks before behind : List ConstantValue}

@[simp] theorem totalWidth_nil : totalWidth [] = 0 := rfl

@[simp] theorem totalWidth_cons : totalWidth (k :: ks) = k.1 + totalWidth ks := List.sum_cons

@[simp] theorem totalWidth_append : totalWidth (before ++ behind) = totalWidth before + totalWidth behind := by
  rw [totalWidth, List.map_append, List.sum_append]
  rfl

theorem totalWidth_reverse : totalWidth ks.reverse = totalWidth ks := by
  rw [totalWidth, List.map_reverse, List.sum_reverse]
  rfl

/-- Values of one width. -/
theorem totalWidth_eq {b : ℕ} (h : ∀ k ∈ ks, k.1 = b) : totalWidth ks = ks.length * b := by
  induction ks with
  | nil => exact (Nat.zero_mul b).symm
  | cons k ks ih =>
    rw [totalWidth_cons, ih fun k hk => h k (List.mem_cons_of_mem _ hk), h k List.mem_cons_self, List.length_cons]
    ring

theorem createN_cons (hne : ks ≠ []) : createN (k :: ks) = (createN ks).bind (concatConstants k) := by
  cases ks with
  | nil => exact absurd rfl hne
  | cons k' ks => rfl

theorem concatConstants_eq {l : ConstantValue} (h : concatConstants l k = some r) :
    r = ⟨l.1 + k.1, l.2 ++ k.2⟩ ∧ l.1 + k.1 < 2 ^ 32 := by
  unfold concatConstants at h
  split at h
  · rename_i hlt
    cases h
    exact ⟨rfl, hlt⟩
  · cases h

theorem createN_width (h : createN ks = some r) : r.1 = totalWidth ks := by
  induction ks generalizing r with
  | nil => cases h
  | cons k ks ih =>
    by_cases hne : ks = []
    · subst hne
      cases h
      rfl
    · rw [createN_cons hne, Option.bind_eq_some_iff] at h
      obtain ⟨r', hr', hconcat⟩ := h
      obtain ⟨rfl, -⟩ := concatConstants_eq hconcat
      rw [totalWidth_cons, ← ih hr']

theorem createN_isSome (hne : ks ≠ []) (h : totalWidth ks < 2 ^ 32) : ∃ r, createN ks = some r := by
  induction ks with
  | nil => exact absurd rfl hne
  | cons k ks ih =>
    by_cases hks : ks = []
    · subst hks
      exact ⟨k, rfl⟩
    · rw [totalWidth_cons] at h
      obtain ⟨r, hr⟩ := ih hks (by omega)
      have hlt : k.1 + r.1 < 2 ^ 32 := by
        rw [createN_width hr]
        exact h
      rw [createN_cons hks, hr, Option.bind_some, concatConstants, if_pos hlt]
      exact ⟨_, rfl⟩

theorem createN_lt (h : createN ks = some r) (hlt : ∀ k ∈ ks, k.1 < 2 ^ 32) : r.1 < 2 ^ 32 := by
  cases ks with
  | nil => cases h
  | cons k ks =>
    by_cases hne : ks = []
    · subst hne
      cases h
      exact hlt r List.mem_cons_self
    · rw [createN_cons hne, Option.bind_eq_some_iff] at h
      obtain ⟨r', hr', hconcat⟩ := h
      obtain ⟨rfl, hsum⟩ := concatConstants_eq hconcat
      exact hsum

/-- **A part of what is joined** is found above the parts that follow it. -/
theorem createN_getLsbD (h : createN (before ++ x :: behind) = some r) {i : ℕ} (hi : i < x.1) :
    r.2.getLsbD (totalWidth behind + i) = x.2.getLsbD i := by
  induction before generalizing r with
  | nil =>
    rw [List.nil_append] at h
    by_cases hne : behind = []
    · subst hne
      cases h
      rw [totalWidth_nil, Nat.zero_add]
    · rw [createN_cons hne, Option.bind_eq_some_iff] at h
      obtain ⟨r', hr', hconcat⟩ := h
      obtain ⟨rfl, -⟩ := concatConstants_eq hconcat
      rw [BitVec.getLsbD_append, ← createN_width hr', if_neg (by omega), Nat.add_sub_cancel_left]
  | cons k before ih =>
    rw [List.cons_append, createN_cons (by simp), Option.bind_eq_some_iff] at h
    obtain ⟨r', hr', hconcat⟩ := h
    obtain ⟨rfl, -⟩ := concatConstants_eq hconcat
    have hwidth := createN_width hr'
    rw [totalWidth_append, totalWidth_cons] at hwidth
    rw [BitVec.getLsbD_append, if_pos (by omega)]
    exact ih hr'

/-- A part, where the parts are given from the lowest on. -/
theorem createN_reverse_getLsbD (h : createN (before ++ x :: behind).reverse = some r) {i : ℕ} (hi : i < x.1) :
    r.2.getLsbD (totalWidth before + i) = x.2.getLsbD i := by
  rw [List.reverse_append, List.reverse_cons, List.append_assoc, List.singleton_append] at h
  have hpart := createN_getLsbD h hi
  rwa [totalWidth_reverse] at hpart

/-- Bits of a part are bits of the whole. -/
theorem extract_part {s o w : ℕ} (h : ∀ i < x.1, r.2.getLsbD (s + i) = x.2.getLsbD i) (hle : o + w ≤ x.1) :
    r.2.extractLsb' (s + o) w = x.2.extractLsb' o w := by
  refine BitVec.eq_of_getLsbD_eq fun i hi => ?_
  rw [BitVec.getLsbD_extractLsb', BitVec.getLsbD_extractLsb', Nat.add_assoc, h (o + i) (by omega)]

end Joined

/-! ### Widths -/

section

variable {dl : DataLayout} {landingPad : Bool} {c : LLVMConstant} {cs : List LLVMConstant} {v : ConstantValue}

theorem evalConstants_length {kids : List ConstantValue} (h : evalConstants dl landingPad cs = some kids) :
    kids.length = cs.length := by
  induction cs generalizing kids with
  | nil =>
    cases h
    rfl
  | cons c cs ih =>
    rw [evalConstants, Option.bind_eq_bind, Option.bind_eq_some_iff] at h
    obtain ⟨kid, -, h⟩ := h
    rw [Option.bind_eq_bind, Option.bind_eq_some_iff] at h
    obtain ⟨rest, hrest, h⟩ := h
    cases h
    rw [List.length_cons, List.length_cons, ih hrest]

theorem evalConstants_getElem? {kids : List ConstantValue} (h : evalConstants dl landingPad cs = some kids) {i : ℕ}
    (hc : cs[i]? = some c) : ∃ kid, kids[i]? = some kid ∧ evalConstant dl landingPad c = some kid := by
  induction cs generalizing kids i with
  | nil => cases hc
  | cons c' cs ih =>
    rw [evalConstants, Option.bind_eq_bind, Option.bind_eq_some_iff] at h
    obtain ⟨kid, hkid, h⟩ := h
    rw [Option.bind_eq_bind, Option.bind_eq_some_iff] at h
    obtain ⟨rest, hrest, h⟩ := h
    cases h
    cases i with
    | zero =>
      cases hc
      exact ⟨kid, rfl, hkid⟩
    | succ i => exact ih hrest hc

theorem evalConstants_mem {kids : List ConstantValue} (h : evalConstants dl landingPad cs = some kids) {kid : ConstantValue}
    (hkid : kid ∈ kids) : ∃ c ∈ cs, evalConstant dl landingPad c = some kid := by
  obtain ⟨i, hi⟩ := List.mem_iff_getElem?.1 hkid
  have hlt : i < cs.length := by
    rw [← evalConstants_length h]
    exact (List.getElem?_eq_some_iff.1 hi).1
  obtain ⟨kid', hkid', heval⟩ := evalConstants_getElem? h (List.getElem?_eq_getElem hlt)
  rw [hi] at hkid'
  cases hkid'
  exact ⟨_, List.getElem_mem hlt, heval⟩

theorem createZero_eq {n : ℕ} (hpos : 0 < n) (hlt : n < 2 ^ 32) : createZero n = some ⟨n, 0⟩ := by
  rw [createZero, Nat.mod_eq_of_lt hlt, if_neg (by omega)]

/-- A field fits before the next one. -/
theorem field_fits (dl : DataLayout) (packed : Bool) {fields : List LLVMType} {op : ℕ} {f : LLVMType} (hf : fields[op]? = some f) :
    8 * dl.getElementOffset packed fields op + dl.getTypeSizeInBits f ≤ fieldEnd dl packed fields op := by
  have hsize := dl.size_le_alloc f
  have hlt := (List.getElem?_eq_some_iff.1 hf).1
  unfold fieldEnd
  split
  · rename_i hlast
    have hend := dl.offset_last packed fields op f hf hlast
    omega
  · rename_i hnext
    have hend := dl.offset_next packed fields op f hf (by omega)
    omega

/-- **The fields with their padding** fill the structure, and each is at its offset. -/
theorem padFields_spec {packed : Bool} {fields : List LLVMType} {kids : List ConstantValue} (op : ℕ) (hne : kids ≠ [])
    (hlength : op + kids.length = fields.length)
    (hwidth : ∀ i kid f, kids[i]? = some kid → fields[op + i]? = some f → kid.1 = dl.getTypeSizeInBits f)
    (hbits : dl.getTypeSizeInBits (.struct packed fields) < 2 ^ 32) :
    ∃ padded, padFields dl packed fields op kids = some padded ∧
      totalWidth padded + 8 * dl.getElementOffset packed fields op = dl.getTypeSizeInBits (.struct packed fields) ∧
      ∀ i kid, kids[i]? = some kid → ∃ before behind, padded = before ++ kid :: behind ∧
        totalWidth before + 8 * dl.getElementOffset packed fields op = 8 * dl.getElementOffset packed fields (op + i) := by
  induction kids generalizing op with
  | nil => exact absurd rfl hne
  | cons kid kids ih =>
    rw [List.length_cons] at hlength
    have hlt : op < fields.length := by omega
    have hfit := field_fits dl packed (List.getElem?_eq_getElem hlt)
    have hkid := hwidth 0 kid _ rfl (List.getElem?_eq_getElem hlt)
    -- what the fields behind this one give
    have hothers : ∃ others, padFields dl packed fields (op + 1) kids = some others ∧
        totalWidth others + fieldEnd dl packed fields op = dl.getTypeSizeInBits (.struct packed fields) ∧
        ∀ i kid, kids[i]? = some kid → ∃ before behind, others = before ++ kid :: behind ∧
          totalWidth before + fieldEnd dl packed fields op = 8 * dl.getElementOffset packed fields (op + (i + 1)) := by
      by_cases hkids : kids = []
      · subst hkids
        have hend : fieldEnd dl packed fields op = dl.getTypeSizeInBits (.struct packed fields) := by
          have hlast : op + 1 = fields.length := hlength
          rw [fieldEnd, if_pos hlast]
        refine ⟨[], rfl, ?_, ?_⟩
        · rw [totalWidth_nil, hend, Nat.zero_add]
        · intro i kid hi
          cases hi
      · have hpos := List.length_pos_iff.2 hkids
        have hend : fieldEnd dl packed fields op = 8 * dl.getElementOffset packed fields (op + 1) := by
          rw [fieldEnd, if_neg (by omega)]
        rw [hend]
        obtain ⟨others, hpad, htotal, hat⟩ := ih (op + 1) hkids (by omega) (by
          intro i k f hk hf
          refine hwidth (i + 1) k f hk ?_
          rw [← hf]
          congr 1
          omega)
        refine ⟨others, hpad, htotal, ?_⟩
        intro i k hi
        obtain ⟨before, behind, heq, hbefore⟩ := hat i k hi
        refine ⟨before, behind, heq, ?_⟩
        rw [hbefore, Nat.add_assoc, Nat.add_comm 1]
    obtain ⟨others, hpad, htotal, hat⟩ := hothers
    have hpadding : ∃ padding,
        fieldPadding (fieldEnd dl packed fields op - 8 * dl.getElementOffset packed fields op) kid.1 = some padding ∧
          kid.1 + totalWidth padding + 8 * dl.getElementOffset packed fields op = fieldEnd dl packed fields op := by
      unfold fieldPadding
      split
      · rename_i hroom
        rw [createZero_eq (by omega) (by omega)]
        refine ⟨_, rfl, ?_⟩
        rw [totalWidth_cons, totalWidth_nil]
        show kid.1 + (fieldEnd dl packed fields op - 8 * dl.getElementOffset packed fields op - kid.1 + 0) + _ = _
        omega
      · refine ⟨[], rfl, ?_⟩
        rw [totalWidth_nil]
        omega
    obtain ⟨padding, hpadding, hsum⟩ := hpadding
    refine ⟨kid :: padding ++ others, ?_, ?_, ?_⟩
    · rw [padFields, hpadding, Option.bind_eq_bind, Option.bind_some, hpad]
      rfl
    · rw [totalWidth_append, totalWidth_cons]
      omega
    · intro i k hi
      cases i with
      | zero =>
        cases hi
        exact ⟨[], padding ++ others, rfl, by rw [totalWidth_nil, Nat.zero_add]; rfl⟩
      | succ i =>
        obtain ⟨before, behind, heq, hbefore⟩ := hat i k hi
        refine ⟨kid :: padding ++ before, behind, ?_, ?_⟩
        · rw [heq, List.append_assoc]
        · rw [totalWidth_append, totalWidth_cons]
          omega

/-- A field ends within the structure. -/
theorem field_le (dl : DataLayout) (packed : Bool) {fields : List LLVMType} {op : ℕ} {f : LLVMType} (hf : fields[op]? = some f) :
    8 * dl.getElementOffset packed fields op + dl.getTypeSizeInBits f ≤ dl.getTypeSizeInBits (.struct packed fields) := by
  have hlt := (List.getElem?_eq_some_iff.1 hf).1
  obtain ⟨rest, hrest⟩ : ∃ rest, op + 1 + rest = fields.length := ⟨fields.length - (op + 1), by omega⟩
  induction rest generalizing op f with
  | zero =>
    have hfit := field_fits dl packed hf
    have hlast : op + 1 = fields.length := hrest
    rwa [fieldEnd, if_pos hlast] at hfit
  | succ rest ih =>
    have hfit := field_fits dl packed hf
    rw [fieldEnd, if_neg (by omega)] at hfit
    have hnext := ih (List.getElem?_eq_getElem (show op + 1 < fields.length by omega)) (by omega) (by omega)
    omega

theorem types_eq_map (cs : List LLVMConstant) : types cs = cs.map type := by
  induction cs with
  | nil => rfl
  | cons c cs ih => rw [types, ih, List.map_cons]

theorem mem_partsOf {k : LLVMConstant} : k ∈ partsOf cs ↔ ∃ c ∈ cs, k ∈ c.parts := by
  induction cs with
  | nil => simp [partsOf]
  | cons c cs ih => simp [partsOf, ih]

theorem self_mem_parts (c : LLVMConstant) : c ∈ c.parts := by
  cases c <;> simp [parts]

/-- The elements of an aggregate are what it is built from. -/
def LLVMConstant.kids : LLVMConstant → List LLVMConstant
  | .array _ elements => elements
  | .vector _ elements => elements
  | .struct _ fields => fields
  | _ => []

theorem parts_of_kid {k : LLVMConstant} (hc : c ∈ k.kids) : ∀ x ∈ c.parts, x ∈ k.parts := by
  intro x hx
  cases k with
  | array element elements => exact List.mem_cons_of_mem _ (mem_partsOf.2 ⟨c, hc, hx⟩)
  | vector element elements => exact List.mem_cons_of_mem _ (mem_partsOf.2 ⟨c, hc, hx⟩)
  | struct packed fields => exact List.mem_cons_of_mem _ (mem_partsOf.2 ⟨c, hc, hx⟩)
  | int v => cases hc
  | fp v => cases hc
  | null => cases hc
  | zero t => cases hc

/-- What the layout needs of a constant: the elements of an array are as wide as they are apart, and a zero initialiser has a
size. -/
def LLVMConstant.NodeLaidOut (dl : DataLayout) : LLVMConstant → Prop
  | .zero t => dl.getTypeSizeInBits t ≠ 0
  | .array element _ => dl.getTypeSizeInBits element = 8 * dl.getTypeAllocSize element
  | _ => True

/-- What the layout needs of a constant and of what it is built from; the width of a value is an `unsigned`. -/
structure LLVMConstant.LaidOut (dl : DataLayout) (c : LLVMConstant) : Prop where
  narrow : dl.getTypeSizeInBits c.type < 2 ^ 32
  nodes : ∀ k ∈ c.parts, k.NodeLaidOut dl

/-- A kid is no wider than the aggregate. -/
theorem kid_narrow {k : LLVMConstant} (htyped : k.Typed) (hc : c ∈ k.kids) :
    dl.getTypeSizeInBits c.type ≤ dl.getTypeSizeInBits k.type := by
  have hnode := htyped k (self_mem_parts k)
  cases k with
  | array element elements =>
    have hpos : 1 ≤ elements.length := List.length_pos_iff.2 hnode.1
    have hsize := dl.size_le_alloc element
    rw [hnode.2 c hc, type, dl.size_array]
    exact hsize.trans (Nat.le_mul_of_pos_left _ hpos)
  | vector element elements =>
    have hpos : 1 ≤ elements.length := List.length_pos_iff.2 hnode.1
    rw [hnode.2 c hc, type, dl.size_vector]
    exact Nat.le_mul_of_pos_left _ hpos
  | struct packed fields =>
    obtain ⟨i, hi⟩ : ∃ i, fields[i]? = some c := List.mem_iff_getElem?.1 hc
    have hf : (types fields)[i]? = some c.type := by
      rw [types_eq_map, List.getElem?_map, hi]
      rfl
    have hle := field_le dl packed hf
    rw [type]
    omega
  | int v => cases hc
  | fp v => cases hc
  | null => cases hc
  | zero t => cases hc

theorem LaidOut.kid {k : LLVMConstant} (h : k.LaidOut dl) (htyped : k.Typed) (hc : c ∈ k.kids) : c.LaidOut dl ∧ c.Typed :=
  ⟨⟨(kid_narrow htyped hc).trans_lt h.narrow, fun x hx => h.nodes x (parts_of_kid hc x hx)⟩,
    fun x hx => htyped x (parts_of_kid hc x hx)⟩

/-- The kids of a structure fit its fields. -/
theorem fields_width (packed : Bool) {fields : List LLVMConstant} {kids : List ConstantValue}
    (heval : evalConstants dl landingPad fields = some kids)
    (hwidth : ∀ c ∈ fields, ∀ v, evalConstant dl landingPad c = some v → v.1 = dl.getTypeSizeInBits c.type) (hne : fields ≠ [])
    (hbits : dl.getTypeSizeInBits (.struct packed (types fields)) < 2 ^ 32) :
    ∃ padded, padFields dl packed (types fields) 0 kids = some padded ∧
      totalWidth padded = dl.getTypeSizeInBits (.struct packed (types fields)) ∧
      ∀ i kid, kids[i]? = some kid → ∃ before behind, padded = before ++ kid :: behind ∧
        totalWidth before = 8 * dl.getElementOffset packed (types fields) i := by
  have hlength := evalConstants_length heval
  have hkids : kids ≠ [] := by
    intro h
    rw [h] at hlength
    exact hne (List.length_eq_zero_iff.1 hlength.symm)
  have htypes : (types fields).length = fields.length := by
    rw [types_eq_map, List.length_map]
  obtain ⟨padded, hpad, htotal, hat⟩ := padFields_spec 0 hkids (by omega) (by
    intro i kid f hkid hf
    rw [Nat.zero_add, types_eq_map, List.getElem?_map, Option.map_eq_some_iff] at hf
    obtain ⟨c, hc, rfl⟩ := hf
    obtain ⟨kid', hkid', hv⟩ := evalConstants_getElem? heval hc
    rw [hkid] at hkid'
    cases hkid'
    exact hwidth c (List.mem_of_getElem? hc) kid hv) hbits
  rw [dl.offset_zero] at htotal
  refine ⟨padded, hpad, htotal, ?_⟩
  intro i kid hkid
  obtain ⟨before, behind, heq, hbefore⟩ := hat i kid hkid
  rw [dl.offset_zero, Nat.zero_add] at hbefore
  exact ⟨before, behind, heq, hbefore⟩

/-- A zero initialiser that has a size. -/
theorem eval_zero {t : LLVMType} (h : (LLVMConstant.zero t).LaidOut dl) :
    evalConstant dl landingPad (.zero t) = some ⟨dl.getTypeSizeInBits t, 0⟩ := by
  have hne : dl.getTypeSizeInBits t ≠ 0 := h.nodes _ (self_mem_parts _)
  have hlt : dl.getTypeSizeInBits t < 2 ^ 32 := h.narrow
  have hsized : ¬(dl.getTypeSizeInBits t % 2 ^ 32 = 0 && landingPad) = true := by
    intro hzero
    rw [Nat.mod_eq_of_lt hlt, Bool.and_eq_true] at hzero
    exact hne (of_decide_eq_true hzero.1)
  rw [evalConstant, if_neg hsized, createZero_eq (Nat.pos_of_ne_zero hne) hlt]

mutual

/-- **The value is as wide as the type.** -/
theorem evalConstant_width (landingPad : Bool) (c : LLVMConstant) (htyped : c.Typed) (h : c.LaidOut dl) :
    ∃ v, evalConstant dl landingPad c = some v ∧ v.1 = dl.getTypeSizeInBits c.type := by
  have hnode := htyped c (self_mem_parts c)
  have hbits := h.narrow
  match c with
  | .int v => exact ⟨_, rfl, (dl.size_integer _).symm⟩
  | .fp v => exact ⟨_, rfl, (dl.size_float _).symm⟩
  | .null => exact ⟨_, rfl, dl.size_pointer.symm⟩
  | .zero t =>
    exact ⟨_, eval_zero h, rfl⟩
  | .array element elements =>
    obtain ⟨kids, hkids, hwidth⟩ := evalConstants_width landingPad elements fun c hc => LaidOut.kid h htyped hc
    have hall : ∀ kid ∈ kids, kid.1 = 8 * dl.getTypeAllocSize element := by
      intro kid hkid
      obtain ⟨c, hc, hv⟩ := evalConstants_mem hkids hkid
      rw [hwidth c hc kid hv, hnode.2 c hc]
      exact h.nodes _ (self_mem_parts _)
    have htotal : totalWidth kids.reverse = dl.getTypeSizeInBits (.array elements.length element) := by
      rw [totalWidth_reverse, totalWidth_eq hall, evalConstants_length hkids, dl.size_array]
    have hne : kids.reverse ≠ [] := by
      intro hnil
      have hlength := evalConstants_length hkids
      rw [List.reverse_eq_nil_iff.1 hnil] at hlength
      exact hnode.1 (List.length_eq_zero_iff.1 hlength.symm)
    obtain ⟨v, hv⟩ := createN_isSome hne (htotal.trans_lt hbits)
    refine ⟨v, ?_, (createN_width hv).trans htotal⟩
    rw [evalConstant, hkids]
    exact hv
  | .vector element elements =>
    obtain ⟨kids, hkids, hwidth⟩ := evalConstants_width landingPad elements fun c hc => LaidOut.kid h htyped hc
    have hall : ∀ kid ∈ kids, kid.1 = dl.getTypeSizeInBits element := by
      intro kid hkid
      obtain ⟨c, hc, hv⟩ := evalConstants_mem hkids hkid
      rw [hwidth c hc kid hv, hnode.2 c hc]
    have htotal : totalWidth kids.reverse = dl.getTypeSizeInBits (.vector elements.length element) := by
      rw [totalWidth_reverse, totalWidth_eq hall, evalConstants_length hkids, dl.size_vector]
    have hne : kids.reverse ≠ [] := by
      intro hnil
      have hlength := evalConstants_length hkids
      rw [List.reverse_eq_nil_iff.1 hnil] at hlength
      exact hnode.1 (List.length_eq_zero_iff.1 hlength.symm)
    obtain ⟨v, hv⟩ := createN_isSome hne (htotal.trans_lt hbits)
    refine ⟨v, ?_, (createN_width hv).trans htotal⟩
    rw [evalConstant, hkids]
    exact hv
  | .struct packed fields =>
    obtain ⟨kids, hkids, hwidth⟩ := evalConstants_width landingPad fields fun c hc => LaidOut.kid h htyped hc
    obtain ⟨padded, hpad, htotal, hat⟩ := fields_width packed hkids hwidth hnode hbits
    have hne : padded.reverse ≠ [] := by
      intro hnil
      obtain ⟨kid, hkid⟩ : ∃ kid, kids[0]? = some kid := by
        have hlength := evalConstants_length hkids
        have hpos := List.length_pos_iff.2 hnode
        exact ⟨_, List.getElem?_eq_getElem (show 0 < kids.length by omega)⟩
      obtain ⟨before, behind, heq, -⟩ := hat 0 kid hkid
      rw [List.reverse_eq_nil_iff.1 hnil] at heq
      simp at heq
    obtain ⟨v, hv⟩ := createN_isSome hne (by rw [totalWidth_reverse, htotal]; exact hbits)
    refine ⟨v, ?_, ?_⟩
    · rw [evalConstant, hkids, Option.bind_eq_bind, Option.bind_some, hpad]
      exact hv
    · rw [createN_width hv, totalWidth_reverse, htotal]
      rfl

theorem evalConstants_width (landingPad : Bool) (cs : List LLVMConstant) (h : ∀ c ∈ cs, c.LaidOut dl ∧ c.Typed) :
    ∃ kids, evalConstants dl landingPad cs = some kids ∧
      ∀ c ∈ cs, ∀ v, evalConstant dl landingPad c = some v → v.1 = dl.getTypeSizeInBits c.type := by
  match cs with
  | [] =>
    refine ⟨[], rfl, ?_⟩
    intro c hc
    cases hc
  | c :: cs =>
    obtain ⟨hlaid, htyped⟩ := h c List.mem_cons_self
    obtain ⟨kid, hkid, hwidth⟩ := evalConstant_width landingPad c htyped hlaid
    obtain ⟨kids, hkids, hwidths⟩ := evalConstants_width landingPad cs fun c hc => h c (List.mem_cons_of_mem _ hc)
    refine ⟨kid :: kids, ?_, ?_⟩
    · rw [evalConstants, hkid, hkids]
      rfl
    · intro c' hc' v hv
      rw [List.mem_cons] at hc'
      cases hc' with
      | inl heq =>
        subst heq
        rw [hkid] at hv
        cases hv
        exact hwidth
      | inr hmem => exact hwidths c' hmem v hv

end

theorem kid_width {k : LLVMConstant} (h : k.LaidOut dl) (htyped : k.Typed) (hc : c ∈ k.kids)
    (hv : evalConstant dl landingPad c = some v) : v.1 = dl.getTypeSizeInBits c.type := by
  obtain ⟨hlaid, htyped'⟩ := LaidOut.kid h htyped hc
  obtain ⟨v', hv', hwidth⟩ := evalConstant_width landingPad c htyped' hlaid
  rw [hv] at hv'
  cases hv'
  exact hwidth

/-! ### Leaves -/

variable {size : LLVMType → ℕ} {path : List ℕ} {offset : ℕ} {leaf : LLVMConstant} {lv : ConstantValue}

theorem at?_cons {i : ℕ} : c.at? dl size (i :: path) = some (offset, leaf) ↔
    ∃ o part rest, c.child dl size i = some (o, part) ∧ part.at? dl size path = some (rest, leaf) ∧ offset = o + rest := by
  rw [LLVMConstant.at?]
  simp only [Option.bind_eq_bind, Option.bind_eq_some_iff, Prod.exists]
  constructor
  · intro h
    obtain ⟨o, part, hpart, rest, leaf', hrest, h⟩ := h
    cases h
    exact ⟨o, part, rest, hpart, hrest, rfl⟩
  · intro h
    obtain ⟨o, part, rest, hpart, hrest, rfl⟩ := h
    exact ⟨o, part, hpart, rest, leaf, hrest, rfl⟩

/-- The value of a scalar is what it evaluates to. -/
theorem leaf_eval (h : c.LaidOut dl) (hleaf : c.leaf? = some lv) : evalConstant dl landingPad c = some lv := by
  cases c with
  | int v => exact hleaf
  | fp v => exact hleaf
  | null => exact hleaf
  | zero t =>
    rw [eval_zero h]
    cases t with
    | integer w => rw [dl.size_integer]; exact hleaf
    | float w => rw [dl.size_float]; exact hleaf
    | pointer => rw [dl.size_pointer]; exact hleaf
    | array n e => cases hleaf
    | vector n e => cases hleaf
    | struct packed fields => cases hleaf
  | array element elements => cases hleaf
  | vector element elements => cases hleaf
  | struct packed fields => cases hleaf

/-- What an index selects in a type lies within it. -/
theorem child_le {t u : LLVMType} {i o : ℕ} (hsize : ∀ e, size e ≤ dl.getTypeAllocSize e) (h : t.child dl size i = some (o, u)) :
    o + dl.getTypeSizeInBits u ≤ dl.getTypeSizeInBits t := by
  cases t with
  | array n e =>
    rw [LLVMType.child] at h
    split at h
    · rename_i hi
      cases h
      have hbits := dl.size_le_alloc u
      have hmul : (i + 1) * (8 * dl.getTypeAllocSize u) ≤ n * (8 * dl.getTypeAllocSize u) := Nat.mul_le_mul_right _ hi
      have hle : i * (8 * size u) ≤ i * (8 * dl.getTypeAllocSize u) := Nat.mul_le_mul_left _ (Nat.mul_le_mul_left _ (hsize u))
      rw [Nat.succ_mul] at hmul
      rw [dl.size_array]
      omega
    · cases h
  | vector n e =>
    rw [LLVMType.child] at h
    split at h
    · rename_i hi
      cases h
      have hmul : (i + 1) * dl.getTypeSizeInBits u ≤ n * dl.getTypeSizeInBits u := Nat.mul_le_mul_right _ hi
      rw [Nat.succ_mul] at hmul
      rw [dl.size_vector]
      exact hmul
    · cases h
  | struct packed fields =>
    rw [LLVMType.child, Option.map_eq_some_iff] at h
    obtain ⟨f, hf, h⟩ := h
    cases h
    exact field_le dl packed hf
  | integer w => cases h
  | float w => cases h
  | pointer => cases h

/-- A leaf of a zero initialiser is zero, and lies within it. -/
theorem zero_at {t : LLVMType} (hsize : ∀ e, size e ≤ dl.getTypeAllocSize e)
    (h : (LLVMConstant.zero t).at? dl size path = some (offset, leaf)) (hleaf : leaf.leaf? = some lv) :
    lv.2 = 0 ∧ offset + lv.1 ≤ dl.getTypeSizeInBits t := by
  induction path generalizing t offset with
  | nil =>
    cases h
    cases t with
    | integer w =>
      cases hleaf
      exact ⟨rfl, by rw [dl.size_integer, Nat.zero_add]⟩
    | float w =>
      cases hleaf
      exact ⟨rfl, by rw [dl.size_float, Nat.zero_add]⟩
    | pointer =>
      cases hleaf
      exact ⟨rfl, by rw [dl.size_pointer]; exact le_rfl⟩
    | array n e => cases hleaf
    | vector n e => cases hleaf
    | struct packed fields => cases hleaf
  | cons i path ih =>
    obtain ⟨o, part, rest, hpart, hrest, rfl⟩ := at?_cons.1 h
    rw [LLVMConstant.child, Option.map_eq_some_iff] at hpart
    obtain ⟨⟨o', u⟩, hchild, heq⟩ := hpart
    cases heq
    obtain ⟨hzero, hle⟩ := ih (t := u) hrest
    have hwithin := child_le hsize hchild
    exact ⟨hzero, by omega⟩

/-- A leaf of a part is a leaf of the whole. -/
theorem leaf_of_part {before behind : List ConstantValue} {kid v : ConstantValue} {o : ℕ}
    (h : createN (before ++ kid :: behind).reverse = some v) (hle : o + lv.1 ≤ kid.1) (hkid : kid.2.extractLsb' o lv.1 = lv.2) :
    totalWidth before + o + lv.1 ≤ v.1 ∧ v.2.extractLsb' (totalWidth before + o) lv.1 = lv.2 := by
  have hwidth := createN_width h
  rw [totalWidth_reverse, totalWidth_append, totalWidth_cons] at hwidth
  refine ⟨by omega, ?_⟩
  rw [extract_part (fun i hi => createN_reverse_getLsbD h hi) hle, hkid]

/-- The elements of an array, as `evalConstant` joins them. -/
theorem elements_at {kids : List ConstantValue} {v kid : ConstantValue} {b i o : ℕ} (h : createN kids.reverse = some v)
    (hwidth : ∀ k ∈ kids, k.1 = b) (hi : kids[i]? = some kid) (hle : o + lv.1 ≤ kid.1)
    (hkid : kid.2.extractLsb' o lv.1 = lv.2) : i * b + o + lv.1 ≤ v.1 ∧ v.2.extractLsb' (i * b + o) lv.1 = lv.2 := by
  have hlt := (List.getElem?_eq_some_iff.1 hi).1
  have hsplit : kids = kids.take i ++ kid :: kids.drop (i + 1) := by
    have hget : kids[i] = kid := (List.getElem?_eq_some_iff.1 hi).2
    rw [← hget, ← List.drop_eq_getElem_cons hlt, List.take_append_drop]
  have hbefore : totalWidth (kids.take i) = i * b := by
    rw [totalWidth_eq fun k hk => hwidth k (List.mem_of_mem_take hk), List.length_take, Nat.min_eq_left hlt.le]
  rw [hsplit] at h
  rw [← hbefore]
  exact leaf_of_part h hle hkid

/-- **Each leaf is at its offset**, whether the elements of an array are taken to be their allocation size or their store size
apart. -/
theorem evalConstant_at (hlow : ∀ e, dl.getTypeStoreSize e ≤ size e) (hhigh : ∀ e, size e ≤ dl.getTypeAllocSize e)
    {v : ConstantValue} (htyped : c.Typed) (h : c.LaidOut dl) (hv : evalConstant dl landingPad c = some v)
    (hat : c.at? dl size path = some (offset, leaf)) (hleaf : leaf.leaf? = some lv) :
    offset + lv.1 ≤ v.1 ∧ v.2.extractLsb' offset lv.1 = lv.2 := by
  induction path generalizing c offset v with
  | nil =>
    cases hat
    rw [leaf_eval h hleaf] at hv
    cases hv
    refine ⟨by omega, BitVec.eq_of_getLsbD_eq fun i hi => ?_⟩
    rw [BitVec.getLsbD_extractLsb', decide_eq_true hi, Bool.true_and, Nat.zero_add]
  | cons i path ih =>
    obtain ⟨o, part, rest, hpart, hrest, rfl⟩ := at?_cons.1 hat
    have hnode := htyped c (self_mem_parts c)
    -- a kid that is evaluated, by the induction hypothesis
    have hkid : part ∈ c.kids → ∀ kid, evalConstant dl landingPad part = some kid →
        rest + lv.1 ≤ kid.1 ∧ kid.2.extractLsb' rest lv.1 = lv.2 := by
      intro hmem kid heval
      obtain ⟨hlaid, htyped'⟩ := LaidOut.kid h htyped hmem
      exact ih htyped' hlaid heval hrest
    cases c with
    | int v => cases hpart
    | fp v => cases hpart
    | null => cases hpart
    | zero t =>
      rw [eval_zero h] at hv
      cases hv
      obtain ⟨hzero, hle⟩ := zero_at hhigh hat hleaf
      refine ⟨hle, ?_⟩
      rw [hzero]
      refine BitVec.eq_of_getLsbD_eq fun j hj => ?_
      simp
    | array element elements =>
      rw [LLVMConstant.child, Option.map_eq_some_iff] at hpart
      obtain ⟨c', hc', heq⟩ := hpart
      cases heq
      rw [evalConstant, Option.bind_eq_bind, Option.bind_eq_some_iff] at hv
      obtain ⟨kids, hkids, hv⟩ := hv
      obtain ⟨kid, hi, heval⟩ := evalConstants_getElem? hkids hc'
      obtain ⟨hle, hbits⟩ := hkid (List.mem_of_getElem? hc') kid heval
      have hstride : 8 * size element = dl.getTypeSizeInBits element := by
        have helement : dl.getTypeSizeInBits element = 8 * dl.getTypeAllocSize element := h.nodes _ (self_mem_parts _)
        have hstore := hlow element
        have halloc := hhigh element
        rw [DataLayout.getTypeStoreSize] at hstore
        omega
      rw [hstride]
      refine elements_at hv (fun k hk => ?_) hi hle hbits
      obtain ⟨x, hx, hxk⟩ := evalConstants_mem hkids hk
      rw [kid_width h htyped hx hxk, hnode.2 x hx]
    | vector element elements =>
      rw [LLVMConstant.child, Option.map_eq_some_iff] at hpart
      obtain ⟨c', hc', heq⟩ := hpart
      cases heq
      rw [evalConstant, Option.bind_eq_bind, Option.bind_eq_some_iff] at hv
      obtain ⟨kids, hkids, hv⟩ := hv
      obtain ⟨kid, hi, heval⟩ := evalConstants_getElem? hkids hc'
      obtain ⟨hle, hbits⟩ := hkid (List.mem_of_getElem? hc') kid heval
      refine elements_at hv (fun k hk => ?_) hi hle hbits
      obtain ⟨x, hx, hxk⟩ := evalConstants_mem hkids hk
      rw [kid_width h htyped hx hxk, hnode.2 x hx]
    | struct packed fields =>
      rw [LLVMConstant.child, Option.map_eq_some_iff] at hpart
      obtain ⟨c', hc', heq⟩ := hpart
      cases heq
      rw [evalConstant, Option.bind_eq_bind, Option.bind_eq_some_iff] at hv
      obtain ⟨kids, hkids, hv⟩ := hv
      obtain ⟨kid, hi, heval⟩ := evalConstants_getElem? hkids hc'
      obtain ⟨hle, hbits⟩ := hkid (List.mem_of_getElem? hc') kid heval
      obtain ⟨padded, hpad, -, hplace⟩ :=
        fields_width packed hkids (fun x hx w hw => kid_width h htyped hx hw) hnode h.narrow
      rw [hpad, Option.bind_some] at hv
      obtain ⟨before, behind, hsplit, hbefore⟩ := hplace i kid hi
      rw [hsplit] at hv
      rw [← hbefore]
      exact leaf_of_part hv hle hbits

/-- Which leaf is selected does not depend on the distance of array elements. -/
theorem at?_leaf (size' : LLVMType → ℕ) (h : c.at? dl size path = some (offset, leaf)) :
    ∃ offset', c.at? dl size' path = some (offset', leaf) := by
  induction path generalizing c offset with
  | nil =>
    cases h
    exact ⟨0, rfl⟩
  | cons i path ih =>
    obtain ⟨o, part, rest, hpart, hrest, rfl⟩ := at?_cons.1 h
    obtain ⟨rest', hrest'⟩ := ih hrest
    have hchild : ∃ o', c.child dl size' i = some (o', part) := by
      cases c with
      | int v => cases hpart
      | fp v => cases hpart
      | null => cases hpart
      | zero t =>
        rw [LLVMConstant.child, Option.map_eq_some_iff] at hpart
        obtain ⟨⟨o', u⟩, hu, heq⟩ := hpart
        cases heq
        have htype : ∃ o', t.child dl size' i = some (o', u) := by
          cases t with
          | array n e =>
            rw [LLVMType.child] at hu ⊢
            split at hu
            · rename_i hi
              cases hu
              exact ⟨_, if_pos hi⟩
            · cases hu
          | vector n e => exact ⟨_, hu⟩
          | struct packed fields => exact ⟨_, hu⟩
          | integer w => cases hu
          | float w => cases hu
          | pointer => cases hu
        obtain ⟨o'', hu'⟩ := htype
        refine ⟨o'', ?_⟩
        rw [LLVMConstant.child, hu']
        rfl
      | array element elements =>
        rw [LLVMConstant.child, Option.map_eq_some_iff] at hpart
        obtain ⟨c', hc', heq⟩ := hpart
        cases heq
        refine ⟨i * (8 * size' element), ?_⟩
        rw [LLVMConstant.child, hc']
        rfl
      | vector element elements => exact ⟨_, hpart⟩
      | struct packed fields => exact ⟨_, hpart⟩
    obtain ⟨o', ho'⟩ := hchild
    exact ⟨_, at?_cons.2 ⟨o', part, rest', ho', hrest', rfl⟩⟩

/-! ### `ExtractValue` -/

/-- The path of an `extractvalue`, which goes through structures and arrays. -/
def LLVMType.extractable : LLVMType → List ℕ → Bool
  | _, [] => true
  | .array _ e, _ :: path => e.extractable path
  | .struct _ fields, i :: path => fields[i]?.elim false fun t => t.extractable path
  | _, _ => false

/-- An index that is selected is no negative number when it counts. -/
theorem index_times_size {i : BitVec 32} {n : ℕ} (h : i.toNat * (8 * n) < 2 ^ 32) :
    i.signExtend 64 * BitVec.ofNat 64 n * 8 = BitVec.ofNat 64 (i.toNat * (8 * n)) := by
  by_cases hzero : n = 0
  · subst hzero
    simp
  · have hsmall : i.toNat * 8 ≤ i.toNat * (8 * n) := Nat.mul_le_mul_left _ (Nat.le_mul_of_pos_right 8 (Nat.pos_of_ne_zero hzero))
    have hmsb : i.msb = false := BitVec.msb_eq_false_iff_two_mul_lt.2 (by omega)
    have hext : i.signExtend 64 = BitVec.ofNat 64 i.toNat := by
      rw [BitVec.signExtend_eq_setWidth_of_msb_false hmsb, BitVec.ofNat_toNat]
    have height : (8 : BitVec 64) = BitVec.ofNat 64 8 := rfl
    rw [hext, height, ← BitVec.ofNat_mul, ← BitVec.ofNat_mul]
    congr 1
    ring

/-- One index of an `extractvalue`. -/
theorem computeOffset_child {t u : LLVMType} {i : BitVec 32} {o : ℕ} {rest : List ℕ} (index : ℕ) (k : KGEPInstruction)
    (h : t.child dl dl.getTypeStoreSize i.toNat = some (o, u)) (hpath : t.extractable (i.toNat :: rest) = true) (ho : o < 2 ^ 32) :
    u.extractable rest = true ∧ (Indexed.inside t).next (.constant i) = some u ∧
      ∃ k', computeOffset dl index k (.inside t) (.constant i) = some k' ∧ k'.indices = k.indices ∧
        k'.offset * 8 = k.offset * 8 + BitVec.ofNat 64 o := by
  cases t with
  | array n e =>
    rw [LLVMType.child] at h
    split at h
    · cases h
      refine ⟨hpath, rfl, _, rfl, rfl, ?_⟩
      rw [← index_times_size ho]
      show (k.offset + i.signExtend 64 * BitVec.ofNat 64 _) * 8 = _
      ring
    · cases h
  | struct packed fields =>
    rw [LLVMType.child, Option.map_eq_some_iff] at h
    obtain ⟨f, hf, heq⟩ := h
    cases heq
    rw [LLVMType.extractable, hf] at hpath
    refine ⟨hpath, hf, _, rfl, rfl, ?_⟩
    show (k.offset + BitVec.ofNat 64 _) * 8 = _
    have height : (8 : BitVec 64) = BitVec.ofNat 64 8 := rfl
    rw [add_mul, BitVec.ofNat_mul, mul_comm (BitVec.ofNat 64 8), height]
  | vector n e => cases hpath
  | integer w => cases h
  | float w => cases h
  | pointer => cases h

/-- What an index selects has the type that the index selects in the type. -/
theorem child_type {i o : ℕ} {part : LLVMConstant} (htyped : c.Typed) (h : c.child dl size i = some (o, part)) :
    c.type.child dl size i = some (o, part.type) ∧ part.Typed := by
  have hnode := htyped c (self_mem_parts c)
  cases c with
  | int v => cases h
  | fp v => cases h
  | null => cases h
  | zero t =>
    rw [LLVMConstant.child, Option.map_eq_some_iff] at h
    obtain ⟨⟨o', u⟩, hu, heq⟩ := h
    cases heq
    refine ⟨hu, ?_⟩
    intro k hk
    obtain rfl := List.mem_singleton.1 hk
    trivial
  | array element elements =>
    rw [LLVMConstant.child, Option.map_eq_some_iff] at h
    obtain ⟨c', hc', heq⟩ := h
    cases heq
    have hmem := List.mem_of_getElem? hc'
    refine ⟨?_, fun x hx => htyped x (parts_of_kid hmem x hx)⟩
    rw [type, LLVMType.child, if_pos (List.getElem?_eq_some_iff.1 hc').1, hnode.2 part hmem]
  | vector element elements =>
    rw [LLVMConstant.child, Option.map_eq_some_iff] at h
    obtain ⟨c', hc', heq⟩ := h
    cases heq
    have hmem := List.mem_of_getElem? hc'
    refine ⟨?_, fun x hx => htyped x (parts_of_kid hmem x hx)⟩
    rw [type, LLVMType.child, if_pos (List.getElem?_eq_some_iff.1 hc').1, hnode.2 part hmem]
  | struct packed fields =>
    rw [LLVMConstant.child, Option.map_eq_some_iff] at h
    obtain ⟨c', hc', heq⟩ := h
    cases heq
    have hmem := List.mem_of_getElem? hc'
    refine ⟨?_, fun x hx => htyped x (parts_of_kid hmem x hx)⟩
    rw [type, LLVMType.child, types_eq_map, List.getElem?_map, hc']
    rfl

/-- **The offset of an `extractvalue`** takes the elements of an array to be their store size apart. -/
theorem computeOffsets_at {path : List (BitVec 32)} (index : ℕ) (k : KGEPInstruction) (htyped : c.Typed)
    (h : c.at? dl dl.getTypeStoreSize (path.map BitVec.toNat) = some (offset, leaf))
    (hpath : c.type.extractable (path.map BitVec.toNat) = true) (hlt : offset < 2 ^ 32) :
    ∃ k', computeOffsets dl index k (.inside c.type) (path.map GepOperand.constant) = some k' ∧ k'.indices = k.indices ∧
      k'.offset * 8 = k.offset * 8 + BitVec.ofNat 64 offset := by
  induction path generalizing c index k offset with
  | nil =>
    cases h
    refine ⟨k, rfl, rfl, ?_⟩
    show _ = _ + 0
    rw [add_zero]
  | cons i path ih =>
    obtain ⟨o, part, rest, hpart, hrest, rfl⟩ := at?_cons.1 h
    obtain ⟨hchild, htyped'⟩ := child_type htyped hpart
    obtain ⟨hpath', hnext, k₁, hk₁, hindices₁, hoffset₁⟩ :=
      computeOffset_child index k hchild hpath (by omega)
    obtain ⟨k', hk', hindices, hoffset⟩ := ih (index + 1) k₁ htyped' hrest hpath' (by omega)
    refine ⟨k', ?_, hindices.trans hindices₁, ?_⟩
    · rw [List.map_cons, computeOffsets, hk₁, hnext]
      exact hk'
    · rw [hoffset, hoffset₁, BitVec.ofNat_add, add_assoc]

/-! ### The layout -/

/-- The constant has its memory layout: it is as wide as its type, the bits at the offset of each scalar leaf are the leaf's, and
an `extractvalue` of a leaf, with the offset that is computed for it, returns the leaf. -/
def LLVMConstant.HasLayout (dl : DataLayout) (landingPad : Bool) (c : LLVMConstant) : Prop :=
  ∃ v, evalConstant dl landingPad c = some v ∧ v.1 = dl.getTypeSizeInBits c.type ∧
    (∀ path offset leaf lv, c.at? dl dl.getTypeAllocSize path = some (offset, leaf) → leaf.leaf? = some lv →
      offset + lv.1 ≤ v.1 ∧ v.2.extractLsb' offset lv.1 = lv.2) ∧
    ∀ (path : List (BitVec 32)) offset leaf lv, c.at? dl dl.getTypeAllocSize (path.map BitVec.toNat) = some (offset, leaf) →
      leaf.leaf? = some lv → c.type.extractable (path.map BitVec.toNat) = true →
        ∃ k, computeOffsets dl 1 ⟨[], 0⟩ (.inside c.type) (path.map GepOperand.constant) = some k ∧ k.indices = [] ∧
          v.2.extractLsb' ((k.offset * 8).toNat % 2 ^ 32) lv.1 = lv.2

/-- A constant that is laid out has its memory layout. -/
theorem LaidOut.hasLayout (htyped : c.Typed) (h : c.LaidOut dl) : c.HasLayout dl landingPad := by
  obtain ⟨v, hv, hwidth⟩ := evalConstant_width landingPad c htyped h
  refine ⟨v, hv, hwidth, ?_, ?_⟩
  · intro path offset leaf lv hat hleaf
    exact evalConstant_at dl.store_le_alloc (fun _ => le_rfl) htyped h hv hat hleaf
  · intro path offset leaf lv hat hleaf hpath
    obtain ⟨offset', hat'⟩ := at?_leaf dl.getTypeStoreSize hat
    obtain ⟨hle, hextract⟩ := evalConstant_at (fun _ => le_rfl) dl.store_le_alloc htyped h hv hat' hleaf
    have hnarrow := h.narrow
    have hlt : offset' < 2 ^ 32 := by omega
    obtain ⟨k, hk, hindices, hoffset⟩ := computeOffsets_at 1 ⟨[], 0⟩ htyped hat' hpath hlt
    have hbits : (k.offset * 8).toNat % 2 ^ 32 = offset' := by
      have hzero : (0 : BitVec 64) * 8 = 0 := rfl
      rw [hoffset]
      show ((0 : BitVec 64) * 8 + BitVec.ofNat 64 offset').toNat % 2 ^ 32 = offset'
      rw [hzero, zero_add, BitVec.toNat_ofNat, Nat.mod_eq_of_lt (hlt.trans (by decide)), Nat.mod_eq_of_lt hlt]
    refine ⟨k, hk, hindices, ?_⟩
    rw [hbits]
    exact hextract

theorem mem_parts {k : LLVMConstant} : k ∈ c.parts ↔ k = c ∨ ∃ x ∈ c.kids, k ∈ x.parts := by
  cases c <;> simp [parts, LLVMConstant.kids, mem_partsOf]

theorem sizeOf_kid {x : LLVMConstant} (hx : x ∈ c.kids) : sizeOf x < sizeOf c := by
  cases c with
  | array element elements =>
    have hlt : sizeOf x < sizeOf elements := List.sizeOf_lt_of_mem hx
    rw [LLVMConstant.array.sizeOf_spec]
    omega
  | vector element elements =>
    have hlt : sizeOf x < sizeOf elements := List.sizeOf_lt_of_mem hx
    rw [LLVMConstant.vector.sizeOf_spec]
    omega
  | struct packed fields =>
    have hlt : sizeOf x < sizeOf fields := List.sizeOf_lt_of_mem hx
    rw [LLVMConstant.struct.sizeOf_spec]
    omega
  | int v => cases hx
  | fp v => cases hx
  | null => cases hx
  | zero t => cases hx

theorem parts_trans {c k x : LLVMConstant} (hk : k ∈ c.parts) (hx : x ∈ k.parts) : x ∈ c.parts := by
  cases mem_parts.1 hk with
  | inl heq =>
    subst heq
    exact hx
  | inr hkid =>
    obtain ⟨y, hy, hky⟩ := hkid
    have hlt := sizeOf_kid hy
    exact parts_of_kid hy x (parts_trans hky hx)
  termination_by sizeOf c

/-- What is built from laid out parts is laid out. -/
theorem LaidOut.of_mem {c k : LLVMConstant} (htyped : c.Typed) (h : c.LaidOut dl) (hk : k ∈ c.parts) : k.LaidOut dl ∧ k.Typed := by
  cases mem_parts.1 hk with
  | inl heq =>
    subst heq
    exact ⟨h, htyped⟩
  | inr hkid =>
    obtain ⟨x, hx, hkx⟩ := hkid
    have hlt := sizeOf_kid hx
    obtain ⟨hlaid, htyped'⟩ := LaidOut.kid h htyped hx
    exact LaidOut.of_mem htyped' hlaid hkx
  termination_by sizeOf c

theorem padFields_lt {packed : Bool} {fields : List LLVMType} {kids padded : List ConstantValue} {op : ℕ}
    (h : padFields dl packed fields op kids = some padded) (hlt : ∀ k ∈ kids, k.1 < 2 ^ 32) : ∀ k ∈ padded, k.1 < 2 ^ 32 := by
  induction kids generalizing op padded with
  | nil =>
    cases h
    intro k hk
    cases hk
  | cons kid kids ih =>
    rw [padFields, Option.bind_eq_bind, Option.bind_eq_some_iff] at h
    obtain ⟨padding, hpadding, h⟩ := h
    rw [Option.bind_eq_some_iff] at h
    obtain ⟨others, hothers, h⟩ := h
    cases h
    have hpad : ∀ k ∈ padding, k.1 < 2 ^ 32 := by
      unfold fieldPadding at hpadding
      split at hpadding
      · rw [Option.map_eq_some_iff] at hpadding
        obtain ⟨p, hp, rfl⟩ := hpadding
        intro k hk
        obtain rfl := List.mem_singleton.1 hk
        unfold createZero at hp
        split at hp
        · cases hp
        · cases hp
          exact Nat.mod_lt _ (by decide)
      · cases hpadding
        intro k hk
        cases hk
    intro k hk
    rw [List.mem_append, List.mem_cons] at hk
    obtain (rfl | hk) | hk := hk
    · exact hlt k List.mem_cons_self
    · exact hpad k hk
    · exact ih hothers (fun k hk => hlt k (List.mem_cons_of_mem _ hk)) k hk

/-- The width of a value is an `unsigned`. -/
theorem evalConstant_lt {c : LLVMConstant} {v : ConstantValue} (htyped : c.Typed) (h : evalConstant dl landingPad c = some v) : v.1 < 2 ^ 32 := by
  have hnode := htyped c (self_mem_parts c)
  have hkids : ∀ {kids}, evalConstants dl landingPad c.kids = some kids → ∀ k ∈ kids, k.1 < 2 ^ 32 := by
    intro kids heval k hk
    obtain ⟨x, hx, hxk⟩ := evalConstants_mem heval hk
    have hlt := sizeOf_kid hx
    exact evalConstant_lt (fun y hy => htyped y (parts_of_kid hx y hy)) hxk
  have hzero : ∀ {n : ℕ}, createZero n = some v → v.1 < 2 ^ 32 := by
    intro n hn
    unfold createZero at hn
    split at hn
    · cases hn
    · cases hn
      exact Nat.mod_lt _ (by decide)
  cases c with
  | int x =>
    cases h
    exact hnode
  | fp x =>
    cases h
    exact hnode
  | null =>
    cases h
    exact (by decide : 64 < 2 ^ 32)
  | zero t =>
    rw [evalConstant] at h
    split at h
    · exact hzero h
    · exact hzero h
  | array element elements =>
    rw [evalConstant, Option.bind_eq_bind, Option.bind_eq_some_iff] at h
    obtain ⟨kids, heval, h⟩ := h
    exact createN_lt h fun k hk => hkids heval k (List.mem_reverse.1 hk)
  | vector element elements =>
    rw [evalConstant, Option.bind_eq_bind, Option.bind_eq_some_iff] at h
    obtain ⟨kids, heval, h⟩ := h
    exact createN_lt h fun k hk => hkids heval k (List.mem_reverse.1 hk)
  | struct packed fields =>
    rw [evalConstant, Option.bind_eq_bind, Option.bind_eq_some_iff] at h
    obtain ⟨kids, heval, h⟩ := h
    rw [Option.bind_eq_some_iff] at h
    obtain ⟨padded, hpad, h⟩ := h
    exact createN_lt h fun k hk => padFields_lt hpad (hkids heval) k (List.mem_reverse.1 hk)
  termination_by sizeOf c

/-- An array whose elements have their layout is as wide as its type only when they are as wide as they are apart. -/
theorem nodeLaidOut_of_hasLayout {k : LLVMConstant} (htyped : k.Typed) (h : ∀ x ∈ k.parts, x.HasLayout dl landingPad) :
    k.NodeLaidOut dl := by
  have hnode := htyped k (self_mem_parts k)
  obtain ⟨v, hv, hwidth, -⟩ := h k (self_mem_parts k)
  cases k with
  | zero t =>
    intro hbits
    have hzero : v.1 = 0 := hwidth.trans hbits
    rw [evalConstant, hbits] at hv
    cases landingPad with
    | true =>
      cases hv
      cases hzero
    | false => cases hv
  | array element elements =>
    rw [evalConstant, Option.bind_eq_bind, Option.bind_eq_some_iff] at hv
    obtain ⟨kids, hkids, hv⟩ := hv
    have hall : ∀ kid ∈ kids, kid.1 = dl.getTypeSizeInBits element := by
      intro kid hkid
      obtain ⟨x, hx, hxk⟩ := evalConstants_mem hkids hkid
      obtain ⟨v', hv', hwidth', -⟩ := h x (parts_of_kid hx x (self_mem_parts x))
      rw [hxk] at hv'
      cases hv'
      rw [hwidth', hnode.2 x hx]
    have hpos := List.length_pos_iff.2 hnode.1
    have htotal := createN_width hv
    rw [totalWidth_reverse, totalWidth_eq hall, evalConstants_length hkids, hwidth, type, dl.size_array] at htotal
    exact (Nat.eq_of_mul_eq_mul_left hpos htotal).symm
  | int x => trivial
  | fp x => trivial
  | null => trivial
  | vector element elements => trivial
  | struct packed fields => trivial

/-- **A constant and what it is built from** have their memory layout exactly when the elements of every array that is written
out are as wide as they are apart, no zero initialiser has no size, and the width is an `unsigned`. -/
theorem constants_laid_out_iff (htyped : c.Typed) : (∀ k ∈ c.parts, k.HasLayout dl landingPad) ↔ c.LaidOut dl := by
  constructor
  · intro h
    refine ⟨?_, ?_⟩
    · obtain ⟨v, hv, hwidth, -⟩ := h c (self_mem_parts c)
      rw [← hwidth]
      exact evalConstant_lt htyped hv
    · intro k hk
      exact nodeLaidOut_of_hasLayout (fun x hx => htyped x (parts_trans hk hx)) fun x hx => h x (parts_trans hk hx)
  · intro h k hk
    obtain ⟨hlaid, htyped'⟩ := LaidOut.of_mem htyped h hk
    exact LaidOut.hasLayout htyped' hlaid

end

/-- A structure of a character and a number, and an array of two of them. -/
def pairConstant : LLVMConstant := .struct false [.int 7#8, .int 9#32]

def pairArrayConstant : LLVMConstant := .array pairType [pairConstant, .zero pairType]

theorem pairArrayConstant_laid_out : pairConstant ∈ pairArrayConstant.parts ∧
    ∀ k ∈ pairArrayConstant.parts, k.HasLayout .x86_64 false := by
  have hparts : pairArrayConstant.parts =
      [pairArrayConstant, pairConstant, .int 7#8, .int 9#32, .zero pairType] := rfl
  have htyped : pairArrayConstant.Typed := by
    intro k hk
    rw [hparts] at hk
    simp only [List.mem_cons, List.not_mem_nil, or_false] at hk
    obtain rfl | rfl | rfl | rfl | rfl := hk
    · refine ⟨List.cons_ne_nil _ _, ?_⟩
      intro c hc
      simp only [List.mem_cons, List.not_mem_nil, or_false] at hc
      obtain rfl | rfl := hc
      · rfl
      · rfl
    · exact List.cons_ne_nil _ _
    · exact (by decide : 8 < 2 ^ 32)
    · exact (by decide : 32 < 2 ^ 32)
    · trivial
  refine ⟨?_, (constants_laid_out_iff htyped).2 ⟨by decide, ?_⟩⟩
  · rw [hparts]
    exact List.mem_cons_of_mem _ List.mem_cons_self
  · intro k hk
    rw [hparts] at hk
    simp only [List.mem_cons, List.not_mem_nil, or_false] at hk
    obtain rfl | rfl | rfl | rfl | rfl := hk
    · exact (by decide : DataLayout.x86_64.getTypeSizeInBits pairType = 8 * DataLayout.x86_64.getTypeAllocSize pairType)
    · trivial
    · trivial
    · trivial
    · exact (by decide : DataLayout.x86_64.getTypeSizeInBits pairType ≠ 0)

/-- Two 24-bit numbers, which are 4 bytes apart. -/
def oddArrayConstant : LLVMConstant := .array (.integer 24) [.int 1#24, .int 2#24]

theorem oddArrayConstant_not_laid_out : oddArrayConstant.Typed ∧ ¬oddArrayConstant.HasLayout .x86_64 false := by
  refine ⟨?_, ?_⟩
  · intro k hk
    have hparts : oddArrayConstant.parts = [oddArrayConstant, .int 1#24, .int 2#24] := rfl
    rw [hparts] at hk
    simp only [List.mem_cons, List.not_mem_nil, or_false] at hk
    obtain rfl | rfl | rfl := hk
    · refine ⟨List.cons_ne_nil _ _, ?_⟩
      intro c hc
      simp only [List.mem_cons, List.not_mem_nil, or_false] at hc
      obtain rfl | rfl := hc
      · rfl
      · rfl
    · exact (by decide : 24 < 2 ^ 32)
    · exact (by decide : 24 < 2 ^ 32)
  · intro h
    obtain ⟨v, hv, hwidth, -⟩ := h
    cases hv
    exact absurd hwidth (by decide)

end SymBisect
