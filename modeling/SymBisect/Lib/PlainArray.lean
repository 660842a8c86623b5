import Mathlib.Data.BitVec

/-!
# Byte arrays

The array that a byte-addressed object stands for: a list of bytes, some of which may be unknown.  Words of any
width are loaded and stored byte by byte in either byte order, at 32-bit indices that wrap around; an access past
the end of the array changes nothing and finds nothing.

* `PlainArray.setByte`, `PlainArray.store`: writes.  An unknown index can be any, so that all bytes are unknown
  after it.
* `PlainArray.load`: reads; `load_bytes` and `load_bool` say which bytes a loaded word is made of.
* `getElem?_store`, `getElem?_store_of_outside`: the bytes after a write inside the array.
-/

namespace SymBisect.Lib

/-- A byte array, with nothing where a byte is unknown. -/
abbrev PlainArray := List (Option (BitVec 8))

namespace PlainArray

variable {w n : ℕ}

/-- Where the `i`-th byte of an `n`-byte word stands, counted from its least significant byte. -/
def bytePosition (littleEndian : Bool) (n i : ℕ) : ℕ := if littleEndian then i else n - i - 1

/-- The number of bytes of a word; a single bit takes one. -/
def numBytes (w : ℕ) : ℕ := if w = 1 then 1 else w / 8

/-- The index of the `i`-th byte of a word at `index`. -/
def byteIndex (littleEndian : Bool) (n : ℕ) (index : BitVec 32) (i : ℕ) : BitVec 32 :=
  index + BitVec.ofNat 32 (bytePosition littleEndian n i)

/-- The byte at an index. -/
def getByte (m : PlainArray) (index : BitVec 32) : Option (BitVec 8) := (m[index.toNat]?).join

/-- Write a byte. -/
def setByte (m : PlainArray) (index : Option (BitVec 32)) (x : Option (BitVec 8)) : PlainArray :=
  match index with
  | some i => m.set i.toNat x
  | none => m.map fun _ => none

/-- Write the bytes `is` of a word. -/
def storeBytes (littleEndian : Bool) (n : ℕ) (index : Option (BitVec 32)) (x : Option (BitVec w)) :
    List ℕ → PlainArray → PlainArray
  | [], m => m
  | i :: is, m =>
    storeBytes littleEndian n index x is
      (m.setByte (index.map fun o => byteIndex littleEndian n o i) (x.map fun v => v.extractLsb' (8 * i) 8))

/-- Write a word. -/
def store (littleEndian : Bool) (m : PlainArray) (index : Option (BitVec 32)) (x : Option (BitVec w)) : PlainArray :=
  storeBytes littleEndian (numBytes w) index x (List.range (numBytes w)) m

/-- The word that the bytes from the `i`-th on are made into, when they are all known. -/
def assemble (w : ℕ) : List (Option (BitVec 8)) → Option (BitVec w)
  | [] => some 0
  | b :: bs =>
    match b, assemble w bs with
    | some b, some v => some (b.setWidth w ||| v <<< 8)
    | _, _ => none

/-- Read a word. -/
def load (littleEndian : Bool) (m : PlainArray) (index : Option (BitVec 32)) (w : ℕ) : Option (BitVec w) :=
  match index with
  | some o => assemble w ((List.range (numBytes w)).map fun i => m.getByte (byteIndex littleEndian (numBytes w) o i))
  | none => none

@[simp] theorem length_setByte (m : PlainArray) (index : Option (BitVec 32)) (x : Option (BitVec 8)) :
    (m.setByte index x).length = m.length := by
  cases index with
  | none => exact List.length_map _
  | some i => exact List.length_set

/-- A byte of a word is the word shifted to it. -/
theorem extractLsb'_eq_shift (v : BitVec w) (i : ℕ) : v.extractLsb' (8 * i) 8 = (v >>> (8 * i)).setWidth 8 := by
  apply BitVec.eq_of_getLsbD_eq
  intro j hj
  simp [hj]

/-- The first byte of a one-byte word is at its index. -/
@[simp] theorem byteIndex_one (littleEndian : Bool) (o : BitVec 32) : byteIndex littleEndian 1 o 0 = o := by
  unfold byteIndex bytePosition
  simp

/-- A word of one byte is written at its index. -/
theorem store_one (littleEndian : Bool) (m : PlainArray) (index : Option (BitVec 32)) (x : Option (BitVec w))
    (hw : numBytes w = 1) : store littleEndian m index x = m.setByte index (x.map fun v => v.setWidth 8) := by
  have hindex : (index.map fun o => byteIndex littleEndian 1 o 0) = index := by
    simp
  have hbyte : (x.map fun v => v.extractLsb' (8 * 0) 8) = x.map fun v => v.setWidth 8 := by
    congr 1
    funext v
    rw [extractLsb'_eq_shift, Nat.mul_zero, BitVec.ushiftRight_zero]
  rw [store, hw, List.range_one, storeBytes, storeBytes, hindex, hbyte]

/-- What is known after a byte was written. -/
theorem setByte_cases {m : PlainArray} {index : Option (BitVec 32)} {x : Option (BitVec 8)} {i : ℕ} {v : BitVec 8}
    (h : (m.setByte index x)[i]? = some (some v)) :
    ∃ o, index = some o ∧ (o.toNat = i ∧ x = some v ∨ o.toNat ≠ i ∧ m[i]? = some (some v)) := by
  cases index with
  | none =>
    rw [setByte, List.getElem?_map] at h
    cases hm : m[i]? with
    | none => simp [hm] at h
    | some b => simp [hm] at h
  | some o =>
    refine ⟨o, rfl, ?_⟩
    rw [setByte, List.getElem?_set] at h
    by_cases ho : o.toNat = i
    · rw [if_pos ho] at h
      split at h
      · exact .inl ⟨ho, Option.some.inj h⟩
      · cases h
    · rw [if_neg ho] at h
      exact .inr ⟨ho, h⟩

/-- Everything that is known in `m` is so in `m'`. -/
def Below (m m' : PlainArray) : Prop := m.length = m'.length ∧ ∀ (i : ℕ) (v : BitVec 8), m[i]? = some (some v) → m'[i]? = some (some v)

/-- Less is known after a write at an unknown index. -/
theorem storeBytes_below (littleEndian : Bool) (n : ℕ) (o : BitVec 32) (x : Option (BitVec w)) :
    ∀ (is : List ℕ) {m m' : PlainArray}, m.Below m' →
      (storeBytes littleEndian n none x is m).Below (storeBytes littleEndian n (some o) x is m') := by
  intro is
  induction is with
  | nil => exact fun h => h
  | cons i is ih =>
    intro m m' h
    refine ih ⟨by simp [h.1], fun j v hj => ?_⟩
    obtain ⟨o', ho, -⟩ := setByte_cases hj
    cases ho

theorem getByte_eq_some {m : PlainArray} {index : BitVec 32} {v : BitVec 8} (h : m.getByte index = some v) :
    m[index.toNat]? = some (some v) := by
  unfold getByte at h
  cases hm : m[index.toNat]? with
  | none => simp [hm] at h
  | some b => simpa [hm] using h

/-- The bytes a word is assembled from are known, and are its bytes where it is wide enough. -/
theorem assemble_byte : ∀ {bs : List (Option (BitVec 8))} {v : BitVec w}, assemble w bs = some v →
    ∀ i < bs.length, ∃ b, bs[i]? = some (some b) ∧
      ∀ j < 8, 8 * i + j < w → v.getLsbD (8 * i + j) = b.getLsbD j := by
  intro bs
  induction bs with
  | nil => exact fun _ i hi => absurd hi (Nat.not_lt_zero i)
  | cons b bs ih =>
    intro v h i hi
    unfold assemble at h
    split at h
    · rename_i b u hu
      obtain rfl := Option.some.inj h
      cases i with
      | zero =>
        refine ⟨b, rfl, fun j hj hw => ?_⟩
        rw [Nat.mul_zero, Nat.zero_add] at hw ⊢
        simp [hw, hj]
      | succ i =>
        obtain ⟨c, hc, hbits⟩ := ih hu i (by simpa using hi)
        refine ⟨c, by simpa using hc, fun j hj hw => ?_⟩
        have hsub : 8 * (i + 1) + j - 8 = 8 * i + j := by omega
        have hge : ¬ 8 * (i + 1) + j < 8 := by omega
        have hbig : b.getLsbD (8 * (i + 1) + j) = false := BitVec.getLsbD_of_ge _ _ (by omega)
        simp only [BitVec.getLsbD_or, BitVec.getLsbD_setWidth, BitVec.getLsbD_shiftLeft, hsub, hw, hge, hbig,
          decide_true, decide_false, Bool.not_false, Bool.true_and, Bool.false_or]
        exact hbits j hj (by omega)
    · cases h

/-- The bytes of a word of whole bytes. -/
theorem load_bytes {littleEndian : Bool} {m : PlainArray} {index : Option (BitVec 32)} {v : BitVec w}
    (hw : w = n * 8) (h : load littleEndian m index w = some v) :
    ∃ o, index = some o ∧
      ∀ i < n, m[(byteIndex littleEndian n o i).toNat]? = some (some (v.extractLsb' (8 * i) 8)) := by
  have hn : numBytes w = n := by
    unfold numBytes
    rw [if_neg (by omega)]
    omega
  unfold load at h
  cases index with
  | none => cases h
  | some o =>
    refine ⟨o, rfl, fun i hi => ?_⟩
    rw [hn] at h
    obtain ⟨b, hb, hbits⟩ := assemble_byte h i (by simpa using hi)
    rw [List.getElem?_map, List.getElem?_range hi, Option.map_some, Option.some.injEq] at hb
    rw [getByte_eq_some hb]
    congr 2
    apply BitVec.eq_of_getLsbD_eq
    intro j hj
    rw [BitVec.getLsbD_extractLsb', hbits j hj (by omega)]
    simp [hj]

/-- A single bit is the lowest one of its byte. -/
theorem load_bool {littleEndian : Bool} {m : PlainArray} {index : Option (BitVec 32)} {v : BitVec 1}
    (h : load littleEndian m index 1 = some v) :
    ∃ o b, index = some o ∧ m[o.toNat]? = some (some b) ∧ b.extractLsb' 0 1 = v := by
  unfold load at h
  cases index with
  | none => cases h
  | some o =>
    obtain ⟨b, hb, hbits⟩ := assemble_byte h 0 (by simp [numBytes])
    have hpos : byteIndex littleEndian (numBytes 1) o 0 = o := byteIndex_one littleEndian o
    rw [List.getElem?_map, List.getElem?_range (by decide), Option.map_some, Option.some.injEq, hpos] at hb
    refine ⟨o, b, rfl, getByte_eq_some hb, ?_⟩
    apply BitVec.eq_of_getLsbD_eq
    intro j hj
    obtain rfl : j = 0 := by omega
    have hbit := hbits 0 (by decide) (by decide)
    rw [Nat.mul_zero, Nat.zero_add] at hbit
    rw [hbit, BitVec.getLsbD_extractLsb']
    simp

/-! ### The bytes after a write -/

theorem bytePosition_lt (littleEndian : Bool) {i : ℕ} (hi : i < n) : bytePosition littleEndian n i < n := by
  unfold bytePosition
  split
  · exact hi
  · omega

/-- The byte at a position of a word stands at the position with its number. -/
theorem bytePosition_bytePosition (littleEndian : Bool) {i : ℕ} (hi : i < n) :
    bytePosition littleEndian n (bytePosition littleEndian n i) = i := by
  unfold bytePosition
  cases littleEndian with
  | true => rfl
  | false =>
    show n - (n - i - 1) - 1 = i
    omega

theorem toNat_byteIndex (littleEndian : Bool) {o : BitVec 32} {i : ℕ} (hend : o.toNat + n ≤ 2 ^ 32) (hi : i < n) :
    (byteIndex littleEndian n o i).toNat = o.toNat + bytePosition littleEndian n i := by
  have hpos := bytePosition_lt littleEndian hi
  have hmod : bytePosition littleEndian n i % 2 ^ 32 = bytePosition littleEndian n i := Nat.mod_eq_of_lt (by omega)
  unfold byteIndex
  rw [BitVec.toNat_add, BitVec.toNat_ofNat, hmod]
  exact Nat.mod_eq_of_lt (by omega)

/-- Bytes that no part of the word is written to. -/
theorem getElem?_storeBytes_of_ne {littleEndian : Bool} {o : BitVec 32} {x : Option (BitVec w)} {j : ℕ} :
    ∀ (is : List ℕ) (m : PlainArray), (∀ i ∈ is, (byteIndex littleEndian n o i).toNat ≠ j) →
      (storeBytes littleEndian n (some o) x is m)[j]? = m[j]? := by
  intro is
  induction is with
  | nil => exact fun m _ => rfl
  | cons i is ih =>
    intro m h
    show (storeBytes littleEndian n (some o) x is _)[j]? = _
    rw [ih _ fun k hk => h k (List.mem_cons_of_mem _ hk)]
    exact List.getElem?_set_ne (h i List.mem_cons_self)

/-- A byte that one part of the word is written to. -/
theorem getElem?_storeBytes {littleEndian : Bool} {o : BitVec 32} {x : Option (BitVec w)} {i : ℕ} :
    ∀ (is : List ℕ) (m : PlainArray), i ∈ is → (byteIndex littleEndian n o i).toNat < m.length →
      (∀ k ∈ is, (byteIndex littleEndian n o k).toNat = (byteIndex littleEndian n o i).toNat → k = i) →
      (storeBytes littleEndian n (some o) x is m)[(byteIndex littleEndian n o i).toNat]? =
        some (x.map fun v => v.extractLsb' (8 * i) 8) := by
  intro is
  induction is with
  | nil => exact fun m hi => absurd hi List.not_mem_nil
  | cons k is ih =>
    intro m hi hlt hinj
    show (storeBytes littleEndian n (some o) x is _)[_]? = _
    by_cases hmem : i ∈ is
    · refine ih _ hmem ?_ fun k' hk' => hinj k' (List.mem_cons_of_mem _ hk')
      rw [length_setByte]
      exact hlt
    · obtain rfl : i = k := (List.mem_cons.1 hi).resolve_right hmem
      rw [getElem?_storeBytes_of_ne is _ fun k' hk' heq => ?_]
      · exact List.getElem?_set_self hlt
      · exact hmem (hinj k' (List.mem_cons_of_mem _ hk') heq ▸ hk')

/-- The bytes outside of a word. -/
theorem getElem?_store_of_outside (littleEndian : Bool) (m : PlainArray) {o : BitVec 32} (x : Option (BitVec w)) {j : ℕ}
    (hend : o.toNat + numBytes w ≤ 2 ^ 32) (hj : j < o.toNat ∨ o.toNat + numBytes w ≤ j) :
    (store littleEndian m (some o) x)[j]? = m[j]? := by
  refine getElem?_storeBytes_of_ne _ _ fun i hi heq => ?_
  have hpos := bytePosition_lt littleEndian (List.mem_range.1 hi)
  rw [toNat_byteIndex littleEndian hend (List.mem_range.1 hi)] at heq
  omega

/-- The bytes of a word. -/
theorem getElem?_store (littleEndian : Bool) (m : PlainArray) {o : BitVec 32} (x : Option (BitVec w)) {i : ℕ}
    (hend : o.toNat + numBytes w ≤ m.length) (hlen : m.length ≤ 2 ^ 32) (hi : i < numBytes w) :
    (store littleEndian m (some o) x)[o.toNat + bytePosition littleEndian (numBytes w) i]? =
      some (x.map fun v => v.extractLsb' (8 * i) 8) := by
  have hindex := fun {k} (hk : k < numBytes w) => toNat_byteIndex littleEndian (hend.trans hlen) hk
  rw [← hindex hi]
  refine getElem?_storeBytes _ _ (List.mem_range.2 hi) ?_ fun k hk heq => ?_
  · have hpos := bytePosition_lt littleEndian hi
    rw [hindex hi]
    omega
  · rw [hindex (List.mem_range.1 hk), hindex hi, Nat.add_left_cancel_iff] at heq
    rw [← bytePosition_bytePosition littleEndian (List.mem_range.1 hk), heq, bytePosition_bytePosition littleEndian hi]

end PlainArray

end SymBisect.Lib
