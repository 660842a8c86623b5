import SymBisect.Lib.Reader

/-!
# KTest files

`lib/Basic/KTest.cpp`: test cases are written to a file and read back.  A file is a string of bytes.  `fread` and
`fwrite` of one item of size 0 return 0, as the C library says, and 0 is not 1.

A string of a `KTest` is what its pointer means to the C library, the bytes before the first 0.  Memory and disk never
run out, and `calloc(0, ..)` is not null.  `kTest_toFile` does not look at `version`.

* `reads_file`: what `kTest_fromFile` accepts, field by field.
* `kTest_roundTrip`: the values that are written and read back, and the files that are written as they were read.
-/

namespace SymBisect.KTestFile

open Lib

/-- The bytes of a C string. -/
abbrev CString := { s : List Byte // ∀ b ∈ s, b ≠ 0 }

/-- The C string in a buffer. -/
def cstring (buffer : List Byte) : CString :=
  ⟨buffer.takeWhile fun b => b ≠ 0, fun b hb => by simpa using List.mem_takeWhile_imp hb⟩

/-- `KTestObject`; `numBytes` is an `unsigned`. -/
structure KTestObject where
  name : CString
  bytes : List Byte
  numBytes_lt : bytes.length < 2 ^ 32

/-- `KTest`; `numArgs` and `numObjects` are `unsigned`. -/
structure KTest where
  version : BitVec 32
  args : List CString
  symArgvs : BitVec 32
  symArgvLen : BitVec 32
  objects : List KTestObject
  numArgs_lt : args.length < 2 ^ 32
  numObjects_lt : objects.length < 2 ^ 32

/-- `KTEST_VERSION`. -/
def KTEST_VERSION : BitVec 32 := 3

/-- `"KTEST"`. -/
def KTEST_MAGIC : List Byte := [0x4B, 0x54, 0x45, 0x53, 0x54]

/-- `"BOUT\n"`. -/
def BOUT_MAGIC : List Byte := [0x42, 0x4F, 0x55, 0x54, 0x0A]

/-! ### Writing -/

/-- `write_uint32`. -/
def write_uint32 (value : BitVec 32) : List Byte :=
  [wordByte value 24, wordByte value 16, wordByte value 8, wordByte value 0]

/-- `fwrite` of one item, as far as it succeeds. -/
def fwrite (data : List Byte) : Option (List Byte) := if data.length = 0 then none else some data

/-- `write_string`; `len` is an `unsigned`. -/
def write_string (value : CString) : Option (List Byte) :=
  let len := BitVec.ofNat 32 value.1.length
  (fwrite (value.1.take len.toNat)).map fun data => write_uint32 len ++ data

/-- What is written for an object. -/
def write_object (o : KTestObject) : Option (List Byte) :=
  (write_string o.name).bind fun name =>
    (fwrite o.bytes).map fun data => name ++ write_uint32 (BitVec.ofNat 32 o.bytes.length) ++ data

/-- One after the other, as long as it succeeds. -/
def writeAll {α : Type} (write : α → Option (List Byte)) : List α → Option (List Byte)
  | [] => some []
  | a :: l => (write a).bind fun data => (writeAll write l).map fun rest => data ++ rest

/-- `kTest_toFile`: the file, if it returns 1. -/
def kTest_toFile (bo : KTest) : Option (List Byte) :=
  (writeAll write_string bo.args).bind fun args =>
    (writeAll write_object bo.objects).map fun objects =>
      KTEST_MAGIC ++ write_uint32 KTEST_VERSION ++ write_uint32 (BitVec.ofNat 32 bo.args.length) ++ args ++
        write_uint32 bo.symArgvs ++ write_uint32 bo.symArgvLen ++
        write_uint32 (BitVec.ofNat 32 bo.objects.length) ++ objects

/-! ### Reading -/

/-- `fread` of one item. -/
def fread (size : ℕ) (f : List Byte) : Outcome (List Byte) :=
  if 0 < size ∧ size ≤ f.length then .value (f.take size) (f.drop size) else .null

/-- `read_uint32`. -/
def read_uint32 (f : List Byte) : Outcome (BitVec 32) :=
  (fread 4 f).andThen fun data f =>
    match data with
    | [d₀, d₁, d₂, d₃] => .value (word d₀ d₁ d₂ d₃) f
    | _ => .null

/-- `read_string`.  The buffer has `len + 1` bytes in `unsigned` arithmetic, and `fread` fills as much as there is. -/
def read_string (f : List Byte) : Outcome CString :=
  (read_uint32 f).andThen fun len f =>
    if (len + 1).toNat < min len.toNat f.length then .undefined
    else (fread len.toNat f).andThen fun data f =>
      if len.toNat < (len + 1).toNat then .value (cstring data) f else .undefined

/-- What is read for an object. -/
def read_object (f : List Byte) : Outcome KTestObject :=
  (read_string f).andThen fun name f =>
    (read_uint32 f).andThen fun numBytes f =>
      if h : 0 < numBytes.toNat ∧ numBytes.toNat ≤ f.length then
        .value ⟨name, f.take numBytes.toNat, by rw [List.length_take]; omega⟩ (f.drop numBytes.toNat)
      else .null

/-- `kTest_checkHeader`. -/
def kTest_checkHeader (f : List Byte) : Outcome PUnit :=
  (fread 5 f).andThen fun header f => if header ≠ KTEST_MAGIC ∧ header ≠ BOUT_MAGIC then .null else .value ⟨⟩ f

/-- The two fields that files have from version 2 on; `calloc` leaves zeros. -/
def read_symArgv (version : BitVec 32) (f : List Byte) : Outcome (BitVec 32 × BitVec 32) :=
  if 2 ≤ version.toNat then
    (read_uint32 f).andThen fun symArgvs f => (read_uint32 f).map fun symArgvLen => (symArgvs, symArgvLen)
  else .value (0, 0) f

/-- `kTest_fromFile`. -/
def kTest_fromFile (f : List Byte) : Outcome KTest :=
  (kTest_checkHeader f).andThen fun _ f =>
    (read_uint32 f).andThen fun version f =>
      if KTEST_VERSION.toNat < version.toNat then .null
      else
        (read_uint32 f).andThen fun numArgs f =>
          (readMany read_string numArgs.toNat f).andThen fun args f =>
            (read_symArgv version f).andThen fun symArgv f =>
              (read_uint32 f).andThen fun numObjects f =>
                (readMany read_object numObjects.toNat f).map fun objects =>
                  ⟨version, args.1, symArgv.1, symArgv.2, objects.1, lt_of_eq_of_lt args.2 numArgs.isLt,
                    lt_of_eq_of_lt objects.2 numObjects.isLt⟩

/-! ### The fields of a file -/

/-- A string as it stands in a file, with the zeros it may have inside. -/
structure StringField where
  data : List Byte
  data_pos : 0 < data.length
  data_lt : data.length < 2 ^ 32 - 1

namespace StringField

def text (r : StringField) : List Byte := write_uint32 (BitVec.ofNat 32 r.data.length) ++ r.data

def value (r : StringField) : CString := cstring r.data

/-- The whole field is the string. -/
def Plain (r : StringField) : Prop := ∀ b ∈ r.data, b ≠ 0

theorem toNat_length (r : StringField) : (BitVec.ofNat 32 r.data.length).toNat = r.data.length := by
  have := r.data_lt
  rw [BitVec.toNat_ofNat, Nat.mod_eq_of_lt (by omega)]

end StringField

/-- An object as it stands in a file. -/
structure ObjectField where
  name : StringField
  bytes : List Byte
  bytes_pos : 0 < bytes.length
  numBytes_lt : bytes.length < 2 ^ 32

namespace ObjectField

def text (r : ObjectField) : List Byte := r.name.text ++ write_uint32 (BitVec.ofNat 32 r.bytes.length) ++ r.bytes

def value (r : ObjectField) : KTestObject := ⟨r.name.value, r.bytes, r.numBytes_lt⟩

def Plain (r : ObjectField) : Prop := r.name.Plain

end ObjectField

/-- The fields of a file.  Before version 2 there are no `symArgvs` and `symArgvLen`. -/
structure File where
  magic : List Byte
  version : BitVec 32
  args : List StringField
  symArgv : BitVec 32 × BitVec 32
  objects : List ObjectField
  magic_mem : magic = KTEST_MAGIC ∨ magic = BOUT_MAGIC
  version_le : version.toNat ≤ 3
  symArgv_eq : version.toNat < 2 → symArgv = (0, 0)
  numArgs_lt : args.length < 2 ^ 32
  numObjects_lt : objects.length < 2 ^ 32

namespace File

/-- The header and the number of the arguments. -/
def start (magic : List Byte) (version numArgs : BitVec 32) : List Byte :=
  magic ++ write_uint32 version ++ write_uint32 numArgs

def symArgvText (version : BitVec 32) (symArgv : BitVec 32 × BitVec 32) : List Byte :=
  if 2 ≤ version.toNat then write_uint32 symArgv.1 ++ write_uint32 symArgv.2 else []

def text (r : File) : List Byte :=
  start r.magic r.version (BitVec.ofNat 32 r.args.length) ++ r.args.flatMap StringField.text ++
    symArgvText r.version r.symArgv ++ write_uint32 (BitVec.ofNat 32 r.objects.length) ++
    r.objects.flatMap ObjectField.text

def value (r : File) : KTest :=
  ⟨r.version, r.args.map StringField.value, r.symArgv.1, r.symArgv.2, r.objects.map ObjectField.value,
    lt_of_eq_of_lt (List.length_map _) r.numArgs_lt, lt_of_eq_of_lt (List.length_map _) r.numObjects_lt⟩

/-- `write_string` gives back every string of the file. -/
def Plain (r : File) : Prop := (∀ s ∈ r.args, s.Plain) ∧ ∀ o ∈ r.objects, o.Plain

end File

/-! ### What the readers accept -/

theorem reads_fread {size : ℕ} (hsize : 0 < size) :
    Reads (fread size) (fun g a => g = a ∧ g.length = size) fun _ => False := by
  constructor
  · intro f a rest
    constructor
    · intro h
      rw [fread] at h
      split at h
      · rename_i hle
        cases h
        exact ⟨f.take size, (List.take_append_drop size f).symm, rfl, List.length_take_of_le hle.2⟩
      · cases h
    · intro ⟨g, hf, hg, hlen⟩
      rw [hf, fread, if_pos ⟨hsize, by rw [List.length_append]; omega⟩, ← hg, ← hlen, List.take_left, List.drop_left]
  · intro f
    refine ⟨fun h => ?_, False.elim⟩
    rw [fread] at h
    split at h
    · cases h
    · cases h

theorem write_uint32_injective {v v' : BitVec 32} (h : write_uint32 v = write_uint32 v') : v = v' := by
  rw [write_uint32, write_uint32] at h
  injection h with h₀ h
  injection h with h₁ h
  injection h with h₂ h
  injection h with h₃
  rw [← word_eq v, ← word_eq v', h₀, h₁, h₂, h₃]

theorem read_uint32_cons (d₀ d₁ d₂ d₃ : Byte) (f : List Byte) :
    read_uint32 (d₀ :: d₁ :: d₂ :: d₃ :: f) = .value (word d₀ d₁ d₂ d₃) f := by
  have hlen : 0 < 4 ∧ 4 ≤ (d₀ :: d₁ :: d₂ :: d₃ :: f).length := ⟨by decide, by simp only [List.length_cons]; omega⟩
  rw [read_uint32, fread, if_pos hlen]
  rfl

theorem reads_uint32 : Reads read_uint32 (fun g v => g = write_uint32 v) fun _ => False := by
  have hshort : ∀ f : List Byte, f.length < 4 → read_uint32 f = .null := by
    intro f hf
    rw [read_uint32, fread, if_neg (by omega)]
    rfl
  have hcases : ∀ f : List Byte, f.length < 4 ∨ ∃ d₀ d₁ d₂ d₃ f', f = d₀ :: d₁ :: d₂ :: d₃ :: f' := by
    intro f
    rcases f with _ | ⟨d₀, _ | ⟨d₁, _ | ⟨d₂, _ | ⟨d₃, f'⟩⟩⟩⟩
    · exact .inl (by simp)
    · exact .inl (by simp)
    · exact .inl (by simp)
    · exact .inl (by simp)
    · exact .inr ⟨d₀, d₁, d₂, d₃, f', rfl⟩
  constructor
  · intro f v rest
    constructor
    · intro h
      obtain hlt | ⟨d₀, d₁, d₂, d₃, f', rfl⟩ := hcases f
      · rw [hshort f hlt] at h
        cases h
      · rw [read_uint32_cons] at h
        cases h
        obtain ⟨h₀, h₁, h₂, h₃⟩ := word_parts d₀ d₁ d₂ d₃
        refine ⟨[d₀, d₁, d₂, d₃], rfl, ?_⟩
        rw [write_uint32, h₀, h₁, h₂, h₃]
    · intro ⟨g, hf, hg⟩
      rw [hf, hg, write_uint32]
      show read_uint32 (_ :: _ :: _ :: _ :: rest) = _
      rw [read_uint32_cons, word_eq]
  · intro f
    refine ⟨fun h => ?_, False.elim⟩
    obtain hlt | ⟨d₀, d₁, d₂, d₃, f', rfl⟩ := hcases f
    · rw [hshort f hlt] at h
      cases h
    · rw [read_uint32_cons] at h
      cases h

/-- Where a string is read into a buffer of no bytes. -/
def Overflow (f : List Byte) : Prop := ∃ b rest, f = write_uint32 (BitVec.allOnes 32) ++ b :: rest

theorem toNat_add_one (len : BitVec 32) (h : len ≠ BitVec.allOnes 32) : (len + 1).toNat = len.toNat + 1 := by
  have hne : len.toNat ≠ 2 ^ 32 - 1 := fun heq => h (BitVec.eq_of_toNat_eq heq)
  have hlt := len.isLt
  rw [BitVec.toNat_add]
  exact Nat.mod_eq_of_lt (by show len.toNat + 1 < _; omega)

/-- The string after its length. -/
theorem reads_stringData (len : BitVec 32) :
    Reads
      (fun f =>
        if (len + 1).toNat < min len.toNat f.length then .undefined
        else (fread len.toNat f).andThen fun data f =>
          if len.toNat < (len + 1).toNat then .value (cstring data) f else .undefined)
      (fun g s => ∃ r : StringField, BitVec.ofNat 32 r.data.length = len ∧ g = r.data ∧ s = r.value)
      fun f => len = BitVec.allOnes 32 ∧ f ≠ [] := by
  by_cases hones : len = BitVec.allOnes 32
  · have hno : ¬ ∃ r : StringField, BitVec.ofNat 32 r.data.length = len := by
      intro ⟨r, hr⟩
      have hlt := r.data_lt
      rw [← r.toNat_length, hr, hones] at hlt
      exact absurd hlt (by decide)
    have hrun : ∀ f : List Byte, (if (len + 1).toNat < min len.toNat f.length then .undefined
        else (fread len.toNat f).andThen fun data f =>
          if len.toNat < (len + 1).toNat then .value (cstring data) f else .undefined) =
        if f = [] then (.null : Outcome CString) else .undefined := by
      intro f
      have hzero : (len + 1).toNat = 0 := by rw [hones]; decide
      have hpos : 0 < len.toNat := by rw [hones]; decide
      rw [hzero]
      cases f with
      | nil =>
        rw [if_neg (by simp), if_pos rfl, fread, if_neg (by simp; omega)]
        rfl
      | cons b f =>
        rw [if_pos (by rw [List.length_cons]; omega), if_neg (List.cons_ne_nil b f)]
    constructor
    · intro f s rest
      simp only [hrun]
      refine ⟨fun h => ?_, fun ⟨g, _, r, hr, _⟩ => absurd ⟨r, hr⟩ hno⟩
      split at h
      · cases h
      · cases h
    · intro f
      simp only [hrun]
      by_cases hf : f = []
      · rw [if_pos hf]
        exact ⟨fun h => (nomatch h), fun h => absurd hf h.2⟩
      · rw [if_neg hf]
        exact ⟨fun _ => ⟨hones, hf⟩, fun _ => rfl⟩
  · have hone := toNat_add_one len hones
    have hrun : ∀ f : List Byte, (if (len + 1).toNat < min len.toNat f.length then .undefined
        else (fread len.toNat f).andThen fun data f =>
          if len.toNat < (len + 1).toNat then .value (cstring data) f else .undefined) =
        (fread len.toNat f).map cstring := by
      intro f
      rw [if_neg (by omega)]
      simp only [hone, Nat.lt_succ_self, if_true]
      rfl
    simp only [hrun]
    have hlt : len.toNat < 2 ^ 32 - 1 := by
      have hne : len.toNat ≠ 2 ^ 32 - 1 := fun heq => hones (BitVec.eq_of_toNat_eq heq)
      have hlt := len.isLt
      omega
    by_cases hpos : 0 < len.toNat
    · refine ((reads_fread hpos).map cstring).congr (fun g s => ?_) fun f => ?_
      · constructor
        · intro ⟨a, ⟨ha, hlen⟩, hs⟩
          refine ⟨⟨g, by omega, by omega⟩, ?_, rfl, ?_⟩
          · show BitVec.ofNat 32 g.length = len
            rw [hlen, BitVec.ofNat_toNat, BitVec.setWidth_eq]
          · rw [hs, ← ha]
            rfl
        · intro ⟨r, hr, hg, hs⟩
          refine ⟨g, ⟨rfl, ?_⟩, ?_⟩
          · rw [hg, ← hr, r.toNat_length]
          · rw [hs, hg]
            rfl
      · exact ⟨False.elim, fun h => absurd h.1 hones⟩
    · have hnull : ∀ f : List Byte, (fread len.toNat f).map cstring = .null := by
        intro f
        rw [fread, if_neg (fun h => hpos h.1)]
        rfl
      simp only [hnull]
      constructor
      · intro f s rest
        refine ⟨fun h => (nomatch h), fun ⟨g, _, r, hr, _⟩ => ?_⟩
        have := r.data_pos
        rw [← r.toNat_length, hr] at this
        exact absurd this hpos
      · intro f
        exact ⟨fun h => (nomatch h), fun h => absurd h.1 hones⟩

theorem reads_string : Reads read_string (fun g s => ∃ r : StringField, g = r.text ∧ s = r.value) Overflow := by
  refine (reads_uint32.andThen reads_stringData).congr (fun g s => ?_) fun f => ?_
  · constructor
    · intro ⟨g₁, len, g₂, hg, hg₁, r, hlen, hg₂, hs⟩
      refine ⟨r, ?_, hs⟩
      rw [hg, hg₁, hg₂, ← hlen]
      rfl
    · intro ⟨r, hg, hs⟩
      exact ⟨_, _, r.data, hg, rfl, r, rfl, rfl, hs⟩
  · constructor
    · intro h
      obtain h | ⟨g₁, len, f₂, hf, hg₁, hlen, hne⟩ := h
      · exact h.elim
      · obtain ⟨b, rest, rfl⟩ := List.exists_cons_of_ne_nil hne
        refine ⟨b, rest, ?_⟩
        rw [hf, hg₁, hlen]
    · intro ⟨b, rest, hf⟩
      exact .inr ⟨_, _, b :: rest, hf, rfl, rfl, List.cons_ne_nil b rest⟩

/-- The bytes of an object after their number. -/
theorem reads_objectData (name : CString) (numBytes : BitVec 32) :
    Reads
      (fun f =>
        if h : 0 < numBytes.toNat ∧ numBytes.toNat ≤ f.length then
          .value (⟨name, f.take numBytes.toNat, by rw [List.length_take]; omega⟩ : KTestObject) (f.drop numBytes.toNat)
        else .null)
      (fun g o => 0 < g.length ∧ g.length = numBytes.toNat ∧ o.name = name ∧ o.bytes = g) fun _ => False := by
  constructor
  · intro f o rest
    constructor
    · intro h
      split at h
      · rename_i hle
        cases h
        have hlen := List.length_take_of_le hle.2
        exact ⟨f.take numBytes.toNat, (List.take_append_drop _ f).symm, by omega, hlen, rfl, rfl⟩
      · cases h
    · intro ⟨g, hf, hpos, hlen, hname, hbytes⟩
      obtain ⟨oname, obytes, _⟩ := o
      obtain rfl : oname = name := hname
      obtain rfl : obytes = g := hbytes
      subst hf
      rw [dif_pos ⟨by omega, by rw [List.length_append]; omega⟩]
      congr
      · rw [← hlen, List.take_left]
      · rw [← hlen, List.drop_left]
  · intro f
    refine ⟨fun h => ?_, False.elim⟩
    split at h
    · cases h
    · cases h

theorem reads_object : Reads read_object (fun g o => ∃ r : ObjectField, g = r.text ∧ o = r.value) Overflow := by
  refine (reads_string.andThen fun name => reads_uint32.andThen fun n => reads_objectData name n).congr
    (fun g o => ?_) fun f => ?_
  · constructor
    · intro ⟨g₁, name, g₂, hg, ⟨r, hg₁, hname⟩, g₃, n, g₄, hg₂, hg₃, hpos, hlen, hoName, hoBytes⟩
      have hlt := n.isLt
      refine ⟨⟨r, g₄, hpos, by omega⟩, ?_, ?_⟩
      · have hn : BitVec.ofNat 32 g₄.length = n := by rw [hlen, BitVec.ofNat_toNat, BitVec.setWidth_eq]
        rw [hg, hg₁, hg₂, hg₃, ObjectField.text, hn, List.append_assoc]
      · obtain ⟨oname, obytes, _⟩ := o
        obtain rfl : oname = name := hoName
        obtain rfl : obytes = g₄ := hoBytes
        subst hname
        rfl
    · intro ⟨r, hg, ho⟩
      refine ⟨r.name.text, r.name.value, _, ?_, ⟨r.name, rfl, rfl⟩, _, BitVec.ofNat 32 r.bytes.length, r.bytes, rfl,
        rfl, r.bytes_pos, ?_, ?_⟩
      · rw [hg, ObjectField.text, List.append_assoc]
      · rw [BitVec.toNat_ofNat, Nat.mod_eq_of_lt r.numBytes_lt]
      · rw [ho]
        exact ⟨rfl, rfl⟩
  · constructor
    · intro h
      obtain h | ⟨_, _, _, _, _, h⟩ := h
      · exact h
      · exact h.elim False.elim fun ⟨_, _, _, _, _, h⟩ => h.elim
    · exact fun h => .inl h

theorem reads_header :
    Reads kTest_checkHeader (fun g _ => g = KTEST_MAGIC ∨ g = BOUT_MAGIC) fun _ => False := by
  have hfive : 0 < 5 := by decide
  have hcheck := fun header : List Byte => (Reads.pure PUnit.unit).guard (header ≠ KTEST_MAGIC ∧ header ≠ BOUT_MAGIC)
  refine ((reads_fread hfive).andThen hcheck).congr (fun g _ => ?_) fun f => ?_
  · constructor
    · intro ⟨g₁, a, g₂, hg, ⟨ha, _⟩, hmagic, hg₂, _⟩
      rw [hg, hg₂, List.append_nil, ha]
      by_contra hne
      rw [not_or] at hne
      exact hmagic hne
    · intro hg
      refine ⟨g, g, [], (List.append_nil g).symm, ⟨rfl, ?_⟩, ?_, rfl, rfl⟩
      · obtain rfl | rfl := hg
        · rfl
        · rfl
      · exact fun h => hg.elim h.1 h.2
  · exact ⟨fun h => h.elim id fun ⟨_, _, _, _, _, _, h⟩ => h, False.elim⟩

theorem reads_symArgv (version : BitVec 32) :
    Reads (read_symArgv version)
      (fun g p => g = File.symArgvText version p ∧ (version.toNat < 2 → p = (0, 0))) fun _ => False := by
  by_cases hversion : 2 ≤ version.toNat
  · have heq : read_symArgv version = fun f => (read_uint32 f).andThen fun symArgvs f =>
        (read_uint32 f).map fun symArgvLen => (symArgvs, symArgvLen) := by
      funext f
      rw [read_symArgv, if_pos hversion]
    rw [heq]
    refine (reads_uint32.andThen fun a => reads_uint32.map fun b => (a, b)).congr (fun g p => ?_) fun f => ?_
    · rw [File.symArgvText, if_pos hversion]
      constructor
      · intro ⟨g₁, a, g₂, hg, hg₁, b, hg₂, hp⟩
        refine ⟨?_, fun hlt => absurd hlt (by omega)⟩
        rw [hg, hg₁, hg₂, hp]
      · intro ⟨hg, _⟩
        exact ⟨_, p.1, _, hg, rfl, p.2, rfl, rfl⟩
    · exact ⟨fun h => h.elim id fun ⟨_, _, _, _, _, h⟩ => h, False.elim⟩
  · have heq : read_symArgv version = fun f => .value (0, 0) f := by
      funext f
      rw [read_symArgv, if_neg hversion]
    rw [heq]
    refine (Reads.pure _).congr (fun g p => ?_) fun f => Iff.rfl
    rw [File.symArgvText, if_neg hversion]
    exact ⟨fun ⟨hg, hp⟩ => ⟨hg, fun _ => hp⟩, fun ⟨hg, hp⟩ => ⟨hg, hp (by omega)⟩⟩

/-- What may stand in a file before a string: the file so far is in order, and more arguments or objects follow. -/
inductive LeadsToString : List Byte → Prop
  | arg {magic : List Byte} {version numArgs : BitVec 32} {args : List StringField} :
      magic = KTEST_MAGIC ∨ magic = BOUT_MAGIC → version.toNat ≤ 3 → args.length < numArgs.toNat →
      LeadsToString (File.start magic version numArgs ++ args.flatMap StringField.text)
  | object {magic : List Byte} {version numArgs numObjects : BitVec 32} {args : List StringField}
      {symArgv : BitVec 32 × BitVec 32} {objects : List ObjectField} :
      magic = KTEST_MAGIC ∨ magic = BOUT_MAGIC → version.toNat ≤ 3 → args.length = numArgs.toNat →
      (version.toNat < 2 → symArgv = (0, 0)) → objects.length < numObjects.toNat →
      LeadsToString (File.start magic version numArgs ++ args.flatMap StringField.text ++
        File.symArgvText version symArgv ++ write_uint32 numObjects ++ objects.flatMap ObjectField.text)

theorem ofNat_eq_of_length {α : Type} {l : List α} {n : BitVec 32} (h : l.length = n.toNat) :
    BitVec.ofNat 32 l.length = n := by
  rw [h, BitVec.ofNat_toNat, BitVec.setWidth_eq]

theorem reads_file :
    Reads kTest_fromFile (fun g v => ∃ r : File, g = r.text ∧ v = r.value)
      fun f => ∃ before f', f = before ++ f' ∧ LeadsToString before ∧ Overflow f' := by
  have hfields := fun version : BitVec 32 => (reads_uint32.andThen fun numArgs =>
    (reads_string.manyFields numArgs.toNat).andThen fun args => (reads_symArgv version).andThen fun symArgv =>
      reads_uint32.andThen fun numObjects => (reads_object.manyFields numObjects.toNat).map fun objects =>
        (⟨version, args.1, symArgv.1, symArgv.2, objects.1, lt_of_eq_of_lt args.2 numArgs.isLt,
          lt_of_eq_of_lt objects.2 numObjects.isLt⟩ : KTest)).guard (KTEST_VERSION.toNat < version.toNat)
  refine (reads_header.andThen fun _ => reads_uint32.andThen hfields).congr (fun g v => ?_) fun f => ?_
  · constructor
    · intro ⟨magic, _, g₁, hg, hmagic, _, version, g₂, hg₁, rfl, hversion, _, numArgs, g₃, hg₂, rfl, gArgs, lArgs, g₄,
        hg₃, ⟨args, hgArgs, hlArgs⟩, _, symArgv, g₅, hg₄, ⟨hgSym, hsym⟩, _, numObjects, g₆, hg₅, rfl, lObjects,
        ⟨objects, hgObjects, hlObjects⟩, hv⟩
      have hargs : args.length = numArgs.toNat := by rw [← lArgs.2, hlArgs, List.length_map]
      have hobjects : objects.length = numObjects.toNat := by rw [← lObjects.2, hlObjects, List.length_map]
      have hle : version.toNat ≤ 3 := Nat.le_of_not_lt hversion
      refine ⟨⟨magic, version, args, symArgv, objects, hmagic, hle, hsym, lt_of_eq_of_lt hargs numArgs.isLt,
        lt_of_eq_of_lt hobjects numObjects.isLt⟩, ?_, ?_⟩
      · simp only [File.text, File.start, ofNat_eq_of_length hargs, ofNat_eq_of_length hobjects, hg, hg₁, hg₂, hg₃, hg₄,
          hg₅, hgArgs, hgSym, hgObjects, List.append_assoc]
      · rw [hv, File.value]
        simp only [hlArgs, hlObjects]
    · intro ⟨r, hg, hv⟩
      have hargs : (r.args.map StringField.value).length = (BitVec.ofNat 32 r.args.length).toNat := by
        rw [List.length_map, BitVec.toNat_ofNat, Nat.mod_eq_of_lt r.numArgs_lt]
      have hobjects : (r.objects.map ObjectField.value).length = (BitVec.ofNat 32 r.objects.length).toNat := by
        rw [List.length_map, BitVec.toNat_ofNat, Nat.mod_eq_of_lt r.numObjects_lt]
      refine ⟨r.magic, ⟨⟩, _, ?_, r.magic_mem, _, r.version, _, rfl, rfl, Nat.not_lt_of_le r.version_le, _,
        BitVec.ofNat 32 r.args.length, _, rfl, rfl, _, ⟨_, hargs⟩, _, rfl, ⟨r.args, rfl, rfl⟩, _, r.symArgv, _, rfl,
        ⟨rfl, r.symArgv_eq⟩, _, BitVec.ofNat 32 r.objects.length, _, rfl, rfl, ⟨_, hobjects⟩, ⟨r.objects, rfl, rfl⟩, hv⟩
      simp only [hg, File.text, File.start, List.append_assoc]
  · constructor
    · intro h
      obtain h | ⟨magic, _, f₁, hf, hmagic, h⟩ := h
      · exact h.elim
      obtain h | ⟨_, version, f₂, hf₁, rfl, hversion, h⟩ := h
      · exact h.elim
      have hle : version.toNat ≤ 3 := Nat.le_of_not_lt hversion
      obtain h | ⟨_, numArgs, f₃, hf₂, rfl, h⟩ := h
      · exact h.elim
      obtain ⟨args, f', hf₃, hlt, hover⟩ | ⟨_, lArgs, f₄, hf₃, ⟨args, rfl, hlArgs⟩, h⟩ := h
      · refine ⟨_, f', ?_, .arg hmagic hle hlt, hover⟩
        simp only [hf, hf₁, hf₂, hf₃, File.start, List.append_assoc]
      have hargs : args.length = numArgs.toNat := by rw [← lArgs.2, hlArgs, List.length_map]
      obtain h | ⟨_, symArgv, f₅, hf₄, ⟨rfl, hsym⟩, h⟩ := h
      · exact h.elim
      obtain h | ⟨_, numObjects, f₆, hf₅, rfl, objects, f', hf₆, hlt, hover⟩ := h
      · exact h.elim
      refine ⟨_, f', ?_, .object hmagic hle hargs hsym hlt, hover⟩
      simp only [hf, hf₁, hf₂, hf₃, hf₄, hf₅, hf₆, File.start, List.append_assoc]
    · intro ⟨before, f', hf, hbefore, hover⟩
      cases hbefore with
      | @arg magic version numArgs args hmagic hle hlt =>
        refine .inr ⟨magic, ⟨⟩, _, ?_, hmagic, .inr ⟨_, version, _, rfl, rfl, Nat.not_lt_of_le hle,
          .inr ⟨_, numArgs, _, rfl, rfl, .inl ⟨args, f', rfl, hlt, hover⟩⟩⟩⟩
        simp only [hf, File.start, List.append_assoc]
      | @object magic version numArgs numObjects args symArgv objects hmagic hle hargs hsym hlt =>
        have hlen : (args.map StringField.value).length = numArgs.toNat := by rw [List.length_map, hargs]
        refine .inr ⟨magic, ⟨⟩, _, ?_, hmagic, .inr ⟨_, version, _, rfl, rfl, Nat.not_lt_of_le hle,
          .inr ⟨_, numArgs, _, rfl, rfl, .inr ⟨_, ⟨_, hlen⟩, _, rfl, ⟨args, rfl, rfl⟩, .inr ⟨_, symArgv, _, rfl,
            ⟨rfl, hsym⟩, .inr ⟨_, numObjects, _, rfl, rfl, objects, f', rfl, hlt, hover⟩⟩⟩⟩⟩⟩
        simp only [hf, File.start, List.append_assoc]

/-! ### What the writers write -/

theorem cstring_plain {data : List Byte} (h : ∀ b ∈ data, b ≠ 0) : (cstring data).1 = data := by
  show data.takeWhile _ = data
  rw [List.takeWhile_eq_self_iff]
  simpa using h

/-- A shorter C string in the same buffer has another length. -/
theorem plain_of_length_eq {data : List Byte} (h : (cstring data).1.length = data.length) : ∀ b ∈ data, b ≠ 0 := by
  have heq : (cstring data).1 = data := (List.takeWhile_sublist _).eq_of_length h
  intro b hb
  rw [← heq] at hb
  exact (cstring data).2 b hb

theorem write_string_plain (r : StringField) (h : r.Plain) : write_string r.value = some r.text := by
  have hdata : r.value.1 = r.data := cstring_plain h
  have hpos : ¬ r.data.length = 0 := Nat.ne_of_gt r.data_pos
  simp only [write_string, hdata, r.toNat_length, List.take_length, fwrite, if_neg hpos, Option.map_some]
  rfl

theorem write_object_plain (r : ObjectField) (h : r.Plain) : write_object r.value = some r.text := by
  have hname : write_string r.value.name = some r.name.text := write_string_plain r.name h
  have hpos : ¬ r.value.bytes.length = 0 := Nat.ne_of_gt r.bytes_pos
  rw [write_object, hname, fwrite, if_neg hpos]
  rfl

theorem writeAll_plain {R α : Type} {write : α → Option (List Byte)} {text : R → List Byte} {value : R → α}
    {Plain : R → Prop} (h : ∀ r, Plain r → write (value r) = some (text r)) (rs : List R) (hrs : ∀ r ∈ rs, Plain r) :
    writeAll write (rs.map value) = some (rs.flatMap text) := by
  induction rs with
  | nil => rfl
  | cons r rs ih =>
    rw [List.map_cons, writeAll, h r (hrs r (List.mem_cons_self ..)), ih fun r' hr' => hrs r' (List.mem_cons_of_mem _ hr')]
    rfl

/-- What is written for a string of a file is there in the file only if the string is the whole field. -/
theorem plain_of_prefix {r : StringField} {w x y : List Byte} (hw : write_string r.value = some w)
    (hp : w ++ x <+: r.text ++ y) : r.Plain := by
  rw [write_string, Option.map_eq_some_iff] at hw
  obtain ⟨data, _, rfl⟩ := hw
  obtain ⟨z, hz⟩ := hp
  simp only [StringField.text, List.append_assoc] at hz
  have hlen := (List.append_inj hz rfl).1
  have hlen := congrArg BitVec.toNat (write_uint32_injective hlen)
  rw [r.toNat_length, BitVec.toNat_ofNat] at hlen
  have hle : r.value.1.length ≤ r.data.length := (List.takeWhile_sublist _).length_le
  have hlt := r.data_lt
  rw [Nat.mod_eq_of_lt (by omega)] at hlen
  exact plain_of_length_eq hlen

theorem plain_of_prefix_object {r : ObjectField} {w x y : List Byte} (hw : write_object r.value = some w)
    (hp : w ++ x <+: r.text ++ y) : r.Plain := by
  rw [write_object, Option.bind_eq_some_iff] at hw
  obtain ⟨name, hname, hw⟩ := hw
  rw [Option.map_eq_some_iff] at hw
  obtain ⟨data, _, rfl⟩ := hw
  simp only [ObjectField.text, List.append_assoc] at hp
  exact plain_of_prefix hname hp

theorem all_plain_of_prefix {R α : Type} {write : α → Option (List Byte)} {text : R → List Byte} {value : R → α}
    {Plain : R → Prop} (hplain : ∀ r, Plain r → write (value r) = some (text r))
    (hone : ∀ {r : R} {w x y : List Byte}, write (value r) = some w → w ++ x <+: text r ++ y → Plain r) (rs : List R)
    {w x y : List Byte} (hw : writeAll write (rs.map value) = some w) (hp : w ++ x <+: rs.flatMap text ++ y) :
    (∀ r ∈ rs, Plain r) ∧ x <+: y := by
  induction rs generalizing w with
  | nil =>
    cases hw
    exact ⟨fun r hr => absurd hr (List.not_mem_nil), hp⟩
  | cons r rs ih =>
    rw [List.map_cons, writeAll, Option.bind_eq_some_iff] at hw
    obtain ⟨data, hdata, hw⟩ := hw
    rw [Option.map_eq_some_iff] at hw
    obtain ⟨rest, hrest, rfl⟩ := hw
    rw [List.flatMap_cons, List.append_assoc, List.append_assoc] at hp
    have hr := hone hdata hp
    obtain rfl : data = text r := Option.some.inj (hdata.symm.trans (hplain r hr))
    obtain ⟨hrs, hxy⟩ := ih hrest ((List.prefix_append_right_inj _).1 hp)
    refine ⟨fun r' hr' => ?_, hxy⟩
    cases hr' with
    | head => exact hr
    | tail _ hr' => exact hrs r' hr'

/-- A file in the form of the writer. -/
def File.Canonical (r : File) : Prop := r.magic = KTEST_MAGIC ∧ r.version = KTEST_VERSION ∧ r.Plain

theorem kTest_toFile_canonical (r : File) (h : r.Canonical) : kTest_toFile r.value = some r.text := by
  obtain ⟨hmagic, hversion, hargs, hobjects⟩ := h
  have hwArgs : writeAll write_string r.value.args = some (r.args.flatMap StringField.text) :=
    writeAll_plain write_string_plain r.args hargs
  have hwObjects : writeAll write_object r.value.objects = some (r.objects.flatMap ObjectField.text) :=
    writeAll_plain write_object_plain r.objects hobjects
  have hnArgs : r.value.args.length = r.args.length := List.length_map _
  have hnObjects : r.value.objects.length = r.objects.length := List.length_map _
  have hsym : File.symArgvText r.version r.symArgv = write_uint32 r.value.symArgvs ++ write_uint32 r.value.symArgvLen := by
    rw [File.symArgvText, hversion]
    rfl
  rw [kTest_toFile, hwArgs, Option.bind_some, hwObjects, Option.map_some, hnArgs, hnObjects, File.text, hsym, File.start,
    hmagic, hversion]
  simp only [List.append_assoc]

/-- What is written for the value of a file is there in the file only if the file has the form of the writer. -/
theorem canonical_of_prefix {r : File} {w y : List Byte} (hw : kTest_toFile r.value = some w)
    (hp : w <+: r.text ++ y) : r.Canonical := by
  rw [kTest_toFile, Option.bind_eq_some_iff] at hw
  obtain ⟨args, hargs, hw⟩ := hw
  rw [Option.map_eq_some_iff] at hw
  obtain ⟨objects, hobjects, rfl⟩ := hw
  have hmagicLen : KTEST_MAGIC.length = r.magic.length := by
    obtain h | h := r.magic_mem
    · rw [h]
    · rw [h]
      rfl
  obtain ⟨z, hz⟩ := hp
  simp only [File.text, File.start, List.append_assoc] at hz
  obtain ⟨hmagic, hz⟩ := List.append_inj hz hmagicLen
  obtain ⟨hversion, hz⟩ := List.append_inj hz rfl
  obtain ⟨-, hz⟩ := List.append_inj hz rfl
  have hversion := write_uint32_injective hversion
  have hsym : File.symArgvText r.version r.symArgv = write_uint32 r.value.symArgvs ++ write_uint32 r.value.symArgvLen := by
    rw [File.symArgvText, ← hversion]
    rfl
  have hp : args ++ (write_uint32 r.value.symArgvs ++ (write_uint32 r.value.symArgvLen ++
      (write_uint32 (BitVec.ofNat 32 r.value.objects.length) ++ objects))) <+:
      r.args.flatMap StringField.text ++ (File.symArgvText r.version r.symArgv ++
        (write_uint32 (BitVec.ofNat 32 r.objects.length) ++ (r.objects.flatMap ObjectField.text ++ y))) := by
    refine ⟨z, ?_⟩
    simp only [List.append_assoc]
    exact hz
  obtain ⟨hplain, hrest⟩ := all_plain_of_prefix write_string_plain plain_of_prefix r.args hargs hp
  rw [hsym] at hrest
  obtain ⟨z, hz⟩ := hrest
  simp only [List.append_assoc] at hz
  obtain ⟨-, hz⟩ := List.append_inj hz rfl
  obtain ⟨-, hz⟩ := List.append_inj hz rfl
  obtain ⟨-, hz⟩ := List.append_inj hz rfl
  have hp : objects ++ [] <+: r.objects.flatMap ObjectField.text ++ y := by
    rw [List.append_nil]
    exact ⟨z, hz⟩
  obtain ⟨hplain', -⟩ := all_plain_of_prefix write_object_plain plain_of_prefix_object r.objects hobjects hp
  exact ⟨hmagic.symm, hversion.symm, hplain, hplain'⟩

/-! ### The round trip -/

/-- The value is written and read back. -/
def RoundTrips (bo : KTest) : Prop :=
  ∃ content rest, kTest_toFile bo = some content ∧ kTest_fromFile content = .value bo rest

/-- The value of a version 3 file is written as a prefix of the file. -/
def Reencodes (content : List Byte) : Prop :=
  match kTest_fromFile content with
  | .value v _ => v.version = KTEST_VERSION → ∃ c, kTest_toFile v = some c ∧ c <+: content
  | .null => True
  | .undefined => False

/-- A string that has at least one byte and fits its buffer. -/
def StringFits (s : CString) : Prop := 0 < s.1.length ∧ s.1.length < 2 ^ 32 - 1

/-- A value of the current version whose strings and objects have bytes. -/
def Fits (bo : KTest) : Prop :=
  bo.version = KTEST_VERSION ∧ (∀ s ∈ bo.args, StringFits s) ∧ ∀ o ∈ bo.objects, StringFits o.name ∧ 0 < o.bytes.length

theorem exists_fields {R α : Type} {value : R → α} {P : R → Prop} (l : List α) (h : ∀ a ∈ l, ∃ r, value r = a ∧ P r) :
    ∃ rs : List R, rs.map value = l ∧ ∀ r ∈ rs, P r := by
  induction l with
  | nil => exact ⟨[], rfl, fun r hr => absurd hr List.not_mem_nil⟩
  | cons a l ih =>
    obtain ⟨r, hr, hP⟩ := h a (List.mem_cons_self ..)
    obtain ⟨rs, hrs, hPs⟩ := ih fun a' ha' => h a' (List.mem_cons_of_mem _ ha')
    refine ⟨r :: rs, by rw [List.map_cons, hr, hrs], fun r' hr' => ?_⟩
    cases hr' with
    | head => exact hP
    | tail _ hr' => exact hPs r' hr'

theorem stringFits_iff (s : CString) : StringFits s ↔ ∃ r : StringField, r.value = s ∧ r.Plain := by
  constructor
  · intro ⟨hpos, hlt⟩
    exact ⟨⟨s.1, hpos, hlt⟩, Subtype.ext (cstring_plain s.2), s.2⟩
  · intro ⟨r, hs, hplain⟩
    have hdata : s.1 = r.data := by rw [← hs]; exact cstring_plain hplain
    rw [StringFits, hdata]
    exact ⟨r.data_pos, r.data_lt⟩

theorem objectFits_iff (o : KTestObject) :
    StringFits o.name ∧ 0 < o.bytes.length ↔ ∃ r : ObjectField, r.value = o ∧ r.Plain := by
  rw [stringFits_iff]
  constructor
  · intro ⟨⟨r, hname, hplain⟩, hpos⟩
    refine ⟨⟨r, o.bytes, hpos, o.numBytes_lt⟩, ?_, hplain⟩
    rw [ObjectField.value, hname]
  · intro ⟨r, ho, hplain⟩
    subst ho
    exact ⟨⟨r.name, rfl, hplain⟩, r.bytes_pos⟩

/-- The values of the files in the form of the writer. -/
theorem fits_iff (bo : KTest) : Fits bo ↔ ∃ r : File, r.value = bo ∧ r.Canonical := by
  constructor
  · intro ⟨hversion, hargs, hobjects⟩
    obtain ⟨args, hArgs, hplain⟩ := exists_fields bo.args fun s hs => (stringFits_iff s).1 (hargs s hs)
    obtain ⟨objects, hObjects, hplain'⟩ := exists_fields bo.objects fun o ho => (objectFits_iff o).1 (hobjects o ho)
    have hnArgs : args.length < 2 ^ 32 := by rw [← List.length_map (f := StringField.value), hArgs]; exact bo.numArgs_lt
    have hnObjects : objects.length < 2 ^ 32 := by
      rw [← List.length_map (f := ObjectField.value), hObjects]
      exact bo.numObjects_lt
    refine ⟨⟨KTEST_MAGIC, KTEST_VERSION, args, (bo.symArgvs, bo.symArgvLen), objects, .inl rfl, by decide,
      fun h => absurd h (by decide), hnArgs, hnObjects⟩, ?_, rfl, rfl, hplain, hplain'⟩
    obtain ⟨version, _, _, _, _, _, _⟩ := bo
    obtain rfl : version = KTEST_VERSION := hversion
    simp only [File.value, hArgs, hObjects]
  · intro ⟨r, hr, _, hversion, hargs, hobjects⟩
    subst hr
    refine ⟨hversion, fun s hs => ?_, fun o ho => ?_⟩
    · obtain ⟨r', hr', rfl⟩ := List.mem_map.1 hs
      exact (stringFits_iff _).2 ⟨r', rfl, hargs r' hr'⟩
    · obtain ⟨r', hr', rfl⟩ := List.mem_map.1 ho
      exact (objectFits_iff _).2 ⟨r', rfl, hobjects r' hr'⟩

theorem roundTrips_iff (bo : KTest) : RoundTrips bo ↔ Fits bo := by
  rw [fits_iff]
  constructor
  · intro ⟨content, rest, hto, hfrom⟩
    obtain ⟨g, hcontent, r, hg, hbo⟩ := (reads_file.value content bo rest).1 hfrom
    rw [hbo] at hto
    refine ⟨r, hbo.symm, canonical_of_prefix (y := rest) hto ?_⟩
    rw [hcontent, hg]
  · intro ⟨r, hbo, hcanonical⟩
    refine ⟨r.text, [], ?_, ?_⟩
    · rw [← hbo]
      exact kTest_toFile_canonical r hcanonical
    · exact (reads_file.value r.text bo []).2 ⟨r.text, (List.append_nil _).symm, r, rfl, hbo.symm⟩

/-- A file has no string field of length `2^32 - 1` with a byte after it, and if it begins with the fields of a version
3 file, these are in the form of the writer. -/
def ContentFits (content : List Byte) : Prop :=
  (¬ ∃ before b rest, LeadsToString before ∧ content = before ++ (write_uint32 (BitVec.allOnes 32) ++ b :: rest)) ∧
    ∀ r : File, r.version = KTEST_VERSION → r.text <+: content → r.magic = KTEST_MAGIC ∧ r.Plain

theorem undefined_iff (content : List Byte) : kTest_fromFile content = .undefined ↔
    ∃ before b rest, LeadsToString before ∧ content = before ++ (write_uint32 (BitVec.allOnes 32) ++ b :: rest) := by
  rw [reads_file.undefined]
  constructor
  · intro ⟨before, f', hcontent, hbefore, b, rest, hf'⟩
    exact ⟨before, b, rest, hbefore, by rw [hcontent, hf']⟩
  · intro ⟨before, b, rest, hbefore, hcontent⟩
    exact ⟨before, _, hcontent, hbefore, b, rest, rfl⟩

theorem reencodes_iff (content : List Byte) : Reencodes content ↔ ContentFits content := by
  rw [ContentFits, ← undefined_iff, Reencodes]
  cases hfrom : kTest_fromFile content with
  | value v rest =>
    obtain ⟨g, hcontent, r, hg, hv⟩ := (reads_file.value content v rest).1 hfrom
    have huniq : ∀ r' : File, r'.text <+: content → r'.value = v := by
      intro r' ⟨rest', hrest'⟩
      have hfrom' := (reads_file.value content r'.value rest').2 ⟨r'.text, hrest'.symm, r', rfl, rfl⟩
      rw [hfrom] at hfrom'
      cases hfrom'
      rfl
    constructor
    · intro h
      refine ⟨fun h => (nomatch h), fun r' hversion hp => ?_⟩
      have hv' := huniq r' hp
      obtain ⟨c, hto, hc⟩ := h (by rw [← hv']; exact hversion)
      obtain ⟨rest', hrest'⟩ := hp
      rw [← hrest'] at hc
      rw [← hv'] at hto
      have hcanonical := canonical_of_prefix hto hc
      exact ⟨hcanonical.1, hcanonical.2.2⟩
    · intro h hversion
      have hp : r.text <+: content := ⟨rest, by rw [hcontent, hg]⟩
      rw [hv] at hversion
      obtain ⟨hmagic, hplain⟩ := h.2 r hversion hp
      refine ⟨r.text, ?_, hp⟩
      rw [hv]
      exact kTest_toFile_canonical r ⟨hmagic, hversion, hplain⟩
  | null =>
    refine ⟨fun _ => ⟨fun h => (nomatch h), fun r _ ⟨rest, hrest⟩ => ?_⟩, fun _ => trivial⟩
    rw [(reads_file.value content r.value rest).2 ⟨r.text, hrest.symm, r, rfl, rfl⟩] at hfrom
    cases hfrom
  | undefined => exact ⟨False.elim, fun h => h.1 rfl⟩

/-- **Round trip.**  A value is written and read back exactly if it is of the current version and its strings and
objects have bytes, and strings fit their buffers; a file is rejected or its value is written as its prefix exactly if
`ContentFits`. -/
theorem kTest_roundTrip (bo : KTest) (content : List Byte) :
    (RoundTrips bo ↔ Fits bo) ∧ (Reencodes content ↔ ContentFits content) :=
  ⟨roundTrips_iff bo, reencodes_iff content⟩

/-- A test case with one object `x` of no bytes cannot be written. -/
theorem kTest_emptyObject : ¬ ((∀ bo : KTest, RoundTrips bo) ∧ ∀ content : List Byte, Reencodes content) := by
  intro h
  obtain ⟨content, rest, hto, _⟩ := h.1 ⟨KTEST_VERSION, [], 0, 0, [⟨⟨[0x78], by decide⟩, [], by decide⟩], by decide, by decide⟩
  have hnone : kTest_toFile ⟨KTEST_VERSION, [], 0, 0, [⟨⟨[0x78], by decide⟩, [], by decide⟩], by decide, by decide⟩ = none :=
    rfl
  rw [hnone] at hto
  cases hto

end SymBisect.KTestFile
