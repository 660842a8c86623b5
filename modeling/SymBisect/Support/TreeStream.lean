import SymBisect.Lib.Reader
import SymBisect.Lib.Run

/-!
# Tree streams

`lib/Support/TreeStream.cpp`: many streams share one file.  A stream may be opened as a child of another one, and then
continues what its parent has so far.  The file holds records: a fork, or a run of bytes of one stream.  The bit 31 of the
second word of a record tells the two apart.

* `Expected`: what a stream holds, from what was opened and written.
* `readStream_iff`: `readStream` gives it for every stream that was opened, as long as these are fewer than `2^31`.

The model has the sizes of writes below `2^31`, so the sums of sizes do not wrap.
-/

namespace SymBisect.TreeStream

open Lib

abbrev TreeStreamID := BitVec 32

/-! ### Writing -/

/-- `bufferSize`. -/
def bufferSize : ℕ := 4 * 4096

/-- The four bytes of an `unsigned`, the least significant first. -/
def bytesOf (v : BitVec 32) : List Byte := [wordByte v 0, wordByte v 8, wordByte v 16, wordByte v 24]

/-- What one `write` gets. -/
abbrev Chunk := { s : List Byte // s.length < 2 ^ 31 }

/-- `TreeStreamWriter`: the first `bufferCount` bytes of the buffer, and the file. -/
structure TreeStreamWriter where
  buffer : List Byte
  lastID : TreeStreamID
  output : List Byte
  ids : TreeStreamID
  buffer_le : buffer.length ≤ bufferSize

/-- `1 << 31`. -/
def forkBit : BitVec 32 := 0x80000000

namespace TreeStreamWriter

/-- A new writer; stream 0 is the parent of the roots. -/
def new : TreeStreamWriter := ⟨[], 0, [], 1, Nat.zero_le _⟩

/-- `flushBuffer`. -/
def flushBuffer (w : TreeStreamWriter) : TreeStreamWriter :=
  if w.buffer.length ≠ 0 then
    ⟨[], w.lastID, w.output ++ bytesOf w.lastID ++ bytesOf (BitVec.ofNat 32 w.buffer.length) ++ w.buffer, w.ids,
      Nat.zero_le _⟩
  else w

/-- `open`: the writer and the new stream. -/
def openStream (w : TreeStreamWriter) (os : TreeStreamID) : TreeStreamWriter × TreeStreamID :=
  let w := w.flushBuffer
  let id := w.ids
  ({ w with ids := w.ids + 1, output := w.output ++ bytesOf os ++ bytesOf (id ||| forkBit) }, id)

/-- `write` after the flush it may begin with.  A buffer that was not flushed has room. -/
def append (w : TreeStreamWriter) (os : TreeStreamID) (s : Chunk) : TreeStreamWriter :=
  if w.buffer.length ≠ 0 then
    if h : s.1.length + w.buffer.length ≤ bufferSize then
      { w with buffer := w.buffer ++ s.1, buffer_le := by rw [List.length_append]; omega }
    else w
  else if h : s.1.length < bufferSize then { w with lastID := os, buffer := s.1, buffer_le := Nat.le_of_lt h }
  else { w with output := w.output ++ bytesOf os ++ bytesOf (BitVec.ofNat 32 s.1.length) ++ s.1 }

/-- `write`. -/
def write (w : TreeStreamWriter) (os : TreeStreamID) (s : Chunk) : TreeStreamWriter :=
  if w.buffer.length ≠ 0 ∧ (os ≠ w.lastID ∨ s.1.length + w.buffer.length > bufferSize) then w.flushBuffer.append os s
  else w.append os s

end TreeStreamWriter

/-! ### Reading -/

/-- The two words at the start of a record, while the file is good. -/
def readRecord : List Byte → Option (BitVec 32 × BitVec 32 × List Byte)
  | a₀ :: a₁ :: a₂ :: a₃ :: b₀ :: b₁ :: b₂ :: b₃ :: f => some (word a₃ a₂ a₁ a₀, word b₃ b₂ b₁ b₀, f)
  | _ => none

theorem readRecord_length {f rest : List Byte} {id tag : BitVec 32} (h : readRecord f = some (id, tag, rest)) :
    rest.length < f.length := by
  unfold readRecord at h
  split at h
  · cases h
    simp only [List.length_cons]
    omega
  · cases h

/-- The `while (id)` loop over `parents`.  A map of `fuel` streams has no longer chain without a cycle. -/
def chain (parents : List (TreeStreamID × TreeStreamID)) : (fuel : ℕ) → TreeStreamID → Option (List TreeStreamID)
  | 0, id => if id = 0 then some [] else none
  | fuel + 1, id =>
    if id = 0 then some []
    else (parents.lookup id).bind fun parent => (chain parents fuel parent).map fun roots => id :: roots

/-- The first loop of `readStream`.  The entries of `parents` are in the order of insertion, and `insert` does not
replace an earlier one.  At the end of the file the assertion fails. -/
def findChain (streamID : TreeStreamID) (parents : List (TreeStreamID × TreeStreamID)) (f : List Byte) :
    Option (List TreeStreamID) :=
  match h : readRecord f with
  | none => none
  | some (id, tag, rest) =>
    have := readRecord_length h
    if tag &&& forkBit ≠ 0 then
      let child := tag ^^^ forkBit
      if child = streamID then (chain parents parents.length id).map fun roots => child :: roots
      else findChain streamID (parents ++ [(child, id)]) rest
    else findChain streamID parents (rest.drop tag.toNat)
termination_by f.length
decreasing_by
  · exact this
  · simp only [List.length_drop]
    omega

/-- What a fork does to the roots, `roots.back()` first. -/
def popAt (id child : TreeStreamID) : List TreeStreamID → List TreeStreamID
  | back :: next :: roots => if id = back ∧ child = next then next :: roots else back :: next :: roots
  | roots => roots

/-- `is.get()` several times; at the end of the file it gives `EOF`. -/
def getBytes (size : ℕ) (f : List Byte) : List Byte := f.take size ++ List.replicate (size - f.length) 0xFF

/-- The second loop of `readStream`. -/
def readAll (roots : List TreeStreamID) (out : List Byte) (f : List Byte) : List Byte :=
  match h : readRecord f with
  | none => out
  | some (id, tag, rest) =>
    have := readRecord_length h
    if tag &&& forkBit ≠ 0 then readAll (popAt id (tag ^^^ forkBit) roots) out rest
    else if roots.head? = some id then readAll roots (out ++ getBytes tag.toNat rest) (rest.drop tag.toNat)
    else readAll roots out (rest.drop tag.toNat)
termination_by f.length
decreasing_by
  · exact this
  · simp only [List.length_drop]
    omega
  · simp only [List.length_drop]
    omega

/-- `readStream`: what is put into `out`, unless an assertion fails. -/
def TreeStreamWriter.readStream (w : TreeStreamWriter) (streamID : TreeStreamID) : Option (List Byte) :=
  if 0 < streamID.toNat ∧ streamID.toNat < w.ids.toNat then
    let f := w.flushBuffer.output
    (findChain streamID [] f).map fun roots => readAll roots.reverse [] f
  else none

/-! ### Histories -/

/-- What happens to the streams. -/
inductive Event where
  | opened (parent child : TreeStreamID)
  | wrote (id : TreeStreamID) (data : List Byte)

/-- The streams that were opened, each with its parent. -/
def forks (h : List Event) : List (TreeStreamID × TreeStreamID) :=
  h.filterMap fun
    | .opened parent child => some (child, parent)
    | .wrote _ _ => none

/-- The streams that were opened. -/
def openedIds (h : List Event) : List TreeStreamID := (forks h).map Prod.fst

/-- The bytes written to a stream. -/
def written (id : TreeStreamID) (h : List Event) : List Byte :=
  h.flatMap fun
    | .opened _ _ => []
    | .wrote i data => if i = id then data else []

/-- What a stream holds: what its parent held when the stream was opened, then what was written to the stream. -/
inductive Expected : List Event → TreeStreamID → List Byte → Prop
  | root {h before after : List Event} {id : TreeStreamID} :
      h = before ++ .opened 0 id :: after → Expected h id (written id h)
  | child {h before after : List Event} {parent id : TreeStreamID} {bytes : List Byte} :
      h = before ++ .opened parent id :: after → parent ≠ 0 → Expected before parent bytes →
      Expected h id (bytes ++ written id h)

/-- Calls on the writer and its streams. -/
inductive Action where
  | openStream (parent : TreeStreamID)
  | write (id : TreeStreamID) (s : Chunk)
  | flush

/-- The writer and what was done with it. -/
structure Streams where
  writer : TreeStreamWriter
  history : List Event

namespace Streams

def start : Streams := ⟨.new, []⟩

def step (s : Streams) : Action → Option Streams
  | .openStream parent =>
    let (w, id) := s.writer.openStream parent
    some ⟨w, s.history ++ [.opened parent id]⟩
  | .write id data => some ⟨s.writer.write id data, s.history ++ [.wrote id data.1]⟩
  | .flush => some ⟨s.writer.flushBuffer, s.history⟩

/-- Only streams that were opened are used. -/
def Allowed (s : Streams) : Action → Prop
  | .openStream parent => parent = 0 ∨ parent ∈ openedIds s.history
  | .write id _ => id ∈ openedIds s.history
  | .flush => True

/-- `readStream` returns what each stream holds. -/
def RoundTrips (s : Streams) : Prop :=
  ∀ id ∈ openedIds s.history, ∃ out, s.writer.readStream id = some out ∧ Expected s.history id out

end Streams

/-! ### Records -/

/-- How an event is written. -/
def encode : Event → List Byte
  | .opened parent child => bytesOf parent ++ bytesOf (child ||| forkBit)
  | .wrote id data => bytesOf id ++ bytesOf (BitVec.ofNat 32 data.length) ++ data

/-- A record that leaves bit 31 to the forks. -/
def Valid : Event → Prop
  | .opened _ child => child.toNat < 2 ^ 31
  | .wrote _ data => data.length < 2 ^ 31

theorem getLsbD_forkBit (i : ℕ) : forkBit.getLsbD i = decide (i = 31) := by
  have hbit : forkBit = BitVec.twoPow 32 31 := by decide
  rw [hbit, BitVec.getLsbD_twoPow]
  by_cases h : i = 31
  · subst h
    decide
  · simp [h, Ne.symm h]

theorem getLsbD_of_lt {v : BitVec 32} (h : v.toNat < 2 ^ 31) : v.getLsbD 31 = false :=
  Nat.testBit_lt_two_pow h

theorem and_forkBit (v : BitVec 32) : v &&& forkBit ≠ 0 ↔ v.getLsbD 31 = true := by
  constructor
  · intro h
    by_contra hbit
    apply h
    apply BitVec.eq_of_getLsbD_eq
    intro i hi
    rw [BitVec.getLsbD_and, getLsbD_forkBit]
    by_cases hi' : i = 31
    · subst hi'
      simpa using hbit
    · simp [hi']
  · intro hbit h
    have hand : (v &&& forkBit).getLsbD 31 = true := by
      rw [BitVec.getLsbD_and, hbit, getLsbD_forkBit]
      rfl
    rw [h] at hand
    exact absurd hand (by decide)

theorem tag_child {child : BitVec 32} (h : child.toNat < 2 ^ 31) :
    (child ||| forkBit) &&& forkBit ≠ 0 ∧ (child ||| forkBit) ^^^ forkBit = child := by
  constructor
  · rw [and_forkBit, BitVec.getLsbD_or, getLsbD_forkBit, Bool.or_eq_true]
    exact .inr rfl
  · apply BitVec.eq_of_getLsbD_eq
    intro i hi
    rw [BitVec.getLsbD_xor, BitVec.getLsbD_or, getLsbD_forkBit]
    by_cases hi' : i = 31
    · subst hi'
      rw [getLsbD_of_lt h]
      rfl
    · simp [hi']

theorem tag_size {size : ℕ} (h : size < 2 ^ 31) :
    ¬ (BitVec.ofNat 32 size &&& forkBit ≠ 0) ∧ (BitVec.ofNat 32 size).toNat = size := by
  have hsize : (BitVec.ofNat 32 size).toNat = size := by rw [BitVec.toNat_ofNat, Nat.mod_eq_of_lt (by omega)]
  refine ⟨fun htag => ?_, hsize⟩
  rw [and_forkBit, getLsbD_of_lt (by rw [hsize]; exact h)] at htag
  cases htag

/-- The child of a fork as it is read is below `2^31`. -/
theorem child_lt {tag : BitVec 32} (h : tag &&& forkBit ≠ 0) : (tag ^^^ forkBit).toNat < 2 ^ 31 := by
  rw [and_forkBit] at h
  have hbit : (tag ^^^ forkBit).getLsbD 31 = false := by
    rw [BitVec.getLsbD_xor, h, getLsbD_forkBit]
    rfl
  by_contra hge
  have hlt := (tag ^^^ forkBit).isLt
  have htest := Nat.testBit_of_two_pow_le_and_two_pow_add_one_gt (Nat.le_of_not_lt hge) hlt
  rw [← BitVec.getLsbD, hbit] at htest
  cases htest

theorem readRecord_bytesOf (id tag : BitVec 32) (f : List Byte) :
    readRecord (bytesOf id ++ (bytesOf tag ++ f)) = some (id, tag, f) := by
  show some (word _ _ _ _, word _ _ _ _, f) = _
  rw [word_eq, word_eq]

/-- The second loop, record by record. -/
def visit (st : List TreeStreamID × List Byte) : Event → List TreeStreamID × List Byte
  | .opened parent child => (popAt parent child st.1, st.2)
  | .wrote id data => if st.1.head? = some id then (st.1, st.2 ++ data) else st

theorem readAll_records (rs : List Event) (hrs : ∀ r ∈ rs, Valid r) (roots : List TreeStreamID) (out : List Byte) :
    readAll roots out (rs.flatMap encode) = (rs.foldl visit (roots, out)).2 := by
  induction rs generalizing roots out with
  | nil =>
    rw [readAll]
    rfl
  | cons r rs ih =>
    have hr := hrs r (List.mem_cons_self ..)
    have ih := ih fun r' hr' => hrs r' (List.mem_cons_of_mem _ hr')
    rw [List.flatMap_cons, List.foldl_cons]
    cases r with
    | opened parent child =>
      obtain ⟨hfork, hchild⟩ := tag_child hr
      have hrecord : readRecord (encode (.opened parent child) ++ rs.flatMap encode) =
          some (parent, child ||| forkBit, rs.flatMap encode) := by
        rw [encode, List.append_assoc, readRecord_bytesOf]
      rw [readAll]
      split
      · rename_i hnone
        rw [hrecord] at hnone
        cases hnone
      · rename_i id tag rest hsome
        rw [hrecord] at hsome
        cases hsome
        rw [if_pos hfork, hchild, ih]
        rfl
    | wrote id data =>
      obtain ⟨hfork, hsize⟩ := tag_size hr
      have hrecord : readRecord (encode (.wrote id data) ++ rs.flatMap encode) =
          some (id, BitVec.ofNat 32 data.length, data ++ rs.flatMap encode) := by
        rw [encode, List.append_assoc, List.append_assoc, readRecord_bytesOf]
      have hget : getBytes data.length (data ++ rs.flatMap encode) = data := by
        rw [getBytes, List.take_left, List.length_append, Nat.sub_eq_zero_of_le (Nat.le_add_right ..)]
        exact List.append_nil data
      rw [readAll]
      split
      · rename_i hnone
        rw [hrecord] at hnone
        cases hnone
      · rename_i id' tag rest hsome
        rw [hrecord] at hsome
        cases hsome
        rw [if_neg hfork, hsize, hget, List.drop_left, ih, ih, visit]
        by_cases hhead : roots.head? = some id
        · rw [if_pos hhead, if_pos hhead]
        · rw [if_neg hhead, if_neg hhead]

/-- The first loop on the forks alone. -/
def findFork (streamID : TreeStreamID) (parents : List (TreeStreamID × TreeStreamID)) :
    List (TreeStreamID × TreeStreamID) → Option (List TreeStreamID)
  | [] => none
  | (child, parent) :: l =>
    if child = streamID then (chain parents parents.length parent).map fun roots => child :: roots
    else findFork streamID (parents ++ [(child, parent)]) l

theorem findChain_records (streamID : TreeStreamID) (rs : List Event) (hrs : ∀ r ∈ rs, Valid r)
    (parents : List (TreeStreamID × TreeStreamID)) :
    findChain streamID parents (rs.flatMap encode) = findFork streamID parents (forks rs) := by
  induction rs generalizing parents with
  | nil =>
    rw [findChain]
    rfl
  | cons r rs ih =>
    have hr := hrs r (List.mem_cons_self ..)
    have ih := ih fun r' hr' => hrs r' (List.mem_cons_of_mem _ hr')
    rw [List.flatMap_cons]
    cases r with
    | opened parent child =>
      obtain ⟨hfork, hchild⟩ := tag_child hr
      have hrecord : readRecord (encode (.opened parent child) ++ rs.flatMap encode) =
          some (parent, child ||| forkBit, rs.flatMap encode) := by
        rw [encode, List.append_assoc, readRecord_bytesOf]
      have hforks : forks (.opened parent child :: rs) = (child, parent) :: forks rs := rfl
      rw [findChain, hforks, findFork]
      split
      · rename_i hnone
        rw [hrecord] at hnone
        cases hnone
      · rename_i id tag rest hsome
        rw [hrecord] at hsome
        cases hsome
        simp only [if_pos hfork, hchild, ih]
    | wrote id data =>
      obtain ⟨hfork, hsize⟩ := tag_size hr
      have hrecord : readRecord (encode (.wrote id data) ++ rs.flatMap encode) =
          some (id, BitVec.ofNat 32 data.length, data ++ rs.flatMap encode) := by
        rw [encode, List.append_assoc, List.append_assoc, readRecord_bytesOf]
      have hforks : forks (.wrote id data :: rs) = forks rs := rfl
      rw [findChain, hforks]
      split
      · rename_i hnone
        rw [hrecord] at hnone
        cases hnone
      · rename_i id' tag rest hsome
        rw [hrecord] at hsome
        cases hsome
        rw [if_neg hfork, hsize, List.drop_left, ih]

/-- A stream from `2^31` on has no fork record that could be found. -/
theorem findChain_high {streamID : TreeStreamID} (h : 2 ^ 31 ≤ streamID.toNat)
    (parents : List (TreeStreamID × TreeStreamID)) (f : List Byte) : findChain streamID parents f = none := by
  fun_induction findChain streamID parents f with
  | case1 => rfl
  | case2 parents f id tag rest hrecord hlt hfork child heq =>
    have := child_lt hfork
    rw [← heq] at h
    exact absurd this (Nat.not_lt_of_le h)
  | case3 parents f id tag rest hrecord hlt hfork child hne ih => exact ih
  | case4 parents f id tag rest hrecord hlt hfork ih => exact ih

/-! ### One chain of streams -/

theorem forks_append (h h' : List Event) : forks (h ++ h') = forks h ++ forks h' := List.filterMap_append

theorem openedIds_append (h h' : List Event) : openedIds (h ++ h') = openedIds h ++ openedIds h' := by
  rw [openedIds, forks_append, List.map_append]
  rfl

theorem written_append (id : TreeStreamID) (h h' : List Event) : written id (h ++ h') = written id h ++ written id h' :=
  List.flatMap_append

/-- Streams are opened once, as a root or from an open stream, and written only when open. -/
inductive History : List Event → Prop
  | nil : History []
  | opened {h : List Event} {parent child : TreeStreamID} :
      History h → parent = 0 ∨ parent ∈ openedIds h → child ≠ 0 → child ∉ openedIds h →
      History (h ++ [.opened parent child])
  | wrote {h : List Event} {id : TreeStreamID} {data : List Byte} :
      History h → id ∈ openedIds h → History (h ++ [.wrote id data])

/-- The history up to the opening of a stream. -/
theorem History.before {h : List Event} (hh : History h) {before after : List Event} {parent id : TreeStreamID}
    (heq : h = before ++ .opened parent id :: after) :
    History before ∧ (parent = 0 ∨ parent ∈ openedIds before) ∧ id ≠ 0 ∧ id ∉ openedIds before := by
  induction hh generalizing after with
  | nil =>
    have := congrArg List.length heq
    simp at this
  | @opened h p c hh hp hc hfresh ih =>
    rcases List.eq_nil_or_concat after with rfl | ⟨after, e, rfl⟩
    · obtain ⟨rfl, he⟩ := List.append_inj' heq rfl
      cases he
      exact ⟨hh, hp, hc, hfresh⟩
    · rw [List.concat_eq_append, ← List.cons_append, ← List.append_assoc] at heq
      exact ih (List.append_inj' heq rfl).1
  | @wrote h i data hh hi ih =>
    rcases List.eq_nil_or_concat after with rfl | ⟨after, e, rfl⟩
    · obtain ⟨-, he⟩ := List.append_inj' heq rfl
      cases he
    · rw [List.concat_eq_append, ← List.cons_append, ← List.append_assoc] at heq
      exact ih (List.append_inj' heq rfl).1

theorem History.written_eq_nil {h : List Event} (hh : History h) {id : TreeStreamID} (hid : id ∉ openedIds h) :
    written id h = [] := by
  induction hh with
  | nil => rfl
  | @opened h p c hh _ _ _ ih =>
    rw [openedIds_append, List.mem_append, not_or] at hid
    rw [written_append, ih hid.1]
    rfl
  | @wrote h i data hh hi ih =>
    rw [openedIds_append, List.mem_append, not_or] at hid
    have hne : i ≠ id := fun heq => hid.1 (heq ▸ hi)
    rw [written_append, ih hid.1]
    simp [written, hne]

theorem mem_openedIds {id : TreeStreamID} {h : List Event} (hid : id ∈ openedIds h) :
    ∃ before parent after, h = before ++ .opened parent id :: after := by
  obtain ⟨⟨child, parent⟩, hmem, rfl⟩ := List.mem_map.1 hid
  obtain ⟨e, he, heq⟩ := List.mem_filterMap.1 hmem
  obtain ⟨before, after, rfl⟩ := List.append_of_mem he
  cases e with
  | opened p c =>
    cases heq
    exact ⟨before, parent, after, rfl⟩
  | wrote i data => cases heq

/-- A stream, its ancestors and what it holds. -/
inductive Traced : List Event → TreeStreamID → List TreeStreamID → List Byte → Prop
  | root {h before after : List Event} {id : TreeStreamID} :
      h = before ++ .opened 0 id :: after → Traced h id [id] (written id h)
  | child {h before after : List Event} {parent id : TreeStreamID} {roots : List TreeStreamID} {bytes : List Byte} :
      h = before ++ .opened parent id :: after → parent ≠ 0 → Traced before parent roots bytes →
      Traced h id (id :: roots) (bytes ++ written id h)

theorem Traced.expected {h : List Event} {id : TreeStreamID} {roots : List TreeStreamID} {bytes : List Byte}
    (ht : Traced h id roots bytes) : Expected h id bytes := by
  induction ht with
  | root heq => exact .root heq
  | child heq hparent _ ih => exact .child heq hparent ih

theorem History.traced {h : List Event} (hh : History h) {id : TreeStreamID} (hid : id ∈ openedIds h) :
    ∃ roots bytes, Traced h id roots bytes := by
  -- the parent is opened in a shorter history
  induction hlen : h.length using Nat.strong_induction_on generalizing h id with
  | _ n ih =>
    obtain ⟨before, parent, after, heq⟩ := mem_openedIds hid
    obtain ⟨hbefore, hparent, -, -⟩ := hh.before heq
    have hlt : before.length < n := by
      rw [← hlen, heq, List.length_append, List.length_cons]
      omega
    by_cases hzero : parent = 0
    · subst hzero
      exact ⟨[id], _, .root heq⟩
    · obtain ⟨roots, bytes, ht⟩ := ih before.length hlt hbefore (hparent.resolve_left hzero) rfl
      exact ⟨id :: roots, _, .child heq hzero ht⟩

theorem lookup_forks {before after : List Event} {parent id : TreeStreamID} (hid : id ∉ openedIds before) :
    (forks (before ++ .opened parent id :: after)).lookup id = some parent := by
  have hnone : (forks before).lookup id = none := by
    rw [List.lookup_eq_none_iff]
    intro p hp
    have hne : p.1 ≠ id := fun heq => hid (List.mem_map.2 ⟨p, hp, heq⟩)
    simpa using hne.symm
  rw [forks_append, List.lookup_append, hnone, Option.none_or]
  show List.lookup id ((id, parent) :: forks after) = _
  rw [List.lookup_cons_self]

/-- More streams and more fuel do not change a chain that was found. -/
theorem chain_append {parents more : List (TreeStreamID × TreeStreamID)} {fuel : ℕ} {id : TreeStreamID}
    {roots : List TreeStreamID} (h : chain parents fuel id = some roots) (extra : ℕ) :
    chain (parents ++ more) (fuel + extra) id = some roots := by
  induction fuel generalizing id roots with
  | zero =>
    rw [chain] at h
    split at h
    · rename_i hzero
      cases h
      cases extra with
      | zero => rw [chain, if_pos hzero]
      | succ n => rw [Nat.zero_add, chain, if_pos hzero]
    · cases h
  | succ fuel ih =>
    rw [chain] at h
    rw [Nat.succ_add, chain]
    split at h
    · rename_i hzero
      rw [if_pos hzero, h]
    · rename_i hne
      rw [if_neg hne]
      obtain ⟨parent, hparent, h⟩ := Option.bind_eq_some_iff.1 h
      obtain ⟨roots', hroots', rfl⟩ := Option.map_eq_some_iff.1 h
      rw [List.lookup_append, hparent, Option.some_or, Option.bind_some, ih hroots']
      rfl

theorem Traced.chain_eq {h : List Event} {id : TreeStreamID} {roots : List TreeStreamID} {bytes : List Byte}
    (ht : Traced h id roots bytes) (hh : History h) : chain (forks h) (forks h).length id = some roots := by
  induction ht with
  | @root h before after id heq =>
    obtain ⟨-, -, hzero, hfresh⟩ := hh.before heq
    have hlen : (forks h).length = (forks before).length + (forks after).length + 1 := by
      rw [heq, forks_append, List.length_append]
      show _ + (forks after).length.succ = _
      omega
    rw [hlen, chain, if_neg hzero, heq, lookup_forks hfresh, Option.bind_some]
    have hroot : ∀ fuel, chain (forks (before ++ .opened 0 id :: after)) fuel 0 = some [] := by
      intro fuel
      cases fuel with
      | zero => rfl
      | succ n => rfl
    rw [hroot]
    rfl
  | @child h before after parent id roots bytes heq hparent _ ih =>
    obtain ⟨hbefore, -, hzero, hfresh⟩ := hh.before heq
    have hlen : (forks h).length = (forks before).length + (forks after).length + 1 := by
      rw [heq, forks_append, List.length_append]
      show _ + (forks after).length.succ = _
      omega
    have hforks : forks h = forks before ++ (id, parent) :: forks after := by
      rw [heq, forks_append]
      rfl
    have hlookup : (forks h).lookup id = some parent := by
      rw [heq]
      exact lookup_forks hfresh
    rw [hlen, chain, if_neg hzero, hlookup, Option.bind_some, hforks, chain_append (ih hbefore)]
    rfl

theorem findFork_append {id parent : TreeStreamID} (l l' : List (TreeStreamID × TreeStreamID)) (hid : id ∉ l.map Prod.fst)
    (parents : List (TreeStreamID × TreeStreamID)) :
    findFork id parents (l ++ (id, parent) :: l') =
      (chain (parents ++ l) (parents ++ l).length parent).map fun roots => id :: roots := by
  induction l generalizing parents with
  | nil => rw [List.nil_append, findFork, if_pos rfl, List.append_nil]
  | cons p l ih =>
    rw [List.map_cons, List.mem_cons, not_or] at hid
    rw [List.cons_append, findFork, if_neg (Ne.symm hid.1), ih hid.2, List.append_assoc]
    rfl

/-- The first loop finds the stream and its ancestors. -/
theorem Traced.findFork_eq {h : List Event} {id : TreeStreamID} {roots : List TreeStreamID} {bytes : List Byte}
    (ht : Traced h id roots bytes) (hh : History h) : findFork id [] (forks h) = some roots := by
  cases ht with
  | @root _ before after _ heq =>
    have hforks : forks h = forks before ++ (id, 0) :: forks after := by
      rw [heq, forks_append]
      rfl
    rw [hforks, findFork_append _ _ (hh.before heq).2.2.2, List.nil_append]
    cases (forks before).length with
    | zero => rfl
    | succ n => rfl
  | @child _ before after parent _ roots bytes heq hparent ht =>
    have hforks : forks h = forks before ++ (id, parent) :: forks after := by
      rw [heq, forks_append]
      rfl
    rw [hforks, findFork_append _ _ (hh.before heq).2.2.2, List.nil_append, ht.chain_eq (hh.before heq).1]
    rfl

theorem foldl_visit_single (id : TreeStreamID) (out : List Byte) (h : List Event) :
    h.foldl visit ([id], out) = ([id], out ++ written id h) := by
  induction h generalizing out with
  | nil =>
    show ([id], out) = ([id], out ++ [])
    rw [List.append_nil]
  | cons e h ih =>
    rw [List.foldl_cons]
    cases e with
    | opened parent child =>
      show h.foldl visit ([id], out) = _
      rw [ih]
      rfl
    | wrote i data =>
      have hw : written id (.wrote i data :: h) = (if i = id then data else []) ++ written id h := rfl
      rw [hw]
      by_cases hi : i = id
      · subst hi
        have hvisit : visit ([i], out) (.wrote i data) = ([i], out ++ data) := if_pos rfl
        rw [hvisit, ih, if_pos rfl, List.append_assoc]
      · rw [visit, if_neg (by simpa using Ne.symm hi), ih, if_neg hi, List.nil_append]

/-- A stream that is not opened yet, at the end of the roots, changes nothing. -/
theorem foldl_visit_extend {id : TreeStreamID} (h : List Event) (hid : id ∉ openedIds h) (roots : List TreeStreamID)
    (out : List Byte) (hroots : roots ≠ []) :
    h.foldl visit (roots ++ [id], out) =
      ((h.foldl visit (roots, out)).1 ++ [id], (h.foldl visit (roots, out)).2) := by
  induction h generalizing roots out with
  | nil => rfl
  | cons e h ih =>
    obtain ⟨back, roots, rfl⟩ := List.exists_cons_of_ne_nil hroots
    rw [List.foldl_cons, List.foldl_cons]
    cases e with
    | opened parent child =>
      have hids : openedIds (.opened parent child :: h) = child :: openedIds h := rfl
      rw [hids, List.mem_cons, not_or] at hid
      cases roots with
      | nil =>
        have hpop : popAt parent child ([back] ++ [id]) = [back] ++ [id] := if_neg fun hc => hid.1 hc.2.symm
        rw [visit, visit, hpop]
        exact ih hid.2 [back] out (List.cons_ne_nil _ _)
      | cons next roots =>
        have hpop : popAt parent child (back :: next :: roots ++ [id]) =
            popAt parent child (back :: next :: roots) ++ [id] := by
          show (if _ then _ else _) = (if _ then _ else _) ++ _
          by_cases hc : parent = back ∧ child = next
          · rw [if_pos hc, if_pos hc]
            rfl
          · rw [if_neg hc, if_neg hc]
            rfl
        have hne : popAt parent child (back :: next :: roots) ≠ [] := by
          rw [popAt]
          split
          · exact List.cons_ne_nil _ _
          · exact List.cons_ne_nil _ _
        rw [visit, visit, hpop]
        exact ih hid.2 _ out hne
    | wrote i data =>
      have hid : id ∉ openedIds h := hid
      rw [visit, visit, List.cons_append, List.head?_cons, List.head?_cons]
      by_cases hi : some back = some i
      · rw [if_pos hi, if_pos hi]
        exact ih hid (back :: roots) (out ++ data) (List.cons_ne_nil _ _)
      · rw [if_neg hi, if_neg hi]
        exact ih hid (back :: roots) out (List.cons_ne_nil _ _)

/-- The second loop ends at the stream, with what it holds. -/
theorem Traced.foldl_visit {h : List Event} {id : TreeStreamID} {roots : List TreeStreamID} {bytes : List Byte}
    (ht : Traced h id roots bytes) (hh : History h) : h.foldl visit (roots.reverse, []) = ([id], bytes) := by
  induction ht with
  | root heq => exact foldl_visit_single _ [] _
  | @child h before after parent id roots bytes heq _ ht ih =>
    obtain ⟨hbefore, -, -, hfresh⟩ := hh.before heq
    have hroots : roots.reverse ≠ [] := by
      cases ht with
      | root => exact List.cons_ne_nil _ _
      | child => simp
    have hw : written id h = written id after := by
      rw [heq, written_append, hbefore.written_eq_nil hfresh]
      rfl
    have hpop : visit ([parent] ++ [id], bytes) (.opened parent id) = ([id], bytes) := by
      show ((if _ then _ else _), _) = _
      rw [if_pos ⟨rfl, rfl⟩]
    rw [heq, List.reverse_cons, List.foldl_append, foldl_visit_extend before hfresh _ _ hroots, ih hbefore,
      List.foldl_cons, hpop, foldl_visit_single, ← heq, hw]

/-! ### What is in the file and in the buffer -/

theorem visit_nil (st : List TreeStreamID × List Byte) (id : TreeStreamID) : visit st (.wrote id []) = st := by
  rw [visit, List.append_nil]
  split
  · rfl
  · rfl

theorem visit_append (st : List TreeStreamID × List Byte) (id : TreeStreamID) (a b : List Byte) :
    visit (visit st (.wrote id a)) (.wrote id b) = visit st (.wrote id (a ++ b)) := by
  by_cases h : st.1.head? = some id
  · have hvisit : ∀ (data out : List Byte), visit (st.1, out) (.wrote id data) = (st.1, out ++ data) := fun _ _ => if_pos h
    show visit (visit (st.1, st.2) _) _ = visit (st.1, st.2) _
    rw [hvisit, hvisit, hvisit, List.append_assoc]
  · have hvisit : ∀ data : List Byte, visit st (.wrote id data) = st := fun _ => if_neg h
    rw [hvisit, hvisit, hvisit]

/-- What is still in the buffer. -/
def TreeStreamWriter.pending (w : TreeStreamWriter) : List Event :=
  if w.buffer.length ≠ 0 then [.wrote w.lastID w.buffer] else []

/-- The records of the file and the buffer are a history, up to how writes are cut. -/
structure Records (w : TreeStreamWriter) (h : List Event) (rs : List Event) : Prop where
  output : w.output = rs.flatMap encode
  valid : ∀ r ∈ rs, Valid r
  forks : forks rs = forks h
  visit : ∀ st, (rs ++ w.pending).foldl visit st = h.foldl visit st

theorem forall_valid_append {rs : List Event} {r : Event} (h : ∀ r ∈ rs, Valid r) (hr : Valid r) :
    ∀ r' ∈ rs ++ [r], Valid r' := by
  intro r' hr'
  rw [List.mem_append, List.mem_singleton] at hr'
  obtain hr' | rfl := hr'
  · exact h r' hr'
  · exact hr

theorem flatMap_encode_append (rs : List Event) (r : Event) :
    (rs ++ [r]).flatMap encode = rs.flatMap encode ++ encode r := by
  rw [List.flatMap_append, List.flatMap_singleton]

variable {w : TreeStreamWriter} {h rs : List Event}

theorem Records.flush (hr : Records w h rs) :
    w.flushBuffer.buffer.length = 0 ∧ ∃ rs', Records w.flushBuffer h rs' := by
  by_cases hbuffer : w.buffer.length ≠ 0
  · have hflush : w.flushBuffer = ⟨[], w.lastID, w.output ++ bytesOf w.lastID ++
        bytesOf (BitVec.ofNat 32 w.buffer.length) ++ w.buffer, w.ids, Nat.zero_le _⟩ := if_pos hbuffer
    have hpending : w.pending = [.wrote w.lastID w.buffer] := if_pos hbuffer
    have hle := w.buffer_le
    rw [hflush]
    refine ⟨rfl, rs ++ [.wrote w.lastID w.buffer], ?_, forall_valid_append hr.valid ?_, ?_, ?_⟩
    · show w.output ++ _ ++ _ ++ _ = _
      rw [flatMap_encode_append, hr.output, encode]
      simp only [List.append_assoc]
    · show w.buffer.length < 2 ^ 31
      have : bufferSize = 16384 := rfl
      omega
    · rw [forks_append, hr.forks]
      exact List.append_nil _
    · intro st
      rw [← hr.visit st, hpending]
      exact congrArg (List.foldl _ st) (List.append_nil _)
  · have hflush : w.flushBuffer = w := if_neg hbuffer
    rw [hflush]
    exact ⟨not_not.1 hbuffer, rs, hr⟩

theorem Records.append (hr : Records w h rs) (os : TreeStreamID) (s : Chunk)
    (hroom : w.buffer.length ≠ 0 → os = w.lastID ∧ s.1.length + w.buffer.length ≤ bufferSize) :
    ∃ rs', Records (w.append os s) (h ++ [.wrote os s.1]) rs' := by
  have hforks : TreeStream.forks rs = TreeStream.forks (h ++ [.wrote os s.1]) := by
    rw [forks_append, hr.forks]
    exact (List.append_nil _).symm
  rw [TreeStreamWriter.append]
  by_cases hbuffer : w.buffer.length ≠ 0
  · obtain ⟨rfl, hle⟩ := hroom hbuffer
    have hpending : w.pending = [.wrote w.lastID w.buffer] := if_pos hbuffer
    rw [if_pos hbuffer, dif_pos hle]
    refine ⟨rs, hr.output, hr.valid, hforks, fun st => ?_⟩
    have hne : (w.buffer ++ s.1).length ≠ 0 := by
      rw [List.length_append]
      omega
    have hvisit := hr.visit st
    rw [hpending, List.foldl_append] at hvisit
    rw [TreeStreamWriter.pending, if_pos hne, List.foldl_append, List.foldl_append, ← hvisit]
    exact (visit_append _ _ _ _).symm
  · have hpending : w.pending = [] := if_neg hbuffer
    have hvisit := hr.visit
    rw [hpending, List.append_nil] at hvisit
    rw [if_neg hbuffer]
    by_cases hsize : s.1.length < bufferSize
    · rw [dif_pos hsize]
      refine ⟨rs, hr.output, hr.valid, hforks, fun st => ?_⟩
      rw [TreeStreamWriter.pending, List.foldl_append, List.foldl_append, hvisit]
      by_cases hzero : s.1.length ≠ 0
      · rw [if_pos hzero]
      · rw [if_neg hzero, List.length_eq_zero_iff.1 (not_not.1 hzero)]
        exact (visit_nil _ os).symm
    · rw [dif_neg hsize]
      have hvalid : Valid (.wrote os s.1) := s.2
      refine ⟨rs ++ [.wrote os s.1], ?_, forall_valid_append hr.valid hvalid, ?_, fun st => ?_⟩
      · show w.output ++ _ ++ _ ++ _ = _
        rw [flatMap_encode_append, hr.output, encode]
        simp only [List.append_assoc]
      · rw [forks_append, forks_append, hr.forks]
      · rw [TreeStreamWriter.pending, if_neg hbuffer, List.append_nil, List.foldl_append, List.foldl_append, hvisit]

theorem Records.write (hr : Records w h rs) (os : TreeStreamID) (s : Chunk) :
    ∃ rs', Records (w.write os s) (h ++ [.wrote os s.1]) rs' := by
  rw [TreeStreamWriter.write]
  split
  · obtain ⟨hempty, rs', hr'⟩ := hr.flush
    exact hr'.append os s fun hne => absurd hempty hne
  · rename_i hkeep
    refine hr.append os s fun hne => ?_
    by_contra hroom
    refine hkeep ⟨hne, ?_⟩
    by_contra hno
    rw [not_or] at hno
    exact hroom ⟨not_not.1 hno.1, Nat.le_of_not_lt hno.2⟩

theorem Records.openStream (hr : Records w h rs) (os : TreeStreamID) (hid : w.ids.toNat < 2 ^ 31) :
    ∃ rs', Records (w.openStream os).1 (h ++ [.opened os w.ids]) rs' := by
  obtain ⟨hempty, rs', hr'⟩ := hr.flush
  have hids : w.flushBuffer.ids = w.ids := by
    rw [TreeStreamWriter.flushBuffer]
    split
    · rfl
    · rfl
  have hpending : w.flushBuffer.pending = [] := if_neg (not_not.2 hempty)
  have hvisit := hr'.visit
  rw [hpending, List.append_nil] at hvisit
  have hvalid : Valid (.opened os w.ids) := hid
  have hpending' : (w.openStream os).1.pending = [] := if_neg (not_not.2 hempty)
  refine ⟨rs' ++ [.opened os w.ids], ?_, forall_valid_append hr'.valid hvalid, ?_, fun st => ?_⟩
  · show w.flushBuffer.output ++ _ ++ _ = _
    rw [flatMap_encode_append, hr'.output, encode, hids, List.append_assoc]
  · rw [forks_append, forks_append, hr'.forks]
  · rw [hpending', List.append_nil, List.foldl_append, List.foldl_append, hvisit]

/-- `readStream` sees the history alone. -/
theorem Records.readStream (hr : Records w h rs) {id : TreeStreamID} {roots : List TreeStreamID} {bytes : List Byte}
    (hid : 0 < id.toNat ∧ id.toNat < w.ids.toNat) (hh : History h) (ht : Traced h id roots bytes) :
    w.readStream id = some bytes := by
  obtain ⟨hempty, rs', hr'⟩ := hr.flush
  have hpending : w.flushBuffer.pending = [] := if_neg (not_not.2 hempty)
  have hvisit := hr'.visit
  rw [hpending, List.append_nil] at hvisit
  have hchain : findChain id [] w.flushBuffer.output = some roots := by
    rw [hr'.output, findChain_records id rs' hr'.valid, hr'.forks, ht.findFork_eq hh]
  have hread : readAll roots.reverse [] w.flushBuffer.output = bytes := by
    rw [hr'.output, readAll_records rs' hr'.valid, hvisit, ht.foldl_visit hh]
  rw [TreeStreamWriter.readStream, if_pos hid]
  show (findChain id [] w.flushBuffer.output).map _ = _
  rw [hchain, Option.map_some, hread]

/-! ### Every run -/

namespace Streams

/-- The streams are numbered in the order they are opened. -/
def numbered (n : ℕ) : List TreeStreamID := (List.range n).map fun i => BitVec.ofNat 32 (i + 1)

theorem numbered_succ (n : ℕ) : numbered (n + 1) = numbered n ++ [BitVec.ofNat 32 (n + 1)] := by
  rw [numbered, List.range_succ, List.map_append]
  rfl

theorem numbered_length (n : ℕ) : (numbered n).length = n := by
  rw [numbered, List.length_map, List.length_range]

theorem mem_numbered {n : ℕ} {id : TreeStreamID} (h : id ∈ numbered n) :
    ∃ i, 0 < i ∧ i ≤ n ∧ id = BitVec.ofNat 32 i := by
  obtain ⟨i, hi, rfl⟩ := List.mem_map.1 h
  exact ⟨i + 1, Nat.succ_pos i, List.mem_range.1 hi, rfl⟩

/-- The number of streams that were opened. -/
def count (s : Streams) : ℕ := (openedIds s.history).length

/-- What the numbers of the streams are. -/
structure Numbers (s : Streams) : Prop where
  opened : openedIds s.history = numbered s.count
  ids : s.writer.ids = BitVec.ofNat 32 (s.count + 1)

theorem flushBuffer_ids (w : TreeStreamWriter) : w.flushBuffer.ids = w.ids := by
  rw [TreeStreamWriter.flushBuffer]
  split
  · rfl
  · rfl

theorem append_ids (w : TreeStreamWriter) (os : TreeStreamID) (s : Chunk) : (w.append os s).ids = w.ids := by
  rw [TreeStreamWriter.append]
  split
  · split
    · rfl
    · rfl
  · split
    · rfl
    · rfl

theorem write_ids (w : TreeStreamWriter) (os : TreeStreamID) (s : Chunk) : (w.write os s).ids = w.ids := by
  rw [TreeStreamWriter.write]
  split
  · rw [append_ids, flushBuffer_ids]
  · rw [append_ids]

theorem openedIds_wrote (h : List Event) (id : TreeStreamID) (data : List Byte) :
    openedIds (h ++ [.wrote id data]) = openedIds h := by
  rw [openedIds_append]
  exact List.append_nil _

theorem openedIds_opened (h : List Event) (parent child : TreeStreamID) :
    openedIds (h ++ [.opened parent child]) = openedIds h ++ [child] := openedIds_append ..

theorem numbers_step {s t : Streams} {a : Action} (hs : Numbers s) (h : s.step a = some t) : Numbers t := by
  cases a with
  | openStream parent =>
    cases h
    have hids : (s.writer.openStream parent).1.ids = s.writer.ids + 1 := by
      show s.writer.flushBuffer.ids + 1 = _
      rw [flushBuffer_ids]
    have hopened : openedIds (s.history ++ [.opened parent s.writer.flushBuffer.ids]) = numbered (s.count + 1) := by
      rw [openedIds_opened, hs.opened, flushBuffer_ids, hs.ids, numbered_succ]
    refine ⟨?_, ?_⟩
    · show openedIds (s.history ++ _) = numbered (openedIds (s.history ++ _)).length
      rw [hopened, numbered_length]
    · show (s.writer.openStream parent).1.ids = BitVec.ofNat 32 ((openedIds (s.history ++ _)).length + 1)
      rw [hids, hopened, numbered_length, hs.ids, BitVec.ofNat_add (s.count + 1)]
      rfl
  | write id data =>
    cases h
    have hcount : openedIds (s.history ++ [.wrote id data.1]) = openedIds s.history := openedIds_wrote ..
    refine ⟨?_, ?_⟩
    · show openedIds (s.history ++ _) = numbered (openedIds (s.history ++ _)).length
      rw [hcount]
      exact hs.opened
    · show (s.writer.write id data).ids = BitVec.ofNat 32 ((openedIds (s.history ++ _)).length + 1)
      rw [hcount, write_ids]
      exact hs.ids
  | flush =>
    cases h
    exact ⟨hs.opened, (flushBuffer_ids s.writer).trans hs.ids⟩

theorem count_le {s t : Streams} {a : Action} (h : s.step a = some t) : s.count ≤ t.count := by
  cases a with
  | openStream parent =>
    cases h
    show s.count ≤ (openedIds (s.history ++ _)).length
    rw [openedIds_append, List.length_append]
    exact Nat.le_add_right ..
  | write id data =>
    cases h
    show s.count ≤ (openedIds (s.history ++ _)).length
    rw [openedIds_append, List.length_append]
    exact Nat.le_add_right ..
  | flush =>
    cases h
    exact Nat.le_refl _

/-- The file and the buffer hold the history, while the numbers leave bit 31 to the forks. -/
structure Inv (s : Streams) : Prop where
  numbers : Numbers s
  holds : s.count < 2 ^ 31 → History s.history ∧ ∃ rs, Records s.writer s.history rs

theorem inv_start : Inv start := by
  refine ⟨⟨rfl, rfl⟩, fun _ => ⟨.nil, [], rfl, ?_, rfl, fun st => rfl⟩⟩
  intro r hr
  exact absurd hr List.not_mem_nil

theorem fresh {s : Streams} (hs : Numbers s) (hlt : s.count + 1 < 2 ^ 31) :
    s.writer.ids ≠ 0 ∧ s.writer.ids ∉ openedIds s.history ∧ s.writer.ids.toNat < 2 ^ 31 := by
  have hnat : ∀ i, i < 2 ^ 31 → (BitVec.ofNat 32 i).toNat = i := by
    intro i hi
    rw [BitVec.toNat_ofNat, Nat.mod_eq_of_lt (by omega)]
  have hids := congrArg BitVec.toNat hs.ids
  rw [hnat _ hlt] at hids
  refine ⟨fun hzero => ?_, fun hmem => ?_, by omega⟩
  · rw [hzero] at hids
    exact absurd hids (by simp)
  · rw [hs.opened] at hmem
    obtain ⟨i, _, hle, heq⟩ := mem_numbered hmem
    have := congrArg BitVec.toNat heq
    rw [hids, hnat i (by omega)] at this
    omega

theorem inv_step {s t : Streams} {a : Action} (hs : Inv s) (hg : s.Allowed a) (h : s.step a = some t) : Inv t := by
  refine ⟨numbers_step hs.numbers h, fun hlt => ?_⟩
  obtain ⟨hh, rs, hr⟩ := hs.holds (Nat.lt_of_le_of_lt (count_le h) hlt)
  cases a with
  | openStream parent =>
    have hcount : t.count = s.count + 1 := by
      cases h
      show (openedIds (s.history ++ _)).length = _
      rw [openedIds_opened, List.length_append]
      rfl
    cases h
    obtain ⟨hzero, hfresh, hid⟩ := fresh hs.numbers (by omega)
    have heq : (s.writer.openStream parent).2 = s.writer.ids := flushBuffer_ids s.writer
    show History (s.history ++ [.opened parent (s.writer.openStream parent).2]) ∧
      ∃ rs, Records (s.writer.openStream parent).1 (s.history ++ [.opened parent (s.writer.openStream parent).2]) rs
    rw [heq]
    exact ⟨.opened hh hg hzero hfresh, hr.openStream parent hid⟩
  | write id data =>
    cases h
    exact ⟨.wrote hh hg, hr.write id data⟩
  | flush =>
    cases h
    exact ⟨hh, hr.flush.2⟩

theorem inv_run {s : Streams} (h : Run step Allowed start s) : Inv s :=
  h.invariant (fun _ _ _ hs hg hstep => inv_step hs hg hstep) inv_start

theorem readStream_high (w : TreeStreamWriter) {id : TreeStreamID} (hid : 2 ^ 31 ≤ id.toNat) : w.readStream id = none := by
  rw [TreeStreamWriter.readStream]
  split
  · show (findChain id [] w.flushBuffer.output).map _ = none
    rw [findChain_high hid]
    rfl
  · rfl

/-- The stream `2^31` cannot be read. -/
theorem not_roundTrips {s : Streams} (hs : Inv s) (hge : 2 ^ 31 ≤ s.count) : ¬ RoundTrips s := by
  intro hround
  have hmem : BitVec.ofNat 32 (2 ^ 31) ∈ openedIds s.history := by
    rw [hs.numbers.opened]
    exact List.mem_map.2 ⟨2 ^ 31 - 1, List.mem_range.2 (by omega), rfl⟩
  obtain ⟨out, hread, -⟩ := hround _ hmem
  rw [readStream_high s.writer (by decide)] at hread
  cases hread

/-- **Round trip.**  After every run, `readStream` returns what every stream holds exactly if fewer than `2^31` streams
were opened. -/
theorem readStream_iff {s : Streams} (h : Run step Allowed start s) : RoundTrips s ↔ s.count < 2 ^ 31 := by
  have hs := inv_run h
  constructor
  · intro hround
    by_contra hge
    exact not_roundTrips hs (Nat.le_of_not_lt hge) hround
  · intro hlt id hid
    obtain ⟨hh, rs, hr⟩ := hs.holds hlt
    obtain ⟨roots, bytes, ht⟩ := hh.traced hid
    refine ⟨bytes, hr.readStream ?_ hh ht, ht.expected⟩
    rw [hs.numbers.opened] at hid
    obtain ⟨i, hpos, hle, rfl⟩ := mem_numbered hid
    rw [hs.numbers.ids, BitVec.toNat_ofNat, BitVec.toNat_ofNat, Nat.mod_eq_of_lt (by omega), Nat.mod_eq_of_lt (by omega)]
    omega

/-- A root, a byte written to it and a child. -/
theorem readStream_iff_child : ∃ s, Run step Allowed start s ∧ s.history = [.opened 0 1, .wrote 1 [7], .opened 1 2] ∧
    RoundTrips s := by
  have hroot : Run step Allowed start ⟨(TreeStreamWriter.new.openStream 0).1, [.opened 0 1]⟩ :=
    .single (a := .openStream 0) (.inl rfl) rfl
  have hopened : (1 : TreeStreamID) ∈ openedIds [.opened 0 1] := by decide
  have hopened' : (1 : TreeStreamID) ∈ openedIds [.opened 0 1, .wrote 1 [7]] := by decide
  have hwrite : Run step Allowed start ⟨(TreeStreamWriter.new.openStream 0).1.write 1 ⟨[7], by decide⟩, _⟩ :=
    hroot.step (.write 1 ⟨[7], by decide⟩) hopened rfl
  have hchild : Run step Allowed start ⟨_, [.opened 0 1, .wrote 1 [7], .opened 1 2]⟩ :=
    hwrite.step (.openStream 1) (.inr hopened') rfl
  exact ⟨_, hchild, rfl, (readStream_iff hchild).2 (by decide)⟩

/-- A run can open any number of roots. -/
theorem run_open (n : ℕ) : ∃ s, Run step Allowed start s ∧ s.count = n := by
  induction n with
  | zero => exact ⟨start, .refl, rfl⟩
  | succ n ih =>
    obtain ⟨s, hrun, hcount⟩ := ih
    refine ⟨_, hrun.step (.openStream 0) (.inl rfl) rfl, ?_⟩
    show (openedIds (s.history ++ _)).length = _
    rw [openedIds_opened, List.length_append]
    exact congrArg (· + 1) hcount

/-- After `2^31` roots, the last of them cannot be read. -/
theorem last_root_lost : ¬ ∀ s, Run step Allowed start s → RoundTrips s := by
  intro h
  obtain ⟨s, hrun, hcount⟩ := run_open (2 ^ 31)
  exact not_roundTrips (inv_run hrun) (Nat.le_of_eq hcount.symm) (h s hrun)

end Streams

end SymBisect.TreeStream
