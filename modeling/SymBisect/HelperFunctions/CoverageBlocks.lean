import SymBisect.HelperFunctions.DumpSearch

/-!
# Expanding the coverage

`get_bb_addrs` and `get_func_addrs` of `helper_functions/prioritylist.py`: from an address that was covered, the rest of its block
and of its function in the listing of the instructions.  An exception, and a loop that is not over when the fuel is spent, are
`none`.

* `Listing`: functions with a line of their own and an empty line between them, with increasing addresses.
* `get_dump_line_hits`: the search ends at the instruction, or at the line of its function.
* `bbLoop_spec`, `get_func_addrs_eq`: what the scans return.
* `cover_iff`: when both are right.
-/

namespace SymBisect.CoverageBlocks

open Lib PriorityList DumpSearch

attribute [local instance] Text.lawfulBEq

/-! ### The block -/

/-- `'__sanitizer_cov_trace_pc' in line`. -/
def isTrace (line : Text) : Bool := decide ("__sanitizer_cov_trace_pc".toList <:+: line)

/-- `"retq" in line`. -/
def isRet (line : Text) : Bool := decide ("retq".toList <:+: line)

/-- `'0x' + addr`. -/
def withPrefix (addr : Text) : Text := '0' :: 'x' :: addr

/-- `addr[2:]` where `addr.startswith("0x")`. -/
def stripPrefix (addr : Text) : Text := if "0x".toList <+: addr then addr.drop 2 else addr

/-- `"\n"`. -/
def blank : Text := ['\n']

/-- The loop of `get_bb_addrs`, over the lines from the index on. -/
def bbLoop : List Text → List Text → Option (List Text)
  | [], _ => none
  | line :: lines, addrs =>
    if isTrace line ∨ line = blank then some addrs
    else
      let addr := withPrefix (address line)
      let addrs := if addr ∈ addrs then addrs else addrs ++ [addr]
      if isRet line then some addrs else bbLoop lines addrs

/-- `get_bb_addrs` after the search. -/
def bbFrom (s_buf : List Text) (addr : Text) : Option ℕ → Option (List Text)
  | none => some [withPrefix addr]
  | some 0 => some [withPrefix addr]
  | some (i + 1) =>
    s_buf[i]?.bind fun line =>
      bbLoop (s_buf.drop (i + 2)) (if isTrace line then [withPrefix (address line), withPrefix addr] else [withPrefix addr])

def get_bb_addrs (s_buf : List Text) (addr : Text) (fuel : ℕ) : Option (List Text) :=
  (get_dump_line s_buf (stripPrefix addr) fuel 0 (s_buf.length - 1)).bind (bbFrom s_buf (stripPrefix addr))

/-! ### The function -/

/-- `line.split(":")[0]`. -/
def beforeColon (line : Text) : Text := line.takeWhile fun c => c ≠ ':'

/-- `addr_buf`. -/
def addrBuf (s_buf : List Text) : List Text :=
  s_buf.map fun line => if "ff".toList <+: line ∧ ':' ∈ line then beforeColon line else []

/-- `str(hex(n))`. -/
def hexText (n : ℤ) : Text := (if n < 0 then "-0x".toList else "0x".toList) ++ Nat.toDigits 16 n.natAbs

/-- The address that is tried next. -/
def nextAddr (addr : Text) : Option Text :=
  (hex addr).map fun n =>
    let addr := (hexText (n + 1)).drop 2
    if addr.getLast? = some 'L' then addr.dropLast else addr

/-- `while addr not in addr_buf`. -/
def knownAddr (addr_buf : List Text) : ℕ → Text → Option Text
  | 0, _ => none
  | fuel + 1, addr => if addr ∈ addr_buf then some addr else (nextAddr addr).bind (knownAddr addr_buf fuel)

/-- `s_buf[i]`; a negative index counts from the end. -/
def pyGet (s_buf : List Text) (i : ℤ) : Option Text :=
  if 0 ≤ i then s_buf[i.toNat]?
  else if -(s_buf.length : ℤ) ≤ i then s_buf[(s_buf.length + i).toNat]? else none

/-- `s_buf[st:ed]`. -/
def pySlice (s_buf : List Text) (st : ℤ) (ed : ℕ) : List Text :=
  (s_buf.take ed).drop (if st < 0 then (s_buf.length + st).toNat else st.toNat)

/-- `line.endswith(">:\n")`. -/
def isHead (line : Text) : Bool := decide (">:\n".toList <:+ line)

/-- `while not s_buf[previndex].endswith(">:\n"): previndex -= 1`. -/
def headBefore (s_buf : List Text) : ℕ → ℤ → Option ℤ
  | 0, _ => none
  | fuel + 1, i => (pyGet s_buf i).bind fun line => if isHead line then some i else headBefore s_buf fuel (i - 1)

/-- The addresses of lines with a colon. -/
def lineAddrs (lines : List Text) : Finset Text := ((lines.filter fun line => ':' ∈ line).map beforeColon).toFinset

/-- `get_func_addrs`.  The way back ends where there are no more negative indices. -/
def get_func_addrs (s_buf addr_buf : List Text) (addr : Text) (fuel : ℕ) : Option (Finset Text × Finset Text) := do
  let addr ← knownAddr addr_buf fuel addr
  let index := addr_buf.idxOf addr
  let previndex ← headBefore s_buf (2 * s_buf.length + 1) (index - 1)
  let head ← pyGet s_buf previndex
  if '<' ∈ head then
    let length ← (s_buf.drop index).findIdx? fun line => line = blank
    let addrlist := pySlice s_buf (previndex + 1) (index + length)
    some (lineAddrs addrlist, lineAddrs (addrlist.filter fun line => "nop".toList <:+: line))
  else none

/-! ### Listings -/

/-- A function of the listing. -/
structure Function where
  head : Text
  body : List Text

def Function.lines (f : Function) : List Text := f.head :: f.body

/-- The line of an instruction: its address, then a colon. -/
structure Instruction (t : Text) : Prop where
  starts : "ff".toList <+: t
  colon : t[16]? = some ':'
  first : ':' ∉ address t
  notHead : isHead t = false

/-- The line of a function: the address of its first instruction, then its name. -/
structure Heads (f : Function) : Prop where
  first : ∃ line, f.body.head? = some line ∧ address f.head = address line
  space : f.head[16]? = some ' '
  named : '<' ∈ f.head
  ends : isHead f.head = true

/-- A listing: lines without addresses, then functions, whose instructions have increasing addresses. -/
structure Listing (start : List Text) (fs : List Function) : Prop where
  start : ∀ line ∈ start, isRecord line = false ∧ isTrace line = false
  heads : ∀ f ∈ fs, Heads f
  instructions : ∀ f ∈ fs, ∀ line ∈ f.body, Instruction line
  sorted : ((fs.flatMap Function.body).map address).Pairwise (· < ·)

/-- Functions, with an empty line after each. -/
def parts (fs : List Function) : List Text := fs.flatMap fun f => f.lines ++ [blank]

/-- The file; after its last function there may or may not be an empty line. -/
def file (start : List Text) (fs : List Function) (ended : Bool) : List Text :=
  start ++ match ended with
    | true => parts fs
    | false => (parts fs).dropLast

variable {s_buf start lines A rest : List Text} {fs fs₁ fs₂ : List Function} {f : Function} {line l addr : Text} {ended : Bool}

theorem Instruction.lt_length (h : Instruction line) : 16 < line.length := (List.getElem?_eq_some_iff.1 h.colon).1

theorem Instruction.isRecord (h : Instruction line) : isRecord line = true := decide_eq_true h.starts.isInfix

theorem Instruction.ne_blank (h : Instruction line) : line ≠ blank := by
  intro heq
  have hlen := h.lt_length
  rw [heq] at hlen
  exact absurd hlen (by decide)

theorem Instruction.length_address (h : Instruction line) : (address line).length = 16 := by
  have hlen := h.lt_length
  unfold address
  rw [List.length_take]
  omega

/-- Sixteen characters, and the next one. -/
theorem split_address {t : Text} {c : Char} (h : t[16]? = some c) : t = address t ++ c :: t.drop 17 := by
  obtain ⟨hlen, rfl⟩ := List.getElem?_eq_some_iff.1 h
  unfold address
  rw [List.cons_getElem_drop_succ, List.take_append_drop]

theorem Instruction.beforeColon (h : Instruction line) : beforeColon line = address line := by
  have hfirst : ∀ c ∈ address line, decide (c ≠ ':') = true := fun c hc => decide_eq_true fun heq => h.first (heq ▸ hc)
  refine (congrArg CoverageBlocks.beforeColon (split_address h.colon)).trans ?_
  unfold CoverageBlocks.beforeColon
  rw [List.takeWhile_append_of_pos hfirst, List.takeWhile_cons_of_neg (by decide), List.append_nil]

theorem Instruction.colon_mem (h : Instruction line) : ':' ∈ line := by
  rw [split_address h.colon]
  exact List.mem_append_right _ List.mem_cons_self

/-- The line of a function is not that of an address. -/
theorem Heads.beforeColon_ne (h : Heads f) (hf : ∀ line ∈ f.body, Instruction line) (hl : Instruction line) :
    beforeColon f.head ≠ address line := by
  obtain ⟨l, hfirst, haddr⟩ := h.first
  have hinstruction := hf l (List.mem_of_mem_head? hfirst)
  have hno : ∀ c ∈ address f.head, decide (c ≠ ':') = true := fun c hc =>
    decide_eq_true fun heq => hinstruction.first (by rw [← haddr, ← heq]; exact hc)
  have hlen : (address f.head).length = 16 := by
    rw [haddr]
    exact hinstruction.length_address
  intro heq
  have hcount := congrArg List.length heq
  unfold CoverageBlocks.beforeColon at hcount
  rw [split_address h.space, List.takeWhile_append_of_pos hno, List.takeWhile_cons_of_pos (by decide), List.length_append,
    List.length_cons, hlen, hl.length_address] at hcount
  omega

theorem Heads.isRecord (h : Heads f) (hf : ∀ line ∈ f.body, Instruction line) : isRecord f.head = true := by
  obtain ⟨l, hfirst, haddr⟩ := h.first
  have hstarts := (hf l (List.mem_of_mem_head? hfirst)).starts
  have htake : ∀ t : Text, ("ff".toList <+: t) ↔ "ff".toList <+: address t := by
    intro t
    rw [List.prefix_iff_eq_take, List.prefix_iff_eq_take]
    unfold address
    rw [List.take_take]
    rfl
  exact decide_eq_true ((htake f.head).2 (haddr ▸ (htake l).1 hstarts)).isInfix

/-! ### The file -/

/-- What follows a function. -/
def following (fs : List Function) (ended : Bool) : List Text :=
  match ended with
  | true => blank :: parts fs
  | false => (blank :: parts fs).dropLast

theorem file_eq (start : List Text) (fs₁ : List Function) (f : Function) (fs₂ : List Function) (ended : Bool) :
    file start (fs₁ ++ f :: fs₂) ended = start ++ parts fs₁ ++ f.head :: f.body ++ following fs₂ ended := by
  have hparts : parts (fs₁ ++ f :: fs₂) = (parts fs₁ ++ f.lines) ++ blank :: parts fs₂ := by
    simp [parts]
  cases ended with
  | true => simp [file, following, hparts, Function.lines]
  | false =>
    simp only [file, following, hparts]
    rw [List.dropLast_append_of_ne_nil (List.cons_ne_nil _ _)]
    simp [Function.lines]

/-- Nothing follows the last function of a file without an empty line at its end. -/
theorem following_eq (fs : List Function) (ended : Bool) :
    (fs = [] ∧ ended = false → following fs ended = []) ∧ (¬(fs = [] ∧ ended = false) → ∃ B, following fs ended = blank :: B) := by
  cases ended with
  | true => exact ⟨fun h => absurd h.2 (by decide), fun _ => ⟨_, rfl⟩⟩
  | false =>
    cases fs with
    | nil => exact ⟨fun _ => rfl, fun h => absurd ⟨rfl, rfl⟩ h⟩
    | cons f fs =>
      refine ⟨fun h => absurd h.1 (List.cons_ne_nil _ _), fun _ => ⟨(parts (f :: fs)).dropLast, ?_⟩⟩
      exact List.dropLast_cons_of_ne_nil (List.cons_ne_nil _ _)

theorem mem_parts : l ∈ parts fs ↔ ∃ f ∈ fs, l = f.head ∨ l ∈ f.body ∨ l = blank := by
  simp [parts, Function.lines]

theorem isRecord_blank : isRecord blank = false := by decide

/-- A line with an address has that of an instruction. -/
theorem Listing.address_mem (h : Listing start fs) (hl : l ∈ parts fs) (hrecord : isRecord l = true) :
    ∃ line ∈ fs.flatMap Function.body, address l = address line := by
  obtain ⟨f, hf, rfl | hbody | rfl⟩ := mem_parts.1 hl
  · obtain ⟨line, hfirst, haddr⟩ := (h.heads f hf).first
    exact ⟨line, List.mem_flatMap.2 ⟨f, hf, List.mem_of_mem_head? hfirst⟩, haddr⟩
  · exact ⟨l, List.mem_flatMap.2 ⟨f, hf, hbody⟩, rfl⟩
  · rw [isRecord_blank] at hrecord
    cases hrecord

theorem Listing.append (h : Listing start (fs₁ ++ fs₂)) : Listing start fs₁ ∧ Listing start fs₂ ∧
    ∀ x ∈ fs₁.flatMap Function.body, ∀ y ∈ fs₂.flatMap Function.body, address x < address y := by
  have hsorted := h.sorted
  rw [List.flatMap_append, List.map_append, List.pairwise_append] at hsorted
  refine ⟨⟨h.start, fun f hf => h.heads f (List.mem_append_left _ hf), fun f hf => h.instructions f (List.mem_append_left _ hf),
    hsorted.1⟩, ⟨h.start, fun f hf => h.heads f (List.mem_append_right _ hf), fun f hf =>
    h.instructions f (List.mem_append_right _ hf), hsorted.2.1⟩, fun x hx y hy => ?_⟩
  exact hsorted.2.2 _ (List.mem_map_of_mem hx) _ (List.mem_map_of_mem hy)

/-- Lines with addresses, in order. -/
def InOrder (x y : Text) : Prop := isRecord x = true → isRecord y = true → address x ≤ address y

theorem Listing.inOrder_function (h : Listing start [f]) : (f.lines ++ [blank]).Pairwise InOrder := by
  have hsorted := h.sorted
  rw [List.flatMap_singleton, List.pairwise_map] at hsorted
  obtain ⟨first, hfirst, haddr⟩ := (h.heads f List.mem_cons_self).first
  refine List.pairwise_append.2 ⟨List.pairwise_cons.2 ⟨fun y hy _ _ => ?_, hsorted.imp fun hlt _ _ => hlt.le⟩,
    List.pairwise_singleton _ _, fun x _ y hy _ hrecord => ?_⟩
  · cases hbody : f.body with
    | nil =>
      rw [hbody] at hy
      cases hy
    | cons b bs =>
      rw [hbody] at hfirst hy hsorted
      obtain rfl := Option.some.inj hfirst
      rw [haddr]
      obtain rfl | hy := List.mem_cons.1 hy
      · exact le_rfl
      · exact ((List.pairwise_cons.1 hsorted).1 y hy).le
  · rw [List.mem_singleton.1 hy, isRecord_blank] at hrecord
    cases hrecord

theorem Listing.inOrder (h : Listing start fs) : (start ++ parts fs).Pairwise InOrder := by
  have hstart : ∀ x ∈ start, ∀ y, InOrder x y := fun x hx y hrecord => by
    rw [(h.start x hx).1] at hrecord
    cases hrecord
  refine List.pairwise_append.2 ⟨List.pairwise_of_forall_mem_list fun x hx y _ => hstart x hx y, ?_, fun x hx y _ => hstart x hx y⟩
  induction fs with
  | nil => exact .nil
  | cons f fs ih =>
    have happend : Listing start ([f] ++ fs) := h
    obtain ⟨hf, hfs, hlt⟩ := happend.append
    have hparts : parts (f :: fs) = (f.lines ++ [blank]) ++ parts fs := rfl
    rw [hparts]
    refine List.pairwise_append.2 ⟨hf.inOrder_function, ih hfs, fun x hx y hy hxr hyr => ?_⟩
    obtain ⟨l, hl, hxl⟩ := hf.address_mem (l := x) (by simpa [parts] using hx) hxr
    obtain ⟨m, hm, hym⟩ := hfs.address_mem hy hyr
    rw [hxl, hym]
    exact (hlt l hl m hm).le

theorem file_sublist (start : List Text) (fs : List Function) (ended : Bool) : (file start fs ended).Sublist (start ++ parts fs) := by
  cases ended with
  | true => exact .refl _
  | false => exact (List.dropLast_sublist _).append_left _

theorem at_iff {i : ℕ} {a : Text} : At s_buf i a ↔ ∃ hi : i < s_buf.length, isRecord s_buf[i] = true ∧ address s_buf[i] = a := by
  constructor
  · rintro ⟨line, hline, hrecord, haddr⟩
    obtain ⟨hi, rfl⟩ := List.getElem?_eq_some_iff.1 hline
    exact ⟨hi, hrecord, haddr⟩
  · rintro ⟨hi, hrecord, haddr⟩
    exact ⟨_, List.getElem?_eq_getElem hi, hrecord, haddr⟩

/-- No two lines without addresses one after the other. -/
theorem Listing.chain (h : Listing start fs) : (parts fs).IsChain fun x y => isRecord x = true ∨ isRecord y = true := by
  induction fs with
  | nil => exact .nil
  | cons f fs ih =>
    have happend : Listing start ([f] ++ fs) := h
    obtain ⟨hf, hfs, -⟩ := happend.append
    have hinstructions := hf.instructions f List.mem_cons_self
    have hhead := (hf.heads f List.mem_cons_self).isRecord hinstructions
    have hlines : ∀ x ∈ f.lines, isRecord x = true := by
      intro x hx
      obtain rfl | hx := List.mem_cons.1 hx
      · exact hhead
      · exact (hinstructions x hx).isRecord
    have hparts : parts (f :: fs) = f.lines ++ ([blank] ++ parts fs) := by simp [parts]
    rw [hparts]
    refine List.isChain_append.2 ⟨?_, List.isChain_append.2 ⟨List.isChain_singleton _, ih hfs, fun x _ y hy => ?_⟩, fun x hx y _ => ?_⟩
    · exact (List.pairwise_of_forall_mem_list fun x hx y _ => Or.inl (hlines x hx)).isChain
    · cases fs with
      | nil => cases hy
      | cons g fs =>
        obtain rfl : g.head = y := Option.some.inj hy
        have hg := hfs.instructions g List.mem_cons_self
        exact .inr ((hfs.heads g List.mem_cons_self).isRecord hg)
    · exact .inl (hlines x (List.mem_of_mem_getLast? hx))

/-- **A listing can be searched.** -/
theorem Listing.dump (h : Listing start fs) (ended : Bool) : Dump (file start fs ended) := by
  have horder : (file start fs ended).Pairwise InOrder := h.inOrder.sublist (file_sublist start fs ended)
  refine ⟨fun i j a b hij hi hj => ?_, fun i j a b hi hj k hik hkj => ?_⟩
  · obtain ⟨hil, hir, rfl⟩ := at_iff.1 hi
    obtain ⟨hjl, hjr, rfl⟩ := at_iff.1 hj
    obtain rfl | hlt := Nat.eq_or_lt_of_le hij
    · exact le_rfl
    · exact List.pairwise_iff_getElem.1 horder i j hil hjl hlt hir hjr
  · obtain ⟨X, hfile, hchain⟩ : ∃ X, file start fs ended = start ++ X ∧
        X.IsChain fun x y => isRecord x = true ∨ isRecord y = true := by
      cases ended with
      | true => exact ⟨_, rfl, h.chain⟩
      | false => exact ⟨_, rfl, h.chain.dropLast⟩
    have hjl := hj.lt_length
    rw [hfile] at hi hjl ⊢
    have hstart : start.length ≤ i := by
      by_contra hlt
      obtain ⟨line, hline, hrecord, -⟩ := hi
      rw [List.getElem?_append_left (not_le.1 hlt)] at hline
      rw [(h.start line (List.mem_of_getElem? hline)).1] at hrecord
      cases hrecord
    rw [List.length_append] at hjl
    have hat : ∀ m (hm : m < X.length), isRecord X[m] = true → ∃ c, At (start ++ X) (start.length + m) c := by
      intro m hm hrecord
      refine ⟨_, X[m], ?_, hrecord, rfl⟩
      rw [List.getElem?_append_right (by omega), Nat.add_sub_cancel_left, List.getElem?_eq_getElem hm]
    obtain ⟨m, rfl⟩ := Nat.exists_eq_add_of_le (show start.length ≤ k by omega)
    have hm : m + 1 < X.length := by omega
    exact (List.isChain_iff_getElem.1 hchain m hm).imp (hat m (by omega)) (hat (m + 1) hm)

/-! ### The search -/

theorem get_dump_line_mono {i : Option ℕ} {fuel : ℕ} : ∀ {st ed : ℕ}, get_dump_line s_buf addr fuel st ed = some i →
    get_dump_line s_buf addr (fuel + 1) st ed = some i := by
  induction fuel with
  | zero =>
    intro st ed h
    cases h
  | succ fuel ih =>
    intro st ed h
    rw [get_dump_line] at h ⊢
    obtain ⟨stline, hst, h⟩ := Option.bind_eq_some_iff.1 h
    rw [hst, Option.bind_some]
    by_cases hstline : (!isRecord stline) = true
    · rw [if_pos hstline] at h ⊢
      exact ih h
    · rw [if_neg hstline] at h ⊢
      obtain ⟨edline, hed, h⟩ := Option.bind_eq_some_iff.1 h
      rw [hed, Option.bind_some]
      by_cases hedline : (!isRecord edline) = true
      · rw [if_pos hedline] at h ⊢
        exact ih h
      · rw [if_neg hedline] at h ⊢
        by_cases ha : address stline = addr
        · rw [if_pos ha] at h ⊢
          exact h
        · rw [if_neg ha] at h ⊢
          by_cases hb : address edline = addr
          · rw [if_pos hb] at h ⊢
            exact h
          · rw [if_neg hb] at h ⊢
            by_cases hadj : ed = st + 1
            · rw [if_pos hadj] at h ⊢
              exact h
            · rw [if_neg hadj] at h ⊢
              obtain ⟨midline, hmid, h⟩ := Option.bind_eq_some_iff.1 h
              obtain ⟨line, hline, h⟩ := Option.bind_eq_some_iff.1 h
              show s_buf[(st + ed) / 2]?.bind _ = _
              rw [hmid, Option.bind_some]
              show s_buf[if isRecord midline then (st + ed) / 2 else (st + ed) / 2 + 1]?.bind _ = _
              rw [hline, Option.bind_some]
              by_cases hlt : address line < addr
              · rw [if_pos hlt] at h ⊢
                exact ih h
              · rw [if_neg hlt] at h ⊢
                exact ih h

/-- The search has one result. -/
theorem finds_unique {st ed : ℕ} {i j : Option ℕ} (hi : Finds s_buf addr st ed i) (hj : Finds s_buf addr st ed j) : i = j := by
  have hmono : ∀ {n fuel : ℕ} {i : Option ℕ}, get_dump_line s_buf addr fuel st ed = some i →
      get_dump_line s_buf addr (fuel + n) st ed = some i := by
    intro n fuel i h
    induction n with
    | zero => exact h
    | succ n ih => exact get_dump_line_mono ih
  obtain ⟨n, hn⟩ := hi
  obtain ⟨m, hm⟩ := hj
  have hn' := hmono (n := m) hn
  rw [Nat.add_comm, hmono (n := n) hm] at hn'
  exact (Option.some.inj hn').symm

/-- An instruction that was covered: the functions before and after its own, and what comes before and after it there. -/
structure Covered (start : List Text) (fs₁ : List Function) (head : Text) (before : List Text) (line : Text) (rest : List Text)
    (fs₂ : List Function) : Prop where
  listing : Listing start (fs₁ ++ ⟨head, before ++ line :: rest⟩ :: fs₂)

section

variable {head : Text} {before : List Text}

/-- The lines of the file before the function. -/
abbrev above (start : List Text) (fs : List Function) : List Text := start ++ parts fs

/-- The file around the instruction. -/
theorem file_covered (start : List Text) (fs₁ : List Function) (head : Text) (before : List Text) (line : Text) (rest : List Text)
    (fs₂ : List Function) (ended : Bool) : file start (fs₁ ++ ⟨head, before ++ line :: rest⟩ :: fs₂) ended =
      (above start fs₁ ++ head :: before) ++ line :: (rest ++ following fs₂ ended) := by
  rw [file_eq]
  simp

namespace Covered

variable (h : Covered start fs₁ head before line rest fs₂)

include h

theorem heads : Heads ⟨head, before ++ line :: rest⟩ := h.listing.heads _ (List.mem_append_right _ List.mem_cons_self)

theorem instructions : ∀ l ∈ before ++ line :: rest, Instruction l :=
  h.listing.instructions _ (List.mem_append_right _ List.mem_cons_self)

theorem instruction : Instruction line := h.instructions line (List.mem_append_right _ List.mem_cons_self)

theorem sorted : (before ++ line :: rest).Pairwise fun x y => address x < address y := by
  have hsorted := h.listing.append.2.1.sorted
  rw [List.flatMap_cons, List.map_append, List.pairwise_append] at hsorted
  exact List.pairwise_map.1 hsorted.1

/-- Smaller addresses before the function. -/
theorem above_lt {x : Text} (hx : x ∈ above start fs₁) (hrecord : isRecord x = true) : address x < address line := by
  obtain hx | hx := List.mem_append.1 hx
  · rw [(h.listing.start x hx).1] at hrecord
    cases hrecord
  · obtain ⟨h₁, -, hlt⟩ := h.listing.append
    obtain ⟨l, hl, hxl⟩ := h₁.address_mem hx hrecord
    rw [hxl]
    exact hlt l hl line (List.mem_flatMap.2 ⟨_, List.mem_cons_self, List.mem_append_right _ List.mem_cons_self⟩)

/-- The line of the function has the address of its first instruction. -/
theorem head_le : address head ≤ address line ∧ (address head = address line → before = []) := by
  obtain ⟨l, hfirst, haddr⟩ := h.heads.first
  have hsorted := h.sorted
  cases before with
  | nil =>
    obtain rfl : line = l := Option.some.inj hfirst
    exact ⟨haddr.le, fun _ => rfl⟩
  | cons b bs =>
    obtain rfl : b = l := Option.some.inj hfirst
    have hlt := (List.pairwise_cons.1 hsorted).1 line (List.mem_append_right _ List.mem_cons_self)
    have haddr' : address head = address b := haddr
    rw [haddr']
    exact ⟨hlt.le, fun heq => absurd heq hlt.ne⟩

/-- Larger addresses after the instruction. -/
theorem following_lt {x : Text} (hx : x ∈ rest ++ following fs₂ ended) (hrecord : isRecord x = true) : address line < address x := by
  obtain hx | hx := List.mem_append.1 hx
  · exact (List.pairwise_cons.1 (List.pairwise_append.1 h.sorted).2.1).1 x hx
  · have hparts : x = blank ∨ x ∈ parts fs₂ := by
      cases ended with
      | true => exact List.mem_cons.1 hx
      | false => exact List.mem_cons.1 (List.dropLast_subset _ hx)
    obtain rfl | hparts := hparts
    · rw [isRecord_blank] at hrecord
      cases hrecord
    · have hlisting : Listing start ((fs₁ ++ [⟨head, before ++ line :: rest⟩]) ++ fs₂) := by simpa using h.listing
      obtain ⟨-, h₂, hlt⟩ := hlisting.append
      obtain ⟨l, hl, hxl⟩ := h₂.address_mem hparts hrecord
      rw [hxl]
      exact hlt line (by simp) l hl

/-- **The search** ends at the instruction; at the line of the function only where that has the same address. -/
theorem get_dump_line_hits (ended : Bool) : ∃ i, Finds (file start (fs₁ ++ ⟨head, before ++ line :: rest⟩ :: fs₂) ended) (address line) 0
      ((file start (fs₁ ++ ⟨head, before ++ line :: rest⟩ :: fs₂) ended).length - 1) (some i) ∧
    (i = (above start fs₁ ++ head :: before).length ∨ before = [] ∧ i = (above start fs₁).length) := by
  have hdump := h.listing.dump ended
  rw [file_covered] at hdump ⊢
  have hat : At ((above start fs₁ ++ head :: before) ++ line :: (rest ++ following fs₂ ended)) (above start fs₁ ++ head :: before).length
      (address line) := ⟨line, by rw [List.getElem?_append_right le_rfl, Nat.sub_self]; rfl, h.instruction.isRecord, rfl⟩
  obtain ⟨first, last, low, high, hends⟩ := exists_ends hat
  obtain ⟨i, hi, hfinds⟩ := finds_present hdump (last - first) first last low high _ le_rfl hends.low hends.high (hends.first_le _ _ hat)
    (hends.le_last _ _ hat) hat
  refine ⟨i, finds_whole hends hfinds, ?_⟩
  obtain ⟨x, hx, hrecord, haddr⟩ := hi
  obtain hlt | rfl | hgt := lt_trichotomy i (above start fs₁ ++ head :: before).length
  · right
    rw [List.getElem?_append_left hlt] at hx
    obtain hlt' | rfl | hgt' := lt_trichotomy i (above start fs₁).length
    · rw [List.getElem?_append_left hlt'] at hx
      exact absurd haddr (h.above_lt (List.mem_of_getElem? hx) hrecord).ne
    · rw [List.getElem?_append_right le_rfl, Nat.sub_self] at hx
      obtain rfl : head = x := Option.some.inj hx
      exact ⟨h.head_le.2 haddr, rfl⟩
    · obtain ⟨n, rfl⟩ := Nat.exists_eq_add_of_lt hgt'
      rw [List.getElem?_append_right (by omega), show (above start fs₁).length + n + 1 - (above start fs₁).length = n + 1 by omega,
        List.getElem?_cons_succ] at hx
      have hbefore := (List.pairwise_append.1 h.sorted).2.2 x (List.mem_of_getElem? hx) line List.mem_cons_self
      exact absurd haddr hbefore.ne
  · exact .inl rfl
  · obtain ⟨n, rfl⟩ := Nat.exists_eq_add_of_lt hgt
    rw [List.getElem?_append_right (by omega), show (above start fs₁ ++ head :: before).length + n + 1 -
      (above start fs₁ ++ head :: before).length = n + 1 by omega, List.getElem?_cons_succ] at hx
    exact absurd haddr (h.following_lt (List.mem_of_getElem? hx) hrecord).ne'

end Covered

/-! ### The block of an instruction -/

/-- The instructions of the block after one: up to the next trace call, and up to the first return. -/
def blockAfter : List Text → List Text
  | [] => []
  | line :: lines => if isTrace line then [] else if isRet line then [line] else line :: blockAfter lines

/-- The addresses of the block: the trace call just before the instruction, itself, and what follows. -/
def blockAddrs (before : List Text) (line : Text) (rest : List Text) : List Text :=
  (before.getLast?.toList.filter isTrace ++ line :: blockAfter rest).map fun l => withPrefix (address l)

theorem withPrefix_inj {a b : Text} : withPrefix a = withPrefix b ↔ a = b := by
  unfold withPrefix
  simp

/-- **The loop of `get_bb_addrs`**, in a function with an empty line after it. -/
theorem bbLoop_spec {B : List Text} : ∀ {addrs : List Text}, (∀ l ∈ rest, Instruction l) → (rest.Pairwise fun x y => address x < address y) →
    (∀ l ∈ rest, withPrefix (address l) ∉ addrs) →
    bbLoop (rest ++ blank :: B) addrs = some (addrs ++ (blockAfter rest).map fun l => withPrefix (address l)) := by
  induction rest with
  | nil =>
    intro addrs _ _ _
    rw [List.nil_append, bbLoop, if_pos (.inr rfl), blockAfter, List.map_nil, List.append_nil]
  | cons l rest ih =>
    intro addrs hinstructions hsorted hnew
    obtain ⟨hl, hrest⟩ := List.forall_mem_cons.1 hinstructions
    obtain ⟨hlt, hsorted⟩ := List.pairwise_cons.1 hsorted
    obtain ⟨hlnew, hrestnew⟩ := List.forall_mem_cons.1 hnew
    rw [List.cons_append, bbLoop, blockAfter]
    cases htrace : isTrace l with
    | true => rw [if_pos (.inl rfl), if_pos rfl, List.map_nil, List.append_nil]
    | false =>
      rw [if_neg fun h => h.elim Bool.false_ne_true hl.ne_blank, if_neg Bool.false_ne_true]
      simp only [if_neg hlnew]
      cases hret : isRet l with
      | true => rw [if_pos rfl, if_pos rfl, List.map_singleton]
      | false =>
        rw [if_neg Bool.false_ne_true, if_neg Bool.false_ne_true, ih hrest hsorted fun m hm => ?_, List.map_cons,
          List.append_assoc, List.singleton_append]
        rw [List.mem_append, List.mem_singleton, withPrefix_inj, not_or]
        exact ⟨hrestnew m hm, (hlt m hm).ne'⟩

/-- One result of the search, one result of `get_bb_addrs`. -/
theorem get_bb_addrs_iff {i : Option ℕ} {bb : List Text} (hi : Finds s_buf (stripPrefix addr) 0 (s_buf.length - 1) i) :
    (∃ fuel, get_bb_addrs s_buf addr fuel = some bb) ↔ bbFrom s_buf (stripPrefix addr) i = some bb := by
  constructor
  · rintro ⟨fuel, hfuel⟩
    obtain ⟨j, hj, hbb⟩ := Option.bind_eq_some_iff.1 hfuel
    obtain rfl := finds_unique hi ⟨fuel, hj⟩
    exact hbb
  · intro hbb
    obtain ⟨fuel, hfuel⟩ := hi
    exact ⟨fuel, Option.bind_eq_some_iff.2 ⟨i, hfuel, hbb⟩⟩

theorem Instruction.stripPrefix (h : Instruction line) (haddr : addr = address line ∨ addr = withPrefix (address line)) :
    stripPrefix addr = address line := by
  obtain rfl | rfl := haddr
  · refine if_neg fun h0 => ?_
    have hff : "ff".toList <+: address line := by
      have hstarts := h.starts
      rw [List.prefix_iff_eq_take] at hstarts ⊢
      unfold address
      rw [List.take_take]
      exact hstarts
    have heq := List.prefix_of_prefix_length_le h0 hff le_rfl
    exact absurd heq (by decide)
  · refine (if_pos ⟨address line, rfl⟩).trans rfl

/-- The search ended at `q`, after `p`. -/
theorem bbFrom_append (U : List Text) (p q : Text) (V : List Text) (addr : Text) :
    bbFrom ((U ++ [p]) ++ q :: V) addr (some (U ++ [p]).length) =
      bbLoop V (if isTrace p then [withPrefix (address p), withPrefix addr] else [withPrefix addr]) := by
  have hlen : (U ++ [p]).length = U.length + 1 := by simp
  have hget : ((U ++ [p]) ++ q :: V)[U.length]? = some p := by simp
  have hdrop : ((U ++ [p]) ++ q :: V).drop (U.length + 2) = V := by
    have hsplit : (U ++ [p]) ++ q :: V = (U ++ [p, q]) ++ V := by simp
    rw [hsplit, List.drop_left' (by simp)]
  rw [hlen, bbFrom, hget, hdrop, Option.bind_some]

namespace Covered

variable (h : Covered start fs₁ head before line rest fs₂)

include h

/-- What follows the instruction has other addresses. -/
theorem rest_new {addrs : List Text} (haddrs : ∀ a ∈ addrs, ∃ l ∈ before ++ [line], a = withPrefix (address l)) :
    ∀ l ∈ rest, withPrefix (address l) ∉ addrs := by
  intro l hl hmem
  obtain ⟨m, hm, heq⟩ := haddrs _ hmem
  have hsorted : ((before ++ [line]) ++ rest).Pairwise fun x y => address x < address y := by simpa using h.sorted
  exact ((List.pairwise_append.1 hsorted).2.2 m hm l hl).ne' (withPrefix_inj.1 heq)

/-- The loop over what follows the instruction. -/
theorem bbLoop_rest {addrs B : List Text} (haddrs : ∀ a ∈ addrs, ∃ l ∈ before ++ [line], a = withPrefix (address l)) :
    bbLoop (rest ++ blank :: B) addrs = some (addrs ++ (blockAfter rest).map fun l => withPrefix (address l)) := by
  have hsorted := (List.pairwise_cons.1 (List.pairwise_append.1 h.sorted).2.1).2
  exact bbLoop_spec (fun l hl => h.instructions l (by simp [hl])) hsorted (h.rest_new haddrs)

/-- The search ended at the instruction, which is not the first one. -/
theorem bbFrom_later {B : List Text} (hbefore : before ≠ []) :
    bbFrom ((above start fs₁ ++ head :: before) ++ line :: (rest ++ blank :: B)) (address line)
      (some (above start fs₁ ++ head :: before).length) = some (blockAddrs before line rest) := by
  obtain ⟨bs, p, hbs⟩ := (List.eq_nil_or_concat before).resolve_left hbefore
  rw [List.concat_eq_append] at hbs
  subst hbs
  have hsplit : above start fs₁ ++ head :: (bs ++ [p]) = (above start fs₁ ++ head :: bs) ++ [p] := by simp
  have hlast : (bs ++ [p]).getLast? = some p := by simp
  rw [hsplit, bbFrom_append]
  unfold blockAddrs
  rw [hlast]
  cases htrace : isTrace p with
  | true =>
    rw [if_pos rfl, h.bbLoop_rest fun a ha => (List.mem_pair.1 ha).elim (fun ha => ⟨p, by simp, ha⟩) fun ha => ⟨line, by simp, ha⟩]
    simp [htrace]
  | false =>
    rw [if_neg Bool.false_ne_true, h.bbLoop_rest fun a ha => ⟨line, by simp, List.mem_singleton.1 ha⟩]
    simp [htrace]

/-- The search ended at the first instruction of a function: its line is taken for what comes before. -/
theorem bbFrom_first {B : List Text} (hbefore : before = []) :
    bbFrom ((above start fs₁ ++ head :: before) ++ line :: (rest ++ blank :: B)) (address line)
      (some (above start fs₁ ++ head :: before).length) = some (blockAddrs before line rest) ↔ isTrace head = false := by
  subst hbefore
  have haddr : address head = address line := by
    obtain ⟨l, hfirst, haddr⟩ := h.heads.first
    obtain rfl : line = l := Option.some.inj hfirst
    exact haddr
  rw [bbFrom_append, haddr]
  cases htrace : isTrace head with
  | true =>
    rw [if_pos rfl, h.bbLoop_rest fun a ha => ⟨line, by simp, (List.mem_pair.1 ha).elim id id⟩]
    refine iff_of_false (fun heq => ?_) Bool.true_eq_false_eq_False
    have hlen := congrArg List.length (Option.some.inj heq)
    simp [blockAddrs] at hlen
  | false =>
    rw [if_neg Bool.false_ne_true, h.bbLoop_rest fun a ha => ⟨line, by simp, List.mem_singleton.1 ha⟩]
    exact iff_of_true (by simp [blockAddrs]) rfl

/-- The last line above the function is not a trace call. -/
theorem above_last {A : List Text} {q : Text} (hq : above start fs₁ = A ++ [q]) : isTrace q = false := by
  obtain rfl | ⟨gs, g, hgs⟩ := List.eq_nil_or_concat fs₁
  · have hmem : q ∈ start := by
      have habove : above start [] = start := List.append_nil start
      rw [← habove, hq]
      simp
    exact (h.listing.start q hmem).2
  · rw [List.concat_eq_append] at hgs
    subst hgs
    have hsplit : above start (gs ++ [g]) = (start ++ parts gs ++ g.lines) ++ [blank] := by simp [above, parts]
    rw [hsplit] at hq
    obtain ⟨-, hlast⟩ := List.append_inj' hq rfl
    obtain rfl : blank = q := (List.cons.inj hlast).1
    decide

/-- The search ended at the line of the function. -/
theorem bbFrom_head {B : List Text} (hbefore : before = []) :
    bbFrom ((above start fs₁ ++ head :: before) ++ line :: (rest ++ blank :: B)) (address line) (some (above start fs₁).length) =
      some (blockAddrs before line rest) ↔
    (above start fs₁ = [] ∨ isTrace line ∨ isRet line → blockAfter rest = []) := by
  subst hbefore
  have halone : some [withPrefix (address line)] = some (blockAddrs [] line rest) ↔ blockAfter rest = [] := by
    constructor
    · intro heq
      exact List.map_eq_nil_iff.1 (List.cons.inj (Option.some.inj heq)).2.symm
    · intro hnil
      unfold blockAddrs
      rw [hnil]
      rfl
  obtain habove | ⟨A, q, hA⟩ := List.eq_nil_or_concat (above start fs₁)
  · rw [habove]
    refine (Iff.trans ?_ halone).trans ⟨fun hnil _ => hnil, fun hnil => hnil (.inl rfl)⟩
    exact Iff.rfl
  · rw [List.concat_eq_append] at hA
    have hq := h.above_last hA
    have hne : above start fs₁ ≠ [] := by
      rw [hA]
      simp
    have hfile : (above start fs₁ ++ [head]) ++ line :: (rest ++ blank :: B) =
        (A ++ [q]) ++ head :: line :: (rest ++ blank :: B) := by simp [hA]
    have hlen : (above start fs₁).length = (A ++ [q]).length := by rw [hA]
    rw [hfile, hlen, bbFrom_append, hq, if_neg Bool.false_ne_true, bbLoop]
    cases htrace : isTrace line with
    | true =>
      rw [if_pos (.inl rfl)]
      exact halone.trans ⟨fun hnil _ => hnil, fun hnil => hnil (.inr (.inl rfl))⟩
    | false =>
      rw [if_neg fun hor => hor.elim Bool.false_ne_true h.instruction.ne_blank]
      simp only [if_pos (List.mem_singleton_self (withPrefix (address line)))]
      cases hret : isRet line with
      | true =>
        rw [if_pos rfl]
        exact halone.trans ⟨fun hnil _ => hnil, fun hnil => hnil (.inr (.inr rfl))⟩
      | false =>
        rw [if_neg Bool.false_ne_true, h.bbLoop_rest fun a ha => ⟨line, by simp, List.mem_singleton.1 ha⟩]
        refine iff_of_true (by simp [blockAddrs]) fun hor => ?_
        obtain hnil | htr | hre := hor
        · exact absurd hnil hne
        · cases htr
        · cases hre

omit h in
theorem pyGet_natCast (i : ℕ) : pyGet s_buf i = s_buf[i]? := by
  unfold pyGet
  rw [if_pos (Int.natCast_nonneg i), Int.toNat_natCast]

/-- No line before that of the instruction has its address in `addr_buf`. -/
theorem addrBuf_new : address line ∉ addrBuf (above start fs₁ ++ head :: before) := by
  have hempty : [] ≠ address line := by
    intro heq
    have hlen := h.instruction.length_address
    rw [← heq] at hlen
    cases hlen
  have hinstruction : ∀ x, Instruction x → address x < address line →
      (if "ff".toList <+: x ∧ ':' ∈ x then beforeColon x else []) ≠ address line := by
    intro x hx hlt
    rw [if_pos ⟨hx.starts, hx.colon_mem⟩, hx.beforeColon]
    exact hlt.ne
  have hhead : ∀ g : Function, Heads g → (∀ l ∈ g.body, Instruction l) →
      (if "ff".toList <+: g.head ∧ ':' ∈ g.head then beforeColon g.head else []) ≠ address line := by
    intro g hg hbody
    split
    · exact hg.beforeColon_ne hbody h.instruction
    · exact hempty
  have hplain : ∀ x, isRecord x = false → (if "ff".toList <+: x ∧ ':' ∈ x then beforeColon x else []) ≠ address line := by
    intro x hx
    rw [if_neg fun hff => ?_]
    · exact hempty
    · have hrecord : isRecord x = true := decide_eq_true hff.1.isInfix
      rw [hx] at hrecord
      cases hrecord
  intro hmem
  obtain ⟨x, hx, heq⟩ := List.mem_map.1 hmem
  refine absurd heq ?_
  obtain habove | hx := List.mem_append.1 hx
  · obtain hx | hx := List.mem_append.1 habove
    · exact hplain x (h.listing.start x hx).1
    · obtain ⟨f, hf, rfl | hbody | rfl⟩ := mem_parts.1 hx
      · exact hhead f (h.listing.heads f (List.mem_append_left _ hf)) (h.listing.instructions f (List.mem_append_left _ hf))
      · have hi := h.listing.instructions f (List.mem_append_left _ hf) x hbody
        exact hinstruction x hi (h.above_lt habove hi.isRecord)
      · exact hplain _ isRecord_blank
  · obtain rfl | hx := List.mem_cons.1 hx
    · exact hhead ⟨x, before ++ line :: rest⟩ h.heads h.instructions
    · exact hinstruction x (h.instructions x (List.mem_append_left _ hx))
        ((List.pairwise_append.1 h.sorted).2.2 x hx line List.mem_cons_self)

/-- The index that `get_func_addrs` starts at. -/
theorem idxOf_eq (V : List Text) : address line ∈ addrBuf ((above start fs₁ ++ head :: before) ++ line :: V) ∧
    (addrBuf ((above start fs₁ ++ head :: before) ++ line :: V)).idxOf (address line) = (above start fs₁ ++ head :: before).length := by
  have hsplit : addrBuf ((above start fs₁ ++ head :: before) ++ line :: V) =
      addrBuf (above start fs₁ ++ head :: before) ++ address line :: addrBuf V := by
    unfold addrBuf
    rw [List.map_append, List.map_cons, if_pos ⟨h.instruction.starts, h.instruction.colon_mem⟩, h.instruction.beforeColon]
  rw [hsplit, List.idxOf_append_of_notMem h.addrBuf_new, List.idxOf_cons_self]
  refine ⟨List.mem_append_right _ List.mem_cons_self, ?_⟩
  unfold addrBuf
  rw [List.length_map, Nat.add_zero]

/-- The way back ends at the line of the function. -/
theorem headBefore_eq (V : List Text) : ∀ {n fuel : ℕ}, n ≤ before.length → n < fuel →
    headBefore ((above start fs₁ ++ head :: before) ++ line :: V) fuel (((above start fs₁).length + n : ℕ) : ℤ) =
      some ((above start fs₁).length : ℤ) := by
  intro n
  induction n with
  | zero =>
    intro fuel _ hfuel
    obtain ⟨fuel, rfl⟩ : ∃ k, fuel = k + 1 := ⟨fuel - 1, by omega⟩
    have hget : ((above start fs₁ ++ head :: before) ++ line :: V)[(above start fs₁).length + 0]? = some head := by simp
    have hends : isHead head = true := h.heads.ends
    rw [headBefore, pyGet_natCast, hget, Option.bind_some, hends, if_pos rfl, Nat.add_zero]
  | succ n ih =>
    intro fuel hn hfuel
    obtain ⟨fuel, rfl⟩ : ∃ k, fuel = k + 1 := ⟨fuel - 1, by omega⟩
    have hlt : n < before.length := by omega
    have hget : ((above start fs₁ ++ head :: before) ++ line :: V)[(above start fs₁).length + (n + 1)]? = some before[n] := by
      rw [List.append_assoc, List.getElem?_append_right (by omega), Nat.add_sub_cancel_left, List.cons_append,
        List.getElem?_cons_succ, List.getElem?_append_left hlt, List.getElem?_eq_getElem hlt]
    have hno : isHead before[n] = false := (h.instructions _ (List.mem_append_left _ (List.getElem_mem hlt))).notHead
    have hprev : (((above start fs₁).length + (n + 1) : ℕ) : ℤ) - 1 = (((above start fs₁).length + n : ℕ) : ℤ) := by
      push_cast
      ring
    rw [headBefore, pyGet_natCast, hget, Option.bind_some, hno, if_neg Bool.false_ne_true, hprev]
    exact ih (by omega) (by omega)

/-- `get_func_addrs` up to the way forward. -/
theorem get_func_addrs_eq (V : List Text) (fuel : ℕ) : ∃ nops : ℕ → Finset Text,
    get_func_addrs ((above start fs₁ ++ head :: before) ++ line :: V) (addrBuf ((above start fs₁ ++ head :: before) ++ line :: V))
      (address line) (fuel + 1) = ((line :: V).findIdx? fun l => l = blank).map fun n =>
        (lineAddrs (((above start fs₁ ++ head :: before) ++ line :: V).take ((above start fs₁ ++ head :: before).length + n) |>.drop
          ((above start fs₁).length + 1)), nops n) := by
  obtain ⟨hmem, hidx⟩ := h.idxOf_eq V
  have hback : headBefore ((above start fs₁ ++ head :: before) ++ line :: V)
      (2 * ((above start fs₁ ++ head :: before) ++ line :: V).length + 1) (((above start fs₁ ++ head :: before).length : ℤ) - 1) =
        some ((above start fs₁).length : ℤ) := by
    have hindex : ((above start fs₁ ++ head :: before).length : ℤ) - 1 = (((above start fs₁).length + before.length : ℕ) : ℤ) := by
      rw [List.length_append, List.length_cons]
      omega
    rw [hindex]
    refine h.headBefore_eq V le_rfl ?_
    rw [List.length_append, List.length_append, List.length_cons]
    omega
  have hhead : pyGet ((above start fs₁ ++ head :: before) ++ line :: V) ((above start fs₁).length : ℤ) = some head := by
    rw [pyGet_natCast]
    simp
  have hdrop : ((above start fs₁ ++ head :: before) ++ line :: V).drop (above start fs₁ ++ head :: before).length = line :: V :=
    List.drop_left
  have hnamed : '<' ∈ head := h.heads.named
  refine ⟨fun n => lineAddrs (((((above start fs₁ ++ head :: before) ++ line :: V).take
    ((above start fs₁ ++ head :: before).length + n)).drop ((above start fs₁).length + 1)).filter fun l => "nop".toList <:+: l), ?_⟩
  rw [get_func_addrs, knownAddr, if_pos hmem]
  simp only [Option.bind_eq_bind, Option.bind_some, hidx, hback, hhead, if_pos hnamed, hdrop]
  cases (line :: V).findIdx? fun l => decide (l = blank) with
  | none => rfl
  | some n =>
    have hslice : pySlice ((above start fs₁ ++ head :: before) ++ line :: V) (((above start fs₁).length : ℤ) + 1)
        ((above start fs₁ ++ head :: before).length + n) = (((above start fs₁ ++ head :: before) ++ line :: V).take
          ((above start fs₁ ++ head :: before).length + n)).drop ((above start fs₁).length + 1) := by
      unfold pySlice
      rw [if_neg (by omega)]
      rfl
    rw [Option.bind_some, hslice]
    rfl

/-- **The function of the instruction**, where an empty line follows it. -/
theorem get_func_addrs_followed (B : List Text) (fuel : ℕ) : ∃ nops,
    get_func_addrs ((above start fs₁ ++ head :: before) ++ line :: (rest ++ blank :: B))
      (addrBuf ((above start fs₁ ++ head :: before) ++ line :: (rest ++ blank :: B))) (address line) (fuel + 1) =
        some (((before ++ line :: rest).map address).toFinset, nops) := by
  obtain ⟨nops, hrun⟩ := h.get_func_addrs_eq (rest ++ blank :: B) fuel
  have hno : ∀ l ∈ line :: rest, l ≠ blank := fun l hl => (h.instructions l (List.mem_append_right _ hl)).ne_blank
  have hfind : (line :: (rest ++ blank :: B)).findIdx? (fun l => decide (l = blank)) = some (line :: rest).length := by
    have hsplit : line :: (rest ++ blank :: B) = (line :: rest) ++ blank :: B := rfl
    have hblank : (blank :: B).findIdx? (fun l => decide (l = blank)) = some 0 := by
      rw [List.findIdx?_cons, decide_eq_true rfl]
      rfl
    rw [hsplit, List.findIdx?_append, List.findIdx?_eq_none_iff.2 fun l hl => decide_eq_false (hno l hl), hblank]
    simp
  have hbody : (((above start fs₁ ++ head :: before) ++ line :: (rest ++ blank :: B)).take
      ((above start fs₁ ++ head :: before).length + (line :: rest).length)).drop ((above start fs₁).length + 1) =
        before ++ line :: rest := by
    have hsplit : (above start fs₁ ++ head :: before) ++ line :: (rest ++ blank :: B) =
        ((above start fs₁ ++ [head]) ++ (before ++ line :: rest)) ++ blank :: B := by simp
    rw [hsplit, List.take_left' (by simp; omega), List.drop_left' (by rw [List.length_append]; rfl)]
  have haddrs : lineAddrs (before ++ line :: rest) = ((before ++ line :: rest).map address).toFinset := by
    unfold lineAddrs
    rw [List.filter_eq_self.2 fun l hl => decide_eq_true (h.instructions l hl).colon_mem,
      List.map_congr_left fun l hl => (h.instructions l hl).beforeColon]
  refine ⟨nops (line :: rest).length, ?_⟩
  rw [hrun, hfind, Option.map_some, hbody, haddrs]

/-- A function that the file ends with has no end. -/
theorem get_func_addrs_last (fuel : ℕ) : get_func_addrs ((above start fs₁ ++ head :: before) ++ line :: (rest ++ []))
    (addrBuf ((above start fs₁ ++ head :: before) ++ line :: (rest ++ []))) (address line) fuel = none := by
  cases fuel with
  | zero => rfl
  | succ fuel =>
    obtain ⟨nops, hrun⟩ := h.get_func_addrs_eq (rest ++ []) fuel
    have hno : ∀ l ∈ line :: (rest ++ []), decide (l = blank) = false := fun l hl =>
      decide_eq_false (h.instructions l (List.mem_append_right _ (by simpa using hl))).ne_blank
    rw [hrun, List.findIdx?_eq_none_iff.2 hno]
    rfl

end Covered

end

/-! ### Both together -/

/-- What is expected of both functions: the block, and all addresses of the function, which contain it. -/
def CoverRight (s_buf : List Text) (addr : Text) (before : List Text) (line : Text) (rest : List Text) : Prop :=
  ∃ bb funcs nops, (∃ fuel, get_bb_addrs s_buf addr fuel = some bb) ∧
    (∃ fuel, get_func_addrs s_buf (addrBuf s_buf) (stripPrefix addr) fuel = some (funcs, nops)) ∧
    bb = blockAddrs before line rest ∧ funcs = ((before ++ line :: rest).map address).toFinset ∧
    ∀ a ∈ bb, ∃ b ∈ funcs, a = withPrefix b

/-- When they are right: an empty line follows the function; and if the instruction is its first one, and the search ends at the
line of the function, then that is not the first line and the instruction is no trace call and no return, unless its block ends with
it; if the search ends at the instruction, the name of the function is not like a trace call. -/
structure Fits (start : List Text) (fs₁ : List Function) (head : Text) (before : List Text) (line : Text) (rest : List Text)
    (fs₂ : List Function) (ended : Bool) : Prop where
  followed : ¬(fs₂ = [] ∧ ended = false)
  atHead : before = [] → Finds (file start (fs₁ ++ ⟨head, before ++ line :: rest⟩ :: fs₂) ended) (address line) 0
    ((file start (fs₁ ++ ⟨head, before ++ line :: rest⟩ :: fs₂) ended).length - 1) (some (above start fs₁).length) →
      above start fs₁ = [] ∨ isTrace line ∨ isRet line → blockAfter rest = []
  atLine : before = [] → ¬Finds (file start (fs₁ ++ ⟨head, before ++ line :: rest⟩ :: fs₂) ended) (address line) 0
    ((file start (fs₁ ++ ⟨head, before ++ line :: rest⟩ :: fs₂) ended).length - 1) (some (above start fs₁).length) →
      isTrace head = false

/-- Blocks end within their function. -/
theorem mem_blockAfter {l : Text} {rest : List Text} (hl : l ∈ blockAfter rest) : l ∈ rest := by
  induction rest with
  | nil => exact hl
  | cons m rest ih =>
    rw [blockAfter] at hl
    cases htrace : isTrace m with
    | true =>
      rw [htrace, if_pos rfl] at hl
      cases hl
    | false =>
      rw [htrace, if_neg Bool.false_ne_true] at hl
      cases hret : isRet m with
      | true =>
        rw [hret, if_pos rfl, List.mem_singleton] at hl
        exact hl ▸ List.mem_cons_self
      | false =>
        rw [hret, if_neg Bool.false_ne_true] at hl
        exact (List.mem_cons.1 hl).elim (fun heq => heq ▸ List.mem_cons_self) fun hl => List.mem_cons_of_mem _ (ih hl)

theorem mem_blockAddrs {before rest : List Text} {line a : Text} (ha : a ∈ blockAddrs before line rest) :
    ∃ b ∈ ((before ++ line :: rest).map address).toFinset, a = withPrefix b := by
  obtain ⟨l, hl, rfl⟩ := List.mem_map.1 ha
  refine ⟨address l, List.mem_toFinset.2 (List.mem_map_of_mem ?_), rfl⟩
  obtain hl | hl := List.mem_append.1 hl
  · have hlast := (List.mem_filter.1 hl).1
    exact List.mem_append_left _ (List.mem_of_getLast? (Option.mem_toList.1 hlast))
  · refine List.mem_append_right _ ((List.mem_cons.1 hl).elim (fun heq => heq ▸ List.mem_cons_self) fun hl => ?_)
    exact List.mem_cons_of_mem _ (mem_blockAfter hl)

/-- **When the coverage is expanded rightly.** -/
theorem cover_iff {start : List Text} {fs₁ fs₂ : List Function} {head line addr : Text} {before rest : List Text} (ended : Bool)
    (h : Listing start (fs₁ ++ ⟨head, before ++ line :: rest⟩ :: fs₂))
    (haddr : addr = address line ∨ addr = withPrefix (address line)) :
    CoverRight (file start (fs₁ ++ ⟨head, before ++ line :: rest⟩ :: fs₂) ended) addr before line rest ↔
      Fits start fs₁ head before line rest fs₂ ended := by
  have hc : Covered start fs₁ head before line rest fs₂ := ⟨h⟩
  have hstrip := hc.instruction.stripPrefix haddr
  obtain ⟨i, hfinds, hi⟩ := hc.get_dump_line_hits ended
  have hfinds' : Finds (file start (fs₁ ++ ⟨head, before ++ line :: rest⟩ :: fs₂) ended) (stripPrefix addr) 0
      ((file start (fs₁ ++ ⟨head, before ++ line :: rest⟩ :: fs₂) ended).length - 1) (some i) := hstrip.symm ▸ hfinds
  have hbb := fun bb : List Text => @get_bb_addrs_iff _ addr (some i) bb hfinds'
  have hfile := file_covered start fs₁ head before line rest fs₂ ended
  by_cases hend : fs₂ = [] ∧ ended = false
  · refine iff_of_false ?_ fun hfits => hfits.followed hend
    rintro ⟨bb, funcs, nops, -, ⟨fuel, hfuncs⟩, -⟩
    rw [hstrip, hfile, (following_eq fs₂ ended).1 hend, hc.get_func_addrs_last] at hfuncs
    cases hfuncs
  · obtain ⟨B, hB⟩ := (following_eq fs₂ ended).2 hend
    rw [hfile, hB] at hfinds
    have hright : CoverRight (file start (fs₁ ++ ⟨head, before ++ line :: rest⟩ :: fs₂) ended) addr before line rest ↔
        bbFrom ((above start fs₁ ++ head :: before) ++ line :: (rest ++ blank :: B)) (address line) (some i) =
          some (blockAddrs before line rest) := by
      constructor
      · rintro ⟨bb, funcs, nops, hrun, -, rfl, -, -⟩
        have hfrom := (hbb _).1 hrun
        rwa [hstrip, hfile, hB] at hfrom
      · intro hfrom
        obtain ⟨nops, hfuncs⟩ := hc.get_func_addrs_followed B 0
        refine ⟨_, _, nops, (hbb _).2 ?_, ⟨1, ?_⟩, rfl, rfl, fun a ha => mem_blockAddrs ha⟩
        · rw [hstrip, hfile, hB]
          exact hfrom
        · rw [hstrip, hfile, hB]
          exact hfuncs
    rw [hright]
    by_cases hhead : before = [] ∧ i = (above start fs₁).length
    · obtain ⟨hbefore, rfl⟩ := hhead
      rw [hc.bbFrom_head hbefore]
      rw [← hB, ← hfile] at hfinds
      exact ⟨fun hor => ⟨hend, fun _ _ => hor, fun _ hno => absurd hfinds hno⟩, fun hfits => hfits.atHead hbefore hfinds⟩
    · obtain rfl := hi.resolve_right hhead
      by_cases hbefore : before = []
      · rw [hc.bbFrom_first hbefore]
        rw [← hB, ← hfile] at hfinds
        have hno : ¬Finds (file start (fs₁ ++ ⟨head, before ++ line :: rest⟩ :: fs₂) ended) (address line) 0
            ((file start (fs₁ ++ ⟨head, before ++ line :: rest⟩ :: fs₂) ended).length - 1) (some (above start fs₁).length) := by
          intro hother
          have heq := Option.some.inj (finds_unique hfinds hother)
          rw [List.length_append, List.length_cons] at heq
          omega
        exact ⟨fun htrace => ⟨hend, fun _ hyes => absurd hyes hno, fun _ _ => htrace⟩, fun hfits => hfits.atLine hbefore hno⟩
      · rw [hc.bbFrom_later hbefore]
        exact iff_of_true rfl ⟨hend, fun hnil => absurd hnil hbefore, fun hnil => absurd hnil hbefore⟩

/-- A function with two instructions, and one with one. -/
def firstFunction : Function where
  head := text "ffffffff81000000 <f>:\n"
  body := [text "ffffffff81000000:\tpush\n"] ++ text "ffffffff81000004:\tretq\n" :: []

def lastFunction : Function where
  head := text "ffffffff81000010 <g>:\n"
  body := [text "ffffffff81000010:\tnop\n"]

theorem instruction_push : Instruction (text "ffffffff81000000:\tpush\n") := ⟨by decide +kernel, rfl, by decide +kernel, by decide +kernel⟩

theorem instruction_retq : Instruction (text "ffffffff81000004:\tretq\n") := ⟨by decide +kernel, rfl, by decide +kernel, by decide +kernel⟩

theorem instruction_nop : Instruction (text "ffffffff81000010:\tnop\n") := ⟨by decide +kernel, rfl, by decide +kernel, by decide +kernel⟩

theorem heads_first : Heads firstFunction := ⟨⟨_, rfl, by decide +kernel⟩, rfl, by decide +kernel, by decide +kernel⟩

theorem heads_last : Heads lastFunction := ⟨⟨_, rfl, by decide +kernel⟩, rfl, by decide +kernel, by decide +kernel⟩

theorem sorted_functions : (([firstFunction, lastFunction].flatMap Function.body).map address).Pairwise (· < ·) := by decide +kernel

theorem listing_functions : Listing [] [firstFunction, lastFunction] where
  start := fun _ hline => absurd hline List.not_mem_nil
  heads := List.forall_mem_cons.2 ⟨heads_first, List.forall_mem_singleton.2 heads_last⟩
  instructions := List.forall_mem_cons.2 ⟨List.forall_mem_cons.2 ⟨instruction_push, List.forall_mem_singleton.2 instruction_retq⟩,
    List.forall_mem_singleton.2 (List.forall_mem_singleton.2 instruction_nop)⟩
  sorted := sorted_functions

theorem cover_functions : CoverRight (file [] ([] ++ firstFunction :: [lastFunction]) false) (text "ffffffff81000004")
      [text "ffffffff81000000:\tpush\n"] (text "ffffffff81000004:\tretq\n") [] ↔
    Fits [] [] firstFunction.head [text "ffffffff81000000:\tpush\n"] (text "ffffffff81000004:\tretq\n") [] [lastFunction] false :=
  cover_iff false listing_functions (.inl rfl)

/-- The function is the last one, and the file has no empty line at its end. -/
theorem not_cover_last : Listing [] [firstFunction] ∧ ¬CoverRight (file [] [firstFunction] false) (text "ffffffff81000004")
    [text "ffffffff81000000:\tpush\n"] (text "ffffffff81000004:\tretq\n") [] := by
  have happend : Listing [] ([firstFunction] ++ [lastFunction]) := listing_functions
  have h : Listing [] [firstFunction] := happend.append.1
  refine ⟨h, ?_⟩
  rintro ⟨bb, funcs, nops, -, ⟨fuel, hfuncs⟩, -⟩
  have hc : Covered [] [] firstFunction.head [text "ffffffff81000000:\tpush\n"] (text "ffffffff81000004:\tretq\n") [] [] := ⟨h⟩
  have hnone := hc.get_func_addrs_last fuel
  exact absurd (hnone.symm.trans hfuncs) (by simp)

end SymBisect.CoverageBlocks
