import SymBisect.HelperFunctions.PriorityList

/-!
# Cutting the coverage at the target line

`cut_cover_line` of `helper_functions/cover_lineinfo.py`.  A line of the trace is an address, a function and a source
line; the summary at the end of the file has lines that do not begin with an address.

* `cut_cover_line`: the list of addresses that is written, `some none` if it returns `False`.
* `cut_cover_line_exact`: the addresses up to the last entry at the target line, and after it those of the entries that
  name the target function.
-/

namespace SymBisect.CoverLine

open PriorityList

attribute [local instance] Text.lawfulBEq

/-! ### The code -/

/-- `line.startswith("0x")`. -/
def isEntry (line : Text) : Bool := "0x".toList.isPrefixOf line

/-- `line.split(" ")[0]`. -/
def addrOf (line : Text) : Text := line.takeWhile fun c => c ≠ ' '

/-- The loop that looks for the target line: `i` is the index of the line and `last` is `lastindex`. -/
def lastindexLoop (targetline : Text) : (i last : ℕ) → List Text → ℕ
  | _, last, [] => last
  | i, last, line :: s_buf => lastindexLoop targetline (i + 1) (if targetline <:+: line then i else last) s_buf

/-- The loop that collects the addresses of the lines that it does not skip; the last address is returned as well. -/
def collect (skip : Text → Bool) : (coverlist : List Text) → (prevaddr : Text) → List Text → List Text × Text
  | coverlist, prevaddr, [] => (coverlist, prevaddr)
  | coverlist, prevaddr, line :: s_buf =>
    if !isEntry line then collect skip coverlist prevaddr s_buf
    else if skip line then collect skip coverlist prevaddr s_buf
    else collect skip (if addrOf line ≠ prevaddr then coverlist ++ [addrOf line] else coverlist) (addrOf line) s_buf

/-- `cut_cover_line`, for the lines of the trace and of the call stack.  An empty call stack is an exception. -/
def cut_cover_line (s_buf call_buf : List Text) (targetline : Text) : Option (Option (List Text)) :=
  let lastindex := lastindexLoop targetline 0 0 s_buf
  if lastindex = 0 then some none
  else
    let (coverlist, prevaddr) := collect (fun _ => false) [] [] (s_buf.take (lastindex + 1))
    call_buf.head?.map fun call =>
      let targetfunc := addrOf call
      some (collect (fun line => !decide (targetfunc <:+: line)) coverlist prevaddr (s_buf.drop (lastindex + 1))).1

/-! ### What is asked of it -/

/-- The source line of an entry, its third word. -/
def location (line : Text) : Option Text :=
  if isEntry line then ((line.takeWhile fun c => c ≠ '\n').splitOn ' ')[2]? else none

/-- The addresses of the entries, consecutive repeats once. -/
def addresses (lines : List Text) : List Text := ((lines.filter isEntry).map addrOf).destutter (· ≠ ·)

/-- The last entry at the target line, between what is before it and what is after it. -/
structure LastAt (targetline : Text) (s_buf pre : List Text) (entry : Text) (post : List Text) : Prop where
  eq : s_buf = pre ++ entry :: post
  at_target : location entry = some targetline
  last : ∀ line ∈ post, location line ≠ some targetline

/-- The trace is cut exactly after the last entry at the target line. -/
structure Cut (s_buf call_buf : List Text) (targetline : Text) : Prop where
  failure : cut_cover_line s_buf call_buf targetline = some none ↔ ∀ line ∈ s_buf, location line ≠ some targetline
  cover : ∀ pre entry post, LastAt targetline s_buf pre entry post →
    cut_cover_line s_buf call_buf targetline = some (some (addresses (pre ++ [entry])))

variable {targetline : Text} {s_buf : List Text}

/-! ### The two loops -/

theorem addrOf_ne_nil {line : Text} (h : isEntry line = true) : addrOf line ≠ [] := by
  obtain ⟨rest, rfl⟩ := List.isPrefixOf_iff_prefix.1 h
  show ('0' :: 'x' :: rest).takeWhile _ ≠ []
  rw [List.takeWhile_cons_of_pos (by decide)]
  exact List.cons_ne_nil _ _

/-- A loop over lines without the target keeps the index. -/
theorem lastindexLoop_of_notMem (h : ∀ line ∈ s_buf, ¬targetline <:+: line) (i last : ℕ) :
    lastindexLoop targetline i last s_buf = last := by
  induction s_buf generalizing i with
  | nil => rfl
  | cons line s_buf ih =>
    rw [lastindexLoop, if_neg (h line List.mem_cons_self)]
    exact ih (fun l hl => h l (List.mem_cons_of_mem _ hl)) (i + 1)

/-- The loop ends with the last line that has the target. -/
theorem lastindexLoop_append (pre : List Text) {entry : Text} {post : List Text} (hentry : targetline <:+: entry)
    (hpost : ∀ line ∈ post, ¬targetline <:+: line) (i last : ℕ) :
    lastindexLoop targetline i last (pre ++ entry :: post) = i + pre.length := by
  induction pre generalizing i last with
  | nil =>
    rw [List.nil_append, lastindexLoop, if_pos hentry]
    exact lastindexLoop_of_notMem hpost (i + 1) i
  | cons line pre ih =>
    rw [List.cons_append, lastindexLoop, ih, List.length_cons]
    omega

/-- Lines that are skipped may be left out before. -/
theorem collect_filter (skip : Text → Bool) (s_buf coverlist : List Text) (prevaddr : Text) :
    collect skip coverlist prevaddr s_buf =
      collect (fun _ => false) coverlist prevaddr (s_buf.filter fun line => !skip line) := by
  induction s_buf generalizing coverlist prevaddr with
  | nil => rfl
  | cons line s_buf ih =>
    cases hskip : skip line with
    | true =>
      rw [List.filter_cons_of_neg (by rw [hskip]; decide), collect, if_pos hskip, ite_self]
      exact ih coverlist prevaddr
    | false =>
      rw [List.filter_cons_of_pos (by rw [hskip]; rfl), collect, collect, hskip, if_neg Bool.false_ne_true,
        if_neg Bool.false_ne_true, ih, ih]

/-- The second part goes on where the first has stopped. -/
theorem collect_append (skip : Text → Bool) (first second coverlist : List Text) (prevaddr : Text) :
    collect skip coverlist prevaddr (first ++ second) =
      collect skip (collect skip coverlist prevaddr first).1 (collect skip coverlist prevaddr first).2 second := by
  induction first generalizing coverlist prevaddr with
  | nil => rfl
  | cons line first ih =>
    rw [List.cons_append, collect, collect, ih, ih]
    split
    · rfl
    · split
      · rfl
      · rfl

theorem destutter'_eq_cons (prevaddr : Text) (addrs : List Text) :
    addrs.destutter' (· ≠ ·) prevaddr = prevaddr :: (addrs.destutter' (· ≠ ·) prevaddr).tail := by
  induction addrs with
  | nil => rfl
  | cons addr addrs ih =>
    rw [List.destutter'_cons]
    split
    · rfl
    · exact ih

/-- What the loop adds to the list, after the address `prevaddr`. -/
theorem collect_eq_destutter (s_buf coverlist : List Text) (prevaddr : Text) :
    (collect (fun _ => false) coverlist prevaddr s_buf).1 =
      coverlist ++ (((s_buf.filter isEntry).map addrOf).destutter' (· ≠ ·) prevaddr).tail := by
  induction s_buf generalizing coverlist prevaddr with
  | nil => exact (List.append_nil _).symm
  | cons line s_buf ih =>
    rw [collect]
    cases hentry : isEntry line with
    | false =>
      rw [List.filter_cons_of_neg (by rw [hentry]; decide)]
      exact ih coverlist prevaddr
    | true =>
      rw [List.filter_cons_of_pos hentry, List.map_cons, List.destutter'_cons]
      show (collect _ (if addrOf line ≠ prevaddr then _ else _) (addrOf line) s_buf).1 = _
      rw [ih]
      by_cases haddr : addrOf line = prevaddr
      · rw [if_neg (not_not.2 haddr), if_neg (not_not.2 haddr.symm), haddr]
      · rw [if_pos haddr, if_pos (Ne.symm haddr), List.append_assoc, List.tail_cons, List.singleton_append,
          ← destutter'_eq_cons]

/-- The addresses of a whole file. -/
theorem collect_addresses (s_buf : List Text) : (collect (fun _ => false) [] [] s_buf).1 = addresses s_buf := by
  rw [collect_eq_destutter, List.nil_append]
  unfold addresses
  cases hfilter : s_buf.filter isEntry with
  | nil => rfl
  | cons line lines =>
    have hline : isEntry line = true := (List.mem_filter.1 (hfilter ▸ List.mem_cons_self)).2
    rw [List.map_cons, List.destutter'_cons, if_pos (addrOf_ne_nil hline).symm]
    rfl

/-! ### The cut -/

theorem mem_intersperse {word : Text} (sep : Text) (words : List Text) (h : word ∈ words) :
    word ∈ words.intersperse sep := by
  induction words with
  | nil => exact h
  | cons first words ih =>
    cases words with
    | nil => exact h
    | cons second words =>
      rw [List.intersperse_cons_cons]
      obtain rfl | h := List.mem_cons.1 h
      · exact List.mem_cons_self
      · exact List.mem_cons_of_mem _ (List.mem_cons_of_mem _ (ih h))

/-- An entry has the text of its source line. -/
theorem infix_of_location {line : Text} (h : location line = some targetline) : targetline <:+: line := by
  unfold location at h
  split at h
  · have hmem : targetline ∈ (line.takeWhile fun c => c ≠ '\n').splitOn ' ' := List.mem_of_getElem? h
    have hinfix : targetline <:+: [' '].intercalate ((line.takeWhile fun c => c ≠ '\n').splitOn ' ') :=
      List.infix_of_mem_flatten (mem_intersperse [' '] _ hmem)
    rw [List.intercalate_splitOn] at hinfix
    exact hinfix.trans (List.takeWhile_prefix _).isInfix
  · cases h

/-- If an entry is at the target line, there is a last one. -/
theorem exists_lastAt {line : Text} (hmem : line ∈ s_buf) (hline : location line = some targetline) :
    ∃ pre entry post, LastAt targetline s_buf pre entry post := by
  induction s_buf generalizing line with
  | nil => exact absurd hmem List.not_mem_nil
  | cons first s_buf ih =>
    by_cases hrest : ∃ l ∈ s_buf, location l = some targetline
    · obtain ⟨l, hl, hat⟩ := hrest
      obtain ⟨pre, entry, post, hlast⟩ := ih hl hat
      exact ⟨first :: pre, entry, post, congrArg _ hlast.eq, hlast.at_target, hlast.last⟩
    · have hfirst : location first = some targetline := by
        obtain rfl | hmem := List.mem_cons.1 hmem
        · exact hline
        · exact absurd ⟨line, hmem, hline⟩ hrest
      exact ⟨[], first, s_buf, rfl, hfirst, fun l hl hat => hrest ⟨l, hl, hat⟩⟩

/-- What is written when the target line is found after the first line. -/
theorem cut_cover_line_append (call : Text) (rest : List Text) {pre post : List Text} {entry : Text} (hpre : pre ≠ [])
    (hentry : targetline <:+: entry) (hpost : ∀ line ∈ post, ¬targetline <:+: line) :
    cut_cover_line (pre ++ entry :: post) (call :: rest) targetline =
      some (some (addresses (pre ++ entry :: post.filter fun line => decide (addrOf call <:+: line)))) := by
  have hindex : lastindexLoop targetline 0 0 (pre ++ entry :: post) = pre.length := by
    rw [lastindexLoop_append pre hentry hpost, Nat.zero_add]
  have hsplit : pre ++ entry :: post = (pre ++ [entry]) ++ post := by
    rw [List.append_assoc, List.singleton_append]
  have hlen : pre.length + 1 = (pre ++ [entry]).length := by
    rw [List.length_append, List.length_singleton]
  unfold cut_cover_line
  rw [hindex, if_neg fun h => hpre (List.length_eq_zero_iff.1 h), hsplit, hlen, List.take_left, List.drop_left]
  show some (some _) = _
  rw [collect_filter, ← collect_append, collect_addresses, List.append_assoc, List.singleton_append]
  simp only [Bool.not_not]

/-- **The cut.**  Where only entries at the target line have its text, and the first line of the file is not the only one
that has it: `cut_cover_line` fails iff no entry is at the target line, and else writes the addresses up to the last entry
at the target line, followed by those of the later entries that name the target function. -/
theorem cut_cover_line_exact (call : Text) (rest : List Text)
    (htext : ∀ line ∈ s_buf, targetline <:+: line → location line = some targetline)
    (hfirst : ∀ first lines, s_buf = first :: lines → targetline <:+: first → ∃ line ∈ lines, targetline <:+: line) :
    (cut_cover_line s_buf (call :: rest) targetline = some none ↔ ∀ line ∈ s_buf, location line ≠ some targetline) ∧
      ∀ pre entry post, LastAt targetline s_buf pre entry post →
        cut_cover_line s_buf (call :: rest) targetline =
          some (some (addresses (pre ++ entry :: post.filter fun line => decide (addrOf call <:+: line)))) := by
  have hcut : ∀ pre entry post, LastAt targetline s_buf pre entry post →
      cut_cover_line s_buf (call :: rest) targetline =
        some (some (addresses (pre ++ entry :: post.filter fun line => decide (addrOf call <:+: line)))) := by
    intro pre entry post h
    have hentry : targetline <:+: entry := infix_of_location h.at_target
    have hpost : ∀ line ∈ post, ¬targetline <:+: line := fun line hline hinfix =>
      h.last line hline (htext line (h.eq ▸ List.mem_append_right _ (List.mem_cons_of_mem _ hline)) hinfix)
    have hpre : pre ≠ [] := by
      rintro rfl
      obtain ⟨line, hline, hinfix⟩ := hfirst entry post h.eq hentry
      exact hpost line hline hinfix
    rw [h.eq]
    exact cut_cover_line_append call rest hpre hentry hpost
  refine ⟨⟨fun hfail line hline hat => ?_, fun hnone => ?_⟩, hcut⟩
  · obtain ⟨pre, entry, post, hlast⟩ := exists_lastAt hline hat
    rw [hcut pre entry post hlast] at hfail
    cases hfail
  · have hindex : lastindexLoop targetline 0 0 s_buf = 0 :=
      lastindexLoop_of_notMem (fun line hline hinfix => hnone line hline (htext line hline hinfix)) 0 0
    unfold cut_cover_line
    rw [hindex]
    rfl

/-- A trace that goes on in the target function. -/
def goesOn : List Text := [text "0x1 main a.c:7\n", text "0x2 f a.c:2\n", text "0x3 main a.c:8\n", text "0x4 f a.c:3\n"]

theorem cut_goesOn : cut_cover_line goesOn [text "f a.c:2\n"] (text "a.c:2") =
    some (some [text "0x1", text "0x2", text "0x4"]) := by
  have htext : ∀ line ∈ goesOn, text "a.c:2" <:+: line → location line = some (text "a.c:2") := by decide +kernel
  have hfirst : ∀ first lines, goesOn = first :: lines → text "a.c:2" <:+: first →
      ∃ line ∈ lines, text "a.c:2" <:+: line := by
    intro first lines h hinfix
    obtain ⟨rfl, -⟩ := List.cons_eq_cons.1 h
    exact absurd hinfix (by decide +kernel)
  have hlast : LastAt (text "a.c:2") goesOn [text "0x1 main a.c:7\n"] (text "0x2 f a.c:2\n")
      [text "0x3 main a.c:8\n", text "0x4 f a.c:3\n"] := ⟨rfl, by decide +kernel, by decide +kernel⟩
  refine ((cut_cover_line_exact (text "f a.c:2\n") [] htext hfirst).2 _ _ _ hlast).trans ?_
  decide +kernel

/-- The later entry of the target function is written too. -/
theorem not_cut_goesOn : ¬Cut goesOn [text "f a.c:2\n"] (text "a.c:2") := by
  intro h
  have hcover := h.cover [text "0x1 main a.c:7\n"] (text "0x2 f a.c:2\n") [text "0x3 main a.c:8\n", text "0x4 f a.c:3\n"]
    ⟨rfl, by decide +kernel, by decide +kernel⟩
  exact absurd hcover (by decide +kernel)

end SymBisect.CoverLine
