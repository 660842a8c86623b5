import SymBisect.HelperFunctions.CallStack

/-!
# The lines of two versions of a file

`get_matchedlines_git` of `helper_functions/match_targetlines.py` reads the unified difference of two versions of a file and
maps the lines of the reference version to the lines of the target version.

* `matchLine_header`: a header of a hunk sets the counters and maps the lines that the difference leaves out.
* `hunks_spec`: the loop maps the unchanged lines up to the end of the last hunk.
* `get_matchedlines_git_exact`: the lines that are mapped.
-/

namespace SymBisect.MatchedLines

open Lib PriorityList CallStack

attribute [local instance] Text.lawfulBEq

/-! ### The code -/

/-- A line without its newline. -/
def trim (line : Text) : Text := if line.getLast? = some '\n' then line.dropLast else line

/-- `trim_lines`. -/
def trim_lines (buf : List Text) : List Text := buf.map trim

/-- `line.startswith(start)`. -/
def startswith (start line : Text) : Bool := start.isPrefixOf line

/-- The counters of the loop, and its dictionary. -/
structure Counters where
  currentline_R : ℤ
  currentline_T : ℤ
  line_targetline : Table ℤ ℤ

/-- A loop that maps `n` lines from `i` on to the lines from `t` on. -/
def assign (line_targetline : Table ℤ ℤ) (i t : ℤ) : (n : ℕ) → Table ℤ ℤ
  | 0 => line_targetline
  | n + 1 => assign (line_targetline.set i t) (i + 1) (t + 1) n

/-- The two numbers of the header of a hunk: `int(headlist[0].split("-")[1])` and `int(headlist[1].split("+")[1])`. -/
def headNumbers (head : Text) : Option (ℤ × ℤ) := do
  let headlist := head.splitOn ','
  let R ← ((← headlist[0]?).splitOn '-')[1]?
  let R ← int R
  let T ← ((← headlist[1]?).splitOn '+')[1]?
  let T ← int T
  some (R, T)

/-- The body of the loop over the lines of the difference. -/
def matchLine (s : Counters) (line : Text) : Option Counters :=
  if startswith "@@".toList line then
    (headNumbers line).map fun p =>
      { currentline_R := p.1 - 1
        currentline_T := p.2 - 1
        line_targetline := assign s.line_targetline (s.currentline_R + 1) (s.currentline_T + 1)
          (p.1 - 1 - s.currentline_R).toNat }
  else if startswith "-".toList line then some { s with currentline_R := s.currentline_R + 1 }
  else if startswith "+".toList line then some { s with currentline_T := s.currentline_T + 1 }
  else
    some
      { currentline_R := s.currentline_R + 1
        currentline_T := s.currentline_T + 1
        line_targetline := s.line_targetline.set (s.currentline_R + 1) (s.currentline_T + 1) }

/-- What the last loop keeps of an entry; nothing if an index is out of range. -/
def keep (s_buf1 s_buf2 : List Text) (i t : ℤ) : Option (Option ℤ) :=
  if i > s_buf1.length then some none
  else do
    let line ← index s_buf1 (i - 1)
    if line.length = 0 then some none
    else do
      let target ← index s_buf2 (t - 1)
      if line ≠ target then some none else some (some t)

/-- `get_matchedlines_git`: `p_buf` is what `git diff` prints for the two files. -/
def get_matchedlines_git (p_buf s_buf1 s_buf2 : List Text) : Option (Table ℤ ℤ) :=
  if p_buf.length = 0 then some (assign Table.empty 1 1 s_buf1.length)
  else
    let s_buf1 := trim_lines s_buf1
    let s_buf2 := trim_lines s_buf2
    let hunks := (trim_lines p_buf).dropWhile fun line => !startswith "@@".toList line
    if hunks.isEmpty then none
    else do
      let s ← hunks.foldlM matchLine ⟨0, 0, Table.empty⟩
      let line_targetline := assign s.line_targetline s.currentline_R s.currentline_T
        (s_buf1.length - s.currentline_R).toNat
      let filter_line_targetline ← line_targetline.mapM (keep s_buf1 s_buf2)
      some (filter_line_targetline.filterMap fun _ t => t)

/-! ### Unified differences -/

/-- A line of the two versions. -/
inductive Edit
  | same (line : Text)
  | deleted (line : Text)
  | added (line : Text)

namespace Edit

/-- The line, with its newline if it has one. -/
def line : Edit → Text
  | same line => line
  | deleted line => line
  | added line => line

/-- The line in the reference version. -/
def reference : Edit → Option Text
  | same line => some line
  | deleted line => some line
  | added _ => none

/-- The line in the target version. -/
def target : Edit → Option Text
  | same line => some line
  | deleted _ => none
  | added line => some line

/-- What the difference puts before the line. -/
def sign : Edit → Char
  | same _ => ' '
  | deleted _ => '-'
  | added _ => '+'

/-- The lines of the difference for a line: there is a second one if it has no newline. -/
def lines (e : Edit) : List Text :=
  if e.line.getLast? = some '\n' then [e.sign :: e.line]
  else [e.sign :: e.line ++ "\n".toList, "\\ No newline at end of file\n".toList]

end Edit

/-- The lines of the reference version. -/
def references (edits : List Edit) : List Text := edits.filterMap Edit.reference

/-- The lines of the target version. -/
def targets (edits : List Edit) : List Text := edits.filterMap Edit.target

/-- A number, as it is printed. -/
def number (n : ℕ) : Text := (toString n).toList

/-- A range of `count` lines after `before` lines. -/
def rangeText (before count : ℕ) : Text :=
  number (if count = 0 then before else before + 1) ++ if count = 1 then [] else ',' :: number count

/-- A hunk: the unchanged lines that are left out before it, its own lines, and what its header ends with. -/
structure Hunk where
  skipped : List Text
  body : List Edit
  heading : Text

namespace Hunk

/-- All its lines. -/
def edits (h : Hunk) : List Edit := h.skipped.map Edit.same ++ h.body

/-- Its header, after `R` and `T` lines of the versions. -/
def header (R T : ℕ) (h : Hunk) : Text :=
  "@@ -".toList ++ rangeText (R + h.skipped.length) (references h.body).length ++ " +".toList ++
    rangeText (T + h.skipped.length) (targets h.body).length ++ " @@".toList ++ h.heading ++ "\n".toList

end Hunk

/-- The lines of the hunks. -/
def hunkLines (R T : ℕ) : List Hunk → List Text
  | [] => []
  | h :: hs =>
    h.header R T :: (h.body.flatMap Edit.lines ++
      hunkLines (R + (references h.edits).length) (T + (targets h.edits).length) hs)

/-- A unified difference: the lines before the hunks, the hunks, and the unchanged lines that are left out after them. -/
structure UnifiedDiff where
  preamble : List Text
  hunks : List Hunk
  rest : List Text

namespace UnifiedDiff

/-- The lines of both versions. -/
def edits (d : UnifiedDiff) : List Edit := d.hunks.flatMap Hunk.edits ++ d.rest.map Edit.same

/-- What is printed. -/
def lines (d : UnifiedDiff) : List Text := if d.hunks = [] then [] else d.preamble ++ hunkLines 0 0 d.hunks

/-- A hunk begins and ends with an unchanged line, unless it is at the beginning or at the end of the file.  Only the last
line of a version has no newline; as the deleted lines are before the added ones, only these follow it. -/
structure WellFormed (d : UnifiedDiff) : Prop where
  preamble : ∀ line ∈ d.preamble, startswith "@@".toList line = false
  begins : ∀ before h after, d.hunks = before ++ h :: after → before ≠ [] ∨ h.skipped ≠ [] →
    ∃ line body, h.body = .same line :: body
  ends : ∀ before h after, d.hunks = before ++ h :: after → after ≠ [] ∨ d.rest ≠ [] →
    ∃ line body, h.body = body ++ [.same line]
  newline : ∀ before e after, d.edits = before ++ e :: after → e.line.getLast? ≠ some '\n' →
    ∀ e' ∈ after, e'.reference = none

/-- Every header has both numbers of lines: `git diff` leaves the number out if it is one. -/
def Counted (d : UnifiedDiff) : Prop :=
  ∀ h ∈ d.hunks, (references h.body).length ≠ 1 ∧ (targets h.body).length ≠ 1

end UnifiedDiff

/-- A line of the difference, with its line numbers in the versions. -/
def At (edits : List Edit) (e : Edit) (i t : ℤ) : Prop :=
  ∃ k, edits[k]? = some e ∧ i = (references (edits.take k)).length + 1 ∧ t = (targets (edits.take k)).length + 1

/-! ### Texts -/

@[simp] theorem trim_newline (line : Text) : trim (line ++ "\n".toList) = line := by
  show trim (line ++ ['\n']) = line
  unfold trim
  rw [if_pos List.getLast?_concat, List.dropLast_concat]

theorem trim_cons {c : Char} (hc : c ≠ '\n') (line : Text) : ∃ line', trim (c :: line) = c :: line' := by
  unfold trim
  split
  · rename_i h
    cases line with
    | nil => exact absurd (Option.some.inj h) hc
    | cons c' line => exact ⟨_, rfl⟩
  · exact ⟨line, rfl⟩

theorem isDigit_of_mem_number {n : ℕ} {c : Char} (h : c ∈ number n) : c.isDigit = true := by
  refine Nat.isDigit_of_mem_toDigits (b := 10) (n := n) (by decide) le_rfl ?_
  rwa [← Nat.toList_repr]

theorem minus_not_digit : '-'.isDigit = false := rfl

theorem plus_not_digit : '+'.isDigit = false := rfl

theorem number_ne_nil (n : ℕ) : number n ≠ [] := by
  show n.repr.toList ≠ []
  rw [Nat.toList_repr]
  exact Nat.toDigits_ne_nil

theorem notMem_number {c : Char} (h : c.isDigit = false) (n : ℕ) : c ∉ number n := by
  intro hmem
  rw [isDigit_of_mem_number hmem] at h
  cases h

theorem digits_number (n : ℕ) : digits (number n) = some n := by
  have hall : ((number n).splitOn '_').all (fun g => !g.isEmpty && g.all Char.isDigit) = true := by
    rw [List.splitOn_eq_singleton (notMem_number rfl n), List.all_cons, List.all_nil, Bool.and_true, Bool.and_eq_true,
      Bool.not_eq_true', List.isEmpty_eq_false_iff, List.all_eq_true]
    exact ⟨number_ne_nil n, fun c hc => isDigit_of_mem_number hc⟩
  have hvalue : (number n).foldl (fun n c => 10 * n + (c.toNat - '0'.toNat)) 0 = n := by
    show (n.repr.toList).foldl _ 0 = n
    rw [Nat.toList_repr]
    exact Nat.ofDigitChars_ten_toDigits
  unfold digits
  rw [if_pos hall, List.splitOn_eq_singleton (notMem_number rfl n), List.flatten_singleton, hvalue]

theorem dropWhile_number {l : Text} (h : ∀ c ∈ l, c.isDigit = true) : l.dropWhile Char.isWhitespace = l := by
  cases l with
  | nil => rfl
  | cons c l =>
    rw [List.dropWhile_cons_of_neg]
    intro hc
    have hdigit := h c List.mem_cons_self
    simp only [Char.isWhitespace, Bool.or_eq_true, decide_eq_true_eq] at hc
    obtain ((rfl | rfl) | rfl) | rfl := hc <;> cases hdigit

@[simp] theorem int_number (n : ℕ) : int (number n) = some n := by
  have hstrip : (((number n).dropWhile Char.isWhitespace).reverse.dropWhile Char.isWhitespace).reverse = number n := by
    rw [dropWhile_number fun c hc => isDigit_of_mem_number hc,
      dropWhile_number fun c hc => isDigit_of_mem_number (List.mem_reverse.1 hc), List.reverse_reverse]
  unfold int
  rw [hstrip]
  split
  · rename_i d heq
    exact absurd (heq ▸ List.mem_cons_self) (notMem_number minus_not_digit n)
  · rename_i d heq
    exact absurd (heq ▸ List.mem_cons_self) (notMem_number plus_not_digit n)
  · rw [digits_number]
    rfl

theorem rangeText_eq (before : ℕ) {count : ℕ} (h : count ≠ 1) :
    rangeText before count = number (if count = 0 then before else before + 1) ++ ',' :: number count := by
  unfold rangeText
  rw [if_neg h]

/-- The numbers of a header in which no number of lines is left out. -/
theorem headNumbers_header (R T : ℕ) {h : Hunk} (hR : (references h.body).length ≠ 1) (hT : (targets h.body).length ≠ 1) :
    headNumbers (trim (h.header R T)) = some
      (((if (references h.body).length = 0 then R + h.skipped.length else R + h.skipped.length + 1 : ℕ) : ℤ),
        ((if (targets h.body).length = 0 then T + h.skipped.length else T + h.skipped.length + 1 : ℕ) : ℤ)) := by
  unfold Hunk.header
  rw [trim_newline, rangeText_eq _ hR, rangeText_eq _ hT]
  generalize (if (references h.body).length = 0 then R + h.skipped.length else R + h.skipped.length + 1) = r
  generalize (if (targets h.body).length = 0 then T + h.skipped.length else T + h.skipped.length + 1) = t
  have hsplit : ∀ tail : Text, ("@@ -".toList ++ (number r ++ ',' :: number (references h.body).length) ++ " +".toList ++
      (number t ++ ',' :: tail)).splitOn ',' = ("@@ -".toList ++ number r) ::
      (number (references h.body).length ++ " +".toList ++ number t) :: tail.splitOn ',' := by
    intro tail
    have hfirst : ',' ∉ "@@ -".toList ++ number r := by
      rw [List.mem_append, not_or]
      exact ⟨by decide, notMem_number rfl r⟩
    have hsecond : ',' ∉ number (references h.body).length ++ " +".toList ++ number t := by
      rw [List.mem_append, List.mem_append, not_or, not_or]
      exact ⟨⟨notMem_number rfl _, by decide⟩, notMem_number rfl t⟩
    rw [← List.splitOn_append_cons_self_of_not_mem hsecond, ← List.splitOn_append_cons_self_of_not_mem hfirst]
    simp only [List.append_assoc, List.cons_append]
  have hminus : ("@@ -".toList ++ number r).splitOn '-' = ["@@ ".toList, number r] := by
    show ("@@ ".toList ++ '-' :: number r).splitOn '-' = _
    rw [List.splitOn_append_cons_self_of_not_mem (by decide), List.splitOn_eq_singleton (notMem_number rfl r)]
  have hplus : (number (references h.body).length ++ " +".toList ++ number t).splitOn '+' =
      [number (references h.body).length ++ " ".toList, number t] := by
    have hnot : '+' ∉ number (references h.body).length ++ " ".toList := by
      rw [List.mem_append, not_or]
      exact ⟨notMem_number rfl _, by decide⟩
    rw [← List.splitOn_eq_singleton (notMem_number plus_not_digit t), ← List.splitOn_append_cons_self_of_not_mem hnot]
    simp only [List.append_assoc]
    rfl
  have hassoc : "@@ -".toList ++ (number r ++ ',' :: number (references h.body).length) ++ " +".toList ++
      (number t ++ ',' :: number (targets h.body).length) ++ " @@".toList ++ h.heading =
      "@@ -".toList ++ (number r ++ ',' :: number (references h.body).length) ++ " +".toList ++
        (number t ++ ',' :: (number (targets h.body).length ++ " @@".toList ++ h.heading)) := by
    simp only [List.append_assoc, List.cons_append]
  unfold headNumbers
  simp only [hassoc, hsplit, List.getElem?_cons_zero, List.getElem?_cons_succ, Option.bind_eq_bind, Option.bind_some,
    hminus, hplus, int_number]
  rfl

/-! ### Line numbers -/

theorem references_append (s s' : List Edit) : references (s ++ s') = references s ++ references s' :=
  List.filterMap_append

theorem targets_append (s s' : List Edit) : targets (s ++ s') = targets s ++ targets s' := List.filterMap_append

@[simp] theorem references_same (l : List Text) : references (l.map Edit.same) = l := by
  unfold references
  rw [List.filterMap_map]
  exact List.filterMap_some

@[simp] theorem targets_same (l : List Text) : targets (l.map Edit.same) = l := by
  unfold targets
  rw [List.filterMap_map]
  exact List.filterMap_some

theorem references_eq_nil {s : List Edit} : references s = [] ↔ ∀ e ∈ s, e.reference = none := List.filterMap_eq_nil_iff

variable {s s' : List Edit} {e e' : Edit} {i t : ℤ} {line : Text}

theorem At.append (h : At s e i t) (s' : List Edit) : At (s ++ s') e i t := by
  obtain ⟨k, hk, rfl, rfl⟩ := h
  have hlt : k < s.length := (List.getElem?_eq_some_iff.1 hk).1
  refine ⟨k, ?_, ?_, ?_⟩
  · rw [List.getElem?_append_left hlt, hk]
  · rw [List.take_append_of_le_length hlt.le]
  · rw [List.take_append_of_le_length hlt.le]

theorem at_concat : At (s ++ [e']) e i t ↔
    At s e i t ∨ e = e' ∧ i = (references s).length + 1 ∧ t = (targets s).length + 1 := by
  constructor
  · intro ⟨k, hk, hi, ht⟩
    rw [List.getElem?_append] at hk
    split at hk
    · rename_i hlt
      rw [List.take_append_of_le_length hlt.le] at hi ht
      exact .inl ⟨k, hk, hi, ht⟩
    · rename_i hge
      have hzero : k - s.length = 0 := by
        have := (List.getElem?_eq_some_iff.1 hk).1
        rw [List.length_singleton] at this
        omega
      have hk' : k = s.length := by omega
      rw [hzero] at hk
      subst hk'
      rw [List.take_left] at hi ht
      exact .inr ⟨(Option.some.inj hk).symm, hi, ht⟩
  · intro h
    cases h with
    | inl h => exact h.append _
    | inr h =>
      obtain ⟨rfl, rfl, rfl⟩ := h
      refine ⟨s.length, ?_, ?_, ?_⟩
      · rw [List.getElem?_append_right le_rfl, Nat.sub_self]
        rfl
      · rw [List.take_left]
      · rw [List.take_left]

theorem not_at_nil : ¬At [] e i t := by
  intro ⟨k, hk, _⟩
  cases hk

/-- The lines that are left out are at consecutive numbers. -/
theorem at_append_same {l : List Text} : (∃ line, At (s ++ l.map Edit.same) (.same line) i t) ↔
    (∃ line, At s (.same line) i t) ∨
      (references s).length < i ∧ i ≤ (references s).length + l.length ∧
        t = (targets s).length + (i - (references s).length) := by
  induction l using List.reverseRecOn with
  | nil =>
    rw [List.map_nil, List.append_nil, List.length_nil]
    exact ⟨.inl, fun h => h.resolve_right fun h => by omega⟩
  | append_singleton l line ih =>
    rw [List.map_append, ← List.append_assoc, List.length_append, List.length_singleton]
    simp only [List.map_cons, List.map_nil, at_concat, Edit.same.injEq, exists_or, exists_and_right, exists_eq, true_and,
      ih, references_append, targets_append, references_same, targets_same, List.length_append]
    rw [or_assoc]
    refine or_congr_right ⟨fun h => by omega, fun h => by omega⟩

theorem getElem?_filterMap_take {f : Edit → Option Text} {k : ℕ} (hk : s[k]? = some e) (he : f e = some line) :
    (s.filterMap f)[((s.take k).filterMap f).length]? = some line := by
  obtain ⟨hlt, rfl⟩ := List.getElem?_eq_some_iff.1 hk
  have hs : (s.take k ++ s[k] :: s.drop (k + 1)).filterMap f =
      (s.take k).filterMap f ++ line :: (s.drop (k + 1)).filterMap f := by
    rw [List.filterMap_append, List.filterMap_cons_some he]
  rw [List.cons_getElem_drop_succ, List.take_append_drop] at hs
  rw [hs, List.getElem?_append_right le_rfl, Nat.sub_self]
  rfl

theorem At.reference (h : At s e i t) (he : e.reference = some line) :
    ∃ k : ℕ, i = k + 1 ∧ (references s)[k]? = some line := by
  obtain ⟨k, hk, hi, -⟩ := h
  exact ⟨_, hi, getElem?_filterMap_take hk he⟩

theorem At.target (h : At s e i t) (he : e.target = some line) : ∃ k : ℕ, t = k + 1 ∧ (targets s)[k]? = some line := by
  obtain ⟨k, hk, -, ht⟩ := h
  exact ⟨_, ht, getElem?_filterMap_take hk he⟩

theorem At.bounds (h : At s (.same line) i t) : 1 ≤ i ∧ i ≤ (references s).length := by
  obtain ⟨k, hi, hget⟩ := h.reference rfl
  have hlt := (List.getElem?_eq_some_iff.1 hget).1
  omega

theorem references_take_lt {j k : ℕ} (hj : s[j]? = some e) (he : e.reference = some line) (hjk : j < k) :
    (references (s.take j)).length < (references (s.take k)).length := by
  have htake : s.take (j + 1) <+: s.take k := List.take_prefix_take_left hjk
  have hle : (references (s.take (j + 1))).length ≤ (references (s.take k)).length :=
    (htake.sublist.filterMap Edit.reference).length_le
  rw [List.take_add_one, hj, references_append, List.length_append] at hle
  have hone : (references (some e).toList).length = 1 := by
    show (List.filterMap Edit.reference [e]).length = 1
    rw [List.filterMap_cons_some he]
    rfl
  omega

/-- A line number of the reference version is that of one line. -/
theorem At.unique {line' : Text} {t' : ℤ} (h : At s e i t) (h' : At s e' i t') (he : e.reference = some line)
    (he' : e'.reference = some line') : e = e' := by
  obtain ⟨j, hj, hi, -⟩ := h
  obtain ⟨k, hk, hi', -⟩ := h'
  have hjk : j = k := by
    by_contra hne
    cases Nat.lt_or_gt_of_ne hne with
    | inl hlt =>
      have := references_take_lt hj he hlt
      omega
    | inr hlt =>
      have := references_take_lt hk he' hlt
      omega
  subst hjk
  rw [hj] at hk
  exact Option.some.inj hk

/-! ### The loop -/

theorem get?_assign (line_targetline : Table ℤ ℤ) (i t : ℤ) (n : ℕ) (k : ℤ) :
    (assign line_targetline i t n).get? k =
      if i ≤ k ∧ k < i + n then some (t + (k - i)) else line_targetline.get? k := by
  induction n generalizing line_targetline i t with
  | zero =>
    rw [if_neg (by omega)]
    rfl
  | succ n ih =>
    show (assign (line_targetline.set i t) (i + 1) (t + 1) n).get? k = _
    rw [ih, Table.get?_set]
    by_cases hk : k = i
    · subst hk
      rw [if_neg (by omega), if_pos rfl, if_pos (by omega), sub_self, add_zero]
    · rw [if_neg hk]
      by_cases hin : i + 1 ≤ k ∧ k < i + 1 + n
      · rw [if_pos hin, if_pos (by omega)]
        congr 1
        omega
      · rw [if_neg hin, if_neg (by omega)]

variable {d : UnifiedDiff} {before after body : List Edit} {s : Counters}

/-- What the loop keeps: the lines up to the current one are mapped.  After the last line of the reference version the
counters are wrong if it has no newline, and those of an empty target version are never right. -/
structure Inv (d : UnifiedDiff) (before : List Edit) (s : Counters) : Prop where
  mapped : ∀ i t : ℤ, i ≤ (references d.edits).length →
    (s.line_targetline.get? i = some t ↔ ∃ line, At before (.same line) i t)
  place : s.currentline_R = (references before).length ∧
      (s.currentline_T = (targets before).length ∨ targets d.edits = []) ∨
    (references d.edits).length < s.currentline_R ∧ (references before).length = (references d.edits).length

theorem matchLine_deleted (s : Counters) (line : Text) :
    matchLine s ('-' :: line) = some { s with currentline_R := s.currentline_R + 1 } := rfl

theorem matchLine_added (s : Counters) (line : Text) :
    matchLine s ('+' :: line) = some { s with currentline_T := s.currentline_T + 1 } := rfl

theorem matchLine_context (s : Counters) (c : Char) (line : Text) (hat : c ≠ '@') (hminus : c ≠ '-') (hplus : c ≠ '+') :
    matchLine s (c :: line) = some ⟨s.currentline_R + 1, s.currentline_T + 1,
      s.line_targetline.set (s.currentline_R + 1) (s.currentline_T + 1)⟩ := by
  have hstarts : ∀ (c' : Char) (start : Text), c ≠ c' → startswith (c' :: start) (c :: line) = false := by
    intro c' start hne
    show (c' == c && start.isPrefixOf line) = false
    rw [beq_false_of_ne hne.symm, Bool.false_and]
  unfold matchLine
  rw [if_neg, if_neg, if_neg]
  · rw [show "+".toList = ['+'] from rfl, hstarts '+' [] hplus]
    exact Bool.false_ne_true
  · rw [show "-".toList = ['-'] from rfl, hstarts '-' [] hminus]
    exact Bool.false_ne_true
  · rw [show "@@".toList = ['@', '@'] from rfl, hstarts '@' ['@'] hat]
    exact Bool.false_ne_true

theorem references_length (hd : d.edits = before ++ e :: after) : (references d.edits).length =
    (references before).length + (references [e]).length + (references after).length := by
  rw [hd, references_append, List.length_append, ← List.singleton_append, references_append, List.length_append,
    Nat.add_assoc]

/-- The line of the difference that is read first for a line of the versions. -/
theorem sign_spec (h : Inv d before s) (hd : d.edits = before ++ e :: after) (line : Text) :
    ∃ s', matchLine s (e.sign :: line) = some s' ∧ Inv d (before ++ [e]) s' := by
  have hlen := references_length hd
  cases e with
  | same l =>
    have hlen1 : (references [Edit.same l]).length = 1 := rfl
    have hne : targets d.edits ≠ [] := by
      rw [hd, targets_append]
      exact List.append_ne_nil_of_right_ne_nil _ (List.cons_ne_nil l _)
    have hplace : s.currentline_R = (references before).length ∧ s.currentline_T = (targets before).length := by
      obtain ⟨hR, hT | hT⟩ | ⟨-, hR⟩ := h.place
      · exact ⟨hR, hT⟩
      · exact absurd hT hne
      · omega
    refine ⟨_, matchLine_context s ' ' line (by decide) (by decide) (by decide), ?_, .inl ⟨?_, .inl ?_⟩⟩
    · intro i t hi
      rw [Table.get?_set, hplace.1, hplace.2]
      simp only [at_concat, Edit.same.injEq, exists_or, exists_and_right, exists_eq, true_and]
      by_cases hk : i = (references before).length + 1
      · rw [if_pos hk, Option.some.injEq]
        constructor
        · intro ht
          exact .inr ⟨hk, ht.symm⟩
        · intro hat
          cases hat with
          | inl hat =>
            obtain ⟨l', hat⟩ := hat
            have := hat.bounds
            omega
          | inr hat => exact hat.2.symm
      · rw [if_neg hk, h.mapped i t hi]
        exact ⟨.inl, fun hat => hat.resolve_right fun hat => hk hat.1⟩
    · show s.currentline_R + 1 = _
      rw [references_append, List.length_append, hlen1, hplace.1]
      rfl
    · show s.currentline_T + 1 = _
      rw [targets_append, List.length_append, hplace.2]
      rfl
  | deleted l =>
    have hlen1 : (references [Edit.deleted l]).length = 1 := rfl
    obtain ⟨hR, hT⟩ : s.currentline_R = (references before).length ∧
        (s.currentline_T = (targets before).length ∨ targets d.edits = []) :=
      h.place.resolve_right fun hR => by omega
    refine ⟨_, matchLine_deleted s line, ?_, .inl ⟨?_, ?_⟩⟩
    · intro i t hi
      simp only [at_concat, reduceCtorEq, false_and, or_false]
      exact h.mapped i t hi
    · show s.currentline_R + 1 = _
      rw [references_append, List.length_append, hlen1, hR]
      rfl
    · rw [targets_append]
      show s.currentline_T = ((targets before ++ []).length : ℤ) ∨ _
      rw [List.append_nil]
      exact hT
  | added l =>
    have hnil : references (before ++ [Edit.added l]) = references before := by
      rw [references_append]
      exact List.append_nil _
    refine ⟨_, matchLine_added s line, ?_, ?_⟩
    · intro i t hi
      simp only [at_concat, reduceCtorEq, false_and, or_false]
      exact h.mapped i t hi
    · have hne : targets d.edits ≠ [] := by
        rw [hd, targets_append]
        exact List.append_ne_nil_of_right_ne_nil _ (List.cons_ne_nil l _)
      rw [hnil, targets_append]
      refine h.place.imp_left fun hboth => ⟨hboth.1, .inl ?_⟩
      show s.currentline_T + 1 = _
      rw [hboth.2.resolve_right hne, List.length_append]
      rfl

/-- After the last line of the reference version the line that is not part of the versions does no harm. -/
theorem noNewline_spec (h : Inv d before s) (hlast : (references before).length = (references d.edits).length) :
    ∃ s', matchLine s (trim "\\ No newline at end of file\n".toList) = some s' ∧ Inv d before s' := by
  have hR : (references d.edits).length < s.currentline_R + 1 := by
    obtain ⟨hR, -⟩ | ⟨hR, -⟩ := h.place
    · omega
    · omega
  refine ⟨_, matchLine_context s '\\' " No newline at end of file".toList (by decide) (by decide) (by decide), ?_, .inr ⟨hR, hlast⟩⟩
  intro i t hi
  rw [Table.get?_set, if_neg (by omega), h.mapped i t hi]

theorem edit_spec (after : List Edit) (wf : d.WellFormed) (h : Inv d before s) (hd : d.edits = before ++ e :: after) :
    ∃ s', (trim_lines e.lines).foldlM matchLine s = some s' ∧ Inv d (before ++ [e]) s' := by
  have hsign : e.sign ≠ '\n' := by
    cases e with
    | same l => exact (by decide : ' ' ≠ '\n')
    | deleted l => exact (by decide : '-' ≠ '\n')
    | added l => exact (by decide : '+' ≠ '\n')
  unfold Edit.lines
  split
  · obtain ⟨line', hline'⟩ := trim_cons hsign e.line
    obtain ⟨s', hs', hinv⟩ := sign_spec h hd line'
    refine ⟨s', ?_, hinv⟩
    show (matchLine s (trim (e.sign :: e.line))).bind _ = some s'
    rw [hline', hs']
    rfl
  · rename_i hnewline
    obtain ⟨s', hs', hinv⟩ := sign_spec h hd e.line
    have hlast : (references (before ++ [e])).length = (references d.edits).length := by
      have hnil : references after = [] := references_eq_nil.2 (wf.newline before e after hd hnewline)
      rw [references_length hd, hnil, references_append, List.length_append]
      rfl
    obtain ⟨s'', hs'', hinv'⟩ := noNewline_spec hinv hlast
    refine ⟨s'', ?_, hinv'⟩
    show (matchLine s (trim (e.sign :: e.line ++ "\n".toList))).bind _ = some s''
    rw [trim_newline, hs', Option.bind_some]
    rw [List.map_cons, List.foldlM_cons, hs'']
    rfl

theorem body_spec (body after : List Edit) (wf : d.WellFormed) (h : Inv d before s)
    (hd : d.edits = before ++ body ++ after) :
    ∃ s', (trim_lines (body.flatMap Edit.lines)).foldlM matchLine s = some s' ∧ Inv d (before ++ body) s' := by
  induction body generalizing before s with
  | nil =>
    rw [List.append_nil]
    exact ⟨s, rfl, h⟩
  | cons e body ih =>
    obtain ⟨s', hs', hinv⟩ := edit_spec (body ++ after) wf h (by rw [hd, List.append_assoc, List.cons_append])
    obtain ⟨s'', hs'', hinv'⟩ := ih hinv (by
      rw [hd, List.append_assoc before [e], List.singleton_append])
    rw [List.append_assoc, List.singleton_append] at hinv'
    refine ⟨s'', ?_, hinv'⟩
    rw [trim_lines, List.flatMap_cons, List.map_append, List.foldlM_append]
    show ((trim_lines e.lines).foldlM matchLine s).bind _ = some s''
    rw [hs']
    exact hs''

/-! ### Hunks -/

theorem startswith_header (R T : ℕ) (h : Hunk) : startswith "@@".toList (trim (h.header R T)) = true := by
  unfold Hunk.header
  rw [trim_newline]
  rfl

/-- A hunk has lines of both versions, unless one of them is empty. -/
structure Hunk.Full (d : UnifiedDiff) (h : Hunk) : Prop where
  reference : (references h.body).length ≠ 0
  target : (targets h.body).length ≠ 0 ∨ targets d.edits = []
  counted : (references h.body).length ≠ 1 ∧ (targets h.body).length ≠ 1

theorem hunk_full (wf : d.WellFormed) (counted : d.Counted) (href : references d.edits ≠ []) :
    ∀ h ∈ d.hunks, h.Full d := by
  intro h hmem
  obtain ⟨before, after, hd⟩ := List.append_of_mem hmem
  have full_of_same : ∀ line, Edit.same line ∈ h.body → h.Full d := by
    intro line hline
    have hR : line ∈ references h.body := List.mem_filterMap.2 ⟨_, hline, rfl⟩
    have hT : line ∈ targets h.body := List.mem_filterMap.2 ⟨_, hline, rfl⟩
    exact ⟨(List.length_pos_of_mem hR).ne', .inl (List.length_pos_of_mem hT).ne', counted h hmem⟩
  by_cases hbefore : before ≠ [] ∨ h.skipped ≠ []
  · obtain ⟨line, body, hbody⟩ := wf.begins before h after hd hbefore
    exact full_of_same line (hbody ▸ List.mem_cons_self)
  · by_cases hafter : after ≠ [] ∨ d.rest ≠ []
    · obtain ⟨line, body, hbody⟩ := wf.ends before h after hd hafter
      exact full_of_same line (hbody ▸ List.mem_append_right _ List.mem_cons_self)
    · rw [not_or, not_not, not_not] at hbefore hafter
      have hedits : d.edits = h.body := by
        rw [UnifiedDiff.edits, hd, hbefore.1, hafter.1, hafter.2, List.nil_append, List.flatMap_singleton, Hunk.edits,
          hbefore.2, List.map_nil, List.nil_append, List.append_nil]
      rw [hedits] at href
      refine ⟨fun h => href (List.length_eq_zero_iff.1 h), ?_, counted h hmem⟩
      rw [hedits, ← List.length_eq_zero_iff]
      exact (Decidable.em _).symm

/-- **A header of a hunk sets the counters and maps the lines that are left out before it.** -/
theorem matchLine_header {h : Hunk} (after : List Edit) (hfull : h.Full d) (hinv : Inv d before s)
    (hd : d.edits = before ++ h.skipped.map Edit.same ++ (h.body ++ after)) :
    ∃ s', matchLine s (trim (h.header (references before).length (targets before).length)) = some s' ∧
      Inv d (before ++ h.skipped.map Edit.same) s' := by
  have hlen : (references d.edits).length = (references before).length + h.skipped.length +
      ((references h.body).length + (references after).length) := by
    rw [hd]
    simp only [references_append, List.length_append, references_same]
  have hRbody := hfull.reference
  obtain ⟨hR, hT⟩ : s.currentline_R = (references before).length ∧
      (s.currentline_T = (targets before).length ∨ targets d.edits = []) :=
    hinv.place.resolve_right fun hR => by omega
  have hskipped : targets d.edits = [] → h.skipped.length = 0 := by
    intro hnil
    rw [hd, targets_append, targets_append, targets_same, List.append_eq_nil_iff, List.append_eq_nil_iff] at hnil
    rw [hnil.1.2, List.length_nil]
  have hnat : (((references before).length + h.skipped.length + 1 : ℕ) - 1 - s.currentline_R : ℤ).toNat =
      h.skipped.length := by
    omega
  unfold matchLine
  rw [if_pos (startswith_header _ _ h), headNumbers_header _ _ hfull.counted.1 hfull.counted.2, if_neg hRbody]
  refine ⟨_, rfl, ?_, .inl ⟨?_, ?_⟩⟩
  · intro i t hi
    show (assign _ _ _ _).get? i = some t ↔ _
    rw [get?_assign, hnat, at_append_same, hR]
    by_cases hin : (references before).length + 1 ≤ i ∧ i < (references before).length + 1 + h.skipped.length
    · have hT' : s.currentline_T = (targets before).length := by
        refine hT.resolve_right fun hnil => ?_
        have := hskipped hnil
        omega
      rw [if_pos hin, hT', Option.some.injEq]
      constructor
      · intro ht
        exact .inr ⟨by omega, by omega, by omega⟩
      · intro hat
        cases hat with
        | inl hat =>
          obtain ⟨line, hat⟩ := hat
          have := hat.bounds
          omega
        | inr hat => omega
    · rw [if_neg hin, hinv.mapped i t hi]
      exact ⟨.inl, fun hat => hat.resolve_right fun hat => hin ⟨by omega, by omega⟩⟩
  · rw [references_append, List.length_append, references_same]
    show (((references before).length + h.skipped.length + 1 : ℕ) - 1 : ℤ) = _
    omega
  · rw [targets_append, List.length_append, targets_same]
    refine hfull.target.imp_left fun hTbody => ?_
    rw [if_neg hTbody]
    show (((targets before).length + h.skipped.length + 1 : ℕ) - 1 : ℤ) = _
    omega

/-- **The loop maps the unchanged lines up to the end of the last hunk.** -/
theorem hunks_spec (after : List Edit) (wf : d.WellFormed) {hs : List Hunk} (hfull : ∀ h ∈ hs, h.Full d) (hinv : Inv d before s)
    (hd : d.edits = before ++ hs.flatMap Hunk.edits ++ after) :
    ∃ s', (trim_lines (hunkLines (references before).length (targets before).length hs)).foldlM matchLine s = some s' ∧
      Inv d (before ++ hs.flatMap Hunk.edits) s' := by
  induction hs generalizing before s with
  | nil =>
    rw [List.flatMap_nil, List.append_nil]
    exact ⟨s, rfl, hinv⟩
  | cons h hs ih =>
    rw [List.flatMap_cons] at hd ⊢
    obtain ⟨s₁, hs₁, hinv₁⟩ := matchLine_header (hs.flatMap Hunk.edits ++ after)
      (hfull h List.mem_cons_self) hinv (by rw [hd, Hunk.edits]; simp only [List.append_assoc])
    obtain ⟨s₂, hs₂, hinv₂⟩ := body_spec h.body (hs.flatMap Hunk.edits ++ after) wf hinv₁ (by
      rw [hd, Hunk.edits]
      simp only [List.append_assoc])
    rw [List.append_assoc before, ← Hunk.edits] at hinv₂
    obtain ⟨s₃, hs₃, hinv₃⟩ := ih (fun h' hh' => hfull h' (List.mem_cons_of_mem h hh')) hinv₂ (by
      rw [hd]
      simp only [List.append_assoc])
    rw [List.append_assoc] at hinv₃
    refine ⟨s₃, ?_, hinv₃⟩
    rw [references_append, targets_append, List.length_append, List.length_append] at hs₃
    rw [hunkLines, trim_lines, List.map_cons, List.map_append, List.foldlM_cons, hs₁]
    show List.foldlM matchLine s₁ (_ ++ _) = some s₃
    rw [List.foldlM_append]
    show ((trim_lines (h.body.flatMap Edit.lines)).foldlM matchLine s₁).bind _ = some s₃
    rw [hs₂]
    exact hs₃

/-- The last loop maps what is left, but for the last line of the file. -/
theorem assign_rest (wf : d.WellFormed) (hne : d.hunks ≠ []) (hinv : Inv d (d.hunks.flatMap Hunk.edits) s) {i t : ℤ}
    (hi : i ≤ (references d.edits).length) :
    (assign s.line_targetline s.currentline_R s.currentline_T
      ((references d.edits).length - s.currentline_R).toNat).get? i = some t ↔
      (∃ line, At d.edits (.same line) i t) ∧ (i < (references d.edits).length ∨ d.rest = []) := by
  have hlen : (references d.edits).length = (references (d.hunks.flatMap Hunk.edits)).length + d.rest.length := by
    rw [UnifiedDiff.edits, references_append, List.length_append, references_same]
  rw [get?_assign, UnifiedDiff.edits, at_append_same, ← UnifiedDiff.edits]
  by_cases hrest : d.rest = []
  · have hzero : d.rest.length = 0 := by
      rw [hrest, List.length_nil]
    have hplace : (references d.edits).length ≤ s.currentline_R := by
      obtain ⟨hR, -⟩ | ⟨hR, -⟩ := hinv.place
      · omega
      · omega
    rw [if_neg (by omega), hinv.mapped i t hi]
    exact ⟨fun hat => ⟨.inl hat, .inr hrest⟩, fun hat => hat.1.resolve_right fun hat => by omega⟩
  · have hpos : d.rest.length ≠ 0 := fun h => hrest (List.length_eq_zero_iff.1 h)
    have htgt : targets d.edits ≠ [] := by
      rw [UnifiedDiff.edits, targets_append, targets_same]
      exact List.append_ne_nil_of_right_ne_nil _ hrest
    obtain ⟨hR, hT⟩ : s.currentline_R = (references (d.hunks.flatMap Hunk.edits)).length ∧
        s.currentline_T = (targets (d.hunks.flatMap Hunk.edits)).length := by
      obtain ⟨hR, hT⟩ | ⟨-, hR⟩ := hinv.place
      · exact ⟨hR, hT.resolve_right htgt⟩
      · omega
    -- the last line of the last hunk is mapped a second time, to the same line
    obtain ⟨line, hlast⟩ : ∃ line, At (d.hunks.flatMap Hunk.edits) (.same line)
        (references (d.hunks.flatMap Hunk.edits)).length (targets (d.hunks.flatMap Hunk.edits)).length := by
      have hhunks : d.hunks = d.hunks.dropLast ++ d.hunks.getLast hne :: [] := (List.dropLast_append_getLast hne).symm
      obtain ⟨line, body, hbody⟩ := wf.ends _ _ _ hhunks (.inr hrest)
      refine ⟨line, ?_⟩
      rw [hhunks, List.flatMap_append, List.flatMap_singleton, Hunk.edits, hbody, ← List.append_assoc, ← List.append_assoc,
        at_concat]
      right
      rw [references_append, targets_append, List.length_append, List.length_append]
      exact ⟨rfl, rfl, rfl⟩
    by_cases hin : s.currentline_R ≤ i ∧ i < s.currentline_R + ((references d.edits).length - s.currentline_R).toNat
    · rw [if_pos hin, Option.some.injEq]
      constructor
      · intro ht
        refine ⟨?_, .inl (by omega)⟩
        by_cases hk : i = (references (d.hunks.flatMap Hunk.edits)).length
        · have ht' : t = (targets (d.hunks.flatMap Hunk.edits)).length := by omega
          rw [hk, ht']
          exact .inl ⟨line, hlast⟩
        · exact .inr ⟨by omega, by omega, by omega⟩
      · rintro ⟨hat, -⟩
        cases hat with
        | inl hat =>
          have hbounds := hat.choose_spec.bounds
          have hk : i = (references (d.hunks.flatMap Hunk.edits)).length := by omega
          have htwo := (hinv.mapped i t hi).2 hat
          rw [hk, (hinv.mapped _ _ (hk ▸ hi)).2 ⟨line, hlast⟩, Option.some.injEq] at htwo
          omega
        | inr hat => omega
    · rw [if_neg hin, hinv.mapped i t hi]
      constructor
      · intro hat
        have hbounds := hat.choose_spec.bounds
        exact ⟨.inl hat, .inl (by omega)⟩
      · intro ⟨hat, hlt⟩
        have hlt := hlt.resolve_right hrest
        exact hat.resolve_right fun hat => by omega

/-! ### What is kept -/

theorem index_trim_lines {buf : List Text} {k : ℕ} (h : buf[k]? = some line) :
    index (trim_lines buf) ((k + 1 : ℤ) - 1) = some (trim line) := by
  unfold index
  rw [if_pos (by omega), add_sub_cancel_right, Int.toNat_natCast]
  show (buf.map trim)[k]? = _
  rw [List.getElem?_map, h]
  rfl

/-- The texts of an unchanged line are the same, so it is kept unless it is blank. -/
theorem keep_same (h : At d.edits (.same line) i t) :
    keep (trim_lines (references d.edits)) (trim_lines (targets d.edits)) i t =
      some (if (trim line).length = 0 then none else some t) := by
  have hbounds := h.bounds
  obtain ⟨k, rfl, hk⟩ := h.reference rfl
  obtain ⟨k', rfl, hk'⟩ := h.target rfl
  unfold keep
  rw [if_neg, index_trim_lines hk, index_trim_lines hk']
  · show (if (trim line).length = 0 then _ else (if trim line ≠ trim line then _ else _)) = _
    rw [if_neg (not_not.2 rfl)]
    split
    · rfl
    · rfl
  · rw [trim_lines, List.length_map]
    omega

theorem keep_outside {s_buf1 s_buf2 : List Text} (h : s_buf1.length < i) : keep s_buf1 s_buf2 i t = some none := by
  unfold keep
  rw [if_pos h]

theorem start_inv (d : UnifiedDiff) : Inv d [] ⟨0, 0, Table.empty⟩ where
  mapped := by
    intro i t _
    rw [Table.get?_empty]
    exact ⟨fun h => absurd h (Option.some_ne_none t).symm, fun ⟨_, h⟩ => absurd h not_at_nil⟩
  place := .inl ⟨rfl, .inl rfl⟩

theorem startswith_of_trim {start : Text} (h : startswith start (trim line) = true) : startswith start line = true := by
  have htrim : trim line <+: line := by
    unfold trim
    split
    · exact List.dropLast_prefix line
    · exact List.prefix_refl line
  exact List.isPrefixOf_iff_prefix.2 ((List.isPrefixOf_iff_prefix.1 h).trans htrim)

/-- The loop begins at the first header. -/
theorem dropWhile_lines (wf : d.WellFormed) (hne : d.hunks ≠ []) :
    ((trim_lines d.lines).dropWhile fun line => !startswith "@@".toList line) = trim_lines (hunkLines 0 0 d.hunks) := by
  have hpreamble : ∀ line ∈ trim_lines d.preamble, (!startswith "@@".toList line) = true := by
    intro line hline
    obtain ⟨line, hmem, rfl⟩ := List.mem_map.1 hline
    rw [Bool.not_eq_true', ← Bool.not_eq_true]
    intro hstarts
    exact absurd (startswith_of_trim hstarts) (Bool.not_eq_true _ ▸ wf.preamble line hmem)
  unfold UnifiedDiff.lines
  rw [if_neg hne, trim_lines, List.map_append]
  refine (List.dropWhile_append_of_pos hpreamble).trans ?_
  cases hhunks : d.hunks with
  | nil => exact absurd hhunks hne
  | cons h hs =>
    rw [hunkLines, List.map_cons, List.dropWhile_cons_of_neg]
    · rfl
    · rw [startswith_header]
      exact Bool.false_ne_true

theorem lines_ne_nil (hne : d.hunks ≠ []) : d.lines.length ≠ 0 := by
  unfold UnifiedDiff.lines
  rw [if_neg hne]
  cases hhunks : d.hunks with
  | nil => exact absurd hhunks hne
  | cons h hs =>
    rw [hunkLines, List.length_append, List.length_cons]
    omega

/-- Without a hunk every line is mapped to the line with its number. -/
theorem get_matchedlines_git_of_same (hnil : d.hunks = []) :
    ∃ m, get_matchedlines_git d.lines (references d.edits) (targets d.edits) = some m ∧
      ∀ i t, m.get? i = some t ↔ ∃ line, At d.edits (.same line) i t := by
  have hedits : d.edits = [] ++ d.rest.map Edit.same := by
    unfold UnifiedDiff.edits
    rw [hnil]
    rfl
  have hlines : d.lines.length = 0 := by
    unfold UnifiedDiff.lines
    rw [if_pos hnil]
    rfl
  unfold get_matchedlines_git
  rw [if_pos hlines]
  refine ⟨_, rfl, ?_⟩
  intro i t
  rw [get?_assign, hedits, at_append_same, references_append, references_same]
  show (if 1 ≤ i ∧ i < 1 + (d.rest.length : ℤ) then some (1 + (i - 1)) else none) = some t ↔
    (∃ line, At [] (Edit.same line) i t) ∨ (0 : ℤ) < i ∧ i ≤ 0 + (d.rest.length : ℤ) ∧ t = 0 + (i - 0)
  constructor
  · intro h
    split at h
    · have := Option.some.inj h
      exact .inr (by omega)
    · cases h
  · intro h
    have h := h.resolve_left fun ⟨_, h⟩ => not_at_nil h
    rw [if_pos (by omega)]
    congr 1
    omega

/-- What the last loop keeps of the entries. -/
theorem kept_entries {line_targetline : Table ℤ ℤ}
    (h : ∀ i t : ℤ, i ≤ (references d.edits).length → (line_targetline.get? i = some t ↔
      (∃ line, At d.edits (.same line) i t) ∧ (i < (references d.edits).length ∨ d.rest = []))) :
    ∃ kept, line_targetline.mapM (keep (trim_lines (references d.edits)) (trim_lines (targets d.edits))) = some kept ∧
      ∀ i t, (kept.filterMap fun _ t => t).get? i = some t ↔ ∃ line, At d.edits (.same line) i t ∧ trim line ≠ [] ∧
        (i < (references d.edits).length ∨ d.rest = []) := by
  have houtside : ∀ i t : ℤ, (references d.edits).length < i →
      keep (trim_lines (references d.edits)) (trim_lines (targets d.edits)) i t = some none := by
    intro i t hi
    refine keep_outside ?_
    rwa [trim_lines, List.length_map]
  refine ⟨_, Table.mapM_eq_some ?_, ?_⟩
  · intro i t hget
    by_cases hi : (references d.edits).length < i
    · rw [houtside i t hi]
      rfl
    · obtain ⟨⟨line, hat⟩, -⟩ := (h i t (by omega)).1 hget
      rw [keep_same hat]
      rfl
  · intro i t
    simp only [Table.get?_filterMap, Option.bind_eq_some_iff]
    constructor
    · rintro ⟨kept, ⟨t', hget, hkeep⟩, rfl⟩
      by_cases hi : (references d.edits).length < i
      · rw [houtside i t' hi] at hkeep
        cases hkeep
      · obtain ⟨⟨line, hat⟩, hlast⟩ := (h i t' (by omega)).1 hget
        rw [keep_same hat] at hkeep
        by_cases hblank : (trim line).length = 0
        · rw [if_pos hblank] at hkeep
          cases hkeep
        · rw [if_neg hblank] at hkeep
          cases hkeep
          exact ⟨line, hat, fun h => hblank (List.length_eq_zero_iff.2 h), hlast⟩
    · rintro ⟨line, hat, hblank, hlast⟩
      have hbounds := hat.bounds
      refine ⟨some t, ⟨t, (h i t hbounds.2).2 ⟨⟨line, hat⟩, hlast⟩, ?_⟩, rfl⟩
      rw [keep_same hat, if_neg fun h => hblank (List.length_eq_zero_iff.1 h)]

theorem get_matchedlines_git_of_hunks (wf : d.WellFormed) (hfull : ∀ h ∈ d.hunks, h.Full d) (hne : d.hunks ≠ []) :
    ∃ m, get_matchedlines_git d.lines (references d.edits) (targets d.edits) = some m ∧
      ∀ i t, m.get? i = some t ↔ ∃ line, At d.edits (.same line) i t ∧ trim line ≠ [] ∧
        (i < (references d.edits).length ∨ d.rest = []) := by
  obtain ⟨s, hs, hinv⟩ := hunks_spec (d.rest.map Edit.same) wf hfull (start_inv d) rfl
  rw [List.nil_append] at hinv
  obtain ⟨kept, hkept, hget⟩ := kept_entries fun i t hi => assign_rest wf hne hinv hi
  have hlen : (trim_lines (references d.edits)).length = (references d.edits).length := List.length_map _
  have hempty : (trim_lines (hunkLines 0 0 d.hunks)).isEmpty = false := by
    cases hhunks : d.hunks with
    | nil => exact absurd hhunks hne
    | cons h hs => rfl
  refine ⟨_, ?_, hget⟩
  unfold get_matchedlines_git
  rw [if_neg (lines_ne_nil hne)]
  simp only [dropWhile_lines wf hne, hlen, hempty, Bool.false_eq_true, if_false]
  refine (Option.bind_eq_some_iff.2 ⟨s, hs, ?_⟩)
  exact Option.bind_eq_some_iff.2 ⟨kept, hkept, rfl⟩

/-- **The lines that are mapped.**  For a difference whose headers have all their numbers, and a reference version that is
not empty, every line that is mapped is unchanged and is mapped to its number in the target version; and every unchanged
line is mapped, unless it is blank, or is the last one of the file and not in a hunk. -/
theorem get_matchedlines_git_exact (wf : d.WellFormed) (counted : d.Counted)
    (href : references d.edits = [] → d.hunks = []) :
    ∃ m, get_matchedlines_git d.lines (references d.edits) (targets d.edits) = some m ∧
      (∀ i t, m.get? i = some t → ∃ line, At d.edits (.same line) i t) ∧
      (∀ line i t, At d.edits (.deleted line) i t → m.get? i = none) ∧
      ∀ line i t, At d.edits (.same line) i t →
        d.hunks = [] ∨ trim line ≠ [] ∧ (i < (references d.edits).length ∨ d.rest = []) → m.get? i = some t := by
  obtain ⟨m, hm, hsound, hcomplete⟩ : ∃ m, get_matchedlines_git d.lines (references d.edits) (targets d.edits) = some m ∧
      (∀ i t, m.get? i = some t → ∃ line, At d.edits (.same line) i t) ∧
      ∀ line i t, At d.edits (.same line) i t →
        d.hunks = [] ∨ trim line ≠ [] ∧ (i < (references d.edits).length ∨ d.rest = []) → m.get? i = some t := by
    by_cases hne : d.hunks = []
    · obtain ⟨m, hm, hget⟩ := get_matchedlines_git_of_same hne
      exact ⟨m, hm, fun i t => (hget i t).1, fun line i t hat _ => (hget i t).2 ⟨line, hat⟩⟩
    · obtain ⟨m, hm, hget⟩ := get_matchedlines_git_of_hunks wf (hunk_full wf counted fun h => hne (href h)) hne
      refine ⟨m, hm, ?_, ?_⟩
      · intro i t h
        obtain ⟨line, hat, -⟩ := (hget i t).1 h
        exact ⟨line, hat⟩
      · intro line i t hat h
        exact (hget i t).2 ⟨line, hat, h.resolve_left hne⟩
  refine ⟨m, hm, hsound, ?_, hcomplete⟩
  intro line i t hdeleted
  cases hget : m.get? i with
  | none => rfl
  | some t' =>
    obtain ⟨line', hsame⟩ := hsound i t' hget
    exact absurd (hdeleted.unique hsame rfl rfl) (by intro h; cases h)

/-! ### A blank line -/

/-- Every unchanged line is mapped to its number in the target version, and no deleted line is mapped. -/
def Maps (d : UnifiedDiff) : Prop :=
  ∃ m, get_matchedlines_git d.lines (references d.edits) (targets d.edits) = some m ∧
    (∀ line i t, At d.edits (.same line) i t → m.get? i = some t) ∧
    ∀ line i t, At d.edits (.deleted line) i t → m.get? i = none

/-- Two unchanged lines, the second one blank, and a changed one. -/
def blankLine : UnifiedDiff where
  preamble := ["--- a/f.c\n".toList, "+++ b/f.c\n".toList]
  hunks := [⟨[], [.same "a\n".toList, .same "\n".toList, .deleted "b\n".toList, .added "c\n".toList], []⟩]
  rest := []

theorem blankLine_hunks {before after : List Hunk} {h : Hunk} (hd : blankLine.hunks = before ++ h :: after) :
    before = [] ∧ h.skipped = [] ∧ after = [] := by
  obtain ⟨rfl, hcons⟩ | ⟨-, hcons⟩ := List.singleton_eq_append_iff.1 hd
  · cases hcons
    exact ⟨rfl, rfl, rfl⟩
  · cases hcons

theorem blankLine_wellFormed : blankLine.WellFormed where
  preamble := by decide
  begins := by
    intro before h after hd hskipped
    obtain ⟨rfl, hnil, -⟩ := blankLine_hunks hd
    exact absurd hnil (hskipped.resolve_left fun h => h rfl)
  ends := by
    intro before h after hd hrest
    obtain ⟨-, -, rfl⟩ := blankLine_hunks hd
    exact absurd rfl (hrest.resolve_left fun h => h rfl)
  newline := by
    intro before e after hd hline
    have hall : ∀ e ∈ blankLine.edits, e.line.getLast? = some '\n' := by
      show ∀ e ∈ [Edit.same "a\n".toList, .same "\n".toList, .deleted "b\n".toList, .added "c\n".toList], _
      simp only [List.forall_mem_cons]
      exact ⟨rfl, rfl, rfl, rfl, fun _ h => absurd h List.not_mem_nil⟩
    exact absurd (hall e (hd ▸ List.mem_append_right before List.mem_cons_self)) hline

theorem blankLine_counted : blankLine.Counted := by
  unfold UnifiedDiff.Counted
  decide

theorem blankLine_references_ne : references blankLine.edits ≠ [] := by
  decide

/-- The mapping of the difference, which has an unchanged line that is not blank. -/
theorem get_matchedlines_git_exact_blankLine :
    ∃ m, get_matchedlines_git blankLine.lines (references blankLine.edits) (targets blankLine.edits) = some m ∧
      (∀ i t, m.get? i = some t → ∃ line, At blankLine.edits (.same line) i t) ∧
      m.get? 3 = none ∧ m.get? 1 = some 1 := by
  obtain ⟨m, hm, hsound, hdeleted, hcomplete⟩ := get_matchedlines_git_exact blankLine_wellFormed blankLine_counted
    fun h => absurd h blankLine_references_ne
  refine ⟨m, hm, hsound, hdeleted "b\n".toList 3 3 ⟨2, rfl, rfl, rfl⟩, ?_⟩
  exact hcomplete "a\n".toList 1 1 ⟨0, rfl, rfl, rfl⟩ (.inr ⟨by decide, .inr rfl⟩)

/-- An unchanged line that is blank is not mapped. -/
theorem blankLine_not_maps : blankLine.WellFormed ∧ blankLine.Counted ∧ ¬Maps blankLine := by
  refine ⟨blankLine_wellFormed, blankLine_counted, ?_⟩
  rintro ⟨m, hm, hmaps, -⟩
  obtain ⟨m', hm', hget⟩ := get_matchedlines_git_of_hunks blankLine_wellFormed
    (hunk_full blankLine_wellFormed blankLine_counted blankLine_references_ne) (List.cons_ne_nil _ _)
  rw [hm] at hm'
  cases hm'
  have hblank : At blankLine.edits (.same "\n".toList) 2 2 := ⟨1, rfl, rfl, rfl⟩
  obtain ⟨line, hat, hline, -⟩ := (hget 2 2).1 (hmaps _ 2 2 hblank)
  cases hat.unique hblank rfl rfl
  exact hline rfl

end SymBisect.MatchedLines
