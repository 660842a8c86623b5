import SymBisect.HelperFunctions.CoverLine

/-!
# The call stack of the report

`check_cleancallstack_format` and `get_indirectcalls` of `helper_functions/helper.py`.  A line of the call stack is a function
and a source line; the line of the callee comes before the line of its caller.  The check looks for the callee in the
coverage after the line of the caller, and in the text of that line; `get_indirectcalls` records the pairs that have no
direct call in the blocks of the line.

* `check_cleancallstack_format_iff`: the stack is accepted iff the callee of the last pair is named, in the coverage after the
  caller's line or in its text.
* `get_indirectcalls_iff`: the callee that is recorded for a line.
* `accepts_iff`: when every pair of an accepted stack is a direct call or recorded.
-/

namespace SymBisect.CallStack

open Lib PriorityList CoverLine

attribute [local instance] Text.lawfulBEq

/-! ### The coverage and the source text -/

/-- `line.split()`. -/
def words (line : Text) : List Text := (line.splitOnP Char.isWhitespace).filter fun word => !word.isEmpty

/-- `line.split(sep)` where two words are expected; another number of words is an exception. -/
def splitTwo (sep : Char) (line : Text) : Option (Text × Text) :=
  match line.splitOn sep with
  | [first, second] => some (first, second)
  | _ => none

/-- `l[i]` of a Python list. -/
def index (l : List Text) (i : ℤ) : Option Text :=
  if 0 ≤ i then l[i.toNat]? else if -(l.length : ℤ) ≤ i then l[(l.length + i).toNat]? else none

/-- The files that are read; `none` if there is no such file. -/
structure Files where
  coverlineinfo : List Text
  completecoverlineinfo : List Text
  linux_ref : Text → Option (List Text)
  bcfile : List Text
  line_BBinfo : Table Text (List Text)

/-- The loop over `j`: the function of the first line after the entry at which a call begins.  `caller_func` is the function
whose lines `get_callee_afterline_fromcompletecoverline` passes over; the other function passes over none. -/
def calleeAfter (caller_line addr : Text) (caller_func : Option Text) : List Text → Option (List Text)
  | [] => some []
  | nextline :: s_buf =>
    if addr <:+: nextline then calleeAfter caller_line addr caller_func s_buf
    else
      (words nextline)[0]?.bind fun nextaddr =>
        if caller_func.isSome ∧ (words nextline)[1]? = none then none
        else if caller_func.isSome ∧ (words nextline)[1]? = caller_func then
          calleeAfter caller_line addr caller_func s_buf
        else
          s_buf.head?.bind fun following =>
            if ¬nextaddr <:+: following ∨ caller_line <:+: following then (words nextline)[1]?.map fun func => [func]
            else calleeAfter caller_line addr caller_func s_buf

/-- The loop over `i`. -/
def calleesLoop (caller_line : Text) (caller_func : Option Text) : (beforeline : Text) → List Text → Option (List Text)
  | _, [] => some []
  | beforeline, line :: s_buf => do
    let rest ← calleesLoop caller_line caller_func line s_buf
    if caller_line <:+: line then
      let after ← calleeAfter caller_line (addrOf line) caller_func s_buf
      let before ← if addrOf beforeline = addrOf line then (beforeline.splitOn ' ')[1]?.map fun func => [func] else some []
      pure (after ++ before ++ rest)
    else pure rest

/-- `get_callee_afterline_fromcompletecoverline`. -/
def get_callee_afterline_fromcompletecoverline (i : Files) (caller_line : Text) : Option (List Text) :=
  (splitTwo ' ' caller_line).bind fun (caller_func, _) =>
    calleesLoop caller_line (some caller_func) (i.completecoverlineinfo.getLastD []) i.completecoverlineinfo

/-- `get_callee_afterline_fromcoverline`. -/
def get_callee_afterline_fromcoverline (i : Files) (caller_line : Text) : Option (List Text) :=
  (calleesLoop caller_line none (i.coverlineinfo.getLastD []) i.coverlineinfo).bind fun callee_funcs =>
    if callee_funcs = [] then get_callee_afterline_fromcompletecoverline i caller_line else some callee_funcs

/-- `check_cleancallstack_format_coverline`: `some none` is `None`. -/
def check_cleancallstack_format_coverline (i : Files) (caller callee_func : Text) : Option (Option Bool) :=
  (get_callee_afterline_fromcoverline i caller).map fun callee_funcs =>
    if callee_funcs = [] then none else some (decide (callee_func ∈ callee_funcs))

/-- `check_cleancallstack_format_src`. -/
def check_cleancallstack_format_src (i : Files) (callerline callee_func : Text) : Option (Option Bool) := do
  let (_, caller_line) ← splitTwo ' ' callerline
  let (caller_file, caller_srcnum) ← splitTwo ':' caller_line
  let s_buf ← i.linux_ref caller_file
  let num ← int caller_srcnum
  let line ← index s_buf (num - 1)
  let caller_srccode := line.dropLast
  pure (if "->".toList <:+: caller_srccode then none else some (decide (callee_func <:+: caller_srccode)))

/-- The two checks of a pair of lines. -/
def checkPair (i : Files) (callee caller : Text) : Option (Option Bool) := do
  let (callee_func, _) ← splitTwo ' ' callee.dropLast
  let coverline_checkresult ← check_cleancallstack_format_coverline i caller.dropLast callee_func
  let src_checkresult ← check_cleancallstack_format_src i caller.dropLast callee_func
  pure (if coverline_checkresult = some true then coverline_checkresult else src_checkresult)

/-- The loop over the pairs of lines. -/
def checkLoop (i : Files) : (result : Option Bool) → List Text → Option (Option Bool)
  | _, callee :: caller :: s_buf => (checkPair i callee caller).bind fun result => checkLoop i result (caller :: s_buf)
  | result, _ => some result

/-- `check_cleancallstack_format`. -/
def check_cleancallstack_format (i : Files) (s_buf : List Text) : Option (Option Bool) := checkLoop i (some true) s_buf

/-! ### Calls in the blocks -/

/-- `bcfile[index].startswith("built-in.bc-")`. -/
def isLabel (line : Text) : Bool := "built-in.bc-".toList.isPrefixOf line

/-- `"@"+callee in line and "call" in line`. -/
def hits (callee line : Text) : Prop := '@' :: callee <:+: line ∧ "call".toList <:+: line

instance (callee line : Text) : Decidable (hits callee line) := inferInstanceAs (Decidable (_ ∧ _))

/-- The loop of `Check_directcall`. -/
def directcallLoop (callee : Text) : List Text → Option Bool
  | line :: next :: bcfile =>
    if isLabel next then some false
    else if hits callee line then some true
    else directcallLoop callee (next :: bcfile)
  | _ => none

/-- The file from the first line on that starts with the name of the block. -/
def fromBlock (bcfile : List Text) (BB : Text) : List Text := bcfile.dropWhile fun line => !BB.isPrefixOf line

/-- `Check_directcall`. -/
def Check_directcall (bcfile : List Text) (BB callee : Text) : Option Bool := directcallLoop callee (fromBlock bcfile BB)

/-- The loop over the blocks of a line. -/
def directcallAny (bcfile : List Text) (callee : Text) : List Text → Option Bool
  | [] => some false
  | BB :: BBs => (Check_directcall bcfile BB callee).bind fun directcall =>
    if directcall then some true else directcallAny bcfile callee BBs

/-- The source line of a line of the call stack. -/
def lineOf (line : Text) : Option Text := (line.dropLast.splitOn ' ')[1]?

/-- The loop of `get_indirectcalls`; `indirectcalls` is the dictionary. -/
def indirectcallsLoop (i : Files) : (indirectcalls : Text → Option Text) → List Text → Option (Text → Option Text)
  | indirectcalls, callee :: caller :: s_buf =>
    (lineOf caller).bind fun callerline =>
      match i.line_BBinfo.get? callerline with
      | none => indirectcallsLoop i indirectcalls (caller :: s_buf)
      | some BBs => (directcallAny i.bcfile (addrOf callee) BBs).bind fun directcall =>
        indirectcallsLoop i
          (if directcall then indirectcalls else Function.update indirectcalls callerline (some (addrOf callee)))
          (caller :: s_buf)
  | indirectcalls, _ => some indirectcalls

/-- `get_indirectcalls`. -/
def get_indirectcalls (i : Files) (s_buf : List Text) : Option (Text → Option Text) :=
  indirectcallsLoop i (fun _ => none) s_buf

/-! ### What is asked of it -/

/-- The lines of a block: those between its label and the end of the block. -/
def blockLines (bcfile : List Text) (BB : Text) : List Text :=
  (((bcfile.dropWhile fun line => !(BB ++ [':']).isPrefixOf line).drop 1).takeWhile
    fun line => !isLabel line && line ≠ ['\n'] && line.head? ≠ some '}')

/-- The line is a call of the function with just this name. -/
def Calls (callee line : Text) : Prop := ∃ before between after,
  line = before ++ "call".toList ++ between ++ '@' :: callee ++ '(' :: after

/-- A block of the line has a direct call of the callee. -/
def Direct (i : Files) (callerline callee : Text) : Prop :=
  ∃ BBs, i.line_BBinfo.get? callerline = some BBs ∧ ∃ BB ∈ BBs, ∃ line ∈ blockLines i.bcfile BB, Calls callee line

/-- The pairs of lines of a call stack, as source line of the caller and callee. -/
def pairs : List Text → List (Text × Text)
  | callee :: caller :: s_buf =>
    (lineOf caller).toList.map (fun callerline => (callerline, addrOf callee)) ++ pairs (caller :: s_buf)
  | _ => []

/-- The adjacent lines of a call stack. -/
def adjacent (s_buf : List Text) : List (Text × Text) := s_buf.zip s_buf.tail

/-- A line that the search for the callee passes over: it has the address of the caller's line, or is of the function whose
lines are passed over, or the line that follows has its address and is not at the caller's line. -/
def PassedOver (caller_line addr : Text) (caller_func : Option Text) (line following : Text) : Prop :=
  addr <:+: line ∨ (caller_func.isSome ∧ (words line)[1]? = caller_func) ∨
    ((∃ nextaddr, (words line)[0]? = some nextaddr ∧ nextaddr <:+: following) ∧ ¬caller_line <:+: following)

/-- The first line that is not passed over is of the function. -/
def NextFunction (caller_line addr : Text) (caller_func : Option Text) (s_buf : List Text) (func : Text) : Prop :=
  ∃ passed line following rest, s_buf = passed ++ line :: following :: rest ∧
    (∀ p ∈ adjacent (passed ++ [line]), PassedOver caller_line addr caller_func p.1 p.2) ∧
    ¬PassedOver caller_line addr caller_func line following ∧ (words line)[1]? = some func

/-- The function is called in the coverage at the caller's line: the next function is that one, or the line before (the last
line before the first one) is at the same address and of that function. -/
def CalledAt (caller_line : Text) (caller_func : Option Text) (coverage : List Text) (func : Text) : Prop :=
  ∃ before line after, coverage = before ++ line :: after ∧ caller_line <:+: line ∧
    (NextFunction caller_line (addrOf line) caller_func after func ∨
      (addrOf (before.getLastD (coverage.getLastD [])) = addrOf line ∧
        ((before.getLastD (coverage.getLastD [])).splitOn ' ')[1]? = some func))

/-- The callee is called in the coverage at the caller's line; where that names no callee, in the complete coverage. -/
def NamedInCoverage (i : Files) (caller callee : Text) : Prop :=
  CalledAt caller none i.coverlineinfo callee ∨
    ((∀ func, ¬CalledAt caller none i.coverlineinfo func) ∧
      CalledAt caller (some (addrOf caller)) i.completecoverlineinfo callee)

/-- The text of the caller's line. -/
def srcText (i : Files) (callerline : Text) : Option Text := do
  let (_, caller_line) ← splitTwo ' ' callerline
  let (caller_file, caller_srcnum) ← splitTwo ':' caller_line
  let s_buf ← i.linux_ref caller_file
  let num ← int caller_srcnum
  let line ← index s_buf (num - 1)
  pure line.dropLast

/-- The text of the caller's line has the name of the callee, and no arrow. -/
def NamedInText (i : Files) (caller callee : Text) : Prop :=
  ∃ srccode, srcText i caller = some srccode ∧ ¬"->".toList <:+: srccode ∧ callee <:+: srccode

/-- The callee of the last pair is named at the line of its caller. -/
def LastNamed (i : Files) (s_buf : List Text) : Prop :=
  ∀ p, (adjacent s_buf).getLast? = some p →
    NamedInCoverage i p.2.dropLast (addrOf p.1) ∨ NamedInText i p.2.dropLast (addrOf p.1)

/-- The lines that are read in the search for a call: it begins with a block whose name starts with the name that is
looked for, goes on to the next label, and leaves out the last line. -/
def scanned : List Text → List Text
  | line :: next :: bcfile => if isLabel next then [] else line :: scanned (next :: bcfile)
  | _ => []

/-- The line has blocks, and no line that is read for them has the text of a call of the callee. -/
def Textless (i : Files) (p : Text × Text) : Prop :=
  ∃ BBs, i.line_BBinfo.get? p.1 = some BBs ∧ ∀ BB ∈ BBs, ∀ line ∈ scanned (fromBlock i.bcfile BB), ¬hits p.2 line

/-- There is no text of a call for the pair, and there is for every later pair at the same line. -/
def Kept (i : Files) (s_buf : List Text) (p : Text × Text) : Prop :=
  ∃ earlier later, pairs s_buf = earlier ++ p :: later ∧ Textless i p ∧ ∀ q ∈ later, q.1 = p.1 → ¬Textless i q

variable {i : Files} {s_buf : List Text}

/-! ### The coverage -/

section

variable {caller_line addr func beforeline caller callee : Text} {caller_func : Option Text} {coverage funcs : List Text}

theorem nextFunction_cons {line following : Text} : NextFunction caller_line addr caller_func (line :: following :: coverage) func ↔
    (PassedOver caller_line addr caller_func line following ∧ NextFunction caller_line addr caller_func (following :: coverage) func) ∨
      (¬PassedOver caller_line addr caller_func line following ∧ (words line)[1]? = some func) := by
  constructor
  · rintro ⟨passed, line', following', rest, hsplit, hpassed, hnot, hfunc⟩
    cases passed with
    | nil =>
      obtain ⟨rfl, rfl, rfl⟩ : line = line' ∧ following = following' ∧ coverage = rest := by simpa using hsplit
      exact .inr ⟨hnot, hfunc⟩
    | cons x passed =>
      obtain ⟨rfl, hrest⟩ : line = x ∧ following :: coverage = passed ++ line' :: following' :: rest := by simpa using hsplit
      have hadjacent : adjacent (line :: (passed ++ [line'])) = (line, following) :: adjacent (passed ++ [line']) := by
        cases passed with
        | nil =>
          obtain ⟨rfl, -⟩ := List.cons.inj hrest
          rfl
        | cons y passed =>
          obtain ⟨rfl, -⟩ := List.cons.inj hrest
          rfl
      rw [List.cons_append, hadjacent, List.forall_mem_cons] at hpassed
      exact .inl ⟨hpassed.1, passed, line', following', rest, hrest, hpassed.2, hnot, hfunc⟩
  · rintro (⟨hline, passed, line', following', rest, hsplit, hpassed, hnot, hfunc⟩ | ⟨hnot, hfunc⟩)
    · refine ⟨line :: passed, line', following', rest, congrArg (line :: ·) hsplit, ?_, hnot, hfunc⟩
      cases passed with
      | nil =>
        obtain ⟨rfl, -⟩ := List.cons.inj hsplit
        exact List.forall_mem_singleton.2 hline
      | cons y passed =>
        obtain ⟨rfl, -⟩ := List.cons.inj hsplit
        exact List.forall_mem_cons.2 ⟨hline, hpassed⟩
    · exact ⟨[], line, following, coverage, rfl, fun p hp => absurd hp List.not_mem_nil, hnot, hfunc⟩

/-- Nothing follows the last line. -/
theorem not_nextFunction_singleton {line : Text} : ¬NextFunction caller_line addr caller_func [line] func := by
  rintro ⟨passed, line', following, rest, hsplit, -⟩
  have hlength := congrArg List.length hsplit
  simp only [List.length_cons, List.length_nil, List.length_append] at hlength
  omega

theorem not_nextFunction_nil : ¬NextFunction caller_line addr caller_func [] func := by
  rintro ⟨passed, line, following, rest, hsplit, -⟩
  exact absurd hsplit (by simp)

theorem nextFunction_passed {line : Text} (h : ∀ following, PassedOver caller_line addr caller_func line following) :
    NextFunction caller_line addr caller_func (line :: coverage) func ↔
      NextFunction caller_line addr caller_func coverage func := by
  cases coverage with
  | nil => exact iff_of_false not_nextFunction_singleton not_nextFunction_nil
  | cons following coverage =>
    rw [nextFunction_cons, and_iff_right (h following), or_iff_left fun hnot => hnot.1 (h following)]

/-- What the loop over `j` finds is the next function. -/
theorem mem_calleeAfter (h : calleeAfter caller_line addr caller_func coverage = some funcs) :
    func ∈ funcs ↔ NextFunction caller_line addr caller_func coverage func := by
  induction coverage with
  | nil =>
    obtain rfl := Option.some.inj h
    exact iff_of_false List.not_mem_nil not_nextFunction_nil
  | cons line coverage ih =>
    rw [calleeAfter] at h
    by_cases haddr : addr <:+: line
    · rw [if_pos haddr] at h
      rw [nextFunction_passed fun _ => .inl haddr]
      exact ih h
    rw [if_neg haddr] at h
    obtain ⟨nextaddr, hnext, h⟩ := Option.bind_eq_some_iff.1 h
    by_cases hnone : caller_func.isSome ∧ (words line)[1]? = none
    · rw [if_pos hnone] at h
      cases h
    rw [if_neg hnone] at h
    by_cases hcaller : caller_func.isSome ∧ (words line)[1]? = caller_func
    · rw [if_pos hcaller] at h
      rw [nextFunction_passed fun _ => .inr (.inl hcaller)]
      exact ih h
    rw [if_neg hcaller] at h
    obtain ⟨following, hhead, h⟩ := Option.bind_eq_some_iff.1 h
    obtain ⟨rest, rfl⟩ := List.head?_eq_some_iff.1 hhead
    have hpassed : PassedOver caller_line addr caller_func line following ↔
        nextaddr <:+: following ∧ ¬caller_line <:+: following := by
      unfold PassedOver
      rw [or_iff_right haddr, or_iff_right hcaller, hnext]
      simp only [Option.some.injEq, exists_eq_left']
    rw [nextFunction_cons, hpassed]
    by_cases hbegins : ¬nextaddr <:+: following ∨ caller_line <:+: following
    · rw [if_pos hbegins] at h
      obtain ⟨func', hfunc, hfuncs⟩ := Option.map_eq_some_iff.1 h
      have hnot : ¬(nextaddr <:+: following ∧ ¬caller_line <:+: following) := by tauto
      rw [or_iff_right fun hp => hnot hp.1, and_iff_right hnot, hfunc, ← hfuncs, List.mem_singleton, Option.some.injEq,
        eq_comm]
    · rw [if_neg hbegins] at h
      have hover : nextaddr <:+: following ∧ ¬caller_line <:+: following := by tauto
      rw [and_iff_right hover, or_iff_left fun hp => hp.1 hover]
      exact ih h

/-- A list that begins with `x` is split at `x` or later. -/
theorem exists_split_cons {α : Type} {x : α} {l : List α} {P : List α → α → List α → Prop} :
    (∃ before y after, x :: l = before ++ y :: after ∧ P before y after) ↔
      P [] x l ∨ ∃ before y after, l = before ++ y :: after ∧ P (x :: before) y after := by
  constructor
  · rintro ⟨before, y, after, hsplit, hP⟩
    cases before with
    | nil =>
      obtain ⟨rfl, rfl⟩ := List.cons.inj hsplit
      exact .inl hP
    | cons z before =>
      obtain ⟨rfl, hrest⟩ := List.cons.inj hsplit
      exact .inr ⟨before, y, after, hrest, hP⟩
  · rintro (hP | ⟨before, y, after, hrest, hP⟩)
    · exact ⟨[], x, l, rfl, hP⟩
    · exact ⟨x :: before, y, after, congrArg (x :: ·) hrest, hP⟩

/-- What the loop over `i` collects, from the line before the first one on. -/
theorem mem_calleesLoop (h : calleesLoop caller_line caller_func beforeline coverage = some funcs) :
    func ∈ funcs ↔ ∃ before line after, coverage = before ++ line :: after ∧ caller_line <:+: line ∧
      (NextFunction caller_line (addrOf line) caller_func after func ∨
        (addrOf (before.getLastD beforeline) = addrOf line ∧ ((before.getLastD beforeline).splitOn ' ')[1]? = some func)) := by
  induction coverage generalizing beforeline funcs with
  | nil =>
    obtain rfl := Option.some.inj h
    refine iff_of_false List.not_mem_nil ?_
    rintro ⟨before, line, after, hsplit, -⟩
    exact absurd hsplit (by simp)
  | cons line coverage ih =>
    obtain ⟨rest, hrest, h⟩ := Option.bind_eq_some_iff.1 h
    rw [exists_split_cons]
    simp only [List.getLastD_cons, List.getLastD_nil]
    rw [← ih hrest]
    by_cases hline : caller_line <:+: line
    · rw [if_pos hline] at h
      obtain ⟨after, hafter, h⟩ := Option.bind_eq_some_iff.1 h
      rw [and_iff_right hline, ← mem_calleeAfter hafter]
      by_cases hsame : addrOf beforeline = addrOf line
      · simp only [if_pos hsame] at h
        obtain ⟨before, hbefore, h⟩ := Option.bind_eq_some_iff.1 h
        obtain ⟨func', hfunc, rfl⟩ := Option.map_eq_some_iff.1 hbefore
        obtain rfl := Option.some.inj h
        rw [List.mem_append, List.mem_append, List.mem_singleton, and_iff_right hsame, hfunc, Option.some.injEq, eq_comm (a := func)]
      · simp only [if_neg hsame] at h
        obtain rfl := Option.some.inj h
        rw [List.append_nil, List.mem_append, or_iff_left fun hboth : _ ∧ _ => hsame hboth.1]
    · rw [if_neg hline] at h
      obtain rfl := Option.some.inj h
      exact (or_iff_right fun hat => hline hat.1).symm

/-! ### Two words -/

/-- The first piece of a line is what comes before its first blank. -/
theorem head?_splitOn (line : Text) : (line.splitOn ' ').head? = some (addrOf line) := by
  induction line with
  | nil => rfl
  | cons c line ih =>
    rw [List.splitOn_cons_eq_if_modifyHead]
    unfold addrOf at ih ⊢
    by_cases hc : c = ' '
    · rw [if_pos (beq_iff_eq.2 hc), List.takeWhile_cons_of_neg (by simpa using hc)]
      rfl
    · rw [if_neg (by simpa using hc), List.takeWhile_cons_of_pos (by simpa using hc), List.head?_modifyHead, ih]
      rfl

theorem splitTwo_eq {sep : Char} {line first second : Text} (h : splitTwo sep line = some (first, second)) :
    line.splitOn sep = [first, second] := by
  unfold splitTwo at h
  split at h
  · rename_i heq
    obtain ⟨rfl, rfl⟩ := Prod.mk.inj (Option.some.inj h)
    exact heq
  · cases h

theorem splitTwo_addrOf {line first second : Text} (h : splitTwo ' ' line = some (first, second)) : addrOf line = first := by
  have hhead := head?_splitOn line
  rw [splitTwo_eq h] at hhead
  exact (Option.some.inj hhead).symm

/-- The first word ends before the last character, which is cut off. -/
theorem splitTwo_dropLast {line first second : Text} (h : splitTwo ' ' line.dropLast = some (first, second)) :
    addrOf line = first := by
  rw [← splitTwo_addrOf h]
  have hjoin : [' '].intercalate (line.dropLast.splitOn ' ') = line.dropLast := List.intercalate_splitOn ' '
  have hshort : (line.dropLast.takeWhile fun c => c ≠ ' ').length ≠ line.dropLast.length := by
    intro hlength
    have hall := List.takeWhile_eq_self_iff.1 ((List.takeWhile_prefix _).eq_of_length hlength)
    have hblank : ' ' ∈ line.dropLast := by
      rw [← hjoin, splitTwo_eq h]
      simp [List.intercalate, List.intersperse]
    exact absurd (hall ' ' hblank) (by decide)
  obtain rfl | hne := eq_or_ne line []
  · exact absurd rfl hshort
  · unfold addrOf
    conv_lhs => rw [← List.dropLast_append_getLast hne]
    rw [List.takeWhile_append, if_neg hshort]

/-! ### The checks -/

theorem mem_get_callee {i : Files} (h : get_callee_afterline_fromcoverline i caller = some funcs) :
    callee ∈ funcs ↔ NamedInCoverage i caller callee := by
  obtain ⟨found, hfound, h⟩ := Option.bind_eq_some_iff.1 h
  have hmem : ∀ func, func ∈ found ↔ CalledAt caller none i.coverlineinfo func := fun func => mem_calleesLoop hfound
  unfold NamedInCoverage
  simp only [← hmem]
  by_cases hnil : found = []
  · subst hnil
    rw [if_pos rfl] at h
    obtain ⟨words, hwords, h⟩ := Option.bind_eq_some_iff.1 h
    rw [splitTwo_addrOf hwords, or_iff_right List.not_mem_nil, and_iff_right fun func => List.not_mem_nil]
    exact mem_calleesLoop h
  · rw [if_neg hnil] at h
    obtain rfl := Option.some.inj h
    obtain ⟨func, hfunc⟩ := List.exists_mem_of_ne_nil _ hnil
    exact (or_iff_left fun hnone => hnone.1 func hfunc).symm

theorem check_src_eq (i : Files) (caller callee : Text) : check_cleancallstack_format_src i caller callee =
    (srcText i caller).map fun srccode =>
      if "->".toList <:+: srccode then none else some (decide (callee <:+: srccode)) := by
  unfold check_cleancallstack_format_src srcText
  simp only [Option.bind_eq_bind, Option.map_bind, Function.comp_def, Option.pure_def, Option.map_some]

/-- **A pair passes** iff the callee is named. -/
theorem checkPair_iff {i : Files} {verdict : Option Bool} (h : checkPair i callee caller = some verdict) :
    verdict = some true ↔
      NamedInCoverage i caller.dropLast (addrOf callee) ∨ NamedInText i caller.dropLast (addrOf callee) := by
  obtain ⟨⟨callee_func, rest⟩, hcallee, h⟩ := Option.bind_eq_some_iff.1 h
  obtain ⟨coverline, hcoverline, h⟩ := Option.bind_eq_some_iff.1 h
  obtain ⟨src, hsrc, h⟩ := Option.bind_eq_some_iff.1 h
  obtain rfl := Option.some.inj h
  rw [← splitTwo_dropLast hcallee] at hcoverline hsrc
  have hcover : coverline = some true ↔ NamedInCoverage i caller.dropLast (addrOf callee) := by
    obtain ⟨funcs, hfuncs, rfl⟩ := Option.map_eq_some_iff.1 hcoverline
    rw [← mem_get_callee hfuncs]
    by_cases hnil : funcs = []
    · rw [if_pos hnil, hnil]
      exact iff_of_false nofun List.not_mem_nil
    · rw [if_neg hnil, Option.some.injEq, decide_eq_true_iff]
  have htext : src = some true ↔ NamedInText i caller.dropLast (addrOf callee) := by
    rw [check_src_eq] at hsrc
    obtain ⟨srccode, hsrccode, rfl⟩ := Option.map_eq_some_iff.1 hsrc
    unfold NamedInText
    simp only [hsrccode, Option.some.injEq, exists_eq_left']
    by_cases harrow : "->".toList <:+: srccode
    · rw [if_pos harrow]
      exact iff_of_false nofun fun hnamed => hnamed.1 harrow
    · rw [if_neg harrow, Option.some.injEq, decide_eq_true_iff, and_iff_right harrow]
  rw [← hcover, ← htext]
  by_cases hpass : coverline = some true
  · rw [if_pos hpass, or_iff_left_of_imp fun _ => hpass]
  · rw [if_neg hpass, or_iff_right hpass]

end

/-! ### The verdict -/

/-- The result is overwritten at every pair. -/
theorem checkLoop_last {result verdict : Option Bool} (h : checkLoop i result s_buf = some verdict) :
    ((adjacent s_buf).getLast?.elim (some result) fun p => checkPair i p.1 p.2) = some verdict := by
  induction s_buf generalizing result with
  | nil => exact h
  | cons callee s_buf ih =>
    cases s_buf with
    | nil => exact h
    | cons caller s_buf =>
      have hadjacent : adjacent (callee :: caller :: s_buf) = (callee, caller) :: adjacent (caller :: s_buf) := rfl
      obtain ⟨result', hpair, h⟩ := Option.bind_eq_some_iff.1 h
      have hlast := ih h
      rw [hadjacent, List.getLast?_cons]
      cases hrest : (adjacent (caller :: s_buf)).getLast? with
      | none =>
        rw [hrest] at hlast
        exact hpair.trans hlast
      | some p =>
        rw [hrest] at hlast
        exact hlast

/-- **The verdict** is that of the last pair. -/
theorem check_cleancallstack_format_iff {verdict : Option Bool} (h : check_cleancallstack_format i s_buf = some verdict) :
    verdict = some true ↔ LastNamed i s_buf := by
  have hlast := checkLoop_last h
  unfold LastNamed
  cases hpair : (adjacent s_buf).getLast? with
  | none =>
    rw [hpair] at hlast
    exact iff_of_true (Option.some.inj hlast).symm fun p hp => by cases hp
  | some p =>
    rw [hpair] at hlast
    simp only [Option.some.injEq, forall_eq']
    exact checkPair_iff hlast

/-! ### The recorded calls -/

/-- The line has blocks, and no line that is read for them has the text of a call of the callee. -/
def textless (i : Files) (p : Text × Text) : Bool :=
  match i.line_BBinfo.get? p.1 with
  | none => false
  | some BBs => !BBs.any fun BB => (scanned (fromBlock i.bcfile BB)).any fun line => decide (hits p.2 line)

/-- The callee of the last pair at the line for which there is no text of a call. -/
def lastTextless (i : Files) (s_buf : List Text) (callerline : Text) : Option Text :=
  ((pairs s_buf).filter (textless i)).reverse.lookup callerline

theorem textless_iff {p : Text × Text} : textless i p = true ↔ Textless i p := by
  unfold textless Textless
  cases i.line_BBinfo.get? p.1 with
  | none => exact iff_of_false Bool.false_ne_true nofun
  | some BBs => simp

/-- The last element of a list with a key that has a property: no later element with the key has it. -/
theorem lookup_filter_reverse {f : Text × Text → Bool} {l : List (Text × Text)} {k v : Text} :
    (l.filter f).reverse.lookup k = some v ↔
      ∃ earlier p later, l = earlier ++ p :: later ∧ p = (k, v) ∧ f p = true ∧ ∀ q ∈ later, q.1 = k → ¬f q = true := by
  induction l generalizing v with
  | nil =>
    refine iff_of_false nofun ?_
    rintro ⟨earlier, p, later, hsplit, -⟩
    exact absurd hsplit (by simp)
  | cons p l ih =>
    have hlookup : ((p :: l).filter f).reverse.lookup k =
        ((l.filter f).reverse.lookup k).or (if f p = true ∧ k = p.1 then some p.2 else none) := by
      by_cases hp : f p = true
      · rw [List.filter_cons_of_pos hp, List.reverse_cons, List.lookup_append, List.lookup_singleton]
        simp only [hp, true_and, beq_iff_eq]
      · rw [List.filter_cons_of_neg hp, if_neg fun h => hp h.1, Option.or_none]
    rw [hlookup, exists_split_cons (P := fun _ p later => p = (k, v) ∧ f p = true ∧ ∀ q ∈ later, q.1 = k → ¬f q = true), ← ih]
    cases hl : (l.filter f).reverse.lookup k with
    | some w =>
      -- a later element has the key, so the head is not the last one
      obtain ⟨earlier, q, later, rfl, rfl, hq, -⟩ := ih.1 hl
      rw [Option.some_or]
      exact (or_iff_right fun h => h.2.2 (k, w) (by simp) rfl hq).symm
    | none =>
      have hnone : ∀ q ∈ l, q.1 = k → ¬f q = true := by
        intro q hq hkey hf
        have hmem : q ∈ (l.filter f).reverse := List.mem_reverse.2 (List.mem_filter.2 ⟨hq, hf⟩)
        exact absurd hkey.symm (by simpa using List.lookup_eq_none_iff.1 hl q hmem)
      rw [Option.none_or, or_iff_left (by simp)]
      constructor
      · intro h
        by_cases hp : f p = true ∧ k = p.1
        · rw [if_pos hp] at h
          exact ⟨Prod.ext hp.2.symm (Option.some.inj h), hp.1, hnone⟩
        · rw [if_neg hp] at h
          cases h
      · rintro ⟨rfl, hp, -⟩
        exact if_pos ⟨hp, rfl⟩

/-- The callee that is found last is kept. -/
theorem lastTextless_iff {callerline callee : Text} :
    lastTextless i s_buf callerline = some callee ↔ Kept i s_buf (callerline, callee) := by
  unfold lastTextless Kept
  rw [lookup_filter_reverse]
  simp only [textless_iff]
  constructor
  · rintro ⟨earlier, p, later, hsplit, rfl, hrest⟩
    exact ⟨earlier, later, hsplit, hrest⟩
  · rintro ⟨earlier, later, hsplit, hrest⟩
    exact ⟨earlier, _, later, hsplit, rfl, hrest⟩

/-- When the search has an answer, it is whether a line that is read has the text of a call. -/
theorem directcallLoop_eq {callee : Text} {bcfile : List Text} {b : Bool} (h : directcallLoop callee bcfile = some b) :
    b = (scanned bcfile).any fun line => decide (hits callee line) := by
  induction bcfile with
  | nil => cases h
  | cons line bcfile ih =>
    cases bcfile with
    | nil => cases h
    | cons next bcfile =>
      rw [directcallLoop] at h
      rw [scanned]
      by_cases hlabel : isLabel next = true
      · rw [if_pos hlabel] at h ⊢
        exact (Option.some.inj h).symm
      · rw [if_neg hlabel] at h ⊢
        rw [List.any_cons]
        by_cases hline : hits callee line
        · rw [if_pos hline] at h
          rw [decide_eq_true hline, Bool.true_or]
          exact (Option.some.inj h).symm
        · rw [if_neg hline] at h
          rw [decide_eq_false hline, Bool.false_or]
          exact ih h

theorem directcallAny_eq {callee : Text} {BBs : List Text} {b : Bool} (h : directcallAny i.bcfile callee BBs = some b) :
    b = BBs.any fun BB => (scanned (fromBlock i.bcfile BB)).any fun line => decide (hits callee line) := by
  induction BBs with
  | nil => exact (Option.some.inj h).symm
  | cons BB BBs ih =>
    obtain ⟨directcall, hcheck, h⟩ := Option.bind_eq_some_iff.1 h
    rw [List.any_cons, ← directcallLoop_eq hcheck]
    cases directcall with
    | true => exact (Option.some.inj h).symm
    | false => exact ih h

/-- What the loop adds to the dictionary. -/
theorem indirectcallsLoop_eq {indirectcalls calls : Text → Option Text}
    (h : indirectcallsLoop i indirectcalls s_buf = some calls) (callerline : Text) :
    calls callerline = (lastTextless i s_buf callerline).or (indirectcalls callerline) := by
  induction s_buf generalizing indirectcalls with
  | nil =>
    obtain rfl := Option.some.inj h
    rfl
  | cons callee s_buf ih =>
    cases s_buf with
    | nil =>
      obtain rfl := Option.some.inj h
      rfl
    | cons caller s_buf =>
      obtain ⟨line, hline, h⟩ := Option.bind_eq_some_iff.1 h
      have hpairs : pairs (callee :: caller :: s_buf) = (line, addrOf callee) :: pairs (caller :: s_buf) := by
        rw [pairs, hline]
        rfl
      have hlookup : lastTextless i (callee :: caller :: s_buf) callerline =
          (lastTextless i (caller :: s_buf) callerline).or
            (if textless i (line, addrOf callee) = true ∧ callerline = line then some (addrOf callee) else none) := by
        unfold lastTextless
        rw [hpairs]
        by_cases htext : textless i (line, addrOf callee) = true
        · rw [List.filter_cons_of_pos htext, List.reverse_cons, List.lookup_append, List.lookup_singleton]
          simp only [htext, true_and, beq_iff_eq]
        · rw [List.filter_cons_of_neg htext, if_neg fun h => htext h.1, Option.or_none]
      rw [hlookup, Option.or_assoc]
      cases hBBs : i.line_BBinfo.get? line with
      | none =>
        rw [hBBs] at h
        have htext : textless i (line, addrOf callee) = false := by
          unfold textless
          rw [hBBs]
        rw [if_neg fun h => Bool.false_ne_true (htext.symm.trans h.1)]
        exact ih h
      | some BBs =>
        rw [hBBs] at h
        obtain ⟨directcall, hdirect, h⟩ := Option.bind_eq_some_iff.1 h
        have htext : textless i (line, addrOf callee) = !directcall := by
          unfold textless
          rw [hBBs, directcallAny_eq hdirect]
        rw [ih h, htext]
        cases directcall with
        | true => rfl
        | false =>
          show (lastTextless i (caller :: s_buf) callerline).or
            (Function.update indirectcalls line (some (addrOf callee)) callerline) = _
          by_cases hkey : callerline = line
          · rw [if_pos ⟨rfl, hkey⟩, hkey, Function.update_self, Option.some_or]
          · rw [if_neg fun h => hkey h.2, Function.update_of_ne hkey, Option.none_or]

/-- **The callee that is recorded** for a line. -/
theorem get_indirectcalls_iff {calls : Text → Option Text} (h : get_indirectcalls i s_buf = some calls) {p : Text × Text} :
    calls p.1 = some p.2 ↔ Kept i s_buf p := by
  rw [indirectcallsLoop_eq h, Option.or_none]
  exact lastTextless_iff

/-- **When an accepted stack is right.**  Where both functions end: every pair of an accepted stack is a direct call or recorded
iff, when the callee of the last pair is named at the line of its caller, every pair is a direct call, or has no text of a call
while all later pairs at its line have one. -/
theorem accepts_iff {verdict : Option Bool} {calls : Text → Option Text}
    (hcheck : check_cleancallstack_format i s_buf = some verdict) (hcalls : get_indirectcalls i s_buf = some calls) :
    (verdict = some true → ∀ p ∈ pairs s_buf, Direct i p.1 p.2 ∨ calls p.1 = some p.2) ↔
      (LastNamed i s_buf → ∀ p ∈ pairs s_buf, Direct i p.1 p.2 ∨ Kept i s_buf p) := by
  rw [check_cleancallstack_format_iff hcheck]
  simp only [get_indirectcalls_iff hcalls]

/-- Two calls: `leaf` is called by its name, and `mid` through a pointer that the text of the line names. -/
def twoCalls : Files where
  coverlineinfo := []
  completecoverlineinfo := []
  linux_ref := fun _ => some [text "  run(mid);\n", text "  leaf();\n"]
  bcfile := [text "built-in.bc-mid-0:\n", text "  call void @leaf()\n", text "  ret void\n", text "\n",
    text "built-in.bc-main-0:\n", text "  call void %p()\n", text "  ret void\n", text "\n", text "built-in.bc-main-1:\n"]
  line_BBinfo := ⟨[(text "a.c:2", [text "built-in.bc-mid-0"]), (text "a.c:1", [text "built-in.bc-main-0"])], by decide⟩

/-- The stack in which `main` calls `mid` and `mid` calls `leaf`. -/
def twoCallsStack : List Text := [text "leaf a.c:9\n", text "mid a.c:2\n", text "main a.c:1\n"]

/-- The call through the pointer is recorded, so every pair is a direct call or recorded. -/
theorem accepts_twoCalls : check_cleancallstack_format twoCalls twoCallsStack = some (some true) ∧
    ∀ p ∈ pairs twoCallsStack, Direct twoCalls p.1 p.2 ∨
      Function.update (fun _ => none) (text "a.c:1") (some (text "mid")) p.1 = some p.2 := by
  have hcheck : check_cleancallstack_format twoCalls twoCallsStack = some (some true) := by decide +kernel
  have hcalls : get_indirectcalls twoCalls twoCallsStack =
      some (Function.update (fun _ => none) (text "a.c:1") (some (text "mid"))) := rfl
  refine ⟨hcheck, (accepts_iff hcheck hcalls).2 (fun _ => ?_) rfl⟩
  show ∀ p ∈ [(text "a.c:2", text "leaf"), (text "a.c:1", text "mid")], _
  refine List.forall_mem_cons.2 ⟨.inl ?_, List.forall_mem_singleton.2 (.inr ?_)⟩
  · refine ⟨_, rfl, _, List.mem_singleton_self _, text "  call void @leaf()\n", by decide +kernel, ?_⟩
    exact ⟨text "  ", text " void ", text ")\n", by decide⟩
  · refine ⟨[(text "a.c:2", text "leaf")], [], rfl, ⟨_, rfl, ?_⟩, fun q hq => absurd hq List.not_mem_nil⟩
    exact List.forall_mem_singleton.2 (by decide +kernel)

/-- A call of a function whose name begins with that of the callee. -/
def longerName : Files where
  coverlineinfo := []
  completecoverlineinfo := []
  linux_ref := fun _ => some [text "  do_it();\n"]
  bcfile := [text "built-in.bc-main-0:\n", text "  call void @do_it()\n", text "  ret void\n", text "\n",
    text "built-in.bc-main-1:\n"]
  line_BBinfo := ⟨[(text "a.c:1", [text "built-in.bc-main-0"])], List.nodup_singleton _⟩

/-- The stack in which `do` is called. -/
def longerNameStack : List Text := [text "do a.c:7\n", text "main a.c:1\n"]

/-- The stack is accepted, although the block has no call of `do` and nothing is recorded. -/
theorem accepts_longerName : check_cleancallstack_format longerName longerNameStack = some (some true) ∧
    get_indirectcalls longerName longerNameStack = some (fun _ => none) ∧
    (text "a.c:1", text "do") ∈ pairs longerNameStack ∧ ¬Direct longerName (text "a.c:1") (text "do") := by
  refine ⟨by decide +kernel, rfl, by decide +kernel, ?_⟩
  rintro ⟨BBs, hBBs, BB, hBB, line, hline, before, between, after, rfl⟩
  obtain rfl : [text "built-in.bc-main-0"] = BBs := Option.some.inj hBBs
  obtain rfl := List.mem_singleton.1 hBB
  have hall : ∀ line ∈ blockLines longerName.bcfile (text "built-in.bc-main-0"), ¬text "@do(" <:+: line := by
    decide +kernel
  refine hall _ hline ⟨before ++ "call".toList ++ between, after, ?_⟩
  rw [List.append_assoc, List.append_assoc (before ++ "call".toList ++ between)]
  rfl

end SymBisect.CallStack
