import SymBisect.HelperFunctions.PriorityList

/-!
# The whitelist, per function and flat

`get_line_whitelist` of `helper_functions/prioritylist.py` writes a table of lines per function and a list of all lines,
first for the executed lines (`v0`) and then with the lines of the entry blocks (`v1`).

* `get_line_whitelist_files`: the four files.
* `whitelist_v0_exact`: the first list is the union of the first table, and every line in it was executed and is in the
  range of its function, as far as the range is known; the second table has the lines of the entry blocks besides.
-/

namespace SymBisect.PriorityList

open Lib

attribute [local instance] Text.lawfulBEq

/-- The files of `get_line_whitelist`. -/
structure WhitelistFiles where
  func_line_whitelist_v0 : Table Text (List Text)
  line_whitelist_v0 : List Text
  func_line_whitelist_v1 : Table Text (List Text)
  line_whitelist_v1 : List Text

/-- The lists of the functions with the lines of their entry blocks. -/
def addEntryLines (func_line_entryBBlist func_whitelist : Table Text (List Text)) : Table Text (List Text) :=
  func_whitelist.map fun func lines =>
    match func_line_entryBBlist.get? func with
    | none => lines
    | some entry => sort (addMissing lines entry)

/-- `get_line_whitelist`.  Both flat lists are `whitelist`. -/
def get_line_whitelist_files (i : Inputs) : Option WhitelistFiles := do
  let func_whitelist ← i.executed.mapM fun _ lines => refine_lineinfolist lines
  let func_whitelist := filter_funclist_funcrange i.funcrange func_whitelist
  let whitelist := (func_whitelist.entries.flatMap Prod.snd).dedup
  let func_line_entryBBlist ← get_line_entryBBlist i func_whitelist
  pure ⟨func_whitelist, whitelist, addEntryLines func_line_entryBBlist func_whitelist, whitelist⟩

/-- The line is in the list of a function. -/
def Listed (t : Table Text (List Text)) (func line : Text) : Prop := ∃ lines, (func, lines) ∈ t.entries ∧ line ∈ lines

/-- The list has the lines of the table, each once. -/
structure IsUnion (t : Table Text (List Text)) (flat : List Text) : Prop where
  nodup : flat.Nodup
  mem : ∀ line, line ∈ flat ↔ ∃ func, Listed t func line

/-- The trace has executed the line in the function. -/
def Covered (i : Inputs) (func line : Text) : Prop :=
  ∃ infos, (func, infos) ∈ i.executed.entries ∧ ∃ info ∈ infos, '?' ∉ info ∧ removeText repo info = line

/-- The range of the function has the line. -/
def InFunction (funcrange : FuncRange) (func line : Text) : Prop :=
  ∃ func_range range, funcrange (fileOf line) = some func_range ∧ (func, range) ∈ func_range.entries ∧ line ∈ range

/-- There is no range to compare with: the function is left alone, its file has no functions or cannot be parsed, or the
function is not in the file and the line is in none of its functions. -/
def Unranged (funcrange : FuncRange) (func line : Text) : Prop :=
  leftAlone func = true ∨ funcrange (fileOf line) = none ∨
    ∃ func_range, funcrange (fileOf line) = some func_range ∧ func ∉ func_range.entries.map Prod.fst ∧
      ∀ F range, (F, range) ∈ func_range.entries → line ∉ range

/-- What is asked of the two files of a version. -/
structure Whitelisted (i : Inputs) (t : Table Text (List Text)) (flat : List Text) : Prop where
  union : IsUnion t flat
  covered : ∀ func line, Listed t func line → Covered i func line
  ranged : ∀ func line, Listed t func line → InFunction i.funcrange func line

variable {i : Inputs} {funcrange : FuncRange} {func line : Text}

theorem mem_addMissing {l l' : List Text} : line ∈ addMissing l l' ↔ line ∈ l ∨ line ∈ l' := by
  unfold addMissing
  induction l' generalizing l with
  | nil => simp
  | cons x l' ih =>
    rw [List.foldl_cons, ih]
    by_cases hx : x ∈ l
    · rw [if_pos hx, List.mem_cons]
      constructor
      · exact fun h => h.imp_right .inr
      · rintro (h | rfl | h)
        · exact .inl h
        · exact .inl hx
        · exact .inr h
    · rw [if_neg hx, List.mem_append, List.mem_singleton, List.mem_cons, or_assoc]

/-- The lines that are kept for a function. -/
theorem inRange_iff (halone : leftAlone func = false) :
    inRange funcrange func line = true ↔ InFunction funcrange func line ∨ Unranged funcrange func line := by
  unfold inRange
  constructor
  · intro h
    cases hrange : funcrange (fileOf line) with
    | none => exact .inr (.inr (.inl hrange))
    | some func_range =>
      rw [hrange] at h
      change (if func_range.entries.isEmpty = true then true else _) = true at h
      by_cases hempty : func_range.entries.isEmpty = true
      · have hnil : func_range.entries = [] := List.isEmpty_iff.1 hempty
        refine .inr (.inr (.inr ⟨func_range, hrange, ?_, fun F range hmem => ?_⟩))
        · rw [hnil]
          exact List.not_mem_nil
        · rw [hnil] at hmem
          exact absurd hmem List.not_mem_nil
      · rw [if_neg hempty] at h
        cases hget : func_range.get? func with
        | none =>
          rw [hget] at h
          refine .inr (.inr (.inr ⟨func_range, hrange, fun hkey => ?_, fun F range hmem hline => ?_⟩))
          · obtain ⟨⟨k, range⟩, hmem, rfl⟩ := List.mem_map.1 hkey
            rw [Table.get?_eq_some.2 hmem] at hget
            cases hget
          · have hany : func_range.entries.any (fun F => decide (line ∈ F.2)) = true :=
              List.any_eq_true.2 ⟨(F, range), hmem, decide_eq_true hline⟩
            rw [show (!func_range.entries.any fun F => decide (line ∈ F.2)) = false by rw [hany]; rfl] at h
            cases h
        | some range =>
          rw [hget] at h
          exact .inl ⟨func_range, range, hrange, Table.get?_eq_some.1 hget, of_decide_eq_true h⟩
  · rintro (⟨func_range, range, hrange, hmem, hline⟩ | halone' | hrange | ⟨func_range, hrange, hkey, hnone⟩)
    · rw [hrange]
      show (if func_range.entries.isEmpty = true then true else _) = true
      rw [if_neg (fun hempty => by rw [List.isEmpty_iff.1 hempty] at hmem; exact absurd hmem List.not_mem_nil),
        Table.get?_eq_some.2 hmem]
      exact decide_eq_true hline
    · rw [halone] at halone'
      cases halone'
    · rw [hrange]
    · rw [hrange]
      show (if func_range.entries.isEmpty = true then true else _) = true
      split
      · rfl
      · have hget : func_range.get? func = none := by
          rw [Option.eq_none_iff_forall_ne_some]
          exact fun range hget => hkey (List.mem_map_of_mem (f := Prod.fst) (Table.get?_eq_some.1 hget))
        have hany : func_range.entries.any (fun F => decide (line ∈ F.2)) = false :=
          List.any_eq_false.2 fun F hF hline => hnone F.1 F.2 hF (of_decide_eq_true hline)
        rw [hget]
        show (!func_range.entries.any fun F => decide (line ∈ F.2)) = true
        rw [hany]
        rfl

/-- The lines of a filtered table. -/
theorem listed_filter {t : Table Text (List Text)} :
    Listed (filter_funclist_funcrange funcrange t) func line ↔
      Listed t func line ∧ (InFunction funcrange func line ∨ Unranged funcrange func line) := by
  constructor
  · rintro ⟨lines, hmem, hline⟩
    obtain ⟨lines', hmem', heq⟩ := Table.mem_map.1 hmem
    split at heq
    · rename_i halone
      rw [← heq] at hline
      exact ⟨⟨lines', hmem', hline⟩, .inr (.inl halone)⟩
    · rename_i halone
      rw [← heq] at hline
      obtain ⟨hline, hrange⟩ := List.mem_filter.1 hline
      exact ⟨⟨lines', hmem', hline⟩, (inRange_iff (Bool.eq_false_of_not_eq_true halone)).1 hrange⟩
  · rintro ⟨⟨lines, hmem, hline⟩, hkept⟩
    refine ⟨_, Table.mem_map.2 ⟨lines, hmem, rfl⟩, ?_⟩
    split
    · exact hline
    · rename_i halone
      exact List.mem_filter.2 ⟨hline, (inRange_iff (Bool.eq_false_of_not_eq_true halone)).2 hkept⟩

/-- The lines of the second table. -/
theorem listed_addEntryLines {entry t : Table Text (List Text)} :
    Listed (addEntryLines entry t) func line ↔
      Listed t func line ∨ (func ∈ t.entries.map Prod.fst ∧ Listed entry func line) := by
  constructor
  · rintro ⟨lines, hmem, hline⟩
    obtain ⟨lines', hmem', heq⟩ := Table.mem_map.1 hmem
    cases hget : entry.get? func with
    | none =>
      rw [hget] at heq
      change lines' = lines at heq
      rw [← heq] at hline
      exact .inl ⟨lines', hmem', hline⟩
    | some added =>
      rw [hget] at heq
      change sort (addMissing lines' added) = lines at heq
      rw [← heq, mem_sort, mem_addMissing] at hline
      obtain hline | hline := hline
      · exact .inl ⟨lines', hmem', hline⟩
      · exact .inr ⟨List.mem_map_of_mem hmem', added, Table.get?_eq_some.1 hget, hline⟩
  · intro h
    obtain ⟨lines, hmem⟩ : ∃ lines, (func, lines) ∈ t.entries := by
      obtain ⟨lines, hmem, -⟩ | ⟨hkey, -⟩ := h
      · exact ⟨lines, hmem⟩
      · obtain ⟨⟨k, lines⟩, hmem, rfl⟩ := List.mem_map.1 hkey
        exact ⟨lines, hmem⟩
    refine ⟨_, Table.mem_map.2 ⟨lines, hmem, rfl⟩, ?_⟩
    have hlines : Listed t func line → line ∈ lines := by
      rintro ⟨lines', hmem', hline⟩
      obtain rfl : lines' = lines := congrArg Prod.snd (List.inj_on_of_nodup_map t.nodup hmem' hmem rfl)
      exact hline
    cases hget : entry.get? func with
    | none =>
      refine hlines (h.resolve_right ?_)
      rintro ⟨-, added, hmem', -⟩
      rw [Table.get?_eq_some.2 hmem'] at hget
      cases hget
    | some added =>
      refine mem_sort.2 (mem_addMissing.2 (h.imp hlines ?_))
      rintro ⟨-, added', hmem', hline⟩
      rw [Table.get?_eq_some.2 hmem'] at hget
      obtain rfl := Option.some.inj hget
      exact hline

/-- **The whitelists.**  The first flat list is the union of the first table, each line once; every line of the table was
executed in its function and is in the range of the function, unless there is no range to compare with.  The second table
has these lines and those of the entry blocks. -/
theorem whitelist_v0_exact (i : Inputs) (w : WhitelistFiles) (h : get_line_whitelist_files i = some w) :
    IsUnion w.func_line_whitelist_v0 w.line_whitelist_v0 ∧
      (∀ func line, Listed w.func_line_whitelist_v0 func line → Covered i func line ∧
        (InFunction i.funcrange func line ∨ Unranged i.funcrange func line)) ∧
      ∃ entry, get_line_entryBBlist i w.func_line_whitelist_v0 = some entry ∧
        ∀ func line, Listed w.func_line_whitelist_v1 func line ↔ Listed w.func_line_whitelist_v0 func line ∨
          (func ∈ w.func_line_whitelist_v0.entries.map Prod.fst ∧ Listed entry func line) := by
  obtain ⟨t, ht, h⟩ := Option.bind_eq_some_iff.1 h
  obtain ⟨entry, hentry, h⟩ := Option.bind_eq_some_iff.1 h
  obtain rfl := Option.some.inj h
  refine ⟨⟨List.nodup_dedup _, fun line => ?_⟩, fun func line hlisted => ?_, entry, hentry, fun func line =>
    listed_addEntryLines⟩
  · rw [List.mem_dedup, List.mem_flatMap]
    constructor
    · rintro ⟨⟨func, lines⟩, hmem, hline⟩
      exact ⟨func, lines, hmem, hline⟩
    · rintro ⟨func, lines, hmem, hline⟩
      exact ⟨(func, lines), hmem, hline⟩
  · obtain ⟨⟨lines, hmem, hline⟩, hrange⟩ := listed_filter.1 hlisted
    obtain ⟨infos, hinfos, hrefine⟩ := (Table.mem_mapM ht).1 hmem
    exact ⟨⟨infos, hinfos, (mem_refine_lineinfolist hrefine).1 hline⟩, hrange⟩

theorem whitelist_v0_oneFunction : ∃ w, get_line_whitelist_files oneFunction = some w ∧
    w.line_whitelist_v0 = [text "f.c:1"] ∧ IsUnion w.func_line_whitelist_v0 w.line_whitelist_v0 := by
  have hrun : (get_line_whitelist_files oneFunction).map (fun w => w.line_whitelist_v0) = some [text "f.c:1"] := by
    decide +kernel
  obtain ⟨w, hw, hflat⟩ := Option.map_eq_some_iff.1 hrun
  exact ⟨w, hw, hflat, (whitelist_v0_exact oneFunction w hw).1⟩

/-- One function with an executed line and another one in its entry block. -/
def entryLine : Inputs where
  executed := ⟨[(text "f", [text "f.c:1"])], keys_f⟩
  entryBlocks := ⟨[(text "f", [text "f.c:2"])], keys_f⟩
  complete := .empty
  funcrange := fun _ => some ⟨[(text "f", [text "f.c:1", text "f.c:2"])], keys_f⟩
  blocks := .empty
  premustnodes := fun _ => .empty
  postmustnodes := fun _ => .empty
  calltracefunclist := []

/-- The second table has a line that was not executed. -/
theorem whitelist_v1_entryLine : ∃ w, get_line_whitelist_files entryLine = some w ∧
    ¬Whitelisted entryLine w.func_line_whitelist_v1 w.line_whitelist_v1 := by
  have hrun : (get_line_whitelist_files entryLine).map (fun w => w.func_line_whitelist_v1.entries) =
      some [(text "f", [text "f.c:1", text "f.c:2"])] := by decide +kernel
  obtain ⟨w, hw, htable⟩ := Option.map_eq_some_iff.1 hrun
  refine ⟨w, hw, fun hlisted => ?_⟩
  have hin : Listed w.func_line_whitelist_v1 (text "f") (text "f.c:2") := by
    refine ⟨_, by rw [htable]; exact List.mem_cons_self, List.mem_cons_of_mem _ List.mem_cons_self⟩
  obtain ⟨infos, hinfos, info, hinfo, -, heq⟩ := hlisted.covered _ _ hin
  obtain ⟨-, rfl⟩ := Prod.mk.inj (List.mem_singleton.1 hinfos)
  obtain rfl := List.mem_singleton.1 hinfo
  exact absurd heq (by decide +kernel)

end SymBisect.PriorityList
