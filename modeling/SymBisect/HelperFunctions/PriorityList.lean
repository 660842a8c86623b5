import SymBisect.Lib.Table
import SymBisect.Listener.SimplifyPath

/-!
# Which lines the executor may follow

`helper_functions/prioritylist.py`: from the lines and blocks that a reference run has executed, the lines that the
executor must not follow.  A step reads the tables that earlier steps have written to `lineguidance/` and writes its own;
here these are the fields of `Guidance`.  An exception anywhere means that there is no result.

`lowPriority_iff` says when no line of a whitelisted block is on the blacklist of the configuration.

What is read from outside is in `Inputs`: the lines of the coverage and of the debug information, the ranges of the
functions of a file (nothing if the file cannot be parsed), the instructions of the blocks, and for every function the table
of the nodes that dominate or post-dominate a node.  A text is a list of characters.
-/

namespace SymBisect.PriorityList

open Lib SimplifyPath

abbrev Text := List Char

theorem Text.lawfulBEq : LawfulBEq Text := inferInstance

attribute [local instance] Text.lawfulBEq

/-! ### Python texts and lists -/

/-- `t.split(sep)`: `piece` is what has been read of the current piece, reversed, and `skip` characters of the last
separator are still to come. -/
def splitText (sep : Text) (piece : Text) : (skip : ℕ) → Text → List Text
  | _, [] => [piece.reverse]
  | skip + 1, _ :: t => splitText sep piece skip t
  | 0, c :: t =>
    if sep.isPrefixOf (c :: t) then piece.reverse :: splitText sep [] (sep.length - 1) t
    else splitText sep (c :: piece) 0 t

/-- `t.replace(old, "")`. -/
def removeText (old t : Text) : Text := (splitText old [] 0 t).flatten

/-- `int` of a text: decimal digits, in groups with an underscore between them. -/
def digits (t : Text) : Option ℕ :=
  let groups := t.splitOn '_'
  if groups.all fun g => !g.isEmpty && g.all Char.isDigit then
    some (groups.flatten.foldl (fun n c => 10 * n + (c.toNat - '0'.toNat)) 0)
  else none

/-- `int(t)`. -/
def int (t : Text) : Option ℤ :=
  match ((t.dropWhile Char.isWhitespace).reverse.dropWhile Char.isWhitespace).reverse with
  | '-' :: d => (digits d).map fun n => -(n : ℤ)
  | '+' :: d => (digits d).map fun n => (n : ℤ)
  | d => (digits d).map fun n => (n : ℤ)

/-- `l.sort()`. -/
def sort (l : List Text) : List Text := l.insertionSort fun x y => x ≤ y

/-- `sorted(list(set(l)))`. -/
def sortedSet (l : List Text) : List Text := sort l.dedup

/-- `l + [x for x in l' if it is not there yet]`. -/
def addMissing (l l' : List Text) : List Text := l'.foldl (fun l x => if x ∈ l then l else l ++ [x]) l

/-! ### Lines -/

/-- `"/home/zzhan173/repos/linux/"`. -/
def repo : Text := "/home/zzhan173/repos/linux/".toList

/-- `x.split(":")[0]`. -/
def fileOf (line : Text) : Text := line.takeWhile fun c => c ≠ ':'

/-- `int(x.split(":")[1])`. -/
def numberOf (line : Text) : Option ℤ := (line.splitOn ':')[1]?.bind int

/-- `refine_lineinfolist`. -/
def refine_lineinfolist (lineinfolist : List Text) : Option (List Text) :=
  let lines := (lineinfolist.dedup.filter fun info => '?' ∉ info).map fun info => removeText repo info
  if lines.all fun line => (numberOf line).isSome then
    some ((lines.insertionSort fun x y => (numberOf x).getD 0 ≤ (numberOf y).getD 0).insertionSort
      fun x y => fileOf x ≤ fileOf y)
  else none

/-- `get_file_funcrange`: the lines of the functions of a file. -/
abbrev FuncRange := Text → Option (Table Text (List Text))

/-- The functions that `filter_funclist_funcrange` leaves alone. -/
def leftAlone (func : Text) : Bool :=
  ["do_sys_".toList, "dentry_kill".toList, "tomoyo_round2".toList].any fun ele => decide (ele <:+: func)

/-- A line stays in the list of a function: its file cannot be parsed, it is in the range of the function, or the
function is not in the file and the line is in no function. -/
def inRange (funcrange : FuncRange) (func line : Text) : Bool :=
  match funcrange (fileOf line) with
  | none => true
  | some func_range =>
    if func_range.entries.isEmpty then true
    else
      match func_range.get? func with
      | none => !func_range.entries.any fun F => decide (line ∈ F.2)
      | some range => decide (line ∈ range)

/-- `filter_funclist_funcrange`. -/
def filter_funclist_funcrange (funcrange : FuncRange) (func_linelist : Table Text (List Text)) :
    Table Text (List Text) :=
  func_linelist.map fun func linelist => if leftAlone func then linelist else linelist.filter (inRange funcrange func)

/-! ### The steps -/

/-- What the steps read.  An instruction of a block is its line and whether it counts as a branch of a loop. -/
structure Inputs where
  executed : Table Text (List Text)
  entryBlocks : Table Text (List Text)
  complete : Table Text (List Text)
  funcrange : FuncRange
  blocks : Table Text (List (Text × Bool))
  premustnodes : Text → Table Text (List Text)
  postmustnodes : Text → Table Text (List Text)
  calltracefunclist : List Text

/-- `get_line_entryBBlist`, for the functions of the first whitelist. -/
def get_line_entryBBlist (i : Inputs) (line_whitelist : Table Text (List Text)) : Option (Table Text (List Text)) :=
  let func_entrylist := i.entryBlocks.filterMap fun func lines => (line_whitelist.get? func).map fun _ => lines
  (func_entrylist.mapM fun _ lines => refine_lineinfolist lines).map (filter_funclist_funcrange i.funcrange)

/-- `get_line_whitelist`: `func_line_whitelist_v1.json`. -/
def get_line_whitelist (i : Inputs) : Option (Table Text (List Text)) := do
  let func_whitelist ← i.executed.mapM fun _ lines => refine_lineinfolist lines
  let func_whitelist := filter_funclist_funcrange i.funcrange func_whitelist
  let func_line_entryBBlist ← get_line_entryBBlist i func_whitelist
  pure (func_whitelist.map fun func lines =>
    match func_line_entryBBlist.get? func with
    | none => lines
    | some entry => sort (addMissing lines entry))

/-- `get_line_completelist`: `func_line_completelist.json`. -/
def get_line_completelist (i : Inputs) : Option (Table Text (List Text)) :=
  (i.complete.mapM fun _ lines => refine_lineinfolist lines).map (filter_funclist_funcrange i.funcrange)

/-- The complete lines of a function that are not executed in it, if the function has complete lines. -/
def blacklistOf (func_line_completelist : Table Text (List Text)) (func : Text) (whitelist : List Text) :
    Option (List Text) :=
  (func_line_completelist.get? func).map fun lines => sort (lines.filter fun lineinfo => lineinfo ∉ whitelist)

/-- `get_line_blacklist`: `func_line_blacklist.json`. -/
def get_line_blacklist (func_line_completelist func_line_whitelist : Table Text (List Text)) :
    Option (Table Text (List Text)) :=
  (func_line_whitelist.filterMap (blacklistOf func_line_completelist)).mapM fun _ lines => refine_lineinfolist lines

/-- `get_BB_lineinfo`: `BB_lineinfo.json`. -/
def BB_lineinfo (i : Inputs) : Table Text (List Text) :=
  i.blocks.map fun _ insts => addMissing [] (insts.map Prod.fst)

/-- `get_BB_lineinfo`: `line_BBinfo_without_loopBr.json`.  A block is recorded for a line at the first instruction of
the line in it, unless that is a branch. -/
def line_BBinfo_without_loopBr (i : Inputs) (line : Text) : List Text :=
  i.blocks.entries.filterMap fun bb =>
    match bb.2.find? fun inst => inst.1 = line with
    | some (_, false) => some bb.1
    | _ => none

/-- `BB.split(".bc-")[1].split("-")[0]`. -/
def funcOf (BB : Text) : Option Text := (splitText ".bc-".toList [] 0 BB)[1]?.map fun t => t.takeWhile fun c => c ≠ '-'

/-- The blocks of a line for a function.  A block is added to the list of the function in its name only, so it is enough to
look it up in that list. -/
def addBlocks (func : Text) (BBs : List Text) (BB_whitelist : List Text) : Option (List Text) :=
  BBs.foldlM (fun l BB =>
    if BB ∈ l then some l else (funcOf BB).map fun funcname => if funcname = func then l ++ [BB] else l) BB_whitelist

/-- `get_BB_whitelist`: `func_BB_whitelist.json`. -/
def get_BB_whitelist (i : Inputs) (func_line_whitelist : Table Text (List Text)) : Option (Table Text (List Text)) :=
  func_line_whitelist.mapM fun func linelist =>
    (linelist.foldlM (fun l line => addBlocks func (line_BBinfo_without_loopBr i line) l) []).map sort

/-- `BB_mustBBs` of several functions; a later `update` replaces an earlier entry. -/
def mustBBs (mustnodes : Text → Table Text (List Text)) (funclist : List Text) (BB : Text) : List Text :=
  (funclist.reverse.findSome? fun func => (mustnodes func).get? BB).getD []

/-- `get_BB_whitelist_predoms`: `func_BB_whitelist_predoms.json`. -/
def get_BB_whitelist_predoms (i : Inputs) (func_BB_whitelist : Table Text (List Text)) : Table Text (List Text) :=
  let funclist := func_BB_whitelist.entries.map Prod.fst
  func_BB_whitelist.map fun _ BBs => sortedSet (BBs ++ BBs.flatMap (mustBBs i.premustnodes funclist))

/-- `get_BB_whitelist_doms`: `func_BB_whitelist_doms.json`. -/
def get_BB_whitelist_doms (i : Inputs) (func_BB_whitelist : Table Text (List Text)) : Table Text (List Text) :=
  let funclist := (func_BB_whitelist.entries.map Prod.fst).filter fun func => func ∉ i.calltracefunclist
  func_BB_whitelist.map fun _ BBs => sort (BBs ++ (BBs.flatMap (mustBBs i.postmustnodes funclist)).dedup)

/-- `get_line_whitelist_doms_postdoms_calltrace`: `line_whitelist_doms.json`. -/
def get_line_whitelist_doms (i : Inputs) (func_BB_whitelist : Table Text (List Text)) : Option (List Text) :=
  (func_BB_whitelist.mapM fun _ BBs => (BBs.mapM (BB_lineinfo i).get?).map fun lines => sortedSet lines.flatten).map
    fun func_line_whitelist_doms => sort (func_line_whitelist_doms.entries.flatMap Prod.snd)

/-- `get_line_blacklist_doms_postdoms_calltrace`: `line_blacklist_doms.json`. -/
def get_line_blacklist_doms (func_line_blacklist : Table Text (List Text)) (line_whitelist_BBdoms : List Text) :
    List Text :=
  sort ((func_line_blacklist.map fun _ lines => lines.filter fun line => line ∉ line_whitelist_BBdoms).entries.flatMap
    Prod.snd)

/-- The tables in `lineguidance/`. -/
structure Guidance where
  func_line_whitelist_v1 : Table Text (List Text)
  func_line_completelist : Table Text (List Text)
  func_line_blacklist : Table Text (List Text)
  func_BB_whitelist_doms : Table Text (List Text)
  line_blacklist_doms : List Text

/-- The steps, one after the other. -/
def guidance (i : Inputs) : Option Guidance := do
  let func_line_whitelist_v1 ← get_line_whitelist i
  let func_line_completelist ← get_line_completelist i
  let func_line_blacklist ← get_line_blacklist func_line_completelist func_line_whitelist_v1
  let func_BB_whitelist ← get_BB_whitelist i func_line_whitelist_v1
  let func_BB_whitelist_doms := get_BB_whitelist_doms i (get_BB_whitelist_predoms i func_BB_whitelist)
  let line_whitelist_doms ← get_line_whitelist_doms i func_BB_whitelist_doms
  pure ⟨func_line_whitelist_v1, func_line_completelist, func_line_blacklist, func_BB_whitelist_doms,
    get_line_blacklist_doms func_line_blacklist line_whitelist_doms⟩

/-- `generate_kleeconfig`: `90_low_priority_line_list`, if the loops of `simplify_path` take at most `fuel` turns. -/
def low_priority_line_list (fuel : ℕ) (g : Guidance) : Option (List Text) :=
  g.line_blacklist_doms.mapM (simplify_path fuel)

/-! ### What is in the tables -/

theorem mem_sort {l : List Text} {x : Text} : x ∈ sort l ↔ x ∈ l := List.mem_insertionSort _

theorem mem_sortedSet {l : List Text} {x : Text} : x ∈ sortedSet l ↔ x ∈ l := by
  rw [sortedSet, mem_sort, List.mem_dedup]

theorem mem_refine_lineinfolist {l l' : List Text} (h : refine_lineinfolist l = some l') {line : Text} :
    line ∈ l' ↔ ∃ info ∈ l, '?' ∉ info ∧ removeText repo info = line := by
  rw [refine_lineinfolist] at h
  split at h
  · cases h
    rw [List.mem_insertionSort, List.mem_insertionSort, List.mem_map]
    simp only [List.mem_filter, List.mem_dedup, decide_eq_true_eq, and_assoc]
  · cases h

/-- A line of a block that is on the whitelist in the end. -/
def InWhitelistedBlock (i : Inputs) (g : Guidance) (line : Text) : Prop :=
  ∃ func BBs, (func, BBs) ∈ g.func_BB_whitelist_doms.entries ∧
    ∃ BB ∈ BBs, ∃ lines, (BB, lines) ∈ (BB_lineinfo i).entries ∧ line ∈ lines

theorem mem_line_whitelist_doms {i : Inputs} {t : Table Text (List Text)} {whitelist : List Text}
    (h : get_line_whitelist_doms i t = some whitelist) {line : Text} :
    line ∈ whitelist ↔ ∃ func BBs, (func, BBs) ∈ t.entries ∧
      ∃ BB ∈ BBs, ∃ lines, (BB, lines) ∈ (BB_lineinfo i).entries ∧ line ∈ lines := by
  obtain ⟨lines, hlines, rfl⟩ := Option.map_eq_some_iff.1 h
  rw [mem_sort, List.mem_flatMap]
  constructor
  · intro ⟨⟨func, l⟩, hmem, hline⟩
    obtain ⟨BBs, hBBs, hl⟩ := (Table.mem_mapM hlines).1 hmem
    obtain ⟨ls, hls, rfl⟩ := Option.map_eq_some_iff.1 hl
    obtain ⟨l, hl, hline⟩ := List.mem_flatten.1 (mem_sortedSet.1 hline)
    obtain ⟨BB, hBB, hget⟩ := (Table.mem_list_mapM hls).1 hl
    exact ⟨func, BBs, hBBs, BB, hBB, l, Table.get?_eq_some.1 hget, hline⟩
  · intro ⟨func, BBs, hBBs, BB, hBB, l, hget, hline⟩
    obtain ⟨l', hl'⟩ := Table.exists_of_mapM hlines hBBs
    obtain ⟨ls, hls, rfl⟩ := Option.map_eq_some_iff.1 hl'
    refine ⟨(func, sortedSet ls.flatten), (Table.mem_mapM hlines).2 ⟨BBs, hBBs, hl'⟩, ?_⟩
    refine mem_sortedSet.2 (List.mem_flatten.2 ⟨l, ?_, hline⟩)
    exact (Table.mem_list_mapM hls).2 ⟨BB, hBB, Table.get?_eq_some.2 hget⟩

theorem mem_line_blacklist_doms {t : Table Text (List Text)} {whitelist : List Text} {line : Text} :
    line ∈ get_line_blacklist_doms t whitelist ↔ (∃ func lines, (func, lines) ∈ t.entries ∧ line ∈ lines) ∧ line ∉ whitelist := by
  rw [get_line_blacklist_doms, mem_sort, List.mem_flatMap]
  constructor
  · intro ⟨⟨func, l⟩, hmem, hline⟩
    obtain ⟨lines, hlines, rfl⟩ := Table.mem_map.1 hmem
    obtain ⟨hline, hwhite⟩ := List.mem_filter.1 hline
    exact ⟨⟨func, lines, hlines, hline⟩, by simpa using hwhite⟩
  · intro ⟨⟨func, lines, hlines, hline⟩, hwhite⟩
    refine ⟨(func, lines.filter fun line => line ∉ whitelist), Table.mem_map.2 ⟨lines, hlines, rfl⟩, ?_⟩
    exact List.mem_filter.2 ⟨hline, by simpa using hwhite⟩

/-- How the tables come from each other. -/
theorem guidance_spec {i : Inputs} {g : Guidance} (h : guidance i = some g) :
    get_line_blacklist g.func_line_completelist g.func_line_whitelist_v1 = some g.func_line_blacklist ∧
      ∃ whitelist, get_line_whitelist_doms i g.func_BB_whitelist_doms = some whitelist ∧
        g.line_blacklist_doms = get_line_blacklist_doms g.func_line_blacklist whitelist := by
  obtain ⟨v1, _, h⟩ := Option.bind_eq_some_iff.1 h
  obtain ⟨complete, _, h⟩ := Option.bind_eq_some_iff.1 h
  obtain ⟨black, hblack, h⟩ := Option.bind_eq_some_iff.1 h
  obtain ⟨BBs, _, h⟩ := Option.bind_eq_some_iff.1 h
  obtain ⟨whitelist, hwhitelist, h⟩ := Option.bind_eq_some_iff.1 h
  cases h
  exact ⟨hblack, whitelist, hwhitelist, rfl⟩

/-- The final blacklist: the blacklist of the functions without the lines of the whitelisted blocks. -/
theorem mem_blacklist {i : Inputs} {g : Guidance} (h : guidance i = some g) {line : Text} :
    line ∈ g.line_blacklist_doms ↔
      (∃ func lines, (func, lines) ∈ g.func_line_blacklist.entries ∧ line ∈ lines) ∧ ¬ InWhitelistedBlock i g line := by
  obtain ⟨_, whitelist, hwhitelist, hblack⟩ := guidance_spec h
  rw [hblack, mem_line_blacklist_doms, mem_line_whitelist_doms hwhitelist, InWhitelistedBlock]

/-! ### The configuration -/

/-- A text of the examples. -/
def text (s : String) : Text := s.toList

theorem keys_f : ([text "f"]).Nodup := List.nodup_singleton _

theorem keys_block : ([text "built-in.bc-f-0"]).Nodup := List.nodup_singleton _

/-- One function with an executed and another complete line, in files that cannot be parsed. -/
def oneFunction : Inputs where
  executed := ⟨[(text "f", [text "f.c:1"])], keys_f⟩
  entryBlocks := .empty
  complete := ⟨[(text "f", [text "f.c:1", text "f.c:2"])], keys_f⟩
  funcrange := fun _ => none
  blocks := ⟨[(text "built-in.bc-f-0", [(text "f.c:1", false)])], keys_block⟩
  premustnodes := fun _ => .empty
  postmustnodes := fun _ => .empty
  calltracefunclist := []

/-- No line of a whitelisted block is on the list of the configuration, in the spelling of the configuration. -/
def Consistent (i : Inputs) (g : Guidance) (fuel : ℕ) (list : List Text) : Prop :=
  ∀ line, InWhitelistedBlock i g line → ∀ spelled, simplify_path fuel line = some spelled → spelled ∉ list

/-- **Guidance.**  The blacklist of the configuration has no line of a whitelisted block exactly if a line of the
blacklist of a function that is spelled like such a line in the configuration is in a whitelisted block as it stands. -/
theorem lowPriority_iff {i : Inputs} {g : Guidance} {fuel : ℕ} {list : List Text} (h : guidance i = some g)
    (hlist : low_priority_line_list fuel g = some list) :
    Consistent i g fuel list ↔
      ∀ func lines, (func, lines) ∈ g.func_line_blacklist.entries → ∀ black ∈ lines, ∀ white, InWhitelistedBlock i g white →
        ∀ spelled, simplify_path fuel white = some spelled → simplify_path fuel black = some spelled →
          InWhitelistedBlock i g black := by
  constructor
  · intro hconsistent func lines hmem black hblack white hwhite spelled hspelled hspelled'
    by_contra hblock
    refine hconsistent white hwhite spelled hspelled ((Table.mem_list_mapM hlist).2 ⟨black, ?_, hspelled'⟩)
    exact (mem_blacklist h).2 ⟨⟨func, lines, hmem, hblack⟩, hblock⟩
  · intro hall white hwhite spelled hspelled hlisted
    obtain ⟨black, hblack, hspelled'⟩ := (Table.mem_list_mapM hlist).1 hlisted
    obtain ⟨⟨func, lines, hmem, hline⟩, hblock⟩ := (mem_blacklist h).1 hblack
    exact hblock (hall func lines hmem black hline white hwhite spelled hspelled hspelled')

theorem lowPriority_iff_oneFunction : ∃ g, guidance oneFunction = some g ∧
    ∃ list, low_priority_line_list 1 g = some list ∧ Consistent oneFunction g 1 list := by
  have hrun : (guidance oneFunction).map (fun g => (low_priority_line_list 1 g, g.func_BB_whitelist_doms.entries)) =
      some (some [text "f.c:2"], [(text "f", [text "built-in.bc-f-0"])]) := by decide +kernel
  have hblack : (guidance oneFunction).map (fun g => g.func_line_blacklist.entries) =
      some [(text "f", [text "f.c:2"])] := by decide +kernel
  have hlines : (BB_lineinfo oneFunction).entries = [(text "built-in.bc-f-0", [text "f.c:1"])] := by decide +kernel
  obtain ⟨g, hg, htables⟩ := Option.map_eq_some_iff.1 hrun
  obtain ⟨hlist, hblocks⟩ := Prod.mk.inj htables
  rw [hg] at hblack
  have hblack : g.func_line_blacklist.entries = [(text "f", [text "f.c:2"])] := Option.some.inj hblack
  refine ⟨g, hg, _, hlist, (lowPriority_iff hg hlist).2 ?_⟩
  rw [hblack]
  intro func lines hmem black hline white ⟨_, BBs, hBBs, BB, hBB, lines', hlines', hwhite⟩ spelled hspelled hspelled'
  rw [hblocks, List.mem_singleton] at hBBs
  cases hBBs
  rw [hlines, List.mem_singleton] at hlines'
  cases hlines'
  rw [List.mem_singleton] at hmem
  cases hmem
  rw [List.mem_singleton] at hline hwhite
  rw [hline] at hspelled'
  rw [hwhite, ← hspelled'] at hspelled
  exact absurd hspelled (by decide +kernel)

/-- One function with a line that its block spells with `./`. -/
def respelledLine : Inputs where
  executed := ⟨[(text "f", [text "f.c:1"])], keys_f⟩
  entryBlocks := .empty
  complete := ⟨[(text "f", [text "f.c:1", text "a.h:5"])], keys_f⟩
  funcrange := fun _ => none
  blocks := ⟨[(text "built-in.bc-f-0", [(text "f.c:1", false), (text "./a.h:5", false)])], keys_block⟩
  premustnodes := fun _ => .empty
  postmustnodes := fun _ => .empty
  calltracefunclist := []

/-- The line of the block is on the list of the configuration. -/
theorem respelledLine_blacklisted : ¬ ∀ i g fuel list, guidance i = some g → low_priority_line_list fuel g = some list →
    Consistent i g fuel list := by
  intro h
  have hrun : (guidance respelledLine).map (fun g => (low_priority_line_list 1 g, g.func_BB_whitelist_doms.entries)) =
      some (some [text "a.h:5"], [(text "f", [text "built-in.bc-f-0"])]) := by decide +kernel
  have hlines : (BB_lineinfo respelledLine).entries = [(text "built-in.bc-f-0", [text "f.c:1", text "./a.h:5"])] := by
    decide +kernel
  have hspelled : simplify_path 1 (text "./a.h:5") = some (text "a.h:5") := by decide +kernel
  obtain ⟨g, hg, htables⟩ := Option.map_eq_some_iff.1 hrun
  obtain ⟨hlist, hblocks⟩ := Prod.mk.inj htables
  have hblock : InWhitelistedBlock respelledLine g (text "./a.h:5") := by
    refine ⟨text "f", [text "built-in.bc-f-0"], ?_, _, List.mem_singleton.2 rfl, [text "f.c:1", text "./a.h:5"], ?_, ?_⟩
    · rw [hblocks]
      exact List.mem_singleton.2 rfl
    · rw [hlines]
      exact List.mem_singleton.2 rfl
    · exact List.mem_cons_of_mem _ (List.mem_singleton.2 rfl)
  exact h respelledLine g 1 _ hg hlist _ hblock _ hspelled (List.mem_singleton.2 rfl)

end SymBisect.PriorityList
