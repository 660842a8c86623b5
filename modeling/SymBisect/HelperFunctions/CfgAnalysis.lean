import SymBisect.HelperFunctions.PriorityList
import SymBisect.Lib.Walk

/-!
# The guidance that is read off the control flow

`helper_functions/cfg_analysis.py` and `get_low_priority_bb_list` of `helper_functions/prioritylist.py`.  The blocks of a
function, its entry and its edges are read from the dot file of its control flow graph; parallel edges are kept.  A block
is named by its label, and the label has the name of the function in it.

* `get_low_priority_bb_list`: the blocks that cannot reach some must-block of their function.
* `lowPriority_right_iff`: when no block is listed that may still be wanted.
* `get_func_BB_targetBB`: the successor that the executor is forced to.
* `targetBB_forced`: what is known of it.
-/

namespace SymBisect.CfgAnalysis

open Lib PriorityList

attribute [local instance] Text.lawfulBEq

/-- A control flow graph. -/
structure Cfg where
  entry : Text
  blocks : List Text
  edges : List (Text × Text)
  nodup : blocks.Nodup

namespace Cfg

/-- There is an edge. -/
def Edge (G : Cfg) (a b : Text) : Prop := (a, b) ∈ G.edges

/-- A block can be reached from another one. -/
def Reaches (G : Cfg) : Text → Text → Prop := Relation.ReflTransGen G.Edge

end Cfg

/-- `networkx.descendants`: what can be reached from a node, without the node itself. -/
structure Networkx where
  descendants : Cfg → Text → List Text
  mem_descendants : ∀ G node x, x ∈ descendants G node ↔ x ≠ node ∧ G.Reaches node x

/-! ### Blocks of low priority -/

/-- `MustBB.split("built-in.bc-")[1].split("-")[0]`. -/
def funcOf (BB : Text) : Option Text :=
  ((splitText "built-in.bc-".toList [] 0 BB)[1]?).map fun rest => rest.takeWhile fun c => c ≠ '-'

/-- The control flow graphs of the functions; a block is in the graph of the function that it names. -/
structure Program where
  cfg : Text → Option Cfg
  funcOf_block : ∀ func G BB, cfg func = some G → BB ∈ G.blocks → funcOf BB = some func

variable (N : Networkx) (P : Program)

/-- `get_BB_reachBBs`. -/
def get_BB_reachBBs (G : Cfg) : List (Text × List Text) := G.blocks.map fun BB => (BB, sort (N.descendants G BB))

/-- `[BB for BB in BB_reachBBs if MustBB not in BB_reachBBs[BB]]`. -/
def unreaching (G : Cfg) (MustBB : Text) : List Text :=
  ((get_BB_reachBBs N G).filter fun e => MustBB ∉ e.2).map Prod.fst

/-- The turn of the loop for one must-block: the blocks that do not reach it, and nothing where the code raises an
exception. -/
def blackBBs (MustBB : Text) : Option (List Text) := do
  let func ← funcOf MustBB
  let G ← P.cfg func
  if MustBB ∈ unreaching N G MustBB then some ((unreaching N G MustBB).erase MustBB) else none

/-- `get_low_priority_bb_list`. -/
def get_low_priority_bb_list (MustBBs : List Text) : Option (List Text) :=
  (MustBBs.mapM (blackBBs N P)).map fun lists => sortedSet lists.flatten

/-- A must-block of the function, in its graph. -/
structure MustBlock (MustBBs : List Text) (func : Text) (G : Cfg) (M : Text) : Prop where
  mem : M ∈ MustBBs
  funcOf_eq : funcOf M = some func
  cfg_eq : P.cfg func = some G
  block : M ∈ G.blocks

/-- On some way from the entry to the block the must-block was not passed. -/
def Ahead (G : Cfg) (M BB : Text) : Prop := ∃ w, Walk G.Edge G.entry BB w ∧ M ∉ w

/-- What the list should be: it has no must-block, no block from which a way to the target passes all must-blocks of the
function, and only blocks that cannot reach some must-block ahead of them. -/
structure LowPriority (MustBBs : List Text) (list : List Text) : Prop where
  noMust : ∀ M ∈ MustBBs, M ∉ list
  noWay : ∀ func G BB target w, P.cfg func = some G → BB ∈ G.blocks → Walk G.Edge BB target w →
    (∃ M, MustBlock P MustBBs func G M) → (∀ M, MustBlock P MustBBs func G M → M ∈ w) → BB ∉ list
  lost : ∀ BB ∈ list, ∃ func G M, BB ∈ G.blocks ∧ MustBlock P MustBBs func G M ∧ Ahead G M BB ∧ ¬G.Reaches BB M

/-- The must-blocks of a function reach one another, and no block that does not reach them is always behind them. -/
structure Compatible (MustBBs : List Text) : Prop where
  connected : ∀ func G M M', MustBlock P MustBBs func G M → MustBlock P MustBBs func G M' → G.Reaches M M'
  ahead : ∀ func G M BB, MustBlock P MustBBs func G M → BB ∈ G.blocks → ¬G.Reaches BB M →
    ∃ M', MustBlock P MustBBs func G M' ∧ Ahead G M' BB

variable {N : Networkx} {P : Program} {MustBBs list : List Text} {func : Text} {G : Cfg} {M BB : Text}

theorem mem_sortedSet {x : Text} {l : List Text} : x ∈ sortedSet l ↔ x ∈ l := by
  unfold sortedSet sort
  rw [List.mem_insertionSort, List.mem_dedup]

/-- The blocks that do not reach a must-block. -/
theorem mem_unreaching : BB ∈ unreaching N G M ↔ BB ∈ G.blocks ∧ ¬(M ≠ BB ∧ G.Reaches BB M) := by
  unfold unreaching get_BB_reachBBs
  simp only [List.mem_map, List.mem_filter, decide_eq_true_eq, Prod.exists, exists_and_right, exists_eq_right,
    Prod.mk.injEq]
  constructor
  · rintro ⟨l, ⟨x, hx, rfl, rfl⟩, hM⟩
    refine ⟨hx, fun h => hM ?_⟩
    rw [sort, List.mem_insertionSort]
    exact (N.mem_descendants G x M).2 h
  · rintro ⟨hBB, hM⟩
    refine ⟨_, ⟨BB, hBB, rfl, rfl⟩, fun h => hM ?_⟩
    rw [sort, List.mem_insertionSort] at h
    exact (N.mem_descendants G BB M).1 h

/-- One turn of the loop. -/
theorem blackBBs_spec (h : MustBlock P MustBBs func G M) :
    ∃ l, blackBBs N P M = some l ∧ ∀ BB, BB ∈ l ↔ BB ∈ G.blocks ∧ ¬G.Reaches BB M := by
  have hself : M ∈ unreaching N G M := mem_unreaching.2 ⟨h.block, fun hn => hn.1 rfl⟩
  have hnodup : (unreaching N G M).Nodup := by
    refine (List.filter_sublist.map Prod.fst).nodup ?_
    unfold get_BB_reachBBs
    rw [List.map_map]
    show (G.blocks.map id).Nodup
    rw [List.map_id]
    exact G.nodup
  refine ⟨(unreaching N G M).erase M, ?_, fun BB => ?_⟩
  · unfold blackBBs
    rw [h.funcOf_eq]
    show (P.cfg func >>= _) = _
    rw [h.cfg_eq]
    exact if_pos hself
  · rw [hnodup.mem_erase_iff, mem_unreaching]
    constructor
    · rintro ⟨hne, hBB, hnot⟩
      exact ⟨hBB, fun hr => hnot ⟨fun heq => hne heq.symm, hr⟩⟩
    · rintro ⟨hBB, hnot⟩
      refine ⟨fun heq => hnot (heq ▸ .refl), hBB, fun hr => hnot hr.2⟩

/-- All must-blocks are blocks of the program. -/
def KnownBlocks (P : Program) (MustBBs : List Text) : Prop := ∀ M ∈ MustBBs, ∃ func G, MustBlock P MustBBs func G M

/-- The list has the blocks that cannot reach some must-block of their function. -/
theorem get_low_priority_bb_list_spec (N : Networkx) (h : KnownBlocks P MustBBs) :
    ∃ list, get_low_priority_bb_list N P MustBBs = some list ∧
      ∀ BB, BB ∈ list ↔ ∃ func G M, MustBlock P MustBBs func G M ∧ BB ∈ G.blocks ∧ ¬G.Reaches BB M := by
  have hall : ∀ M ∈ MustBBs, ∃ l, blackBBs N P M = some l := by
    intro M hM
    obtain ⟨func, G, hmust⟩ := h M hM
    obtain ⟨l, hl, -⟩ := blackBBs_spec (N := N) hmust
    exact ⟨l, hl⟩
  obtain ⟨lists, hlists⟩ : ∃ lists, MustBBs.mapM (blackBBs N P) = some lists :=
    Option.isSome_iff_exists.1 (Table.isSome_list_mapM.2 fun M hM => Option.isSome_iff_exists.2 (hall M hM))
  refine ⟨_, by unfold get_low_priority_bb_list; rw [hlists]; rfl, fun BB => ?_⟩
  rw [mem_sortedSet, List.mem_flatten]
  constructor
  · rintro ⟨l, hl, hBB⟩
    obtain ⟨M, hM, hblack⟩ := (Table.mem_list_mapM hlists).1 hl
    obtain ⟨func, G, hmust⟩ := h M hM
    obtain ⟨l', hl', hmem⟩ := blackBBs_spec (N := N) hmust
    obtain rfl : l = l' := Option.some.inj (hblack.symm.trans hl')
    exact ⟨func, G, M, hmust, (hmem BB).1 hBB⟩
  · rintro ⟨func, G, M, hmust, hBB⟩
    obtain ⟨l, hl, hmem⟩ := blackBBs_spec (N := N) hmust
    exact ⟨l, (Table.mem_list_mapM hlists).2 ⟨M, hmust.mem, hl⟩, (hmem BB).2 hBB⟩

/-- **When the list is right.**  The must-blocks of a function have to reach one another, and a block that does not reach
them must have one of them ahead. -/
theorem lowPriority_right_iff (N : Networkx) (P : Program) (MustBBs : List Text) (h : KnownBlocks P MustBBs) :
    ∃ list, get_low_priority_bb_list N P MustBBs = some list ∧
      (LowPriority P MustBBs list ↔ Compatible P MustBBs) := by
  obtain ⟨list, hrun, hmem⟩ := get_low_priority_bb_list_spec N h
  refine ⟨list, hrun, fun hlow => ⟨?_, ?_⟩, fun hc => ⟨?_, ?_, ?_⟩⟩
  · intro func G M M' hM hM'
    by_contra hnot
    exact hlow.noMust M hM.mem ((hmem M).2 ⟨func, G, M', hM', hM.block, hnot⟩)
  · intro func G M BB hM hBB hnot
    obtain ⟨func', G', M', hBB', hM', hahead, -⟩ := hlow.lost BB ((hmem BB).2 ⟨func, G, M, hM, hBB, hnot⟩)
    have hfunc : func = func' := Option.some.inj
      ((P.funcOf_block func G BB hM.cfg_eq hBB).symm.trans (P.funcOf_block func' G' BB hM'.cfg_eq hBB'))
    subst hfunc
    obtain rfl : G = G' := Option.some.inj (hM.cfg_eq.symm.trans hM'.cfg_eq)
    exact ⟨M', hM', hahead⟩
  · intro M hM hlist
    obtain ⟨func, G, M', hM', hblock, hnot⟩ := (hmem M).1 hlist
    exact hnot (hc.connected func G M M' ⟨hM, P.funcOf_block func G M hM'.cfg_eq hblock, hM'.cfg_eq, hblock⟩ hM')
  · intro func G BB target w hG hBB hw _ hall hlist
    obtain ⟨func', G', M, hM, hBB', hnot⟩ := (hmem BB).1 hlist
    have hfunc : func = func' := Option.some.inj
      ((P.funcOf_block func G BB hG hBB).symm.trans (P.funcOf_block func' G' BB hM.cfg_eq hBB'))
    subst hfunc
    obtain rfl : G = G' := Option.some.inj (hG.symm.trans hM.cfg_eq)
    exact hnot (hw.reaches (hall M hM))
  · intro BB hlist
    obtain ⟨func, G, M, hM, hBB, hnot⟩ := (hmem BB).1 hlist
    obtain ⟨M', hM', hahead⟩ := hc.ahead func G M BB hM hBB hnot
    exact ⟨func, G, M', hBB, hM', hahead, fun hr => hnot (hr.trans (hc.connected func G M' M hM' hM))⟩

/-- The nodes that can be reached are among the ends of the edges. -/
noncomputable def networkx : Networkx where
  descendants G node := by
    classical
    exact (G.edges.map Prod.snd).filter fun x => x ≠ node ∧ G.Reaches node x
  mem_descendants G node x := by
    classical
    rw [List.mem_filter, decide_eq_true_eq]
    refine ⟨fun h => h.2, fun h => ⟨?_, h⟩⟩
    obtain heq | ⟨y, -, hedge⟩ := h.2.cases_tail
    · exact absurd heq h.1
    · exact List.mem_map.2 ⟨(y, x), hedge, rfl⟩

def block0 : Text := "built-in.bc-f-0".toList

def block1 : Text := "built-in.bc-f-1".toList

def block2 : Text := "built-in.bc-f-2".toList

theorem blocks_nodup : [block0, block1, block2].Nodup := by decide

/-- A branch. -/
def branch : Cfg := ⟨block0, [block0, block1, block2], [(block0, block1), (block0, block2)], blocks_nodup⟩

theorem branch_block {func BB : Text} {G : Cfg} (hcfg : (if func = ['f'] then some branch else none) = some G)
    (hBB : BB ∈ G.blocks) : funcOf BB = some func := by
  split at hcfg
  · rename_i hfunc
    obtain rfl := Option.some.inj hcfg
    rw [hfunc]
    simp only [branch, List.mem_cons, List.not_mem_nil, or_false] at hBB
    obtain rfl | rfl | rfl := hBB
    · decide
    · decide
    · decide
  · cases hcfg

/-- A program with one function. -/
def oneFunction : Program := ⟨fun func => if func = ['f'] then some branch else none, fun _ _ _ => branch_block⟩

theorem mustBlock_branch (MustBBs : List Text) {M : Text} (hM : M ∈ MustBBs) (hblock : M ∈ branch.blocks) :
    MustBlock oneFunction MustBBs ['f'] branch M := by
  refine ⟨hM, ?_, rfl, hblock⟩
  exact branch_block (if_pos rfl) hblock

theorem mustBlock_inv {MustBBs : List Text} {func M : Text} {G : Cfg} (h : MustBlock oneFunction MustBBs func G M) :
    func = ['f'] ∧ G = branch := by
  have hcfg : (if func = ['f'] then some branch else none) = some G := h.cfg_eq
  split at hcfg
  · rename_i hfunc
    exact ⟨hfunc, (Option.some.inj hcfg).symm⟩
  · cases hcfg

/-- One side of the branch is a must-block: the other side is listed. -/
theorem lowPriority_branch : ∃ list, get_low_priority_bb_list networkx oneFunction [block1] = some list ∧
    LowPriority oneFunction [block1] list := by
  have hmust := mustBlock_branch [block1] (List.mem_singleton.2 rfl) (by decide : block1 ∈ branch.blocks)
  obtain ⟨list, hrun, hiff⟩ := lowPriority_right_iff networkx oneFunction [block1] fun M hM =>
    ⟨['f'], branch, by rw [List.mem_singleton.1 hM]; exact hmust⟩
  refine ⟨list, hrun, hiff.2 ⟨fun func G M M' hM hM' => ?_, fun func G M BB hM hBB hnot => ?_⟩⟩
  · rw [List.mem_singleton.1 hM.mem, List.mem_singleton.1 hM'.mem]
    exact .refl
  · obtain ⟨rfl, rfl⟩ := mustBlock_inv hM
    obtain rfl := List.mem_singleton.1 hM.mem
    refine ⟨block1, hmust, ?_⟩
    simp only [branch, List.mem_cons, List.not_mem_nil, or_false] at hBB
    obtain rfl | rfl | rfl := hBB
    · exact absurd (.single (by decide : (block0, block1) ∈ branch.edges)) hnot
    · exact absurd .refl hnot
    · exact ⟨[block0, block2], .cons (by decide : (block0, block2) ∈ branch.edges) (.single _), by decide⟩

/-- Of two must-blocks in a row the second one is listed. -/
theorem lowPriority_lists_must : ∃ list, get_low_priority_bb_list networkx oneFunction [block0, block1] = some list ∧
    ¬LowPriority oneFunction [block0, block1] list := by
  have hmust0 := mustBlock_branch [block0, block1] List.mem_cons_self (by decide : block0 ∈ branch.blocks)
  have hmust1 := mustBlock_branch [block0, block1] (List.mem_cons_of_mem _ List.mem_cons_self)
    (by decide : block1 ∈ branch.blocks)
  have hknown : KnownBlocks oneFunction [block0, block1] := by
    intro M hM
    obtain rfl | hM := List.mem_cons.1 hM
    · exact ⟨_, _, hmust0⟩
    · rw [List.mem_singleton.1 hM]
      exact ⟨_, _, hmust1⟩
  obtain ⟨list, hrun, hmem⟩ := get_low_priority_bb_list_spec networkx hknown
  refine ⟨list, hrun, fun hlow => hlow.noMust block1 hmust1.mem ((hmem block1).2 ⟨_, _, block0, hmust0, hmust1.block, ?_⟩)⟩
  intro hreach
  obtain heq | ⟨y, hedge, -⟩ := hreach.cases_head
  · exact absurd heq (by decide)
  · have hend : ∀ e ∈ branch.edges, e.1 ≠ block1 := by decide
    exact hend _ hedge rfl

/-! ### Forced targets -/

/-- `BB_directBBs[srclabel] += [dstlabel]`; a new label starts with the empty list. -/
def addDirect (BB_directBBs : List (Text × List Text)) (edge : Text × Text) : List (Text × List Text) :=
  if edge.1 ∈ BB_directBBs.map Prod.fst then
    BB_directBBs.map fun e => if e.1 = edge.1 then (e.1, e.2 ++ [edge.2]) else e
  else BB_directBBs ++ [(edge.1, [edge.2])]

/-- `get_BB_directBBs`. -/
def get_BB_directBBs (edges : List (Text × Text)) : List (Text × List Text) := edges.foldl addDirect []

/-- `for targetBB in directBBs: if test: BB_targetBB[BB] = targetBB`: the last one stays. -/
def pickLast (test : Text → Bool) (directBBs : List Text) : Option Text := (directBBs.filter test).getLast?

/-- The turn of the loop of `get_func_BB_targetBB` for one block. -/
def chooseTarget (blackBBs mustBBs : List Text) (BB : Text) (directBBs : List Text) : Option Text :=
  if directBBs.length = 1 then none
  else if BB ∈ blackBBs then none
  else if directBBs.countP (fun x => x ∈ blackBBs) = directBBs.length - 1 then
    pickLast (fun x => x ∉ blackBBs) directBBs
  else if directBBs.countP (fun x => decide (x ∉ blackBBs) && decide (x ∈ mustBBs)) = 1 then
    pickLast (fun x => x ∈ mustBBs) directBBs
  else none

/-- `get_func_BB_targetBB`, of the edges of the function, the blacklist and the must-list. -/
def get_func_BB_targetBB (edges : List (Text × Text)) (blackBBs mustBBs : List Text) : List (Text × Text) :=
  let BB_targetBB := (get_BB_directBBs edges).filterMap fun e =>
    (chooseTarget blackBBs mustBBs e.1 e.2).map fun target => (e.1, target)
  (BB_targetBB.insertionSort fun x y => x.1 ≤ y.1).insertionSort fun x y => x.1.length ≤ y.1.length

variable {edges : List (Text × Text)} {black must directBBs : List Text} {target : Text}

/-- The direct successors of a block, in the order of the edges. -/
def directs (edges : List (Text × Text)) (BB : Text) : List Text := (edges.filter fun e => e.1 = BB).map Prod.snd

theorem mem_directs {x : Text} : x ∈ directs edges BB ↔ (BB, x) ∈ edges := by
  unfold directs
  simp

theorem directs_append (edge : Text × Text) :
    directs (edges ++ [edge]) BB = directs edges BB ++ if edge.1 = BB then [edge.2] else [] := by
  unfold directs
  rw [List.filter_append, List.map_append]
  congr 1
  by_cases h : edge.1 = BB
  · simp [h]
  · simp [h]

/-- The table has the direct successors of every block that has one. -/
theorem mem_get_BB_directBBs {l : List Text} : (BB, l) ∈ get_BB_directBBs edges ↔ l = directs edges BB ∧ l ≠ [] := by
  unfold get_BB_directBBs
  induction edges using List.reverseRecOn generalizing BB l with
  | nil => simp [directs]
  | append_singleton edges edge ih =>
    rw [List.foldl_append]
    show (BB, l) ∈ addDirect (edges.foldl addDirect []) edge ↔ _
    have hkey : edge.1 ∈ (edges.foldl addDirect []).map Prod.fst ↔ directs edges edge.1 ≠ [] := by
      rw [List.mem_map]
      constructor
      · rintro ⟨⟨k, v⟩, hmem, rfl⟩
        obtain ⟨rfl, hne⟩ := ih.1 hmem
        exact hne
      · intro hne
        exact ⟨(edge.1, directs edges edge.1), ih.2 ⟨rfl, hne⟩, rfl⟩
    rw [directs_append]
    generalize edges.foldl addDirect [] = table at ih hkey ⊢
    unfold addDirect
    split
    · rename_i hmem
      rw [List.mem_map]
      constructor
      · rintro ⟨⟨k, v⟩, hkv, heq⟩
        obtain ⟨rfl, hne⟩ := ih.1 hkv
        by_cases hk : k = edge.1
        · rw [if_pos hk] at heq
          cases heq
          rw [if_pos hk.symm]
          exact ⟨rfl, List.append_ne_nil_of_right_ne_nil _ (List.cons_ne_nil _ _)⟩
        · rw [if_neg hk] at heq
          cases heq
          rw [if_neg fun h => hk h.symm, List.append_nil]
          exact ⟨rfl, hne⟩
      · rintro ⟨rfl, hne⟩
        by_cases hBB : edge.1 = BB
        · subst hBB
          exact ⟨_, ih.2 ⟨rfl, hkey.1 hmem⟩, by rw [if_pos rfl, if_pos rfl]⟩
        · rw [if_neg hBB, List.append_nil] at hne ⊢
          exact ⟨_, ih.2 ⟨rfl, hne⟩, if_neg fun h => hBB h.symm⟩
    · rename_i hmem
      have hnil : directs edges edge.1 = [] := not_not.1 fun hne => hmem (hkey.2 hne)
      rw [List.mem_append, List.mem_singleton, ih]
      by_cases hBB : edge.1 = BB
      · subst hBB
        rw [hnil, if_pos rfl, List.nil_append]
        constructor
        · rintro (⟨rfl, hne⟩ | heq)
          · exact absurd rfl hne
          · cases heq
            exact ⟨rfl, List.cons_ne_nil _ _⟩
        · rintro ⟨rfl, -⟩
          exact .inr rfl
      · rw [if_neg hBB, List.append_nil]
        have hne : (BB, l) ≠ (edge.1, [edge.2]) := fun h => hBB (congrArg Prod.fst h).symm
        simp [hne]

theorem get_BB_directBBs_nodup (edges : List (Text × Text)) : ((get_BB_directBBs edges).map Prod.fst).Nodup := by
  unfold get_BB_directBBs
  induction edges using List.reverseRecOn with
  | nil => exact List.nodup_nil
  | append_singleton edges edge ih =>
    rw [List.foldl_append]
    show ((addDirect (edges.foldl addDirect []) edge).map Prod.fst).Nodup
    generalize edges.foldl addDirect [] = table at ih ⊢
    unfold addDirect
    split
    · have hkeys : (table.map fun e => if e.1 = edge.1 then (e.1, e.2 ++ [edge.2]) else e).map Prod.fst =
          table.map Prod.fst := by
        rw [List.map_map]
        refine List.map_congr_left fun e _ => ?_
        show Prod.fst (if e.1 = edge.1 then (e.1, e.2 ++ [edge.2]) else e) = e.1
        split
        · rfl
        · rfl
      rw [hkeys]
      exact ih
    · rename_i hnew
      rw [List.map_append]
      refine List.nodup_append.2 ⟨ih, List.nodup_singleton _, fun k hk k' hk' heq => ?_⟩
      have hk' : k' = edge.1 := List.mem_singleton.1 hk'
      exact hnew (by rw [← hk', ← heq]; exact hk)

/-- A target is recorded in one of two ways. -/
theorem chooseTarget_cases (h : chooseTarget black must BB directBBs = some target) :
    target ∈ directBBs ∧
      ((target ∉ black ∧ directBBs.countP (fun x => x ∈ black) = directBBs.length - 1) ∨
        (target ∈ must ∧ directBBs.countP (fun x => decide (x ∉ black) && decide (x ∈ must)) = 1)) := by
  have hpick : ∀ test : Text → Bool, pickLast test directBBs = some target → target ∈ directBBs ∧ test target = true := by
    intro test hlast
    exact List.mem_filter.1 (List.mem_of_getLast? hlast)
  unfold chooseTarget at h
  split at h
  · cases h
  · split at h
    · cases h
    · split at h
      · rename_i hcount
        obtain ⟨hmem, htest⟩ := hpick _ h
        exact ⟨hmem, .inl ⟨by simpa using htest, hcount⟩⟩
      · split at h
        · rename_i hcount
          obtain ⟨hmem, htest⟩ := hpick _ h
          exact ⟨hmem, .inr ⟨by simpa using htest, hcount⟩⟩
        · cases h

/-- Of a test that one place passes there is one element. -/
theorem eq_of_countP_one {test : Text → Bool} {l : List Text} (h : l.countP test = 1) {x y : Text} (hx : x ∈ l)
    (htx : test x = true) (hy : y ∈ l) (hty : test y = true) : x = y := by
  rw [List.countP_eq_length_filter] at h
  obtain ⟨z, hz⟩ := List.length_eq_one_iff.1 h
  have hxz : x ∈ l.filter test := List.mem_filter.2 ⟨hx, htx⟩
  have hyz : y ∈ l.filter test := List.mem_filter.2 ⟨hy, hty⟩
  rw [hz] at hxz hyz
  exact (List.mem_singleton.1 hxz).trans (List.mem_singleton.1 hyz).symm

theorem mem_get_func_BB_targetBB : (BB, target) ∈ get_func_BB_targetBB edges black must ↔
    directs edges BB ≠ [] ∧ chooseTarget black must BB (directs edges BB) = some target := by
  unfold get_func_BB_targetBB
  rw [List.mem_insertionSort, List.mem_insertionSort, List.mem_filterMap]
  constructor
  · rintro ⟨⟨k, l⟩, hmem, hchoose⟩
    obtain ⟨t, ht, heq⟩ := Option.map_eq_some_iff.1 hchoose
    cases heq
    obtain ⟨rfl, hne⟩ := mem_get_BB_directBBs.1 hmem
    exact ⟨hne, ht⟩
  · rintro ⟨hne, hchoose⟩
    refine ⟨(BB, directs edges BB), mem_get_BB_directBBs.2 ⟨rfl, hne⟩, ?_⟩
    show (chooseTarget black must BB (directs edges BB)).map _ = _
    rw [hchoose]
    rfl

/-- **What is known of a forced target.**  It is a direct successor.  Unless some successor is both blacklisted and a
must-block, it is not blacklisted, and every other successor is blacklisted, or is no must-block while the target is one.
And a block that is not blacklisted and has several edges, of which one leads to a block that is not blacklisted, is
forced there. -/
theorem targetBB_forced (edges : List (Text × Text)) (black must : List Text) :
    (∀ BB target, (BB, target) ∈ get_func_BB_targetBB edges black must →
      (BB, target) ∈ edges ∧
      ((∀ x, (BB, x) ∈ edges → x ∈ black → x ∉ must) →
        target ∉ black ∧ ∀ x, (BB, x) ∈ edges → x ≠ target → x ∈ black ∨ (x ∉ must ∧ target ∈ must))) ∧
    ∀ BB target, BB ∉ black → 2 ≤ (directs edges BB).length →
      (directs edges BB).filter (fun x => x ∉ black) = [target] →
      (BB, target) ∈ get_func_BB_targetBB edges black must := by
  refine ⟨fun BB target h => ?_, fun BB target hBB hlen hone => ?_⟩
  · obtain ⟨hne, hchoose⟩ := mem_get_func_BB_targetBB.1 h
    obtain ⟨hmem, hcase⟩ := chooseTarget_cases hchoose
    refine ⟨mem_directs.1 hmem, fun hdisj => ?_⟩
    obtain ⟨hnot, hcount⟩ | ⟨hmust, hcount⟩ := hcase
    · refine ⟨hnot, fun x hx hxt => .inl ?_⟩
      -- one edge leads to a block that is not blacklisted
      by_contra hxb
      have hsum := List.length_eq_countP_add_countP (fun x => decide (x ∈ black)) (l := directs edges BB)
      have hpos : 0 < (directs edges BB).length := List.length_pos_of_ne_nil hne
      have hother : (directs edges BB).countP (fun x => decide ¬decide (x ∈ black) = true) = 1 := by omega
      exact hxt (eq_of_countP_one hother (mem_directs.2 hx) (by simpa using hxb) hmem (by simpa using hnot))
    · have hnot : target ∉ black := fun hb => hdisj target (mem_directs.1 hmem) hb hmust
      refine ⟨hnot, fun x hx hxt => ?_⟩
      by_cases hxb : x ∈ black
      · exact .inl hxb
      · refine .inr ⟨fun hxm => hxt ?_, hmust⟩
        exact eq_of_countP_one hcount (mem_directs.2 hx) (by simp [hxb, hxm]) hmem (by simp [hnot, hmust])
  · have hsum := List.length_eq_countP_add_countP (fun x => decide (x ∈ black)) (l := directs edges BB)
    have hother : (directs edges BB).countP (fun x => decide ¬decide (x ∈ black) = true) = 1 := by
      rw [List.countP_eq_length_filter]
      simpa using congrArg List.length hone
    refine mem_get_func_BB_targetBB.2 ⟨fun hnil => by rw [hnil] at hlen; exact absurd hlen (by decide), ?_⟩
    unfold chooseTarget
    rw [if_neg (by omega), if_neg hBB, if_pos (by omega)]
    unfold pickLast
    rw [hone]
    rfl

/-- Every recorded target is the one successor to follow, and the only successor that is not blacklisted is recorded. -/
structure ForcedTargets (edges : List (Text × Text)) (black must : List Text) : Prop where
  right : ∀ BB target, (BB, target) ∈ get_func_BB_targetBB edges black must → (BB, target) ∈ edges ∧ target ∉ black ∧
    ∀ x, (BB, x) ∈ edges → x ≠ target → x ∈ black ∨ (x ∉ must ∧ target ∈ must)
  recorded : ∀ BB target, (BB, target) ∈ edges → target ∉ black →
    (∀ x, (BB, x) ∈ edges → x ∉ black → x = target) → (BB, target) ∈ get_func_BB_targetBB edges black must

/-- A block with a single edge is not forced along it. -/
theorem targetBB_single_edge : ¬ForcedTargets [(block0, block1)] [] [] := by
  intro h
  have hrec := h.recorded block0 block1 List.mem_cons_self List.not_mem_nil fun x hx _ => by
    obtain heq := List.mem_singleton.1 hx
    exact congrArg Prod.snd heq
  exact absurd hrec (by decide)

end SymBisect.CfgAnalysis
