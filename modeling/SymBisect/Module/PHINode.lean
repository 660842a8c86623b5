import SymBisect.Lib.Moves

/-!
# PHI nodes

The part of LLVM's `PHINode` that the passes of `lib/Module` use: the incoming values, each with the block it comes from.
A block or an instruction is known by its number; an operand is the result of an instruction or some other value.

* `getBasicBlockIndex_split`: the index is that of the first entry of a block.
-/

namespace SymBisect

open Lib

/-- `Value` as an operand. -/
abbrev IRValue := Lib.Operand ℕ ℕ

/-- `PHINode`. -/
structure PHINode where
  id : ℕ
  incoming : List (ℕ × IRValue)

namespace PHINode

/-- `block_begin` to `block_end`. -/
def blocks (phi : PHINode) : List ℕ := phi.incoming.map Prod.fst

/-- `getNumIncomingValues`. -/
def getNumIncomingValues (phi : PHINode) : ℕ := phi.incoming.length

/-- `getBasicBlockIndex`, nothing for `-1`. -/
def getBasicBlockIndex (phi : PHINode) (block : ℕ) : Option ℕ := phi.incoming.findIdx? fun e => e.1 = block

/-- `getIncomingValueForBlock`, with its assertion. -/
def getIncomingValueForBlock (phi : PHINode) (block : ℕ) : Option IRValue :=
  (phi.incoming.find? fun e => e.1 = block).map Prod.snd

/-- `setIncomingBlock`. -/
def setIncomingBlock (phi : PHINode) (i block : ℕ) : PHINode :=
  { phi with incoming := phi.incoming.modify i fun e => (block, e.2) }

variable {phi : PHINode} {block i : ℕ} {v : IRValue}

theorem mem_blocks : block ∈ phi.blocks ↔ ∃ v, (block, v) ∈ phi.incoming := by
  simp [blocks]

/-- The value is that of an entry of the block. -/
theorem mem_of_getIncomingValueForBlock (h : phi.getIncomingValueForBlock block = some v) : (block, v) ∈ phi.incoming := by
  obtain ⟨⟨b, v'⟩, he, hv⟩ := Option.map_eq_some_iff.1 h
  have hb : b = block := by simpa using List.find?_some he
  subst hb
  obtain rfl : v' = v := hv
  exact List.mem_of_find?_eq_some he

theorem getIncomingValueForBlock_isSome (h : block ∈ phi.blocks) : ∃ v, phi.getIncomingValueForBlock block = some v := by
  obtain ⟨v, hv⟩ := mem_blocks.1 h
  unfold getIncomingValueForBlock
  cases hfind : phi.incoming.find? fun e => e.1 = block with
  | none => exact absurd (List.find?_eq_none.1 hfind (block, v) hv) (by simp)
  | some e => exact ⟨e.2, rfl⟩

/-- The index depends on the blocks only. -/
theorem getBasicBlockIndex_eq (phi : PHINode) (block : ℕ) : phi.getBasicBlockIndex block = phi.blocks.findIdx? (· = block) := by
  rw [getBasicBlockIndex, blocks, List.findIdx?_map]
  rfl

theorem getBasicBlockIndex_isSome (h : block ∈ phi.blocks) :
    ∃ i, phi.getBasicBlockIndex block = some i ∧ phi.blocks[i]? = some block := by
  rw [getBasicBlockIndex_eq]
  cases hidx : phi.blocks.findIdx? (· = block) with
  | none => exact absurd (List.findIdx?_eq_none_iff.1 hidx block h) (by simp)
  | some i =>
    obtain ⟨hlt, hi, -⟩ := List.findIdx?_eq_some_iff_getElem.1 hidx
    refine ⟨i, rfl, ?_⟩
    rw [List.getElem?_eq_getElem hlt]
    simpa using hi

/-- The index splits the entries at the first one of the block. -/
theorem getBasicBlockIndex_split (h : phi.getBasicBlockIndex block = some i) :
    ∃ es v es', phi.incoming = es ++ (block, v) :: es' ∧ es.length = i := by
  obtain ⟨hlt, hi, -⟩ := List.findIdx?_eq_some_iff_getElem.1 h
  refine ⟨phi.incoming.take i, phi.incoming[i].2, phi.incoming.drop (i + 1), ?_, List.length_take_of_le hlt.le⟩
  have hblock : phi.incoming[i].1 = block := by simpa using hi
  rw [← hblock]
  show _ = phi.incoming.take i ++ phi.incoming[i] :: phi.incoming.drop (i + 1)
  rw [← List.drop_eq_getElem_cons hlt, List.take_append_drop]

theorem modify_append_cons {α : Type*} (g : α → α) (x : α) (xs ys : List α) :
    (xs ++ x :: ys).modify xs.length g = xs ++ g x :: ys := by
  induction xs with
  | nil => rfl
  | cons y xs ih => rw [List.cons_append, List.length_cons, List.modify_succ_cons, ih, List.cons_append]

/-- The entry at the index gets the new block. -/
theorem setIncomingBlock_incoming (h : phi.getBasicBlockIndex block = some i) (newBlock : ℕ) :
    ∃ es v es', phi.incoming = es ++ (block, v) :: es' ∧
      (phi.setIncomingBlock i newBlock).incoming = es ++ (newBlock, v) :: es' := by
  obtain ⟨es, v, es', hsplit, rfl⟩ := getBasicBlockIndex_split h
  refine ⟨es, v, es', hsplit, ?_⟩
  rw [setIncomingBlock]
  dsimp only
  rw [hsplit, modify_append_cons]

end PHINode

end SymBisect
