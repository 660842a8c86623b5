import SymBisect.Lib.Prog
import SymBisect.Module.PHINode

/-!
# The PHI cleaner

`PhiCleanerPass::runOnFunction` of `lib/Module/PhiCleaner.cpp` and the execution of PHI nodes in `lib/Core/Executor.cpp`.  The
executor runs the PHI nodes of a block one after another, each written at once and all with the index that the first one gives
for the block it comes from.  The pass gives every PHI of a block the blocks of the first one in its order, and where a PHI uses
the result of an earlier one, it copies that result at the end of the incoming block.

* `Cleaned`: what the pass makes of a block.
* `runOnFunction_cleaned`: a run lemma; every block is cleaned and the copies are fresh.
* `runOnFunction_simultaneous`: every PHI gets the value it has when all are executed at once.

The other instructions are not modelled: the registers at the end of a block are arbitrary.
-/

namespace SymBisect

open Lib

namespace PhiCleaner

/-- A function: its blocks in order, the PHI nodes of each, the `BitCastInst`s the pass has put before its terminator, and the
next new instruction. -/
structure IRFunction where
  blocks : List ℕ
  phis : ℕ → List PHINode
  copies : ℕ → List (ℕ × IRValue)
  nextInst : ℕ

/-! ### The pass -/

/-- `new BitCastInst(value, .., block->getTerminator())`. -/
def insertCopy (block : ℕ) (value : IRValue) : Prog IRFunction ℕ := do
  let f ← Prog.get
  Prog.modify fun f =>
    { f with copies := Function.update f.copies block (f.copies block ++ [(f.nextInst, value)]), nextInst := f.nextInst + 1 }
  pure f.nextInst

/-- The incoming values of the blocks of the reference, in their order. -/
def reorder (reference pi : PHINode) : Option (List (ℕ × IRValue)) :=
  reference.blocks.mapM fun block => (pi.getIncomingValueForBlock block).map fun value => (block, value)

/-- The entries of a PHI in the order of the reference. -/
def align (reference pi : PHINode) : Prog IRFunction (List (ℕ × IRValue)) := do
  Prog.assert (reference.getNumIncomingValues = pi.getNumIncomingValues)
  -- see if it is out of order
  if pi.blocks ≠ reference.blocks then Prog.unwrap (reorder reference pi) else pure pi.incoming

/-- One entry: a use of a previously defined PHI is replaced by a copy at the end of the incoming block. -/
def moveEntry (phis : List ℕ) (entry : ℕ × IRValue) : Prog IRFunction (ℕ × IRValue) :=
  match entry.2 with
  | .reg id =>
    if id ∈ phis then do
      let tmp ← insertCopy entry.1 entry.2
      pure (entry.1, .reg tmp)
    else pure entry
  | .const _ => pure entry

/-- The entries from the first to the last. -/
def moveEntries (phis : List ℕ) : List (ℕ × IRValue) → Prog IRFunction (List (ℕ × IRValue))
  | [] => pure []
  | entry :: rest => do
    let entry ← moveEntry phis entry
    let rest ← moveEntries phis rest
    pure (entry :: rest)

/-- The loop over the PHI nodes behind the reference. -/
def cleanPhis (reference : PHINode) : List ℕ → List PHINode → Prog IRFunction (List PHINode)
  | _, [] => pure []
  | phis, pi :: rest => do
    let entries ← align reference pi
    let incoming ← moveEntries phis entries
    let rest ← cleanPhis reference (phis ++ [pi.id]) rest
    pure (⟨pi.id, incoming⟩ :: rest)

/-- The body of the loop over the blocks. -/
def cleanBlock (block : ℕ) : Prog IRFunction PUnit := do
  let f ← Prog.get
  match f.phis block with
  | [] => pure ⟨⟩
  | reference :: rest => do
    let rest ← cleanPhis reference [reference.id] rest
    Prog.modify fun f => { f with phis := Function.update f.phis block (reference :: rest) }

/-- `runOnFunction`. -/
def runOnFunction : Prog IRFunction PUnit := do
  let f ← Prog.get
  Prog.each cleanBlock f.blocks

/-! ### The executor -/

/-- The moves of the PHI instructions from the first to the last, each with its entry at the incoming index. -/
def phiMoves (incomingBBIndex : ℕ) (phis : List PHINode) : Option (List (ℕ × IRValue)) :=
  phis.mapM fun phi => (phi.incoming[incomingBBIndex]?).map fun entry => (phi.id, entry.2)

/-- From the end of a block through the PHI nodes of the next one: the copies, `transferToBasicBlock`, and the PHI
instructions. -/
def transfer {V : Type} (f : IRFunction) (consts : ℕ → V) (src dst : ℕ) (regs : ℕ → V) : Option (ℕ → V) :=
  let regs := moveAll consts (f.copies src) regs
  match f.phis dst with
  | [] => some regs
  | first :: rest => do
    let incomingBBIndex ← first.getBasicBlockIndex src
    let moves ← phiMoves incomingBBIndex (first :: rest)
    some (moveAll consts moves regs)

/-! ### What the pass is given -/

/-- The PHI nodes of a block name the same predecessors, with one value for each; an instruction has one number, below the
next new one; nothing has been copied yet. -/
structure WellFormed (f : IRFunction) : Prop where
  blocks : f.blocks.Nodup
  copies : ∀ block, f.copies block = []
  ids : ∀ block, ((f.phis block).map PHINode.id).Nodup
  id_lt : ∀ block, ∀ phi ∈ f.phis block, phi.id < f.nextInst
  value_lt : ∀ block, ∀ phi ∈ f.phis block, ∀ e ∈ phi.incoming, ∀ id, e.2 = .reg id → id < f.nextInst
  predecessors : ∀ block, ∀ phi ∈ f.phis block, ∀ phi' ∈ f.phis block, phi.blocks.Perm phi'.blocks
  agree : ∀ block, ∀ phi ∈ f.phis block, ∀ e ∈ phi.incoming, ∀ e' ∈ phi.incoming, e.1 = e'.1 → e.2 = e'.2

/-- The value of a PHI when all are executed at once: that of its entries for the block control comes from. -/
def Simultaneous {V : Type} (consts : ℕ → V) (src : ℕ) (regs : ℕ → V) (phi : PHINode) (v : V) : Prop :=
  ∀ e ∈ phi.incoming, e.1 = src → v = e.2.eval consts regs

/-! ### Copies -/

/-- The copies made since instruction `next₀` are new instructions and read old ones. -/
structure Fresh (next₀ : ℕ) (f : IRFunction) : Prop where
  le : next₀ ≤ f.nextInst
  dest : ∀ block, ∀ c ∈ f.copies block, next₀ ≤ c.1 ∧ c.1 < f.nextInst
  source : ∀ block, ∀ c ∈ f.copies block, ∃ id, c.2 = .reg id ∧ id < next₀
  nodup : ∀ block, ((f.copies block).map Prod.fst).Nodup

/-- Copies are only added. -/
structure Grows (f f' : IRFunction) : Prop where
  phis : f'.phis = f.phis
  copies : ∀ block, ∀ c ∈ f.copies block, c ∈ f'.copies block

theorem Grows.refl (f : IRFunction) : Grows f f := ⟨rfl, fun _ _ h => h⟩

theorem Grows.trans {f g h : IRFunction} (hfg : Grows f g) (hgh : Grows g h) : Grows f h :=
  ⟨hgh.phis.trans hfg.phis, fun block c hc => hgh.copies block c (hfg.copies block c hc)⟩

variable {next₀ : ℕ} {f f' : IRFunction}

/-- A new copy of an old instruction. -/
theorem insertCopy_spec {block id : ℕ} (hfresh : Fresh next₀ f) (hid : id < next₀) :
    Prog.wp (insertCopy block (.reg id))
      (fun tmp f' => Fresh next₀ f' ∧ Grows f f' ∧ (tmp, .reg id) ∈ f'.copies block) (fun _ => False) f := by
  show Fresh next₀ { f with copies := Function.update f.copies block (f.copies block ++ [(f.nextInst, .reg id)]), nextInst := f.nextInst + 1 } ∧
    Grows f { f with copies := Function.update f.copies block (f.copies block ++ [(f.nextInst, .reg id)]), nextInst := f.nextInst + 1 } ∧
    (f.nextInst, Lib.Operand.reg id) ∈ Function.update f.copies block (f.copies block ++ [(f.nextInst, .reg id)]) block
  have hmem : ∀ b, ∀ c ∈ Function.update f.copies block (f.copies block ++ [(f.nextInst, .reg id)]) b,
      c ∈ f.copies b ∨ c = (f.nextInst, .reg id) := by
    intro b c hc
    by_cases hb : b = block
    · subst hb
      rw [Function.update_self] at hc
      simpa using hc
    · rw [Function.update_of_ne hb] at hc
      exact .inl hc
  have hle := hfresh.le
  refine ⟨⟨Nat.le_succ_of_le hle, ?_, ?_, ?_⟩, ⟨rfl, ?_⟩, ?_⟩
  · intro b c hc
    rcases hmem b c hc with hold | rfl
    · have hdest := hfresh.dest b c hold
      exact ⟨hdest.1, Nat.lt_succ_of_lt hdest.2⟩
    · exact ⟨hle, Nat.lt_succ_self _⟩
  · intro b c hc
    rcases hmem b c hc with hold | rfl
    · exact hfresh.source b c hold
    · exact ⟨id, rfl, hid⟩
  · intro b
    show ((Function.update f.copies block (f.copies block ++ [(f.nextInst, .reg id)]) b).map Prod.fst).Nodup
    by_cases hb : b = block
    · subst hb
      rw [Function.update_self, List.map_append, List.nodup_append]
      refine ⟨hfresh.nodup b, List.nodup_singleton _, ?_⟩
      intro x hx y hy hxy
      obtain ⟨c, hc, rfl⟩ := List.mem_map.1 hx
      obtain rfl : y = f.nextInst := by simpa using hy
      have hlt := (hfresh.dest b c hc).2
      omega
    · rw [Function.update_of_ne hb]
      exact hfresh.nodup b
  · intro b c hc
    show c ∈ Function.update f.copies block (f.copies block ++ [(f.nextInst, .reg id)]) b
    by_cases hb : b = block
    · subst hb
      rw [Function.update_self]
      exact List.mem_append_left _ hc
    · rwa [Function.update_of_ne hb]
  · rw [Function.update_self]
    exact List.mem_append_right _ (List.mem_singleton.2 rfl)

/-- An entry after the pass: as before, using none of the PHI nodes `phis`, or a copy of what was used. -/
def Moved (f : IRFunction) (phis : List ℕ) (e e' : ℕ × IRValue) : Prop :=
  e'.1 = e.1 ∧ ((e'.2 = e.2 ∧ ∀ id ∈ phis, e.2 ≠ .reg id) ∨ ∃ tmp, e'.2 = .reg tmp ∧ (tmp, e.2) ∈ f.copies e.1)

theorem Moved.grow {phis : List ℕ} {e e' : ℕ × IRValue} (h : Moved f phis e e')
    (hcopies : ∀ block, ∀ c ∈ f.copies block, c ∈ f'.copies block) : Moved f' phis e e' := by
  obtain ⟨hblock, hkeep | ⟨tmp, htmp, hcopy⟩⟩ := h
  · exact ⟨hblock, .inl hkeep⟩
  · exact ⟨hblock, .inr ⟨tmp, htmp, hcopies _ _ hcopy⟩⟩

/-- Moving entries keeps their blocks. -/
theorem map_fst_of_moved {phis : List ℕ} {es es' : List (ℕ × IRValue)} (h : List.Forall₂ (Moved f phis) es es') :
    es'.map Prod.fst = es.map Prod.fst := by
  induction h with
  | nil => rfl
  | cons hmoved _ ih => rw [List.map_cons, List.map_cons, hmoved.1, ih]

theorem moveEntry_spec {phis : List ℕ} {e : ℕ × IRValue} (hfresh : Fresh next₀ f)
    (hid : ∀ id, e.2 = .reg id → id < next₀) :
    Prog.wp (moveEntry phis e) (fun e' f' => Fresh next₀ f' ∧ Grows f f' ∧ Moved f' phis e e') (fun _ => False) f := by
  obtain ⟨block, value⟩ := e
  unfold moveEntry
  cases value with
  | const c => exact ⟨hfresh, .refl f, rfl, .inl ⟨rfl, fun _ _ h => by cases h⟩⟩
  | reg id =>
    dsimp only
    by_cases hphi : id ∈ phis
    · rw [if_pos hphi]
      refine (insertCopy_spec hfresh (hid id rfl)).bind fun tmp f' h => ?_
      exact ⟨h.1, h.2.1, rfl, .inr ⟨tmp, rfl, h.2.2⟩⟩
    · rw [if_neg hphi]
      refine ⟨hfresh, .refl f, rfl, .inl ⟨rfl, ?_⟩⟩
      intro id' hid' heq
      cases heq
      exact hphi hid'

theorem moveEntries_spec {phis : List ℕ} : ∀ {es : List (ℕ × IRValue)} {f : IRFunction}, Fresh next₀ f →
    (∀ e ∈ es, ∀ id, e.2 = .reg id → id < next₀) →
    Prog.wp (moveEntries phis es)
      (fun es' f' => Fresh next₀ f' ∧ Grows f f' ∧ List.Forall₂ (Moved f' phis) es es') (fun _ => False) f := by
  intro es
  induction es with
  | nil => exact fun hfresh _ => ⟨hfresh, .refl _, .nil⟩
  | cons e es ih =>
    intro f hfresh hid
    refine (moveEntry_spec hfresh (hid e List.mem_cons_self)).bind fun e' g hg => ?_
    refine (ih hg.1 fun d hd => hid d (List.mem_cons_of_mem _ hd)).bind fun es' h hh => ?_
    exact ⟨hh.1, hg.2.1.trans hh.2.1, .cons (hg.2.2.grow hh.2.1.copies) hh.2.2⟩

/-! ### Blocks -/

/-- A PHI after the pass: its entries in the order of the reference, each moved. -/
def CleanedPhi (f : IRFunction) (reference : PHINode) (phis : List ℕ) (pi pi' : PHINode) : Prop :=
  pi'.id = pi.id ∧ ∃ entries : List (ℕ × IRValue), entries.map Prod.fst = reference.blocks ∧
    (∀ e ∈ entries, e ∈ pi.incoming) ∧ List.Forall₂ (Moved f phis) entries pi'.incoming

/-- The PHI nodes of a block after the pass, behind the PHI nodes `phis`. -/
inductive Cleaned (f : IRFunction) (reference : PHINode) : List ℕ → List PHINode → List PHINode → Prop
  | nil (phis : List ℕ) : Cleaned f reference phis [] []
  | cons {phis : List ℕ} {pi pi' : PHINode} {rest rest' : List PHINode} (hpi : CleanedPhi f reference phis pi pi')
      (hrest : Cleaned f reference (phis ++ [pi.id]) rest rest') : Cleaned f reference phis (pi :: rest) (pi' :: rest')

theorem CleanedPhi.grow {reference pi pi' : PHINode} {phis : List ℕ} (h : CleanedPhi f reference phis pi pi')
    (hcopies : ∀ block, ∀ c ∈ f.copies block, c ∈ f'.copies block) : CleanedPhi f' reference phis pi pi' := by
  obtain ⟨hid, entries, hblocks, hmem, hall⟩ := h
  refine ⟨hid, entries, hblocks, hmem, hall.imp fun e e' hmoved => hmoved.grow hcopies⟩

theorem Cleaned.grow {reference : PHINode} {phis : List ℕ} {ps ps' : List PHINode} (h : Cleaned f reference phis ps ps')
    (hcopies : ∀ block, ∀ c ∈ f.copies block, c ∈ f'.copies block) : Cleaned f' reference phis ps ps' := by
  induction h with
  | nil phis => exact .nil phis
  | cons hpi _ ih => exact .cons (hpi.grow hcopies) ih

theorem reorder_spec {reference pi : PHINode} (h : ∀ block ∈ reference.blocks, block ∈ pi.blocks) :
    ∃ entries, reorder reference pi = some entries ∧ entries.map Prod.fst = reference.blocks ∧
      ∀ e ∈ entries, e ∈ pi.incoming := by
  unfold reorder
  revert h
  generalize reference.blocks = blocks
  intro h
  induction blocks with
  | nil => exact ⟨[], rfl, rfl, fun e he => absurd he List.not_mem_nil⟩
  | cons block blocks ih =>
    obtain ⟨v, hv⟩ := PHINode.getIncomingValueForBlock_isSome (h block List.mem_cons_self)
    obtain ⟨entries, hrest, hblocks, hmem⟩ := ih fun b hb => h b (List.mem_cons_of_mem _ hb)
    refine ⟨(block, v) :: entries, ?_, ?_, ?_⟩
    · rw [List.mapM_cons, hv, hrest]
      rfl
    · rw [List.map_cons, hblocks]
    · intro e he
      rcases List.mem_cons.1 he with rfl | he
      · exact PHINode.mem_of_getIncomingValueForBlock hv
      · exact hmem e he

theorem align_spec {reference pi : PHINode} (hperm : reference.blocks.Perm pi.blocks) :
    Prog.wp (align reference pi)
      (fun entries f' => f' = f ∧ entries.map Prod.fst = reference.blocks ∧ ∀ e ∈ entries, e ∈ pi.incoming)
      (fun _ => False) f := by
  have hlen : reference.getNumIncomingValues = pi.getNumIncomingValues := by
    have hlen := hperm.length_eq
    simpa [PHINode.blocks, PHINode.getNumIncomingValues] using hlen
  refine Prog.wp.bind (Q := fun _ g => g = f) (Prog.wp_assert.2 ⟨fun _ => rfl, fun hne => hne hlen⟩) fun _ g hg => ?_
  subst hg
  by_cases horder : pi.blocks = reference.blocks
  · rw [if_neg (not_not.2 horder)]
    exact ⟨rfl, horder, fun e he => he⟩
  · obtain ⟨entries, hres, hblocks, hmem⟩ := reorder_spec fun block hb => hperm.mem_iff.1 hb
    rw [if_pos horder, hres]
    exact ⟨rfl, hblocks, hmem⟩

/-- The loop over the PHI nodes cleans them. -/
theorem cleanPhis_spec {reference : PHINode} : ∀ {ps : List PHINode} {phis : List ℕ} {f : IRFunction}, Fresh next₀ f →
    (∀ pi ∈ ps, reference.blocks.Perm pi.blocks) →
    (∀ pi ∈ ps, ∀ e ∈ pi.incoming, ∀ id, e.2 = .reg id → id < next₀) →
    Prog.wp (cleanPhis reference phis ps)
      (fun ps' f' => Fresh next₀ f' ∧ Grows f f' ∧ Cleaned f' reference phis ps ps') (fun _ => False) f := by
  intro ps
  induction ps with
  | nil => exact fun hfresh _ _ => ⟨hfresh, .refl _, .nil _⟩
  | cons pi ps ih =>
    intro phis f hfresh hperm hid
    refine (align_spec (hperm pi List.mem_cons_self)).bind fun entries g hg => ?_
    obtain ⟨rfl, hblocks, hmem⟩ := hg
    refine (moveEntries_spec hfresh fun e he => hid pi List.mem_cons_self e (hmem e he)).bind fun incoming h hh => ?_
    refine (ih hh.1 (fun pi' hp => hperm pi' (List.mem_cons_of_mem _ hp))
      fun pi' hp => hid pi' (List.mem_cons_of_mem _ hp)).bind fun ps' k hk => ?_
    have hpi : CleanedPhi h reference phis pi ⟨pi.id, incoming⟩ := ⟨rfl, entries, hblocks, hmem, hh.2.2⟩
    exact ⟨hk.1, hh.2.1.trans hk.2.1, .cons (hpi.grow hk.2.1.copies) hk.2.2⟩

/-- The PHI nodes of a block after the pass. -/
def CleanedBlock (f₀ f : IRFunction) (block : ℕ) : Prop :=
  match f₀.phis block with
  | [] => f.phis block = []
  | reference :: rest => Cleaned f reference [] (reference :: rest) (f.phis block)

/-- The reference itself is as before. -/
theorem cleanedPhi_reference (f : IRFunction) (reference : PHINode) : CleanedPhi f reference [] reference reference := by
  refine ⟨rfl, reference.incoming, rfl, fun e he => he, ?_⟩
  have hmoved : ∀ e : ℕ × IRValue, Moved f [] e e := fun e => ⟨rfl, .inl ⟨rfl, fun id hid => absurd hid List.not_mem_nil⟩⟩
  exact List.forall₂_same.2 fun e _ => hmoved e

theorem CleanedBlock.grow {f₀ : IRFunction} {block : ℕ} (h : CleanedBlock f₀ f block)
    (hphis : f'.phis block = f.phis block) (hcopies : ∀ b, ∀ c ∈ f.copies b, c ∈ f'.copies b) :
    CleanedBlock f₀ f' block := by
  unfold CleanedBlock at h ⊢
  rw [hphis]
  revert h
  cases f₀.phis block with
  | nil => exact id
  | cons reference rest => exact fun h => h.grow hcopies

/-- Cleaning a block that is as it was leaves the others alone. -/
theorem cleanBlock_spec {f₀ : IRFunction} (hwf : WellFormed f₀) {block : ℕ} (hfresh : Fresh f₀.nextInst f)
    (hsame : f.phis block = f₀.phis block) :
    Prog.wp (cleanBlock block)
      (fun _ f' => Fresh f₀.nextInst f' ∧ CleanedBlock f₀ f' block ∧ (∀ b, b ≠ block → f'.phis b = f.phis b) ∧
        ∀ b, ∀ c ∈ f.copies b, c ∈ f'.copies b) (fun _ => False) f := by
  refine Prog.wp_bind.2 ?_
  show Prog.wp (match f.phis block with
    | [] => pure ⟨⟩
    | reference :: rest => do
      let rest ← cleanPhis reference [reference.id] rest
      Prog.modify fun f => { f with phis := Function.update f.phis block (reference :: rest) }) _ _ f
  cases hphis : f.phis block with
  | nil =>
    refine ⟨hfresh, ?_, fun b _ => rfl, fun b c hc => hc⟩
    unfold CleanedBlock
    rw [← hsame, hphis]
  | cons reference rest =>
    have hin : ∀ pi ∈ rest, pi ∈ f₀.phis block := by
      intro pi hpi
      rw [← hsame, hphis]
      exact List.mem_cons_of_mem _ hpi
    have href : reference ∈ f₀.phis block := by
      rw [← hsame, hphis]
      exact List.mem_cons_self
    refine (cleanPhis_spec hfresh (fun pi hpi => hwf.predecessors block _ href _ (hin pi hpi))
      fun pi hpi => hwf.value_lt block pi (hin pi hpi)).bind fun rest' g hg => ?_
    obtain ⟨hfresh', hgrow, hcleaned⟩ := hg
    refine ⟨⟨hfresh'.le, hfresh'.dest, hfresh'.source, hfresh'.nodup⟩, ?_, ?_, hgrow.copies⟩
    · unfold CleanedBlock
      rw [← hsame, hphis]
      show Cleaned _ reference [] (reference :: rest) (Function.update g.phis block (reference :: rest') block)
      rw [Function.update_self]
      exact .cons (cleanedPhi_reference _ _) (hcleaned.grow fun b c hc => hc)
    · intro b hb
      show Function.update g.phis block (reference :: rest') b = f.phis b
      rw [Function.update_of_ne hb, hgrow.phis]

/-- **The pass cleans every block**, and its copies are fresh. -/
theorem runOnFunction_cleaned {f₀ : IRFunction} (hwf : WellFormed f₀) :
    Prog.wp runOnFunction (fun _ f => Fresh f₀.nextInst f ∧ ∀ block ∈ f₀.blocks, CleanedBlock f₀ f block)
      (fun _ => False) f₀ := by
  have hrun : ∀ (bs : List ℕ), bs.Nodup → ∀ f : IRFunction, Fresh f₀.nextInst f → (∀ b ∈ bs, f.phis b = f₀.phis b) →
      Prog.wp (Prog.each cleanBlock bs)
        (fun _ f' => Fresh f₀.nextInst f' ∧ (∀ b ∈ bs, CleanedBlock f₀ f' b) ∧ (∀ b, b ∉ bs → f'.phis b = f.phis b) ∧
          ∀ b, ∀ c ∈ f.copies b, c ∈ f'.copies b) (fun _ => False) f := by
    intro bs
    induction bs with
    | nil => exact fun _ f hfresh _ => ⟨hfresh, fun b hb => absurd hb List.not_mem_nil, fun b _ => rfl, fun b c hc => hc⟩
    | cons block bs ih =>
      intro hnodup f hfresh hsame
      obtain ⟨hnot, hnodup'⟩ := List.nodup_cons.1 hnodup
      refine (cleanBlock_spec hwf hfresh (hsame block List.mem_cons_self)).bind fun _ g hg => ?_
      obtain ⟨hfreshg, hblock, hother, hcopies⟩ := hg
      refine (ih hnodup' g hfreshg fun b hb => ?_).mono (fun _ f' hf' => ?_) fun _ h => h
      · have hne : b ≠ block := fun heq => hnot (heq ▸ hb)
        rw [hother b hne]
        exact hsame b (List.mem_cons_of_mem _ hb)
      · obtain ⟨hfresh', hrest, hother', hcopies'⟩ := hf'
        refine ⟨hfresh', ?_, ?_, fun b c hc => hcopies' b c (hcopies b c hc)⟩
        · intro b hb
          rcases List.mem_cons.1 hb with rfl | hb
          · exact hblock.grow (hother' b hnot) hcopies'
          · exact hrest b hb
        · intro b hb
          obtain ⟨hne, hb⟩ := not_or.1 (fun h => hb (List.mem_cons.2 h))
          rw [hother' b hb, hother b hne]
  have hfresh : Fresh f₀.nextInst f₀ := by
    refine ⟨le_rfl, ?_, ?_, ?_⟩
    · intro b c hc
      rw [hwf.copies] at hc
      exact absurd hc List.not_mem_nil
    · intro b c hc
      rw [hwf.copies] at hc
      exact absurd hc List.not_mem_nil
    · intro b
      rw [hwf.copies]
      exact List.nodup_nil
  exact (hrun f₀.blocks hwf.blocks f₀ hfresh fun b _ => rfl).mono (fun _ f h => ⟨h.1, h.2.1⟩) fun _ h => h

/-! ### Execution -/

variable {V : Type} {consts : ℕ → V} {regs : ℕ → V} {src : ℕ}

/-- Fresh copies are independent. -/
theorem Fresh.independent (h : Fresh next₀ f) (block : ℕ) : Independent (f.copies block) := by
  have hne : (f.copies block).Pairwise fun m n => m.1 ≠ n.1 := List.pairwise_map.1 (h.nodup block)
  refine hne.imp_of_mem fun {m n} hm hn hmn => ⟨hmn.symm, ?_⟩
  obtain ⟨id, hid, hlt⟩ := h.source block n hn
  have hle := (h.dest block m hm).1
  rw [hid]
  intro heq
  injection heq with heq
  omega

/-- After the copies, old registers are unchanged. -/
theorem Fresh.copies_old (h : Fresh next₀ f) {r : ℕ} (hr : r < next₀) :
    moveAll consts (f.copies src) regs r = regs r := by
  refine moveAll_of_not_mem fun c hc heq => ?_
  have hle := (h.dest src c hc).1
  omega

/-- What an entry holds after the copies is what it held before the pass. -/
theorem Moved.eval {phis : List ℕ} {e e' : ℕ × IRValue} (hfresh : Fresh next₀ f) (h : Moved f phis e e')
    (hid : ∀ id, e.2 = .reg id → id < next₀) (hsrc : e.1 = src) :
    e'.2.eval consts (moveAll consts (f.copies src) regs) = e.2.eval consts regs := by
  obtain ⟨-, ⟨hsame, -⟩ | ⟨tmp, htmp, hcopy⟩⟩ := h
  · rw [hsame]
    exact Lib.Operand.eval_congr fun r hr => hfresh.copies_old (hid r hr)
  · subst hsrc
    rw [htmp]
    exact moveAll_of_mem (hfresh.independent e.1) hcopy

/-- The entry after the pass uses no earlier PHI. -/
theorem Moved.not_uses {phis : List ℕ} {e e' : ℕ × IRValue} (hfresh : Fresh next₀ f) (h : Moved f phis e e')
    (hphis : ∀ id ∈ phis, id < next₀) : ∀ id ∈ phis, e'.2 ≠ .reg id := by
  intro id hid
  obtain ⟨-, ⟨hsame, hnot⟩ | ⟨tmp, htmp, hcopy⟩⟩ := h
  · rw [hsame]
    exact hnot id hid
  · have hle := (hfresh.dest e.1 _ hcopy).1
    have hlt := hphis id hid
    rw [htmp]
    intro heq
    injection heq with heq
    omega

/-- The entry of a cleaned PHI at an index of the reference. -/
theorem CleanedPhi.entry {reference pi pi' : PHINode} {phis : List ℕ} {i : ℕ} (h : CleanedPhi f reference phis pi pi')
    (hi : reference.blocks[i]? = some src) :
    ∃ e e', e ∈ pi.incoming ∧ e.1 = src ∧ pi'.incoming[i]? = some e' ∧ Moved f phis e e' := by
  obtain ⟨-, entries, hblocks, hmem, hall⟩ := h
  rw [← hblocks, List.getElem?_map] at hi
  obtain ⟨e, he, hsrc⟩ := Option.map_eq_some_iff.1 hi
  obtain ⟨hlt, he⟩ := List.getElem?_eq_some_iff.1 he
  have hlt' : i < pi'.incoming.length := hall.length_eq ▸ hlt
  refine ⟨e, pi'.incoming[i], he ▸ hmem _ (List.getElem_mem hlt), hsrc, List.getElem?_eq_getElem hlt', ?_⟩
  rw [← he]
  exact hall.get hlt hlt'

/-- The moves of cleaned PHI nodes: one for each, with what the PHI held before the pass, and independent. -/
theorem Cleaned.phiMoves {reference : PHINode} {phis : List ℕ} {ps ps' : List PHINode} {i : ℕ}
    (h : Cleaned f reference phis ps ps') (hfresh : Fresh next₀ f) (hi : reference.blocks[i]? = some src)
    (hid : ∀ pi ∈ ps, ∀ e ∈ pi.incoming, ∀ id, e.2 = .reg id → id < next₀) (hphis : ∀ id ∈ phis, id < next₀)
    (hlt : ∀ pi ∈ ps, pi.id < next₀) (hnodup : (ps.map PHINode.id).Nodup) (consts regs : ℕ → V) :
    ∃ moves, phiMoves i ps' = some moves ∧ moves.map Prod.fst = ps.map PHINode.id ∧ Independent moves ∧
      (∀ m ∈ moves, ∀ id ∈ phis, m.2 ≠ .reg id) ∧
      ∀ pi ∈ ps, ∃ m ∈ moves, m.1 = pi.id ∧ ∃ e ∈ pi.incoming, e.1 = src ∧
        m.2.eval consts (moveAll consts (f.copies src) regs) = e.2.eval consts regs := by
  induction h with
  | nil phis => exact ⟨[], rfl, rfl, .nil, fun m hm => absurd hm List.not_mem_nil, fun pi hpi => absurd hpi List.not_mem_nil⟩
  | @cons phis pi pi' rest rest' hpi _ ih =>
    obtain ⟨hnot, hnodup'⟩ := List.nodup_cons.1 hnodup
    obtain ⟨e, e', he, hsrc, he', hmoved⟩ := hpi.entry hi
    have hphis' : ∀ id ∈ phis ++ [pi.id], id < next₀ := by
      intro id hmem
      rcases List.mem_append.1 hmem with hmem | hmem
      · exact hphis id hmem
      · obtain rfl := List.mem_singleton.1 hmem
        exact hlt pi List.mem_cons_self
    obtain ⟨moves, hres, hdests, hindep, huses, hvalues⟩ := ih (fun p hp => hid p (List.mem_cons_of_mem _ hp)) hphis'
      (fun p hp => hlt p (List.mem_cons_of_mem _ hp)) hnodup'
    refine ⟨(pi'.id, e'.2) :: moves, ?_, ?_, ?_, ?_, ?_⟩
    · rw [PhiCleaner.phiMoves, List.mapM_cons, he']
      rw [PhiCleaner.phiMoves] at hres
      rw [hres]
      rfl
    · rw [List.map_cons, List.map_cons, hdests, hpi.1]
    · refine .cons (fun m hm => ⟨?_, ?_⟩) hindep
      · intro heq
        have hmem : m.1 ∈ rest.map PHINode.id := hdests ▸ List.mem_map_of_mem hm
        rw [heq, hpi.1] at hmem
        exact hnot hmem
      · rw [hpi.1]
        exact huses m hm pi.id (List.mem_append_right _ (List.mem_singleton.2 rfl))
    · intro m hm id hmem
      rcases List.mem_cons.1 hm with rfl | hm
      · exact hmoved.not_uses hfresh hphis id hmem
      · exact huses m hm id (List.mem_append_left _ hmem)
    · intro p hp
      rcases List.mem_cons.1 hp with rfl | hp
      · have heval : e'.2.eval consts (moveAll consts (f.copies src) regs) = e.2.eval consts regs :=
          hmoved.eval hfresh (hid p List.mem_cons_self e he) hsrc
        exact ⟨_, List.mem_cons_self, hpi.1, e, he, hsrc, heval⟩
      · obtain ⟨m, hm, hrest⟩ := hvalues p hp
        exact ⟨m, List.mem_cons_of_mem _ hm, hrest⟩

/-- A cleaned block gives its PHI nodes what they hold when executed at once. -/
theorem transfer_of_cleaned {f₀ : IRFunction} (hwf : WellFormed f₀) (hfresh : Fresh f₀.nextInst f) {dst : ℕ}
    (hcleaned : CleanedBlock f₀ f dst) (hsrc : ∀ phi ∈ f₀.phis dst, src ∈ phi.blocks) :
    ∃ regs', transfer f consts src dst regs = some regs' ∧
      (∀ phi ∈ f₀.phis dst, Simultaneous consts src regs phi (regs' phi.id)) ∧
      ∀ r < f₀.nextInst, (∀ phi ∈ f₀.phis dst, phi.id ≠ r) → regs' r = regs r := by
  unfold CleanedBlock at hcleaned
  unfold transfer
  have hids := hwf.ids dst
  have hidlt := hwf.id_lt dst
  have hvalue := hwf.value_lt dst
  have hagree := hwf.agree dst
  revert hcleaned hsrc hids hidlt hvalue hagree
  cases f₀.phis dst with
  | nil =>
    intro hnone _ _ _ _ _
    rw [hnone]
    exact ⟨_, rfl, fun phi hphi => absurd hphi List.not_mem_nil, fun r hr _ => hfresh.copies_old hr⟩
  | cons reference rest =>
    intro hcleaned hsrc hids hidlt hvalue hagree
    obtain ⟨i, hidx, hi⟩ := PHINode.getBasicBlockIndex_isSome (hsrc reference List.mem_cons_self)
    obtain ⟨moves, hmoves, hdests, hindep, -, hvalues⟩ := hcleaned.phiMoves hfresh hi hvalue
      (fun id hid => absurd hid List.not_mem_nil) hidlt hids consts regs
    cases hphis : f.phis dst with
    | nil =>
      rw [hphis] at hcleaned
      cases hcleaned
    | cons first rest' =>
      rw [hphis] at hcleaned hmoves
      have hfirst : first.blocks = reference.blocks := by
        cases hcleaned with
        | cons hpi _ =>
          obtain ⟨-, entries, hblocks, -, hall⟩ := hpi
          rw [← hblocks, PHINode.blocks, map_fst_of_moved hall]
      have hfirstIdx : first.getBasicBlockIndex src = some i := by
        rw [PHINode.getBasicBlockIndex_eq, hfirst, ← PHINode.getBasicBlockIndex_eq, hidx]
      refine ⟨moveAll consts moves (moveAll consts (f.copies src) regs), ?_, ?_, ?_⟩
      · dsimp only
        rw [hfirstIdx, Option.bind_eq_bind, Option.bind_some, hmoves]
        rfl
      · intro phi hphi e he hblock
        obtain ⟨m, hm, hmid, d, hd, hdsrc, hdeval⟩ := hvalues phi hphi
        rw [← hmid, moveAll_of_mem hindep hm, hdeval, hagree phi hphi d hd e he (hdsrc.trans hblock.symm)]
      · intro r hr hnot
        rw [moveAll_of_not_mem, hfresh.copies_old hr]
        intro m hm heq
        have hmem : m.1 ∈ (reference :: rest).map PHINode.id := hdests ▸ List.mem_map_of_mem hm
        obtain ⟨phi, hphi, hid⟩ := List.mem_map.1 hmem
        exact hnot phi hphi (hid.trans heq)

/-- **Executing the PHI nodes in order is executing them at once**: after the pass, for every block, every predecessor of it and
whatever the registers hold, every PHI gets the value that its own entry for the predecessor had, and no other register
changes. -/
theorem runOnFunction_simultaneous {f₀ : IRFunction} (hwf : WellFormed f₀) :
    ∃ f, runOnFunction f₀ = (some ⟨⟩, f) ∧
      ∀ dst ∈ f₀.blocks, ∀ src, (∀ phi ∈ f₀.phis dst, src ∈ phi.blocks) →
        ∀ (V : Type) (consts : ℕ → V) (regs : ℕ → V), ∃ regs', transfer f consts src dst regs = some regs' ∧
          (∀ phi ∈ f₀.phis dst, Simultaneous consts src regs phi (regs' phi.id)) ∧
          ∀ r < f₀.nextInst, (∀ phi ∈ f₀.phis dst, phi.id ≠ r) → regs' r = regs r := by
  obtain ⟨u, f, hrun, hfresh, hcleaned⟩ := (runOnFunction_cleaned hwf).exists_result
  exact ⟨f, hrun, fun dst hdst src hsrc V consts regs => transfer_of_cleaned hwf hfresh (hcleaned dst hdst) hsrc⟩

/-- A loop on block `1` that swaps two registers, with the entries of its PHI nodes in different orders. -/
def swapLoop : IRFunction where
  blocks := [0, 1]
  phis block := if block = 1 then [⟨0, [(0, .const 1), (1, .reg 1)]⟩, ⟨1, [(1, .reg 0), (0, .const 2)]⟩] else []
  copies _ := []
  nextInst := 2

theorem swapLoop_phis {block : ℕ} {phi : PHINode} (h : phi ∈ swapLoop.phis block) :
    phi = ⟨0, [(0, .const 1), (1, .reg 1)]⟩ ∨ phi = ⟨1, [(1, .reg 0), (0, .const 2)]⟩ := by
  by_cases hblock : block = 1
  · simpa [swapLoop, hblock] using h
  · simp [swapLoop, hblock] at h

theorem swapLoop_wellFormed : WellFormed swapLoop where
  blocks := by decide
  copies _ := rfl
  ids block := by
    by_cases hblock : block = 1
    · simp [swapLoop, hblock]
    · simp [swapLoop, hblock]
  id_lt block phi hphi := by
    rcases swapLoop_phis hphi with rfl | rfl
    · decide
    · decide
  value_lt block phi hphi e he id heq := by
    rcases swapLoop_phis hphi with rfl | rfl
    · rcases List.mem_pair.1 he with rfl | rfl
      · cases heq
      · cases heq
        decide
    · rcases List.mem_pair.1 he with rfl | rfl
      · cases heq
        decide
      · cases heq
  predecessors block phi hphi phi' hphi' := by
    rcases swapLoop_phis hphi with rfl | rfl
    · rcases swapLoop_phis hphi' with rfl | rfl
      · exact .refl _
      · exact .swap 1 0 []
    · rcases swapLoop_phis hphi' with rfl | rfl
      · exact .swap 0 1 []
      · exact .refl _
  agree block phi hphi e he e' he' hblock := by
    rcases swapLoop_phis hphi with rfl | rfl
    · rcases List.mem_pair.1 he with rfl | rfl
      · rcases List.mem_pair.1 he' with rfl | rfl
        · rfl
        · cases hblock
      · rcases List.mem_pair.1 he' with rfl | rfl
        · cases hblock
        · rfl
    · rcases List.mem_pair.1 he with rfl | rfl
      · rcases List.mem_pair.1 he' with rfl | rfl
        · rfl
        · cases hblock
      · rcases List.mem_pair.1 he' with rfl | rfl
        · cases hblock
        · rfl

/-- Around the loop the two registers are swapped. -/
theorem simultaneous_swapLoop :
    ∃ f, runOnFunction swapLoop = (some ⟨⟩, f) ∧
      ∀ (V : Type) (consts regs : ℕ → V), ∃ regs', transfer f consts 1 1 regs = some regs' ∧ regs' 0 = regs 1 ∧
        regs' 1 = regs 0 := by
  obtain ⟨f, hrun, hall⟩ := runOnFunction_simultaneous swapLoop_wellFormed
  refine ⟨f, hrun, fun V consts regs => ?_⟩
  have hsrc : ∀ phi ∈ swapLoop.phis 1, 1 ∈ phi.blocks := by decide
  obtain ⟨regs', hres, hvalues, -⟩ := hall 1 (by decide) 1 hsrc V consts regs
  have hfirst := hvalues ⟨0, [(0, .const 1), (1, .reg 1)]⟩ List.mem_cons_self (1, .reg 1) (by decide) rfl
  have hsecond := hvalues ⟨1, [(1, .reg 0), (0, .const 2)]⟩ (List.mem_cons_of_mem _ List.mem_cons_self) (1, .reg 0)
    (by decide) rfl
  exact ⟨regs', hres, hfirst, hsecond⟩

end PhiCleaner

end SymBisect
