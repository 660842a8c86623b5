import SymBisect.Lib.Prog
import SymBisect.Module.PHINode

/-!
# Switch lowering

`LowerSwitchPass` of `lib/Module/LowerSwitch.cpp`: every `switch` becomes a chain of comparisons, one new block for each case
and one for the default, and the PHI entries of a successor are renamed, one for each edge.

* `Law`: the PHI entries of a block count the edges into the PHI's block.
* `redirect_spec`: moving one edge to a new block keeps the law.
* `Chain`: the comparisons, in the order of the cases.
* `processSwitchInst_spec`, `runOnFunction_lowered`: one switch, then the loop over the blocks.
* `runOnFunction_preserves`: for every value of the condition the chain ends in the successor of the switch, over one edge,
  whose PHI entries are those of the switch.

Of a block, the PHI nodes and the terminator are modelled.  New blocks end in branches, so it does not matter whether the loop
passes over them.
-/

namespace SymBisect

open Lib

namespace LowerSwitch

/-- The last instruction of a block.  A block of the pass compares with a case value and branches on the result. -/
inductive Terminator (K : Type) where
  | switch (condition : IRValue) (defaultDest : ℕ) (cases : List (K × ℕ))
  | br (dest : ℕ)
  | condBr (value : IRValue) (caseValue : K) (ifTrue ifFalse : ℕ)
  | other (successors : List ℕ)

/-- The successors of a block, one for each edge. -/
def Terminator.successors {K : Type} : Terminator K → List ℕ
  | .switch _ defaultDest cases => defaultDest :: cases.map Prod.snd
  | .br dest => [dest]
  | .condBr _ _ ifTrue ifFalse => [ifTrue, ifFalse]
  | .other successors => successors

/-- A function: its blocks, the PHI nodes and the terminator of each, and the next new block. -/
structure IRFunction (K : Type) where
  blocks : List ℕ
  phis : ℕ → List PHINode
  term : ℕ → Terminator K
  nextBlock : ℕ

variable {K : Type}

/-! ### The pass -/

/-- `BasicBlock::Create` with its terminator. -/
def createBlock (t : Terminator K) : Prog (IRFunction K) ℕ := do
  let f ← Prog.get
  Prog.modify fun f => { f with term := Function.update f.term f.nextBlock t, nextBlock := f.nextBlock + 1 }
  pure f.nextBlock

/-- If there are any PHI nodes in the block, rewrite one entry of each from `origBlock` to come from `newBlock`. -/
def redirect (block origBlock newBlock : ℕ) : Prog (IRFunction K) PUnit := do
  let f ← Prog.get
  -- Switch didn't go to this successor??
  let phis ← Prog.unwrap ((f.phis block).mapM fun phi =>
    (phi.getBasicBlockIndex origBlock).map fun blockIndex => phi.setIncomingBlock blockIndex newBlock)
  Prog.modify fun f => { f with phis := Function.update f.phis block phis }

/-- `switchConvert` behind the block `curHead`; the block the chain starts with. -/
def switchConvert (value : IRValue) (origBlock : ℕ) : List (K × ℕ) → ℕ → Prog (IRFunction K) ℕ
  | [], curHead => pure curHead
  | (caseValue, block) :: cases, curHead => do
    let newBlock ← createBlock (.condBr value caseValue block curHead)
    redirect block origBlock newBlock
    switchConvert value origBlock cases newBlock

/-- `processSwitchInst`. -/
def processSwitchInst (origBlock : ℕ) (switchValue : IRValue) (defaultBlock : ℕ) (cases : List (K × ℕ)) :
    Prog (IRFunction K) PUnit := do
  -- Create a new, empty default block so that the new hierarchy of if-then statements go to this.
  let newDefault ← createBlock (.br defaultBlock)
  redirect defaultBlock origBlock newDefault
  -- reverse cases, as switchConvert constructs a chain of basic blocks by appending to the front
  let head ← switchConvert switchValue origBlock cases.reverse newDefault
  Prog.modify fun f => { f with term := Function.update f.term origBlock (.br head) }

/-- The body of the loop over the blocks. -/
def lowerBlock (cur : ℕ) : Prog (IRFunction K) PUnit := do
  let f ← Prog.get
  match f.term cur with
  | .switch switchValue defaultBlock cases => processSwitchInst cur switchValue defaultBlock cases
  | _ => pure ⟨⟩

/-- `runOnFunction`. -/
def runOnFunction : Prog (IRFunction K) PUnit := do
  let f ← Prog.get
  Prog.each lowerBlock f.blocks

/-! ### What the pass is given -/

/-- The PHI entries count the edges: `pending b` are the edges out of `b` that PHI nodes have an entry for. -/
def Law (f : IRFunction K) (pending : ℕ → List ℕ) : Prop :=
  ∀ block, ∀ phi ∈ f.phis block, ∀ b, phi.blocks.count b = (pending b).count block

/-- Blocks and successors are numbered below the next new block, and every PHI has one entry for each edge, with one value for
the edges from one block. -/
structure WellFormed (f : IRFunction K) : Prop where
  blocks : f.blocks.Nodup
  block_lt : ∀ b ∈ f.blocks, b < f.nextBlock
  successor_lt : ∀ b, ∀ s ∈ (f.term b).successors, s < f.nextBlock
  phis : ∀ b, f.nextBlock ≤ b → f.phis b = []
  term : ∀ b, f.nextBlock ≤ b → (f.term b).successors = []
  law : Law f fun b => (f.term b).successors
  agree : ∀ block, ∀ phi ∈ f.phis block, ∀ e ∈ phi.incoming, ∀ e' ∈ phi.incoming, e.1 = e'.1 → e.2 = e'.2

/-- The successor a `switch` goes to. -/
def switchTarget [DecidableEq K] (k : K) (defaultDest : ℕ) : List (K × ℕ) → ℕ
  | [] => defaultDest
  | (caseValue, block) :: cases => if k = caseValue then block else switchTarget k defaultDest cases

/-- The block after a block, where the terminator and the values of operands determine it. -/
def Terminator.next [DecidableEq K] (eval : IRValue → K) : Terminator K → Option ℕ
  | .switch condition defaultDest cases => some (switchTarget (eval condition) defaultDest cases)
  | .br dest => some dest
  | .condBr value caseValue ifTrue ifFalse => some (if eval value = caseValue then ifTrue else ifFalse)
  | .other _ => none

/-- Through blocks numbered from `first` on, control comes from `b` over the block `p` to an older block. -/
inductive Leads [DecidableEq K] (f : IRFunction K) (first : ℕ) (eval : IRValue → K) : ℕ → ℕ → ℕ → Prop
  | last {b s : ℕ} (hnext : (f.term b).next eval = some s) (hold : s < first) : Leads f first eval b b s
  | step {b n p s : ℕ} (hnext : (f.term b).next eval = some n) (hnew : first ≤ n) (hrest : Leads f first eval n p s) :
      Leads f first eval b p s

/-- From `head` on, a comparison for each case in order, then a branch to the default; `P` holds of every block. -/
inductive Chain (f : IRFunction K) (P : ℕ → Prop) (value : IRValue) (defaultDest : ℕ) : List (K × ℕ) → ℕ → Prop
  | default {head : ℕ} (hP : P head) (hterm : f.term head = .br defaultDest) : Chain f P value defaultDest [] head
  | compare {head next block : ℕ} {caseValue : K} {cases : List (K × ℕ)} (hP : P head)
      (hterm : f.term head = .condBr value caseValue block next) (hrest : Chain f P value defaultDest cases next) :
      Chain f P value defaultDest ((caseValue, block) :: cases) head

variable {f f' f₀ : IRFunction K} {pending pending' : ℕ → List ℕ} {origin origin' : ℕ → ℕ}
  {block origBlock newBlock : ℕ} {phi phi' : PHINode}

/-! ### Entries -/

/-- An entry of a PHI and what has become of it: the value is the same, and the block is the same or a new one made for it. -/
def SameEntry (origin : ℕ → ℕ) (e e' : ℕ × IRValue) : Prop := e'.2 = e.2 ∧ origin e'.1 = e.1

/-- A PHI and what has become of it. -/
def SamePHI (origin : ℕ → ℕ) (phi phi' : PHINode) : Prop :=
  phi'.id = phi.id ∧ List.Forall₂ (SameEntry origin) phi.incoming phi'.incoming

/-- The PHI nodes of a function and what has become of them. -/
def SamePHIs (f₀ f : IRFunction K) (origin : ℕ → ℕ) : Prop :=
  ∀ block, List.Forall₂ (SamePHI origin) (f₀.phis block) (f.phis block)

theorem forall₂_imp_of_mem {α β : Type*} {R S : α → β → Prop} {l : List α} {l' : List β} (h : List.Forall₂ R l l')
    (himp : ∀ a ∈ l, ∀ b ∈ l', R a b → S a b) : List.Forall₂ S l l' := by
  induction h with
  | nil => exact .nil
  | cons hhead _ ih =>
    exact .cons (himp _ List.mem_cons_self _ List.mem_cons_self hhead)
      (ih fun a ha b hb => himp a (List.mem_cons_of_mem _ ha) b (List.mem_cons_of_mem _ hb))

theorem forall₂_exists_left {α β : Type*} {R : α → β → Prop} {l : List α} {l' : List β} (h : List.Forall₂ R l l') {b : β}
    (hb : b ∈ l') : ∃ a ∈ l, R a b := by
  induction h with
  | nil => exact absurd hb List.not_mem_nil
  | @cons a b' l l' hhead _ ih =>
    rcases List.mem_cons.1 hb with rfl | hb
    · exact ⟨a, List.mem_cons_self, hhead⟩
    · obtain ⟨a', ha', hR⟩ := ih hb
      exact ⟨a', List.mem_cons_of_mem _ ha', hR⟩

theorem forall₂_comp {α β γ : Type*} {R : α → β → Prop} {S : β → γ → Prop} {T : α → γ → Prop} {l : List α} {l' : List β}
    {l'' : List γ} (h : List.Forall₂ R l l') (h' : List.Forall₂ S l' l'')
    (hcomp : ∀ a b c, b ∈ l' → R a b → S b c → T a c) : List.Forall₂ T l l'' := by
  induction h generalizing l'' with
  | nil =>
    cases h'
    exact .nil
  | cons hhead _ ih =>
    cases h' with
    | cons hhead' htail' =>
      exact .cons (hcomp _ _ _ List.mem_cons_self hhead hhead')
        (ih htail' fun a b c hb => hcomp a b c (List.mem_cons_of_mem _ hb))

theorem count_blocks_eq_length (phi : PHINode) (b : ℕ) :
    phi.blocks.count b = (phi.incoming.filter fun e => e.1 = b).length := by
  rw [← List.countP_eq_length_filter, PHINode.blocks, List.count, List.countP_map]
  rfl

/-- Renaming one entry moves one count. -/
theorem count_setIncomingBlock {i : ℕ} (h : phi.getBasicBlockIndex origBlock = some i) (hne : newBlock ≠ origBlock)
    (hnew : phi.blocks.count newBlock = 0) (b : ℕ) :
    (phi.setIncomingBlock i newBlock).blocks.count b =
      if b = newBlock then 1 else if b = origBlock then phi.blocks.count b - 1 else phi.blocks.count b := by
  obtain ⟨es, v, es', hsplit, hset⟩ := PHINode.setIncomingBlock_incoming h newBlock
  have hblocks : phi.blocks = es.map Prod.fst ++ origBlock :: es'.map Prod.fst := by simp [PHINode.blocks, hsplit]
  have hblocks' : (phi.setIncomingBlock i newBlock).blocks = es.map Prod.fst ++ newBlock :: es'.map Prod.fst := by
    simp [PHINode.blocks, hset]
  rw [hblocks, List.count_append, List.count_cons] at hnew
  rw [hblocks', hblocks, List.count_append, List.count_append, List.count_cons, List.count_cons]
  by_cases hb : b = newBlock
  · subst hb
    simp only [beq_self_eq_true, if_true]
    omega
  · have hb' : (newBlock == b) = false := beq_eq_false_iff_ne.2 (Ne.symm hb)
    rw [if_neg hb, hb']
    by_cases ho : b = origBlock
    · subst ho
      simp
    · have ho' : (origBlock == b) = false := beq_eq_false_iff_ne.2 (Ne.symm ho)
      rw [if_neg ho, ho']

/-- Renaming an entry to a new block made for its block. -/
theorem SamePHI.setIncomingBlock {i : ℕ} (h : SamePHI origin phi phi') (hidx : phi'.getBasicBlockIndex origBlock = some i)
    (hnew : phi'.blocks.count newBlock = 0) :
    SamePHI (Function.update origin newBlock (origin origBlock)) phi (phi'.setIncomingBlock i newBlock) := by
  obtain ⟨hid, hall⟩ := h
  obtain ⟨es, v, es', hsplit, hset⟩ := PHINode.setIncomingBlock_incoming hidx newBlock
  refine ⟨hid, ?_⟩
  rw [hset]
  rw [PHINode.blocks, hsplit] at hnew
  rw [hsplit] at hall
  clear hset hsplit hid hidx
  -- up to the entry and behind it, the blocks are older than the new one
  have hkeep : ∀ e e' : ℕ × IRValue, e'.1 ≠ newBlock → SameEntry origin e e' →
      SameEntry (Function.update origin newBlock (origin origBlock)) e e' := fun e e' hne hsame =>
    ⟨hsame.1, by rw [Function.update_of_ne hne, hsame.2]⟩
  generalize phi.incoming = ds at hall
  have hold : ∀ e' ∈ es ++ (origBlock, v) :: es', e'.1 ≠ newBlock := fun e' he' heq =>
    List.count_eq_zero.1 hnew (heq ▸ List.mem_map_of_mem he')
  clear hnew
  induction es generalizing ds with
  | nil =>
    cases hall with
    | @cons d _ ds _ hhead htail =>
      refine .cons ⟨hhead.1, ?_⟩ ?_
      · show Function.update origin newBlock (origin origBlock) newBlock = d.1
        rw [Function.update_self]
        exact hhead.2
      · exact forall₂_imp_of_mem htail fun e _ e' he' hsame => hkeep e e' (hold e' (List.mem_cons_of_mem _ he')) hsame
  | cons e' es ih =>
    cases hall with
    | cons hhead htail =>
      exact .cons (hkeep _ _ (hold _ List.mem_cons_self) hhead)
        (ih _ htail fun d hd => hold d (List.mem_cons_of_mem _ hd))

/-- A new block that is in no entry makes no difference. -/
theorem SamePHI.update (h : SamePHI origin phi phi') (hnew : phi'.blocks.count newBlock = 0) (b : ℕ) :
    SamePHI (Function.update origin newBlock b) phi phi' := by
  refine ⟨h.1, forall₂_imp_of_mem h.2 fun e _ e' he' hsame => ⟨hsame.1, ?_⟩⟩
  have hne : e'.1 ≠ newBlock := fun heq => List.count_eq_zero.1 hnew (heq ▸ List.mem_map_of_mem he')
  rw [Function.update_of_ne hne, hsame.2]

/-! ### Redirecting an edge -/

/-- A PHI with one entry renamed. -/
def Renamed (origBlock newBlock : ℕ) (phi phi' : PHINode) : Prop :=
  ∃ i, phi.getBasicBlockIndex origBlock = some i ∧ phi' = phi.setIncomingBlock i newBlock

/-- Every PHI with an entry for the block is renamed. -/
theorem mapM_setIncomingBlock (newBlock : ℕ) (phis : List PHINode) (h : ∀ phi ∈ phis, origBlock ∈ phi.blocks) :
    ∃ phis', (phis.mapM fun phi => (phi.getBasicBlockIndex origBlock).map fun i => phi.setIncomingBlock i newBlock) = some phis' ∧
      List.Forall₂ (Renamed origBlock newBlock) phis phis' := by
  induction phis with
  | nil => exact ⟨[], rfl, .nil⟩
  | cons phi phis ih =>
    obtain ⟨i, hi, -⟩ := PHINode.getBasicBlockIndex_isSome (h phi List.mem_cons_self)
    obtain ⟨phis', hres, hall⟩ := ih fun p hp => h p (List.mem_cons_of_mem _ hp)
    refine ⟨phi.setIncomingBlock i newBlock :: phis', ?_, .cons ⟨i, hi, rfl⟩ hall⟩
    rw [List.mapM_cons, hi, hres]
    rfl

/-- **One edge is moved to a new block**: the entries still count the edges, and the new block stands for the old one. -/
theorem redirect_spec {rest : List ℕ} (hlaw : Law f pending) (horig : pending origBlock = block :: rest)
    (hnew : pending newBlock = []) (hsame : SamePHIs f₀ f origin) :
    Prog.wp (redirect block origBlock newBlock)
      (fun _ f' => f' = { f with phis := f'.phis } ∧ (∀ b, f.phis b = [] → f'.phis b = []) ∧
        Law f' (Function.update (Function.update pending origBlock rest) newBlock [block]) ∧
        SamePHIs f₀ f' (Function.update origin newBlock (origin origBlock)))
      (fun _ => False) f := by
  have hne : newBlock ≠ origBlock := by
    rintro rfl
    rw [horig] at hnew
    cases hnew
  have hnone : ∀ b, ∀ phi ∈ f.phis b, phi.blocks.count newBlock = 0 := by
    intro b phi hphi
    rw [hlaw b phi hphi, hnew, List.count_nil]
  obtain ⟨phis', hres, hall⟩ := mapM_setIncomingBlock newBlock (f.phis block) fun phi hphi => by
    rw [← List.count_pos_iff, hlaw block phi hphi, horig]
    exact List.count_pos_iff.2 List.mem_cons_self
  show Prog.wp (Prog.unwrap ((f.phis block).mapM fun phi =>
    (phi.getBasicBlockIndex origBlock).map fun i => phi.setIncomingBlock i newBlock) >>= fun phis =>
      Prog.modify fun f => { f with phis := Function.update f.phis block phis }) _ _ f
  rw [hres]
  refine ⟨rfl, ?_, ?_, ?_⟩
  · intro b hb
    show Function.update f.phis block phis' b = []
    by_cases heq : b = block
    · subst heq
      rw [hb] at hall
      cases hall
      exact Function.update_self ..
    · rwa [Function.update_of_ne heq]
  · intro b phi hphi c
    have hphi' : phi ∈ Function.update f.phis block phis' b := hphi
    by_cases heq : b = block
    · subst heq
      rw [Function.update_self] at hphi'
      obtain ⟨phi₀, hphi₀, i, hi, rfl⟩ := forall₂_exists_left hall hphi'
      rw [count_setIncomingBlock hi hne (hnone b phi₀ hphi₀)]
      by_cases hc : c = newBlock
      · rw [if_pos hc, hc, Function.update_self]
        simp
      · rw [if_neg hc, Function.update_of_ne hc, hlaw b phi₀ hphi₀]
        by_cases hco : c = origBlock
        · rw [if_pos hco, hco, Function.update_self, horig]
          simp
        · rw [if_neg hco, Function.update_of_ne hco]
    · rw [Function.update_of_ne heq] at hphi'
      have hother : ([block] : List ℕ).count b = 0 := by simp [Ne.symm heq]
      rw [hlaw b phi hphi']
      by_cases hc : c = newBlock
      · rw [hc, Function.update_self, hnew, List.count_nil, hother]
      · rw [Function.update_of_ne hc]
        by_cases hco : c = origBlock
        · rw [hco, Function.update_self, horig, List.count_cons_of_ne (Ne.symm heq)]
        · rw [Function.update_of_ne hco]
  · intro b
    show List.Forall₂ _ (f₀.phis b) (Function.update f.phis block phis' b)
    by_cases heq : b = block
    · subst heq
      rw [Function.update_self]
      exact forall₂_comp (hsame b) hall fun phi phi' phi'' hphi' hsame' hrenamed => by
        obtain ⟨i, hi, rfl⟩ := hrenamed
        exact hsame'.setIncomingBlock hi (hnone b phi' hphi')
    · rw [Function.update_of_ne heq]
      exact forall₂_imp_of_mem (hsame b) fun phi _ phi' hphi' hsame' => hsame'.update (hnone b phi' hphi') _

/-! ### One switch -/

/-- What holds between the steps of the pass: the new blocks have no PHI nodes and at most one edge to an older block, and the
entries count the pending edges. -/
structure Inv (f₀ f : IRFunction K) (origin : ℕ → ℕ) (pending : ℕ → List ℕ) : Prop where
  le : f₀.nextBlock ≤ f.nextBlock
  phis : ∀ b, f₀.nextBlock ≤ b → f.phis b = []
  term : ∀ b, f.nextBlock ≤ b → (f.term b).successors = []
  single : ∀ b, f₀.nextBlock ≤ b → ∀ s < f₀.nextBlock, (f.term b).successors.count s ≤ 1
  law : Law f pending
  same : SamePHIs f₀ f origin
  origin : ∀ b < f₀.nextBlock, origin b = b

/-- The edges out of a switch block that still have to be moved, and the edges out of every other block. -/
def pendingAt (f : IRFunction K) (b : ℕ) (rest : List ℕ) : ℕ → List ℕ :=
  Function.update (fun n => (f.term n).successors) b rest

/-- Only the edges to blocks with PHI nodes count. -/
theorem Law.congr (h : Law f pending)
    (hcount : ∀ block, f.phis block ≠ [] → ∀ b, (pending b).count block = (pending' b).count block) : Law f pending' := by
  intro block phi hphi b
  rw [← hcount block (List.ne_nil_of_mem hphi)]
  exact h block phi hphi b

/-- What one new block and one moved edge change. -/
structure Moved (f₀ f f' : IRFunction K) (origin : ℕ → ℕ) (b : ℕ) (rest : List ℕ) (t : Terminator K) : Prop where
  inv : Inv f₀ f' (Function.update origin f.nextBlock b) (pendingAt f' b rest)
  term : f'.term = Function.update f.term f.nextBlock t
  nextBlock : f'.nextBlock = f.nextBlock + 1

/-- A new block takes over an edge of the switch. -/
theorem moveEdge_spec {b s : ℕ} {rest others : List ℕ} {t : Terminator K} (hinv : Inv f₀ f origin (pendingAt f b (s :: rest)))
    (hb : b < f₀.nextBlock) (hsucc : t.successors = s :: others) (hothers : ∀ n ∈ others, f₀.nextBlock ≤ n) :
    Prog.wp (createBlock t) (fun n g => n = f.nextBlock ∧
      Prog.wp (redirect s b n) (fun _ f' => Moved f₀ f f' origin b rest t) (fun _ => False) g) (fun _ => False) f := by
  refine ⟨rfl, ?_⟩
  have hle := hinv.le
  have hne : f.nextBlock ≠ b := by omega
  have hfresh : pendingAt f b (s :: rest) f.nextBlock = [] := by
    rw [pendingAt, Function.update_of_ne hne, hinv.term _ le_rfl]
  have hpending : pendingAt f b (s :: rest) b = s :: rest := Function.update_self ..
  refine (redirect_spec (f := { f with term := Function.update f.term f.nextBlock t, nextBlock := f.nextBlock + 1 })
    hinv.law hpending hfresh hinv.same).mono (fun _ f' hf' => ?_) fun _ h => h
  obtain ⟨hf', hphis, hlaw, hsame⟩ := hf'
  have hterm : f'.term = Function.update f.term f.nextBlock t := by rw [hf']
  have hnext : f'.nextBlock = f.nextBlock + 1 := by rw [hf']
  have hnophis : ∀ n, f₀.nextBlock ≤ n → f'.phis n = [] := fun n hn => hphis n (hinv.phis n hn)
  refine ⟨⟨?_, hnophis, ?_, ?_, ?_, ?_, ?_⟩, hterm, hnext⟩
  · rw [hnext]
    exact Nat.le_succ_of_le hle
  · intro n hn
    rw [hnext] at hn
    have hne' : n ≠ f.nextBlock := by omega
    rw [hterm, Function.update_of_ne hne']
    exact hinv.term n (by omega)
  · intro n hn s' hs'
    by_cases hnew : n = f.nextBlock
    · have hothers' : others.count s' = 0 := List.count_eq_zero.2 fun hmem => by
        have hge := hothers s' hmem
        omega
      rw [hterm, hnew, Function.update_self, hsucc, List.count_cons, hothers']
      split <;> omega
    · rw [hterm, Function.update_of_ne hnew]
      exact hinv.single n hn s' hs'
  · refine hlaw.congr fun block hblock n => ?_
    have hold : block < f₀.nextBlock := by
      by_contra hge
      exact hblock (hnophis block (Nat.not_lt.1 hge))
    by_cases hn : n = f.nextBlock
    · subst hn
      have hothers' : others.count block = 0 := List.count_eq_zero.2 fun hmem => by
        have hge := hothers block hmem
        omega
      rw [Function.update_self, pendingAt, Function.update_of_ne hne, hterm, Function.update_self, hsucc,
        List.count_cons, List.count_cons, List.count_nil, hothers']
    · rw [Function.update_of_ne hn]
      by_cases hnb : n = b
      · rw [hnb, Function.update_self, pendingAt, Function.update_self]
      · rw [Function.update_of_ne hnb, pendingAt, pendingAt, Function.update_of_ne hnb, Function.update_of_ne hnb, hterm,
          Function.update_of_ne hn]
  · rw [hinv.origin b hb] at hsame
    exact hsame
  · intro n hn
    have hne' : n ≠ f.nextBlock := by omega
    rw [Function.update_of_ne hne', hinv.origin n hn]

/-- The blocks made for `b`. -/
def MadeFor (f₀ f : IRFunction K) (origin : ℕ → ℕ) (b n : ℕ) : Prop :=
  f₀.nextBlock ≤ n ∧ n < f.nextBlock ∧ origin n = b

/-- Chains are kept by what changes neither their blocks nor what holds of them. -/
theorem Chain.imp {P Q : ℕ → Prop} {value : IRValue} {d head : ℕ} {cases : List (K × ℕ)} (h : Chain f P value d cases head)
    (hterm : ∀ n, P n → f'.term n = f.term n) (hP : ∀ n, P n → Q n) : Chain f' Q value d cases head := by
  induction h with
  | default hp ht => exact .default (hP _ hp) ((hterm _ hp).trans ht)
  | compare hp ht _ ih => exact .compare (hP _ hp) ((hterm _ hp).trans ht) ih

theorem Chain.head {P : ℕ → Prop} {value : IRValue} {d head : ℕ} {cases : List (K × ℕ)} (h : Chain f P value d cases head) :
    P head := by
  cases h with
  | default hp _ => exact hp
  | compare hp _ _ => exact hp

/-- What a part of the pass leaves alone: the older blocks other than the switch blocks it works on. -/
structure Frame (f f' : IRFunction K) (origin origin' : ℕ → ℕ) (bs : List ℕ) : Prop where
  le : f.nextBlock ≤ f'.nextBlock
  term : ∀ n < f.nextBlock, n ∉ bs → f'.term n = f.term n
  origin : ∀ n < f.nextBlock, origin' n = origin n

theorem Moved.frame {b : ℕ} {rest : List ℕ} {t : Terminator K} (h : Moved f₀ f f' origin b rest t) :
    Frame f f' origin (Function.update origin f.nextBlock b) [b] where
  le := by rw [h.nextBlock]; exact Nat.le_succ _
  term n hn _ := by rw [h.term, Function.update_of_ne (Nat.ne_of_lt hn)]
  origin n hn := Function.update_of_ne (Nat.ne_of_lt hn) _ _

theorem Frame.trans {g : IRFunction K} {origin'' : ℕ → ℕ} {bs : List ℕ} (h : Frame f f' origin origin' bs)
    (h' : Frame f' g origin' origin'' bs) : Frame f g origin origin'' bs where
  le := h.le.trans h'.le
  term n hn hne := (h'.term n (hn.trans_le h.le) hne).trans (h.term n hn hne)
  origin n hn := (h'.origin n (hn.trans_le h.le)).trans (h.origin n hn)

/-- The blocks made for a switch, and the chain through them, survive what leaves older blocks alone. -/
theorem Chain.frame {bs : List ℕ} {c : ℕ} {value : IRValue} {d head : ℕ} {cases : List (K × ℕ)}
    (h : Chain f (MadeFor f₀ f origin c) value d cases head) (hframe : Frame f f' origin origin' bs)
    (hbs : ∀ b ∈ bs, b < f₀.nextBlock) : Chain f' (MadeFor f₀ f' origin' c) value d cases head := by
  refine h.imp (fun n hn => hframe.term n hn.2.1 ?_) fun n hn => ⟨hn.1, hn.2.1.trans_le hframe.le, ?_⟩
  · intro hmem
    have hge := hn.1
    have hlt := hbs n hmem
    omega
  · rw [hframe.origin n hn.2.1]
    exact hn.2.2

/-- **The chain of a switch**, built from the last case to the first. -/
theorem switchConvert_spec {value : IRValue} {b d : ℕ} (hb : b < f₀.nextBlock) : ∀ (cases : List (K × ℕ)) {f : IRFunction K}
    {origin : ℕ → ℕ} {curHead : ℕ} {done : List (K × ℕ)}, Inv f₀ f origin (pendingAt f b (cases.map Prod.snd)) →
    Chain f (MadeFor f₀ f origin b) value d done curHead →
    Prog.wp (switchConvert value b cases curHead)
      (fun head f' => ∃ origin', Inv f₀ f' origin' (pendingAt f' b []) ∧ Frame f f' origin origin' [b] ∧
        Chain f' (MadeFor f₀ f' origin' b) value d (cases.reverse ++ done) head)
      (fun _ => False) f := by
  intro cases
  induction cases with
  | nil =>
    intro f origin curHead done hinv hchain
    exact ⟨origin, hinv, ⟨le_rfl, fun _ _ _ => rfl, fun _ _ => rfl⟩, hchain⟩
  | cons entry cases ih =>
    obtain ⟨caseValue, s⟩ := entry
    intro f origin curHead done hinv hchain
    refine (moveEdge_spec (t := .condBr value caseValue s curHead) hinv hb rfl ?_).bind fun n g hn => ?_
    · intro n hn
      obtain rfl := List.mem_singleton.1 hn
      exact hchain.head.1
    obtain ⟨rfl, hredirect⟩ := hn
    refine hredirect.bind fun _ h hmoved => ?_
    have hframe := hmoved.frame
    have hmade : MadeFor f₀ h (Function.update origin f.nextBlock b) b f.nextBlock := by
      refine ⟨hinv.le, ?_, Function.update_self ..⟩
      rw [hmoved.nextBlock]
      exact Nat.lt_succ_self _
    have hterm : h.term f.nextBlock = .condBr value caseValue s curHead := by rw [hmoved.term, Function.update_self]
    have hold := hchain.frame hframe (by simpa using hb)
    refine (ih hmoved.inv (.compare hmade hterm hold)).mono (fun head f' hf' => ?_) fun _ h => h
    obtain ⟨origin', hinv', hframe', hchain'⟩ := hf'
    refine ⟨origin', hinv', hframe.trans hframe', ?_⟩
    rw [List.reverse_cons, List.append_assoc]
    exact hchain'

/-- **One switch**: the entries count the edges again, and the block leads into the chain of its cases. -/
theorem processSwitchInst_spec {value : IRValue} {b d : ℕ} {cases : List (K × ℕ)}
    (hinv : Inv f₀ f origin fun n => (f.term n).successors) (hb : b < f₀.nextBlock)
    (hterm : f.term b = .switch value d cases) :
    Prog.wp (processSwitchInst b value d cases)
      (fun _ f' => ∃ origin', (Inv f₀ f' origin' fun n => (f'.term n).successors) ∧ Frame f f' origin origin' [b] ∧
        ∃ head, f'.term b = .br head ∧ Chain f' (MadeFor f₀ f' origin' b) value d cases head)
      (fun _ => False) f := by
  have hpending : Inv f₀ f origin (pendingAt f b (d :: cases.reverse.map Prod.snd)) := by
    refine ⟨hinv.le, hinv.phis, hinv.term, hinv.single, hinv.law.congr fun block _ n => ?_, hinv.same, hinv.origin⟩
    by_cases hn : n = b
    · subst hn
      have hperm : (d :: cases.map Prod.snd).Perm (d :: cases.reverse.map Prod.snd) :=
        .cons d ((List.reverse_perm cases).symm.map Prod.snd)
      rw [pendingAt, Function.update_self, hterm]
      exact hperm.count_eq block
    · rw [pendingAt, Function.update_of_ne hn]
  refine (moveEdge_spec (t := .br d) hpending hb rfl fun n hn => absurd hn List.not_mem_nil).bind fun n g hn => ?_
  obtain ⟨rfl, hredirect⟩ := hn
  refine hredirect.bind fun _ h hmoved => ?_
  have hmade : MadeFor f₀ h (Function.update origin f.nextBlock b) b f.nextBlock := by
    refine ⟨hinv.le, ?_, Function.update_self ..⟩
    rw [hmoved.nextBlock]
    exact Nat.lt_succ_self _
  have hdefault : h.term f.nextBlock = .br d := by rw [hmoved.term, Function.update_self]
  refine (switchConvert_spec hb cases.reverse hmoved.inv (.default hmade hdefault)).bind fun head k hk => ?_
  obtain ⟨origin', hinv', hframe, hchain⟩ := hk
  rw [List.reverse_reverse, List.append_nil] at hchain
  have hb' : b < k.nextBlock := hb.trans_le hinv'.le
  have hother : ∀ n, n ≠ b → Function.update k.term b (.br head) n = k.term n := fun n hn => Function.update_of_ne hn _ _
  refine ⟨origin', ⟨hinv'.le, hinv'.phis, ?_, ?_, ?_, hinv'.same, hinv'.origin⟩, ?_, head, Function.update_self .., ?_⟩
  · intro n hn
    have hn' : k.nextBlock ≤ n := hn
    show ((Function.update k.term b (.br head)) n).successors = []
    rw [hother n (by omega)]
    exact hinv'.term n hn
  · intro n hn s hs
    show ((Function.update k.term b (.br head)) n).successors.count s ≤ 1
    rw [hother n (by omega)]
    exact hinv'.single n hn s hs
  · have hlaw : Law k fun n => (Function.update k.term b (.br head) n).successors := by
      refine hinv'.law.congr fun block hblock n => ?_
      by_cases hn : n = b
      · subst hn
        have hne : head ≠ block := by
          rintro rfl
          exact hblock (hinv'.phis head hchain.head.1)
        rw [pendingAt, Function.update_self, Function.update_self]
        show 0 = ([head] : List ℕ).count block
        simp [hne]
      · rw [pendingAt, Function.update_of_ne hn, hother n hn]
    exact hlaw
  · have hframe' := hmoved.frame.trans hframe
    exact ⟨hframe'.le, fun n hn hne => (hother n (by simpa using hne)).trans (hframe'.term n hn hne), hframe'.origin⟩
  · refine hchain.imp (fun n hn => hother n ?_) fun n hn => hn
    have hge := hn.1
    omega

/-! ### The function -/

/-- A block after the pass: a `switch` has become its chain, any other terminator is as before. -/
def Lowered (f₀ f : IRFunction K) (origin : ℕ → ℕ) (b : ℕ) : Prop :=
  match f₀.term b with
  | .switch value d cases => ∃ head, f.term b = .br head ∧ Chain f (MadeFor f₀ f origin b) value d cases head
  | t => f.term b = t

theorem Lowered.frame {bs : List ℕ} {b : ℕ} (h : Lowered f₀ f origin b) (hframe : Frame f f' origin origin' bs)
    (hbs : ∀ b ∈ bs, b < f₀.nextBlock) (hb : b < f.nextBlock) (hnot : b ∉ bs) : Lowered f₀ f' origin' b := by
  unfold Lowered at h ⊢
  rw [hframe.term b hb hnot]
  revert h
  cases f₀.term b with
  | switch value d cases =>
    rintro ⟨head, hhead, hchain⟩
    exact ⟨head, hhead, hchain.frame hframe hbs⟩
  | _ => exact id

/-- The body of the loop, on a block that is as it was. -/
theorem lowerBlock_spec {b : ℕ} (hinv : Inv f₀ f origin fun n => (f.term n).successors) (hb : b < f₀.nextBlock)
    (hterm : f.term b = f₀.term b) :
    Prog.wp (lowerBlock b)
      (fun _ f' => ∃ origin', (Inv f₀ f' origin' fun n => (f'.term n).successors) ∧ Frame f f' origin origin' [b] ∧
        Lowered f₀ f' origin' b)
      (fun _ => False) f := by
  have hsame : Frame f f origin origin [b] := ⟨le_rfl, fun _ _ _ => rfl, fun _ _ => rfl⟩
  show Prog.wp (match f.term b with
    | .switch switchValue defaultBlock cases => processSwitchInst b switchValue defaultBlock cases
    | _ => pure ⟨⟩) _ _ f
  unfold Lowered
  rw [hterm]
  cases hcase : f₀.term b with
  | switch value d cases => exact processSwitchInst_spec hinv hb (hterm.trans hcase)
  | br d => exact ⟨origin, hinv, hsame, hterm.trans hcase⟩
  | condBr v k s s' => exact ⟨origin, hinv, hsame, hterm.trans hcase⟩
  | other ss => exact ⟨origin, hinv, hsame, hterm.trans hcase⟩

theorem samePHIs_refl (f : IRFunction K) : SamePHIs f f id := fun _ =>
  List.forall₂_same.2 fun _ _ => ⟨rfl, List.forall₂_same.2 fun _ _ => ⟨rfl, rfl⟩⟩

/-- **The pass lowers every block**, and the entries count the edges. -/
theorem runOnFunction_lowered (hwf : WellFormed f₀) :
    Prog.wp runOnFunction
      (fun _ f => ∃ origin, (Inv f₀ f origin fun n => (f.term n).successors) ∧ ∀ b ∈ f₀.blocks, Lowered f₀ f origin b)
      (fun _ => False) f₀ := by
  have hrun : ∀ (bs : List ℕ), bs.Nodup → (∀ b ∈ bs, b < f₀.nextBlock) → ∀ (f : IRFunction K) (origin : ℕ → ℕ),
      (Inv f₀ f origin fun n => (f.term n).successors) → (∀ b ∈ bs, f.term b = f₀.term b) →
      Prog.wp (Prog.each lowerBlock bs)
        (fun _ f' => ∃ origin', (Inv f₀ f' origin' fun n => (f'.term n).successors) ∧ Frame f f' origin origin' bs ∧
          ∀ b ∈ bs, Lowered f₀ f' origin' b) (fun _ => False) f := by
    intro bs
    induction bs with
    | nil =>
      exact fun _ _ f origin hinv _ =>
        ⟨origin, hinv, ⟨le_rfl, fun _ _ _ => rfl, fun _ _ => rfl⟩, fun b hb => absurd hb List.not_mem_nil⟩
    | cons b bs ih =>
      intro hnodup hlt f origin hinv hterm
      obtain ⟨hnot, hnodup'⟩ := List.nodup_cons.1 hnodup
      have hb := hlt b List.mem_cons_self
      have hlt' : ∀ c ∈ bs, c < f₀.nextBlock := fun c hc => hlt c (List.mem_cons_of_mem _ hc)
      refine (lowerBlock_spec hinv hb (hterm b List.mem_cons_self)).bind fun _ g hg => ?_
      obtain ⟨origin', hinv', hframe, hlowered⟩ := hg
      refine (ih hnodup' hlt' g origin' hinv' fun c hc => ?_).mono (fun _ h hh => ?_) fun _ h => h
      · have hne : c ∉ [b] := by
          rw [List.mem_singleton]
          rintro rfl
          exact hnot hc
        rw [hframe.term c ((hlt' c hc).trans_le hinv.le) hne]
        exact hterm c (List.mem_cons_of_mem _ hc)
      · obtain ⟨origin'', hinv'', hframe', hrest⟩ := hh
        refine ⟨origin'', hinv'', ⟨hframe.le.trans hframe'.le, ?_, ?_⟩, ?_⟩
        · intro n hn hmem
          obtain ⟨hne, hmem'⟩ := not_or.1 fun h => hmem (List.mem_cons.2 h)
          rw [hframe'.term n (hn.trans_le hframe.le) hmem', hframe.term n hn (by simpa using hne)]
        · intro n hn
          rw [hframe'.origin n (hn.trans_le hframe.le), hframe.origin n hn]
        · intro c hc
          rcases List.mem_cons.1 hc with rfl | hc
          · exact hlowered.frame hframe' hlt' (hb.trans_le hinv'.le) hnot
          · exact hrest c hc
  have hinv : Inv f₀ f₀ id fun n => (f₀.term n).successors := by
    refine ⟨le_rfl, hwf.phis, hwf.term, ?_, hwf.law, samePHIs_refl f₀, fun _ _ => rfl⟩
    intro b hb s _
    rw [hwf.term b hb]
    exact Nat.zero_le _
  exact (hrun f₀.blocks hwf.blocks hwf.block_lt f₀ id hinv fun _ _ => rfl).mono
    (fun _ f h => by
      obtain ⟨origin, hinv', -, hall⟩ := h
      exact ⟨origin, hinv', hall⟩) fun _ h => h

/-! ### Control and values -/

variable [DecidableEq K] {eval : IRValue → K} {first : ℕ}

/-- There is one way through the new blocks. -/
theorem Leads.unique {b p p' s s' : ℕ} (h : Leads f first eval b p s) (h' : Leads f first eval b p' s') :
    p = p' ∧ s = s' := by
  induction h with
  | last hnext hold =>
    cases h' with
    | last hnext' _ => exact ⟨rfl, Option.some.inj (hnext.symm.trans hnext')⟩
    | step hnext' hnew _ =>
      obtain rfl := Option.some.inj (hnext.symm.trans hnext')
      omega
  | step hnext hnew _ ih =>
    cases h' with
    | last hnext' hold =>
      obtain rfl := Option.some.inj (hnext.symm.trans hnext')
      omega
    | step hnext' _ hrest' =>
      obtain rfl := Option.some.inj (hnext.symm.trans hnext')
      exact ih hrest'

/-- The chain leads to the successor of the switch, over an edge to it. -/
theorem Chain.leads {P : ℕ → Prop} {value : IRValue} {d head : ℕ} {cases : List (K × ℕ)} (h : Chain f P value d cases head)
    (eval : IRValue → K) (hP : ∀ n, P n → first ≤ n) (hd : d < first) (hcases : ∀ entry ∈ cases, entry.2 < first) :
    ∃ p, P p ∧ Leads f first eval head p (switchTarget (eval value) d cases) ∧
      switchTarget (eval value) d cases ∈ (f.term p).successors := by
  induction h with
  | @default head hp hterm =>
    have hnext : (f.term head).next eval = some d := by rw [hterm]; rfl
    refine ⟨head, hp, .last hnext hd, ?_⟩
    rw [hterm]
    exact List.mem_singleton.2 rfl
  | @compare head next block caseValue cases hp hterm hrest ih =>
    obtain ⟨p, hPp, hleads, hmem⟩ := ih fun entry hentry => hcases entry (List.mem_cons_of_mem _ hentry)
    rw [switchTarget]
    by_cases heq : eval value = caseValue
    · have hnext : (f.term head).next eval = some block := by
        rw [hterm]
        show some (if eval value = caseValue then block else next) = some block
        rw [if_pos heq]
      rw [if_pos heq]
      refine ⟨head, hp, .last hnext (hcases _ List.mem_cons_self), ?_⟩
      rw [hterm]
      exact List.mem_cons_self
    · have hnext : (f.term head).next eval = some next := by
        rw [hterm]
        show some (if eval value = caseValue then block else next) = some next
        rw [if_neg heq]
      rw [if_neg heq]
      exact ⟨p, hPp, .step hnext (hP _ hrest.head) hleads, hmem⟩

/-- Over the edge from `p` the PHI receives, by its only entry for `p`, the value it received from `b`. -/
def Receives (b p : ℕ) (phi phi' : PHINode) : Prop :=
  phi'.id = phi.id ∧ ∃ v, phi'.incoming.filter (fun e => e.1 = p) = [(p, v)] ∧ (b, v) ∈ phi.incoming ∧
    ∀ e ∈ phi.incoming, e.1 = b → e.2 = v

omit [DecidableEq K] in
theorem SamePHI.receives {b p : ℕ} (h : SamePHI origin phi phi') (horigin : origin p = b) (hcount : phi'.blocks.count p = 1)
    (hagree : ∀ e ∈ phi.incoming, ∀ e' ∈ phi.incoming, e.1 = e'.1 → e.2 = e'.2) : Receives b p phi phi' := by
  refine ⟨h.1, ?_⟩
  have hlen : (phi'.incoming.filter fun e => e.1 = p).length = 1 := by rw [← count_blocks_eq_length, hcount]
  obtain ⟨entry, hentry⟩ := List.length_eq_one_iff.1 hlen
  have hmem : entry ∈ phi'.incoming.filter fun e => e.1 = p := by
    rw [hentry]
    exact List.mem_singleton.2 rfl
  obtain ⟨hin, hblock⟩ := List.mem_filter.1 hmem
  obtain ⟨e, he, hvalue, horig⟩ := forall₂_exists_left h.2 hin
  have hp : entry.1 = p := by simpa using hblock
  rw [hp, horigin] at horig
  refine ⟨entry.2, by rw [hentry, ← hp], ?_, ?_⟩
  · rw [hvalue, horig]
    exact he
  · intro e' he' hb
    rw [hvalue]
    exact hagree e' he' e he (hb.trans horig)

/-- The PHI has the entries from `b` it had before. -/
def SameFrom (b : ℕ) (phi phi' : PHINode) : Prop :=
  phi'.id = phi.id ∧ phi'.incoming.filter (fun e => e.1 = b) = phi.incoming.filter fun e => e.1 = b

/-- Entries are renamed to new blocks only, so as many entries from `b` are the same entries. -/
theorem SamePHI.sameFrom {b : ℕ} (h : SamePHI origin phi phi') (horigin : origin b = b)
    (hcount : phi'.blocks.count b = phi.blocks.count b) : SameFrom b phi phi' := by
  refine ⟨h.1, List.Sublist.eq_of_length ?_ ?_⟩
  · have hall := h.2
    generalize phi.incoming = es at hall
    generalize phi'.incoming = es' at hall
    induction hall with
    | nil => exact List.Sublist.refl _
    | @cons e e' es es' hhead _ ih =>
      by_cases he' : e'.1 = b
      · have he : e.1 = b := by rw [← hhead.2, he', horigin]
        have heq : e' = e := Prod.ext (he'.trans he.symm) hhead.1
        rw [List.filter_cons_of_pos (by simpa using he'), List.filter_cons_of_pos (by simpa using he), heq]
        exact ih.cons_cons e
      · rw [List.filter_cons_of_neg (by simpa using he')]
        exact ih.trans ((List.sublist_cons_self e es).filter _)
  · rw [← count_blocks_eq_length, ← count_blocks_eq_length, hcount]

omit [DecidableEq K] in
theorem Lowered.switch {b d : ℕ} {value : IRValue} {cases : List (K × ℕ)} (h : Lowered f₀ f origin b)
    (hterm : f₀.term b = .switch value d cases) :
    ∃ head, f.term b = .br head ∧ Chain f (MadeFor f₀ f origin b) value d cases head := by
  unfold Lowered at h
  rw [hterm] at h
  exact h

omit [DecidableEq K] in
theorem Lowered.other {b : ℕ} (h : Lowered f₀ f origin b) (hterm : ∀ value d cases, f₀.term b ≠ .switch value d cases) :
    f.term b = f₀.term b := by
  unfold Lowered at h
  revert h hterm
  cases f₀.term b with
  | switch value d cases => exact fun _ hterm => absurd rfl (hterm value d cases)
  | _ => exact fun h _ => h

/-- **Lowering preserves meaning.** The pass ends without a failed assertion.  A `switch` has become the comparisons with its
cases, in their order; for every value of the condition control goes over one edge to the successor of the `switch`, and each PHI
there receives what it received along the edge of the `switch`.  Other blocks and the entries for them are as before, and a PHI
has one entry for each edge, so exactly one for a new block before it. -/
theorem runOnFunction_preserves (hwf : WellFormed f₀) :
    ∃ f, runOnFunction f₀ = (some ⟨⟩, f) ∧
      (∀ b ∈ f₀.blocks, ∀ value d cases, f₀.term b = .switch value d cases →
        (∃ head, f.term b = .br head ∧ Chain f (f₀.nextBlock ≤ ·) value d cases head) ∧
        ∀ eval : IRValue → K, ∃ p, f₀.nextBlock ≤ p ∧ Leads f f₀.nextBlock eval b p (switchTarget (eval value) d cases) ∧
          (∀ p' s', Leads f f₀.nextBlock eval b p' s' → p' = p ∧ s' = switchTarget (eval value) d cases) ∧
          List.Forall₂ (Receives b p) (f₀.phis (switchTarget (eval value) d cases))
            (f.phis (switchTarget (eval value) d cases))) ∧
      (∀ b ∈ f₀.blocks, (∀ value d cases, f₀.term b ≠ .switch value d cases) →
        f.term b = f₀.term b ∧ ∀ s, List.Forall₂ (SameFrom b) (f₀.phis s) (f.phis s)) ∧
      (∀ s, ∀ phi ∈ f.phis s, ∀ n, phi.blocks.count n = (f.term n).successors.count s) ∧
      ∀ n, f₀.nextBlock ≤ n → ∀ s, ∀ phi ∈ f.phis s, s ∈ (f.term n).successors → phi.blocks.count n = 1 := by
  have hrun := runOnFunction_lowered hwf
  unfold Prog.wp at hrun
  cases hres : (runOnFunction : Prog (IRFunction K) PUnit) f₀ with
  | mk o f =>
    rw [hres] at hrun
    cases o with
    | none => exact hrun.elim
    | some u =>
      obtain ⟨origin, hinv, hlowered⟩ := hrun
      -- a block with PHI nodes is an older block, so a new block has at most one edge to it
      have hone : ∀ n, f₀.nextBlock ≤ n → ∀ s, ∀ phi ∈ f.phis s, s ∈ (f.term n).successors → phi.blocks.count n = 1 := by
        intro n hn s phi hphi hmem
        have hs : s < f₀.nextBlock := by
          by_contra hge
          rw [hinv.phis s (Nat.not_lt.1 hge)] at hphi
          exact List.not_mem_nil hphi
        have hcount : phi.blocks.count n = (f.term n).successors.count s := hinv.law s phi hphi n
        have hle := hinv.single n hn s hs
        have hpos := List.count_pos_iff.2 hmem
        omega
      refine ⟨f, rfl, ?_, ?_, hinv.law, hone⟩
      · intro b hb value d cases hterm
        obtain ⟨head, hhead, hchain⟩ := (hlowered b hb).switch hterm
        refine ⟨⟨head, hhead, hchain.imp (fun _ _ => rfl) fun n hn => hn.1⟩, fun eval => ?_⟩
        have hlt : ∀ s ∈ d :: cases.map Prod.snd, s < f₀.nextBlock := by
          intro s hs
          refine hwf.successor_lt b s ?_
          rw [hterm]
          exact hs
        obtain ⟨p, hp, hleads, hmem⟩ := hchain.leads eval (fun n hn => hn.1) (hlt d List.mem_cons_self)
          fun entry hentry => hlt _ (List.mem_cons_of_mem _ (List.mem_map_of_mem hentry))
        have hnext : (f.term b).next eval = some head := by rw [hhead]; rfl
        have hb' : Leads f f₀.nextBlock eval b p (switchTarget (eval value) d cases) :=
          .step hnext hchain.head.1 hleads
        refine ⟨p, hp.1, hb', fun p' s' h' => h'.unique hb', ?_⟩
        refine forall₂_imp_of_mem (hinv.same _) fun phi hphi phi' hphi' hsame => ?_
        exact hsame.receives hp.2.2 (hone p hp.1 _ phi' hphi' hmem) (hwf.agree _ phi hphi)
      · intro b hb hterm
        have hsame := (hlowered b hb).other hterm
        refine ⟨hsame, fun s => forall₂_imp_of_mem (hinv.same s) fun phi hphi phi' hphi' h => ?_⟩
        have hnew : phi'.blocks.count b = (f.term b).successors.count s := hinv.law s phi' hphi' b
        have hold : phi.blocks.count b = (f₀.term b).successors.count s := hwf.law s phi hphi b
        exact h.sameFrom (hinv.origin b (hwf.block_lt b hb)) (by rw [hnew, hold, hsame])
/-! ### A shared successor -/

/-- A `switch` whose default and two of whose cases go to block 1, which receives the operand 10 from it, and 11 from block 2. -/
def sharedSwitch : IRFunction ℕ where
  blocks := [0, 1, 2]
  phis b := if b = 1 then [⟨0, [(2, .const 11), (0, .const 10), (0, .const 10), (0, .const 10)]⟩] else []
  term b := if b = 0 then .switch (.const 0) 1 [(5, 1), (6, 2), (7, 1)] else if b = 2 then .br 1 else .other []
  nextBlock := 3

theorem sharedSwitch_phis {b : ℕ} (h : phi ∈ sharedSwitch.phis b) :
    b = 1 ∧ phi = ⟨0, [(2, .const 11), (0, .const 10), (0, .const 10), (0, .const 10)]⟩ := by
  by_cases hb : b = 1
  · subst hb
    exact ⟨rfl, List.mem_singleton.1 h⟩
  · have hnil : sharedSwitch.phis b = [] := if_neg hb
    rw [hnil] at h
    exact absurd h List.not_mem_nil

theorem sharedSwitch_term {b : ℕ} (h0 : b ≠ 0) (h2 : b ≠ 2) : sharedSwitch.term b = .other [] :=
  (if_neg h0).trans (if_neg h2)

theorem sharedSwitch_wellFormed : WellFormed sharedSwitch where
  blocks := by decide
  block_lt := by decide
  successor_lt b s hs := by
    by_cases h0 : b = 0
    · subst h0
      have hall : ∀ s ∈ (sharedSwitch.term 0).successors, s < 3 := by decide
      exact hall s hs
    · by_cases h2 : b = 2
      · subst h2
        have hall : ∀ s ∈ (sharedSwitch.term 2).successors, s < 3 := by decide
        exact hall s hs
      · rw [sharedSwitch_term h0 h2] at hs
        exact absurd hs List.not_mem_nil
  phis b hb := by
    have hb' : 3 ≤ b := hb
    exact if_neg (by omega)
  term b hb := by
    have hb' : 3 ≤ b := hb
    rw [sharedSwitch_term (by omega) (by omega)]
    rfl
  law block phi hphi b := by
    obtain ⟨rfl, rfl⟩ := sharedSwitch_phis hphi
    by_cases h0 : b = 0
    · subst h0
      decide
    · by_cases h2 : b = 2
      · subst h2
        decide
      · show _ = (sharedSwitch.term b).successors.count 1
        rw [sharedSwitch_term h0 h2]
        exact List.count_eq_zero.2 (by simp [PHINode.blocks, h0, h2])
  agree block phi hphi := by
    obtain ⟨rfl, rfl⟩ := sharedSwitch_phis hphi
    decide

/-- With the value 7 control comes to block 1 over a new block, for which the PHI has the entry of the `switch`. -/
theorem preserves_sharedSwitch :
    ∃ f, runOnFunction sharedSwitch = (some ⟨⟩, f) ∧ ∃ p, 3 ≤ p ∧ Leads f 3 (fun _ => 7) 0 p 1 ∧
      ∀ phi ∈ f.phis 1, phi.incoming.filter (fun e => e.1 = p) = [(p, .const 10)] := by
  obtain ⟨f, hrun, hswitch, -⟩ := runOnFunction_preserves sharedSwitch_wellFormed
  obtain ⟨-, hvalues⟩ := hswitch 0 (by decide) (.const 0) 1 [(5, 1), (6, 2), (7, 1)] rfl
  obtain ⟨p, hp, hleads, -, hphis⟩ := hvalues fun _ => 7
  refine ⟨f, hrun, p, hp, hleads, fun phi hphi => ?_⟩
  obtain ⟨phi₀, hphi₀, -, v, hfilter, hv, -⟩ := forall₂_exists_left hphis hphi
  obtain ⟨-, rfl⟩ := sharedSwitch_phis hphi₀
  have hvalue : v = .const 10 := by simpa using hv
  rw [hfilter, hvalue]

end LowerSwitch

end SymBisect
