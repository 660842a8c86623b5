import SymBisect.Lib.Run
import SymBisect.Core.PTreeSurgery

/-!
# Random path selection

The process tree with its searchers over whole runs: `attach` when a state forks, `remove` when a state is
gone, and `update` of one of the searchers, in any order.  The executor takes a state from the searchers
before it removes the state from the tree, and a forked state is new.

* `PTree.Below`: the states of a subtree.
* `PTree.Tagged.carries_iff`: an edge carries the bit of a searcher exactly when a state below it is
  registered.
* `selectLoop_spec`: the walk down the tagged edges ends in a registered state, whatever the random numbers.
* `tag_invariant`: both hold in every run.
-/

namespace SymBisect

open Lib

namespace PTree

open RandomPathSearcher

variable {t : PTree} {n c : ℕ} {pa st : Option ℕ} {R : Fin 3 → Set ℕ} {id : Fin 3} {place : Place}

/-! ### Subtrees -/

/-- The state has a leaf in the subtree of the node. -/
inductive Below (t : PTree) : ℕ → ℕ → Prop
  | leaf {n : ℕ} {pa : Option ℕ} {s : ℕ} : t.Has n pa (some s) → Below t n s
  | child {n c s : ℕ} {side : Side} : (t.edge (.child n side)).pointer = some c → Below t c s → Below t n s

/-- A tagged edge leads down to a registered state. -/
theorem Tagged.exists_below (ht : Shape t) (h : t.Tagged R) (k : ℕ) : ∀ {n : ℕ}, t.next < n + k → t.Has n pa st →
    t.Want R id n st → ∃ s, t.Below n s ∧ s ∈ R id := by
  induction k generalizing pa st with
  | zero =>
    intro n hk hn _
    exact absurd (ht.lt_next hn) (by omega)
  | succ k ih =>
    intro n hk hn hwant
    cases st with
    | some s => exact ⟨s, .leaf hn, hwant⟩
    | none =>
      obtain ⟨side, hside⟩ := hwant
      obtain ⟨c, pc, stc, hptr, hc, hwantc⟩ := (h id _).1 hside
      obtain ⟨st', hc'⟩ := ht.down hptr
      have hlt := ht.lt hc'
      obtain ⟨s, hs, hreg⟩ := ih (by omega) hc hwantc
      exact ⟨s, .child hptr hs, hreg⟩

/-- The edge to a node above a registered state is tagged. -/
theorem Tagged.carries_of_below (ht : Shape t) (h : t.Tagged R) {s : ℕ} (hbelow : t.Below n s) (hs : s ∈ R id)
    {place : Place} (hptr : (t.edge place).pointer = some n) : carries id (t.edge place) = true := by
  induction hbelow generalizing place with
  | leaf hn => exact ((good_of_pointer hn hptr).1 (h id place)).2 hs
  | @child n c s side hside _ ih =>
    obtain ⟨stc, hc⟩ := ht.down hside
    obtain ⟨pa, st, hn⟩ := ht.parent hc
    obtain rfl := ht.inner hn (by rw [hside]; simp)
    exact ((good_of_pointer hn hptr).1 (h id place)).2 ⟨side, ih hs hside⟩

/-- **The tags.**  An edge carries the bit exactly when the subtree it leads to has a registered state. -/
theorem Tagged.carries_iff (ht : Shape t) (h : t.Tagged R) (id : Fin 3) (place : Place) :
    carries id (t.edge place) = true ↔
      ∃ n s, (t.edge place).pointer = some n ∧ t.Below n s ∧ s ∈ R id := by
  constructor
  · intro hc
    obtain ⟨n, pa, st, hptr, hn, hwant⟩ := (h id place).1 hc
    obtain ⟨s, hbelow, hs⟩ := h.exists_below ht (t.next + 1) (by omega) hn hwant
    exact ⟨n, s, hptr, hbelow, hs⟩
  · intro hex
    obtain ⟨n, s, hptr, hbelow, hs⟩ := hex
    exact h.carries_of_below ht hbelow hs hptr

/-- Every state of the tree is below the root. -/
theorem Shape.below_root (ht : Shape t) {s : ℕ} : ∀ {n : ℕ} {pa st : Option ℕ}, t.Has n pa st → t.Below n s →
    ∃ r, t.root.pointer = some r ∧ t.Below r s := by
  intro n
  induction n using Nat.strong_induction_on with
  | _ n ih =>
    intro pa st hn hs
    cases pa with
    | none => exact ⟨n, ht.top hn, hs⟩
    | some p =>
      obtain ⟨side, hside⟩ := ht.up hn
      obtain ⟨pa', st', hp⟩ := ht.parent hn
      exact ih p (ht.lt hn) hp (.child hside hs)

/-! ### Selection -/

/-- The walk down: every turn finds a tagged child, so the walk ends in a registered state. -/
theorem selectLoop_spec (ht : Shape t) (h : t.Tagged R) (rng : ℕ → BitVec 32) (fuel : ℕ) :
    ∀ {n : ℕ} {pa st : Option ℕ} (flips : BitVec 32) (bits k : ℕ), t.next < n + fuel → t.Has n pa st →
      t.Want R id n st → ∃ s, selectLoop id t rng fuel n flips bits k = some s ∧ s ∈ R id := by
  induction fuel with
  | zero =>
    intro n pa st flips bits k hfuel hn _
    exact absurd (ht.lt_next hn) (by omega)
  | succ fuel ih =>
    intro n pa st flips bits k hfuel hn hwant
    obtain ⟨N, hN, rfl, rfl⟩ := have h := hn; h
    simp only [selectLoop, hN, Option.bind_eq_bind, Option.bind_some]
    cases hstate : N.state with
    | some s =>
      rw [hstate] at hwant
      exact ⟨s, rfl, hwant⟩
    | none =>
      rw [hstate] at hwant
      have hour : ∀ side, isOurNodeValid id (N.child side) = carries id (t.edge (.child n side)) := by
        intro side
        rw [← edge_child hN]
        exact (h id _).isOur
      -- going down a tagged edge is a step of the induction
      have hdown : ∀ side (flips : BitVec 32) (bits k : ℕ), carries id (t.edge (.child n side)) = true →
          ∃ c s, (N.child side).pointer = some c ∧ n ≠ c ∧
            selectLoop id t rng fuel c flips bits k = some s ∧ s ∈ R id := by
        intro side flips bits k hside
        obtain ⟨c, pc, stc, hptr, hc, hwantc⟩ := (h id _).1 hside
        obtain ⟨st', hc'⟩ := ht.down hptr
        have hlt := ht.lt hc'
        obtain ⟨s, hrun, hs⟩ := ih flips bits k (by omega) hc hwantc
        exact ⟨c, s, edge_child hN side ▸ hptr, Nat.ne_of_lt hlt, hrun, hs⟩
      simp only [hour]
      cases hl : carries id (t.edge (.child n .left)) with
      | false =>
        cases hr : carries id (t.edge (.child n .right)) with
        | false =>
          obtain ⟨side, hside⟩ := hwant
          cases side with
          | left => rw [hl] at hside; cases hside
          | right => rw [hr] at hside; cases hside
        | true =>
          obtain ⟨c, s, hptr, hne, hrun, hs⟩ := hdown .right flips bits k hr
          exact ⟨s, by simp [hptr, hne, hrun], hs⟩
      | true =>
        cases hr : carries id (t.edge (.child n .right)) with
        | false =>
          obtain ⟨c, s, hptr, hne, hrun, hs⟩ := hdown .left flips bits k hl
          exact ⟨s, by simp [hptr, hne, hrun], hs⟩
        | true =>
          simp only [Bool.not_true, Bool.false_eq_true, if_false]
          set flips' := if bits = 0 then rng k else flips
          set bits' := (if bits = 0 then 32 else bits) - 1
          set side := if flips'.getLsbD bits' = true then Side.left else .right
          have hside : carries id (t.edge (.child n side)) = true := by
            cases side with
            | left => exact hl
            | right => exact hr
          obtain ⟨c, s, hptr, -, hrun, hs⟩ := hdown side flips' bits' (if bits = 0 then k + 1 else k) hside
          exact ⟨s, by simp [hptr, hrun], hs⟩

theorem selectState_spec (ht : Shape t) (h : t.Tagged R) (hroot : RandomPathSearcher.empty id t = false)
    (rng : ℕ → BitVec 32) : ∃ s, selectState id t rng = some s ∧ s ∈ R id := by
  have hour : isOurNodeValid id (t.edge .root) = true := by
    show isOurNodeValid id t.root = true
    simpa [RandomPathSearcher.empty] using hroot
  rw [(h id .root).isOur] at hour
  obtain ⟨n, pa, st, hptr, hn, hwant⟩ := (h id .root).1 hour
  obtain ⟨s, hrun, hs⟩ := selectLoop_spec ht h rng (t.next + 1) 0 0 0 (by omega) hn hwant
  refine ⟨s, ?_, hs⟩
  have hptr' : t.root.pointer = some n := hptr
  have hint : ((t.root.int &&& idBitMask id) != 0) = true := hour
  simp only [selectState, hint, if_true, hptr', Option.bind_eq_bind, Option.bind_some, hrun]

/-- The searcher is empty exactly when it has no state. -/
theorem empty_iff (ht : Shape t) (h : t.Tagged R) (hlive : ∀ s ∈ R id, t.Live s) :
    RandomPathSearcher.empty id t = true ↔ R id = ∅ := by
  have hempty : RandomPathSearcher.empty id t = !carries id (t.edge .root) := by
    rw [← (h id .root).isOur]
    rfl
  rw [hempty, Bool.not_eq_true', Set.eq_empty_iff_forall_notMem]
  constructor
  · intro hc s hs
    obtain ⟨n, pa, hn⟩ := hlive s hs
    obtain ⟨r, hr, hbelow⟩ := ht.below_root hn (.leaf hn)
    have htag := (h.carries_iff ht id .root).2 ⟨r, s, hr, hbelow, hs⟩
    rw [hc] at htag
    cases htag
  · intro hnone
    rw [Bool.eq_false_iff]
    intro hc
    obtain ⟨n, s, -, -, hs⟩ := (h.carries_iff ht id .root).1 hc
    exact hnone s hs

end PTree

namespace RandomPathSearcher

open PTree

/-! ### Runs -/

/-- The process tree and what is registered with each of the searchers. -/
structure System where
  tree : PTree
  registered : Fin 3 → Set ℕ

/-- What the executor does with the tree and the searchers. -/
inductive Action where
  | attach (leftState rightState : ℕ)
  | remove (compressProcessTree : Bool) (state : ℕ)
  | update (id : Fin 3) (addedStates removedStates : List ℕ)

/-- What is registered after an `update`. -/
def register (registered : Fin 3 → Set ℕ) (id : Fin 3) (addedStates removedStates : List ℕ) : Fin 3 → Set ℕ :=
  Function.update registered id ((registered id ∪ {s | s ∈ addedStates}) \ {s | s ∈ removedStates})

namespace System

/-- One action; a failed assertion ends the run. -/
def step (σ : System) : Action → Option System
  | .attach leftState rightState => do
    let node ← σ.tree.ptreeNode rightState
    let t ← σ.tree.attach node leftState rightState
    some { σ with tree := t }
  | .remove compressProcessTree state => do
    let node ← σ.tree.ptreeNode state
    let t ← σ.tree.remove compressProcessTree node
    some { σ with tree := t }
  | .update id addedStates removedStates => do
    let t ← RandomPathSearcher.update id σ.tree addedStates removedStates
    some ⟨t, register σ.registered id addedStates removedStates⟩

/-- What the executor keeps to: a forked state is new, a state is taken from the searchers before it is
removed from the tree, and a searcher is told of states of the tree, and to remove what it has. -/
def Allowed (σ : System) : Action → Prop
  | .attach leftState rightState => σ.tree.Live rightState ∧ ¬ σ.tree.Live leftState
  | .remove _ state => σ.tree.Live state ∧ ∀ id, state ∉ σ.registered id
  | .update id addedStates removedStates =>
    (∀ s ∈ addedStates, σ.tree.Live s) ∧ removedStates.Nodup ∧
      ∀ s ∈ removedStates, s ∈ σ.registered id ∪ {s | s ∈ addedStates}

/-- At the start there is the initial state, and no searcher has it yet. -/
def start (initialState : ℕ) : System where
  tree := .init initialState
  registered := fun _ => ∅

/-- The invariant of runs. -/
structure Inv (σ : System) : Prop where
  shape : Shape σ.tree
  tagged : σ.tree.Tagged σ.registered
  live : ∀ {id s}, s ∈ σ.registered id → σ.tree.Live s

variable {σ σ' : System}

/-- An allowed action succeeds and keeps the invariant. -/
theorem Inv.step (h : Inv σ) {a : Action} (ha : σ.Allowed a) : ∃ σ', σ.step a = some σ' ∧ Inv σ' := by
  cases a with
  | attach leftState rightState =>
    obtain ⟨⟨n, pa, hn⟩, hl⟩ := ha
    obtain ⟨t', hrun, hsplit⟩ := attach_split (l := leftState) h.shape hn
    refine ⟨{ σ with tree := t' }, ?_, hsplit.shape h.shape hn hl,
      hsplit.tagged h.shape hn h.tagged fun id hs => hl (h.live hs), fun hs => ?_⟩
    · simp only [System.step, h.shape.owner hn, Option.bind_eq_bind, Option.bind_some, hrun]
    · exact (hsplit.live hn).2 (.inl (h.live hs))
  | remove compressProcessTree state =>
    obtain ⟨⟨n, pa, hn⟩, hs⟩ := ha
    obtain ⟨t', hrun, hshape, htag, hlive⟩ := remove_spec h.shape h.tagged hn hs compressProcessTree
    refine ⟨{ σ with tree := t' }, ?_, hshape, htag, fun {id s} hreg => ?_⟩
    · simp only [System.step, h.shape.owner hn, Option.bind_eq_bind, Option.bind_some, hrun]
    · exact (hlive s).2 ⟨h.live hreg, fun heq => hs id (heq ▸ hreg)⟩
  | update id addedStates removedStates =>
    obtain ⟨hadded, hnodup, hremoved⟩ := ha
    obtain ⟨t', hrun, hretag, htag⟩ := update_spec h.shape h.tagged (fun s hs => h.live hs) hadded hnodup hremoved
    refine ⟨⟨t', register σ.registered id addedStates removedStates⟩, ?_, hretag.shape h.shape, htag,
      fun {id' s} hs => hretag.live.2 ?_⟩
    · simp only [System.step, hrun, Option.bind_eq_bind, Option.bind_some]
    · have hs' : s ∈ register σ.registered id addedStates removedStates id' := hs
      by_cases hid : id' = id
      · subst hid
        rw [register, Function.update_self] at hs'
        cases hs'.1 with
        | inl hs => exact h.live hs
        | inr hs => exact hadded s hs
      · rw [register, Function.update_of_ne hid] at hs'
        exact h.live hs'

theorem has_init {initialState n : ℕ} {pa st : Option ℕ} :
    (PTree.init initialState).Has n pa st ↔ n = 0 ∧ pa = none ∧ st = some initialState := by
  unfold Has PTree.init
  by_cases hn : n = 0
  · subst hn
    simp [eq_comm]
  · simp [hn]

theorem edge_init_child {initialState n : ℕ} {side : Side} :
    (PTree.init initialState).edge (.child n side) = .null := by
  unfold edge PTree.init
  by_cases hn : n = 0
  · simp [hn]
  · simp [hn]

theorem start_inv (initialState : ℕ) : Inv (start initialState) where
  shape :=
    { lt_next := fun hn => by rw [(has_init.1 hn).1]; exact Nat.one_pos
      top := fun hn => by rw [(has_init.1 hn).1]; rfl
      up := fun hn => nomatch (has_init.1 hn).2.1
      lt := fun hn => nomatch (has_init.1 hn).2.1
      parent := fun hn => nomatch (has_init.1 hn).2.1
      down := fun hc => by
        rw [start, edge_init_child] at hc
        cases hc
      sides := fun hc => by
        rw [start, edge_init_child] at hc
        cases hc
      root_lt := fun hr => by rw [← Option.some.inj hr]; exact Nat.one_pos
      root := fun _ hn => (has_init.1 hn).2.1
      leaf := fun _ side => by
        rw [start, edge_init_child]
        rfl
      owner := fun hn => by
        obtain ⟨rfl, -, hs⟩ := has_init.1 hn
        rw [Option.some.inj hs]
        simp [start, PTree.init] }
  tagged := by
    intro id place
    cases place with
    | root =>
      have hn : (start initialState).tree.Has 0 none (some initialState) := has_init.2 ⟨rfl, rfl, rfl⟩
      have hbare : ∀ id, ¬ carries id ⟨some 0, 0⟩ = true := by decide
      exact (good_of_pointer hn rfl).2 (iff_of_false (hbare id) (Set.notMem_empty _))
    | child p side =>
      have hnull : (start initialState).tree.edge (.child p side) = .null := edge_init_child
      rw [good_of_null, hnull]
      · exact carries_null
      · intro m pa st hm
        rw [hnull] at hm
        cases hm
  live := fun hs => absurd hs (Set.notMem_empty _)

/-- The invariant holds in every run. -/
theorem Inv.run (initialState : ℕ) (h : Run System.step Allowed (start initialState) σ) : Inv σ := by
  refine h.invariant (I := Inv) (fun σ a σ' hinv ha hstep => ?_) (start_inv initialState)
  obtain ⟨σ'', hstep', hinv'⟩ := hinv.step ha
  rw [hstep] at hstep'
  exact Option.some.inj hstep' ▸ hinv'

end System

/-- **Tags over runs.**  In every run of the executor's actions on the tree and the searchers, no assertion
fails, an edge carries the bit of a searcher exactly when the subtree below it has a state registered with the
searcher, a searcher is empty exactly when nothing is registered with it, and if it is not empty, then for
every stream of random numbers `selectState` returns a registered state. -/
theorem tag_invariant (initialState : ℕ) {σ : System}
    (h : Run System.step System.Allowed (System.start initialState) σ) :
    (∀ a, σ.Allowed a → ∃ σ', σ.step a = some σ') ∧
      ∀ id, (∀ place, carries id (σ.tree.edge place) = true ↔
          ∃ n s, (σ.tree.edge place).pointer = some n ∧ σ.tree.Below n s ∧ s ∈ σ.registered id) ∧
        (RandomPathSearcher.empty id σ.tree = true ↔ σ.registered id = ∅) ∧
        (RandomPathSearcher.empty id σ.tree = false →
          ∀ rng, ∃ s, selectState id σ.tree rng = some s ∧ s ∈ σ.registered id) := by
  have hinv := System.Inv.run initialState h
  refine ⟨fun a ha => ?_, fun id => ⟨fun place => ?_, ?_, fun hempty rng => ?_⟩⟩
  · obtain ⟨σ', hstep, -⟩ := hinv.step ha
    exact ⟨σ', hstep⟩
  · exact hinv.tagged.carries_iff hinv.shape id place
  · exact empty_iff hinv.shape hinv.tagged fun s hs => hinv.live hs
  · exact selectState_spec hinv.shape hinv.tagged hempty rng

/-- A state forks, and the new state is registered with the second searcher, which then selects it. -/
theorem tag_invariant_fork : ∃ σ, Run System.step System.Allowed (System.start 7) σ ∧
    RandomPathSearcher.empty 1 σ.tree = false ∧ RandomPathSearcher.empty 0 σ.tree = true ∧
    ∀ rng, ∃ s, selectState 1 σ.tree rng = some s ∧ s ∈ σ.registered 1 := by
  have hattach : (System.start 7).Allowed (.attach 8 7) := by
    refine ⟨⟨0, none, System.has_init.2 ⟨rfl, rfl, rfl⟩⟩, fun hlive => ?_⟩
    obtain ⟨n, pa, hn⟩ := hlive
    cases (System.has_init.1 hn).2.2
  have hrun : Run System.step System.Allowed (System.start 7) _ :=
    .step (.update 1 [8] []) (.single (a := .attach 8 7) hattach rfl)
      ⟨fun s hs => List.mem_singleton.1 hs ▸ ⟨1, some 0, _, rfl, rfl, rfl⟩, List.nodup_nil,
        fun s hs => absurd hs List.not_mem_nil⟩ rfl
  exact ⟨_, hrun, rfl, rfl, ((tag_invariant 7 hrun).2 1).2.2 rfl⟩

end RandomPathSearcher

end SymBisect
