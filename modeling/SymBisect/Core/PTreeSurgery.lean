import SymBisect.Core.PTreeTags

/-!
# `attach` and `remove` on the process tree

What each of the two operations does to nodes, edges and tags is said once (`Split` for `attach`, `Cut` for a
turn of the loop of `remove`, `Splice` for the compression), and from that the tree stays a tree and its tags
stay right.
-/

namespace SymBisect

namespace PTree

open RandomPathSearcher

variable {t t' : PTree} {n m p l r c : ℕ} {pa pa' st st' : Option ℕ} {place : Place} {e : PTreeNodePtr}
variable {R : Fin 3 → Set ℕ} {id : Fin 3}

/-! ### `attach` -/

/-- What `attach` does to the leaf `n` of the state `r`: it gets two leaves, of `l` without a tag and of `r`
with the tag of `n`. -/
structure Split (t t' : PTree) (n : ℕ) (pa : Option ℕ) (l r : ℕ) : Prop where
  next : t'.next = t.next + 2
  has : ∀ {m pa' st'}, t'.Has m pa' st' ↔
    (m = n ∧ pa' = pa ∧ st' = none) ∨ (m = t.next ∧ pa' = some n ∧ st' = some l) ∨
      (m = t.next + 1 ∧ pa' = some n ∧ st' = some r) ∨ (m ≠ n ∧ t.Has m pa' st')
  root : t'.root = t.root
  left : t'.edge (.child n .left) = ⟨some t.next, 0⟩
  right : t'.edge (.child n .right) = ⟨some (t.next + 1), (t.edge (t.childPtr pa n)).int⟩
  other : ∀ {m}, m ≠ n → ∀ side, t'.edge (.child m side) = t.edge (.child m side)
  ptreeNode : t'.ptreeNode = Function.update (Function.update t.ptreeNode l (some t.next)) r (some (t.next + 1))

/-- There is no node that has not been created. -/
theorem Shape.node_fresh (h : Shape t) (hm : t.next ≤ m) : t.node m = none := by
  cases hN : t.node m with
  | none => rfl
  | some N => exact absurd (h.lt_next ⟨N, hN, rfl, rfl⟩) (Nat.not_lt.2 hm)

theorem attach_split (ht : Shape t) (hn : t.Has n pa (some r)) :
    ∃ t', t.attach n l r = some t' ∧ Split t t' n pa l r := by
  obtain ⟨N, hN, rfl, hstate⟩ := have h := hn; h
  have hleaf : ∀ side, (N.child side).pointer = none := fun side => edge_child hN side ▸ ht.leaf hn side
  have hlt := ht.lt_next hn
  have hn₁ : n ≠ t.next := Nat.ne_of_lt hlt
  have hn₂ : n ≠ t.next + 1 := Nat.ne_of_lt (Nat.lt_succ_of_lt hlt)
  have hnode₁ := ht.node_fresh (le_refl t.next)
  have hnode₂ := ht.node_fresh (Nat.le_succ t.next)
  generalize hrun : t.attach n l r = result
  simp only [attach, hN, Option.bind_eq_bind, Option.bind_some, hleaf, ht.owner hn, and_self, if_true] at hrun
  subst hrun
  refine ⟨_, rfl, rfl, ?_, rfl, ?_, ?_, ?_, rfl⟩
  · intro m pa' st'
    unfold Has
    by_cases h₂ : m = t.next + 1
    · subst h₂
      simp [hnode₂, Ne.symm hn₂, eq_comm]
    · by_cases h₁ : m = t.next
      · subst h₁
        simp [hnode₁, Ne.symm hn₁, eq_comm]
      · by_cases h : m = n
        · subst h
          simp [h₁, h₂, eq_comm]
        · simp [h, h₁, h₂]
  · simp [edge, hn₁, hn₂]
  · simp [edge, hn₁, hn₂]
  · intro m hm side
    by_cases h₂ : m = t.next + 1
    · subst h₂
      simp [edge, hnode₂]
    · by_cases h₁ : m = t.next
      · subst h₁
        simp [edge, hnode₁]
      · simp [edge, hm, h₁, h₂]

/-- The edges of the new tree lead to the two new leaves, or where they led before. -/
theorem Split.down (h : Split t t' n pa l r) {q c : ℕ} {side : Side}
    (hc : (t'.edge (.child q side)).pointer = some c) :
    (q = n ∧ side = .left ∧ c = t.next) ∨ (q = n ∧ side = .right ∧ c = t.next + 1) ∨
      (q ≠ n ∧ (t.edge (.child q side)).pointer = some c) := by
  by_cases hq : q = n
  · subst hq
    cases side with
    | left =>
      rw [h.left] at hc
      exact .inl ⟨rfl, rfl, (Option.some.inj hc).symm⟩
    | right =>
      rw [h.right] at hc
      exact .inr (.inl ⟨rfl, rfl, (Option.some.inj hc).symm⟩)
  · rw [h.other hq] at hc
    exact .inr (.inr ⟨hq, hc⟩)

theorem Split.shape (h : Split t t' n pa l r) (ht : Shape t) (hn : t.Has n pa (some r)) (hl : ¬ t.Live l) :
    Shape t' := by
  have hlt := ht.lt_next hn
  have hold : ∀ {m pa' st'}, t.Has m pa' st' → ∃ st', t'.Has m pa' st' := by
    intro m pa' st' hm
    by_cases heq : m = n
    · subst heq
      obtain ⟨rfl, -⟩ := hm.unique hn
      exact ⟨none, h.has.2 (.inl ⟨rfl, rfl, rfl⟩)⟩
    · exact ⟨st', h.has.2 (.inr (.inr (.inr ⟨heq, hm⟩)))⟩
  -- the parent of an old node is not the leaf that was split
  have hparent : ∀ {m p st'}, t.Has m (some p) st' → p ≠ n := by
    intro m p st' hm heq
    subst heq
    obtain ⟨side, hside⟩ := ht.up hm
    rw [ht.leaf hn side] at hside
    cases hside
  constructor
  case lt_next =>
    intro m pa' st' hm
    rw [h.next]
    rcases h.has.1 hm with ⟨rfl, -⟩ | ⟨rfl, -⟩ | ⟨rfl, -⟩ | ⟨-, hm⟩
    · omega
    · omega
    · omega
    · have := ht.lt_next hm
      omega
  case top =>
    intro m st' hm
    rw [h.root]
    rcases h.has.1 hm with ⟨rfl, rfl, -⟩ | ⟨-, hpa, -⟩ | ⟨-, hpa, -⟩ | ⟨-, hm⟩
    · exact ht.top hn
    · cases hpa
    · cases hpa
    · exact ht.top hm
  case up =>
    intro m p st' hm
    rcases h.has.1 hm with ⟨rfl, rfl, -⟩ | ⟨rfl, hpa, -⟩ | ⟨rfl, hpa, -⟩ | ⟨-, hm⟩
    · obtain ⟨side, hside⟩ := ht.up hn
      exact ⟨side, by rw [h.other (hparent hn)]; exact hside⟩
    · obtain rfl := Option.some.inj hpa
      exact ⟨.left, by rw [h.left]⟩
    · obtain rfl := Option.some.inj hpa
      exact ⟨.right, by rw [h.right]⟩
    · obtain ⟨side, hside⟩ := ht.up hm
      exact ⟨side, by rw [h.other (hparent hm)]; exact hside⟩
  case lt =>
    intro m p st' hm
    rcases h.has.1 hm with ⟨rfl, rfl, -⟩ | ⟨rfl, hpa, -⟩ | ⟨rfl, hpa, -⟩ | ⟨-, hm⟩
    · exact ht.lt hn
    · exact Option.some.inj hpa ▸ hlt
    · exact Option.some.inj hpa ▸ Nat.lt_succ_of_lt hlt
    · exact ht.lt hm
  case parent =>
    intro m p st' hm
    have hp : ∃ pa' st', t.Has p pa' st' := by
      rcases h.has.1 hm with ⟨rfl, rfl, -⟩ | ⟨rfl, hpa, -⟩ | ⟨rfl, hpa, -⟩ | ⟨-, hm⟩
      · exact ht.parent hn
      · exact Option.some.inj hpa ▸ ⟨pa, some r, hn⟩
      · exact Option.some.inj hpa ▸ ⟨pa, some r, hn⟩
      · exact ht.parent hm
    obtain ⟨pa', st', hp⟩ := hp
    exact ⟨pa', hold hp⟩
  case down =>
    intro q side c hc
    rcases h.down hc with ⟨rfl, rfl, rfl⟩ | ⟨rfl, rfl, rfl⟩ | ⟨hq, hc⟩
    · exact ⟨some l, h.has.2 (.inr (.inl ⟨rfl, rfl, rfl⟩))⟩
    · exact ⟨some r, h.has.2 (.inr (.inr (.inl ⟨rfl, rfl, rfl⟩)))⟩
    · obtain ⟨st', hc⟩ := ht.down hc
      exact hold hc
  case sides =>
    intro q c hleft hright
    by_cases hq : q = n
    · subst hq
      rw [h.left] at hleft
      rw [h.right, ← hleft] at hright
      exact absurd (Option.some.inj hright) (Nat.succ_ne_self _)
    · rw [h.other hq] at hleft hright
      exact ht.sides hleft hright
  case root_lt =>
    intro q hroot
    rw [h.root] at hroot
    rw [h.next]
    exact Nat.lt_add_right 2 (ht.root_lt hroot)
  case root =>
    intro q pa' st' hroot hq
    rw [h.root] at hroot
    rcases h.has.1 hq with ⟨rfl, rfl, -⟩ | ⟨rfl, -, -⟩ | ⟨rfl, -, -⟩ | ⟨-, hq⟩
    · exact ht.root hroot hn
    · exact absurd (ht.root_lt hroot) (lt_irrefl _)
    · exact absurd (ht.root_lt hroot) (by omega)
    · exact ht.root hroot hq
  case leaf =>
    intro m pa' s hm side
    have hm' : m ≠ n := by
      rintro rfl
      rcases h.has.1 hm with ⟨-, -, hst⟩ | ⟨rfl, -⟩ | ⟨rfl, -⟩ | ⟨hne, -⟩
      · cases hst
      · exact absurd hlt (lt_irrefl _)
      · omega
      · exact hne rfl
    rw [h.other hm']
    rcases h.has.1 hm with ⟨-, -, hst⟩ | ⟨rfl, -⟩ | ⟨rfl, -⟩ | ⟨-, hm⟩
    · cases hst
    · simp [edge, ht.node_fresh (le_refl t.next), PTreeNodePtr.null]
    · simp [edge, ht.node_fresh (Nat.le_succ t.next), PTreeNodePtr.null]
    · exact ht.leaf hm side
  case owner =>
    intro m pa' s hm
    rw [h.ptreeNode]
    have hlr : l ≠ r := fun heq => hl (heq ▸ ⟨n, pa, hn⟩)
    rcases h.has.1 hm with ⟨-, -, hst⟩ | ⟨rfl, -, hst⟩ | ⟨rfl, -, hst⟩ | ⟨hne, hm⟩
    · cases hst
    · obtain rfl := Option.some.inj hst
      simp [hlr]
    · obtain rfl := Option.some.inj hst
      simp
    · have hsl : s ≠ l := fun heq => hl (heq ▸ ⟨m, pa', hm⟩)
      have hsr : s ≠ r := by
        intro heq
        subst heq
        exact hne (Option.some.inj ((ht.owner hm).symm.trans (ht.owner hn)))
      rw [Function.update_of_ne hsr, Function.update_of_ne hsl]
      exact ht.owner hm

theorem Split.live (h : Split t t' n pa l r) (hn : t.Has n pa (some r)) {s : ℕ} :
    t'.Live s ↔ t.Live s ∨ s = l := by
  constructor
  · intro hs
    obtain ⟨m, pa', hm⟩ := hs
    rcases h.has.1 hm with ⟨-, -, hst⟩ | ⟨-, -, hst⟩ | ⟨-, -, hst⟩ | ⟨-, hm⟩
    · cases hst
    · exact .inr (Option.some.inj hst)
    · exact .inl (Option.some.inj hst ▸ ⟨n, pa, hn⟩)
    · exact .inl ⟨m, pa', hm⟩
  · intro hs
    cases hs with
    | inr hs => exact ⟨t.next, some n, h.has.2 (.inr (.inl ⟨rfl, rfl, by rw [hs]⟩))⟩
    | inl hs =>
      obtain ⟨m, pa', hm⟩ := hs
      by_cases heq : m = n
      · subst heq
        obtain ⟨-, hst⟩ := hm.unique hn
        exact ⟨t.next + 1, some m, h.has.2 (.inr (.inr (.inl ⟨rfl, rfl, hst⟩)))⟩
      · exact ⟨m, pa', h.has.2 (.inr (.inr (.inr ⟨heq, hm⟩)))⟩

/-- The tags stay right: the state `r` takes the tag of the leaf with it, and `l` is not registered. -/
theorem Split.tagged (h : Split t t' n pa l r) (ht : Shape t) (hn : t.Has n pa (some r)) (htag : t.Tagged R)
    (hl : ∀ id, l ∉ R id) : t'.Tagged R := by
  have hn' : t'.Has n pa none := h.has.2 (.inl ⟨rfl, rfl, rfl⟩)
  have hplace := ht.pointer_childPtr hn
  -- the edge to the leaf that is split stays where it is
  have hedge : ∀ {place}, (∀ side, place ≠ .child n side) → t'.edge place = t.edge place := by
    intro place hne
    cases place with
    | root => exact h.root
    | child m side => exact h.other (fun heq => hne side (heq ▸ rfl)) side
  have hown : ∀ side, t.childPtr pa n ≠ .child n side := by
    intro side heq
    rw [heq, ht.leaf hn side] at hplace
    cases hplace
  have hleft : ∀ {id}, carries id (t'.edge (.child n .left)) = false := by
    intro id
    rw [h.left]
    exact carries_null
  have hright : ∀ {id}, carries id (t'.edge (.child n .right)) = carries id (t.edge (t.childPtr pa n)) := by
    intro id
    rw [h.right]
    rfl
  intro id place
  by_cases hchild : ∃ side, place = .child n side
  · obtain ⟨side, rfl⟩ := hchild
    cases side with
    | left =>
      rw [good_of_pointer (h.has.2 (.inr (.inl ⟨rfl, rfl, rfl⟩))) (by rw [h.left]), hleft]
      exact iff_of_false Bool.false_ne_true (hl id)
    | right =>
      rw [good_of_pointer (h.has.2 (.inr (.inr (.inl ⟨rfl, rfl, rfl⟩)))) (by rw [h.right]), hright]
      exact (good_of_pointer hn hplace).1 (htag id _)
  · have hsame := hedge fun side heq => hchild ⟨side, heq⟩
    by_cases hto : (t.edge place).pointer = some n
    · obtain rfl := ht.place_eq hn hto
      rw [good_of_pointer hn' (by rw [hsame, hto]), hsame, ← hright]
      constructor
      · intro hc
        exact ⟨.right, hc⟩
      · intro hw
        obtain ⟨side, hside⟩ := hw
        cases side with
        | left => rw [hleft] at hside; cases hside
        | right => exact hside
    · refine (htag id place).congr (by rw [hsame]) fun m => ?_
      rw [hsame]
      refine exists_congr fun pa' => exists_congr fun st' => and_congr_right fun hm => ?_
      have hne : m ≠ n := fun heq => hto (heq ▸ hm)
      have hlt := ht.pointer_lt hm
      have hhas : t'.Has m pa' st' ↔ t.Has m pa' st' := by
        rw [h.has]
        simp [hne, Nat.ne_of_lt hlt, Nat.ne_of_lt (Nat.lt_succ_of_lt hlt)]
      rw [hhas]
      refine and_congr_right fun _ => ?_
      cases st' with
      | some s => exact Iff.rfl
      | none => simp only [Want, h.other hne]

/-! ### `remove` -/

/-- What a turn of the loop of `remove` does to the tree: the node is gone, and so is the edge to it, but for
the root, which is left dangling.  No tag is lost, since the edge had none. -/
structure Cut (t t' : PTree) (n : ℕ) : Prop where
  next : t'.next = t.next
  ptreeNode : t'.ptreeNode = t.ptreeNode
  has : ∀ {m pa st}, t'.Has m pa st ↔ m ≠ n ∧ t.Has m pa st
  pointer : ∀ {place m}, (t'.edge place).pointer = some m ↔
    (t.edge place).pointer = some m ∧ (m ≠ n ∨ place = .root)
  carries : ∀ id place, PTree.carries id (t'.edge place) = PTree.carries id (t.edge place)

/-- The node has no child. -/
def Childless (t : PTree) (n : ℕ) : Prop := ∀ side, (t.edge (.child n side)).pointer = none

theorem Cut.shape (h : Cut t t' n) (ht : Shape t) (hchild : t.Childless n) : Shape t' := by
  have hparent : ∀ {m p st}, t.Has m (some p) st → p ≠ n := by
    intro m p st hm heq
    subst heq
    obtain ⟨side, hside⟩ := ht.up hm
    rw [hchild side] at hside
    cases hside
  constructor
  case lt_next =>
    intro m pa st hm
    rw [h.next]
    exact ht.lt_next (h.has.1 hm).2
  case top =>
    intro m st hm
    obtain ⟨hne, hm⟩ := h.has.1 hm
    show (t'.edge .root).pointer = some m
    exact h.pointer.2 ⟨ht.top hm, .inl hne⟩
  case up =>
    intro m p st hm
    obtain ⟨hne, hm⟩ := h.has.1 hm
    obtain ⟨side, hside⟩ := ht.up hm
    exact ⟨side, h.pointer.2 ⟨hside, .inl hne⟩⟩
  case lt =>
    intro m p st hm
    exact ht.lt (h.has.1 hm).2
  case parent =>
    intro m p st hm
    obtain ⟨hne, hm⟩ := h.has.1 hm
    obtain ⟨pa, st', hp⟩ := ht.parent hm
    exact ⟨pa, st', h.has.2 ⟨hparent hm, hp⟩⟩
  case down =>
    intro p side c hc
    obtain ⟨hc, hne⟩ := h.pointer.1 hc
    obtain ⟨st, hhas⟩ := ht.down hc
    exact ⟨st, h.has.2 ⟨hne.resolve_right (fun heq => nomatch heq), hhas⟩⟩
  case sides =>
    intro p c hleft hright
    exact ht.sides (h.pointer.1 hleft).1 (h.pointer.1 hright).1
  case root_lt =>
    intro r hr
    have hr' : (t'.edge .root).pointer = some r := hr
    rw [h.next]
    exact ht.root_lt (h.pointer.1 hr').1
  case root =>
    intro r pa st hr hhas
    have hr' : (t'.edge .root).pointer = some r := hr
    exact ht.root (h.pointer.1 hr').1 (h.has.1 hhas).2
  case leaf =>
    intro m pa s hm side
    rw [Option.eq_none_iff_forall_ne_some]
    intro c hc
    have hnone := ht.leaf (h.has.1 hm).2 side
    rw [(h.pointer.1 hc).1] at hnone
    cases hnone
  case owner =>
    intro m pa s hm
    rw [h.ptreeNode]
    exact ht.owner (h.has.1 hm).2

theorem Cut.tagged (h : Cut t t' n) (ht : Shape t) (hn : t.Has n pa st) (htag : t.Tagged R)
    (hbare : ∀ id, PTree.carries id (t.edge (t.childPtr pa n)) = false) : t'.Tagged R := by
  intro id place
  by_cases hto : (t.edge place).pointer = some n
  · -- the edge to the node led to it alone, and was untagged
    rw [good_of_null, h.carries, ht.place_eq hn hto]
    · exact hbare id
    · intro m pa' st' hm hhas
      obtain ⟨hne, -⟩ := h.has.1 hhas
      exact hne (Option.some.inj ((h.pointer.1 hm).1.symm.trans hto))
  · refine (htag id place).congr (h.carries id place) fun m => ?_
    refine exists_congr fun pa' => exists_congr fun st' => ?_
    have hwant : t'.Want R id m st' ↔ t.Want R id m st' := by
      cases st' with
      | some s => exact Iff.rfl
      | none => simp only [Want, h.carries]
    rw [h.pointer, h.has, hwant]
    constructor
    · intro hm
      exact ⟨hm.1.1, hm.2.1.2, hm.2.2⟩
    · intro hm
      have hne : m ≠ n := fun heq => hto (heq ▸ hm.1)
      exact ⟨⟨hm.1, .inl hne⟩, ⟨hne, hm.2.1⟩, hm.2.2⟩

theorem Cut.live (h : Cut t t' n) (ht : Shape t) (hn : t.Has n pa st) {s : ℕ} :
    t'.Live s ↔ t.Live s ∧ st ≠ some s := by
  constructor
  · intro hs
    obtain ⟨m, pa', hm⟩ := hs
    obtain ⟨hne, hm⟩ := h.has.1 hm
    refine ⟨⟨m, pa', hm⟩, fun heq => hne ?_⟩
    subst heq
    exact Option.some.inj ((ht.owner hm).symm.trans (ht.owner hn))
  · intro hs
    obtain ⟨⟨m, pa', hm⟩, hst⟩ := hs
    refine ⟨m, pa', h.has.2 ⟨fun heq => hst ?_, hm⟩⟩
    subst heq
    exact (hn.unique hm).2

/-- An edge that leads nowhere is untagged. -/
theorem Tagged.bare (h : t.Tagged R) (hp : (t.edge place).pointer = none) (id : Fin 3) :
    carries id (t.edge place) = false := by
  refine (good_of_null ?_).1 (h id place)
  intro m pa' st' hm
  rw [hp] at hm
  cases hm

/-- The edge to an inner node that has lost its children is untagged. -/
theorem Tagged.bare_childless (h : t.Tagged R) (ht : Shape t) (hn : t.Has n pa none) (hchild : t.Childless n)
    (id : Fin 3) : carries id (t.edge (t.childPtr pa n)) = false := by
  have hgood := (good_of_pointer hn (ht.pointer_childPtr hn)).1 (h id _)
  rw [Bool.eq_false_iff]
  intro hc
  obtain ⟨side, hside⟩ := hgood.1 hc
  rw [h.bare (hchild side)] at hside
  cases hside

/-- `sideOf` finds the edge to a node. -/
theorem Shape.sideOf_eq (ht : Shape t) (hn : t.Has n (some p) st) :
    ∃ side, t.sideOf p n = some side ∧ t.childPtr (some p) n = .child p side := by
  obtain ⟨side, hside⟩ := ht.up hn
  cases side with
  | left => exact ⟨.left, by simp [sideOf, hside], by simp [childPtr, hside]⟩
  | right =>
    have hleft : (t.edge (.child p .left)).pointer ≠ some n := fun hl => ht.sides hl hside
    exact ⟨.right, by simp [sideOf, hside, hleft], by simp [childPtr, hleft]⟩

/-- Deleting the root. -/
theorem cut_root (ht : Shape t) (htag : t.Tagged R) (hn : t.Has n none st) (hchild : t.Childless n) :
    Cut t (t.delete n) n where
  next := rfl
  ptreeNode := rfl
  has := has_delete
  pointer := by
    intro place m
    cases place with
    | root => simp [edge_delete_root]
    | child q side =>
      rw [edge_delete]
      by_cases hq : q = n
      · subst hq
        simp [hchild side, PTreeNodePtr.null]
      · rw [if_neg hq]
        refine (and_iff_left_of_imp fun hm => .inl fun heq => ?_).symm
        cases ht.place_eq hn (heq ▸ hm)
  carries := by
    intro id place
    cases place with
    | root => rfl
    | child q side =>
      rw [edge_delete]
      by_cases hq : q = n
      · subst hq
        rw [if_pos rfl, carries_null, htag.bare (hchild side)]
      · rw [if_neg hq]

/-- Deleting a node below another one. -/
theorem cut_child (ht : Shape t) (htag : t.Tagged R) (hn : t.Has n (some p) st) (hchild : t.Childless n)
    {side : Side} (hside : t.childPtr (some p) n = .child p side)
    (hbare : ∀ id, carries id (t.edge (.child p side)) = false) :
    Cut t ((t.setEdge (.child p side) .null).delete n) n := by
  have hptr := ht.pointer_childPtr hn
  rw [hside] at hptr
  have hvalid : t.Valid (.child p side) := ht.parent hn
  have hedge : ∀ q side', ((t.setEdge (.child p side) .null).delete n).edge (.child q side') =
      if q = n ∨ Place.child q side' = .child p side then .null else t.edge (.child q side') := by
    intro q side'
    rw [edge_delete]
    by_cases hq : q = n
    · simp [hq]
    · by_cases hplace : Place.child q side' = .child p side
      · rw [if_neg hq, hplace, edge_setEdge_self hvalid, if_pos (.inr rfl)]
      · rw [if_neg hq, edge_setEdge_ne hplace, if_neg (not_or.2 ⟨hq, hplace⟩)]
  constructor
  case next => rfl
  case ptreeNode => rfl
  case has =>
    intro m pa' st'
    rw [has_delete, has_setEdge]
  case pointer =>
    intro place m
    cases place with
    | root => simp [edge_delete_root, edge_setEdge_ne]
    | child q side' =>
      rw [hedge]
      by_cases hq : q = n
      · subst hq
        simp [hchild side', PTreeNodePtr.null]
      · by_cases hplace : Place.child q side' = .child p side
        · rw [if_pos (.inr hplace), hplace, hptr]
          simp [PTreeNodePtr.null, eq_comm]
        · rw [if_neg (not_or.2 ⟨hq, hplace⟩)]
          refine (and_iff_left_of_imp fun hm => .inl fun heq => hplace ?_).symm
          rw [← hside]
          exact ht.place_eq hn (heq ▸ hm)
  case carries =>
    intro id place
    cases place with
    | root => rfl
    | child q side' =>
      rw [hedge]
      by_cases hq : q = n
      · subst hq
        rw [if_pos (.inl rfl), carries_null, htag.bare (hchild side')]
      · by_cases hplace : Place.child q side' = .child p side
        · rw [if_pos (.inr hplace), hplace, carries_null, hbare]
        · rw [if_neg (not_or.2 ⟨hq, hplace⟩)]

/-- The node has one child. -/
def OnlyChild (t : PTree) (n c : ℕ) : Prop :=
  ∃ side, (t.edge (.child n side)).pointer = some c ∧
    ∀ side', side' ≠ side → (t.edge (.child n side')).pointer = none

theorem exists_onlyChild {side : Side} (hnone : (t.edge (.child n side)).pointer = none)
    (hsome : ¬ ((t.edge (.child n .left)).pointer = none ∧ (t.edge (.child n .right)).pointer = none)) :
    ∃ c, t.OnlyChild n c := by
  cases side with
  | left =>
    obtain ⟨c, hc⟩ := Option.ne_none_iff_exists'.1 fun hright => hsome ⟨hnone, hright⟩
    refine ⟨c, .right, hc, fun side' hne => ?_⟩
    cases side' with
    | left => exact hnone
    | right => exact absurd rfl hne
  | right =>
    obtain ⟨c, hc⟩ := Option.ne_none_iff_exists'.1 fun hleft => hsome ⟨hleft, hnone⟩
    refine ⟨c, .left, hc, fun side' hne => ?_⟩
    cases side' with
    | left => exact absurd rfl hne
    | right => exact hnone

/-- The loop of `remove`: the tree stays a tree, the tags stay right, the state is gone, and the loop ends
with nothing or with a node that has one child. -/
theorem removeUp_spec (fuel : ℕ) : ∀ {t : PTree} {n : ℕ} {pa st : Option ℕ}, n < fuel → Shape t → t.Tagged R →
    t.Has n pa st → t.Childless n → (∀ id, carries id (t.edge (t.childPtr pa n)) = false) →
    ∃ t' x, removeUp fuel t n = some (t', x) ∧ Shape t' ∧ t'.Tagged R ∧
      (∀ s, t'.Live s ↔ t.Live s ∧ st ≠ some s) ∧
      ∀ p, x = some p → ∃ pa c, t'.Has p pa none ∧ t'.OnlyChild p c := by
  induction fuel with
  | zero =>
    intro t n pa st hfuel
    exact absurd hfuel (Nat.not_lt_zero n)
  | succ fuel ih =>
    intro t n pa st hfuel ht htag hn hchild hbare
    obtain ⟨N, hN, rfl, rfl⟩ := have h := hn; h
    cases hp : N.parent with
    | none =>
      have hcut := cut_root ht htag (hp ▸ hn) hchild
      refine ⟨t.delete n, none, ?_, hcut.shape ht hchild, hcut.tagged ht hn htag hbare,
        fun s => hcut.live ht hn, fun p hp => nomatch hp⟩
      simp only [removeUp, hN, Option.bind_eq_bind, Option.bind_some, hp]
    | some p =>
      rw [hp] at hn hbare
      obtain ⟨side, hsideOf, hside⟩ := ht.sideOf_eq hn
      have hcut := cut_child ht htag hn hchild hside (fun id => hside ▸ hbare id)
      set t₁ := (t.setEdge (.child p side) .null).delete n with ht₁
      have hshape := hcut.shape ht hchild
      have htag₁ := hcut.tagged ht hn htag hbare
      have hlive : ∀ s, t₁.Live s ↔ t.Live s ∧ N.state ≠ some s := fun s => hcut.live ht hn
      -- the parent is still there, and is no leaf
      obtain ⟨pa, st, hhas⟩ := ht.parent hn
      have hptr := ht.pointer_childPtr hn
      rw [hside] at hptr
      obtain rfl := ht.inner hhas (by rw [hptr]; simp)
      have hlt := ht.lt hn
      have hhas₁ : t₁.Has p pa none := hcut.has.2 ⟨Nat.ne_of_lt hlt, hhas⟩
      have hgone : (t₁.edge (.child p side)).pointer = none := by
        rw [Option.eq_none_iff_forall_ne_some]
        intro m hm
        obtain ⟨hm, hne⟩ := hcut.pointer.1 hm
        exact hne.resolve_right (fun heq => nomatch heq) (Option.some.inj (hm.symm.trans hptr))
      have hrun : removeUp (fuel + 1) t n =
          if (t₁.edge (.child p .left)).pointer = none ∧ (t₁.edge (.child p .right)).pointer = none then
            removeUp fuel t₁ p else some (t₁, some p) := by
        simp only [removeUp, hN, Option.bind_eq_bind, Option.bind_some, hp, hsideOf, ← ht₁]
      rw [hrun]
      by_cases hnone : (t₁.edge (.child p .left)).pointer = none ∧ (t₁.edge (.child p .right)).pointer = none
      · rw [if_pos hnone]
        have hchild₁ : t₁.Childless p := fun side' => by
          cases side' with
          | left => exact hnone.1
          | right => exact hnone.2
        obtain ⟨t', x, hrun', hshape', htag', hlive', hx⟩ :=
          ih (lt_of_lt_of_le hlt (Nat.lt_succ_iff.1 hfuel)) hshape htag₁ hhas₁ hchild₁
            (htag₁.bare_childless hshape hhas₁ hchild₁)
        refine ⟨t', x, hrun', hshape', htag', fun s => ?_, hx⟩
        rw [hlive', hlive]
        simp
      · rw [if_neg hnone]
        refine ⟨t₁, some p, rfl, hshape, htag₁, hlive, fun q hq => ?_⟩
        obtain rfl := Option.some.inj hq
        obtain ⟨c, hc⟩ := exists_onlyChild hgone hnone
        exact ⟨pa, c, hhas₁, hc⟩

/-- What `CompressProcessTree` does: the only child takes the place of the node. -/
structure Splice (t t' : PTree) (n : ℕ) (pa : Option ℕ) (c : ℕ) : Prop where
  next : t'.next = t.next
  ptreeNode : t'.ptreeNode = t.ptreeNode
  has : ∀ {m pa' st}, t'.Has m pa' st ↔
    m ≠ n ∧ ((m = c ∧ pa' = pa ∧ t.Has c (some n) st) ∨ (m ≠ c ∧ t.Has m pa' st))
  pointer : ∀ {place m}, (t'.edge place).pointer = some m ↔
    (place = t.childPtr pa n ∧ m = c) ∨ (m ≠ n ∧ m ≠ c ∧ (t.edge place).pointer = some m)
  bare : ∀ id side, PTree.carries id (t'.edge (.child n side)) = false
  carries : ∀ id {place}, (∀ side, place ≠ .child n side) →
    PTree.carries id (t'.edge place) = PTree.carries id (t.edge place)

theorem OnlyChild.has (ht : Shape t) (h : t.OnlyChild n c) : ∃ st, t.Has c (some n) st := by
  obtain ⟨side, hside, -⟩ := h
  exact ht.down hside

theorem OnlyChild.eq (h : t.OnlyChild n c) {side : Side} (hm : (t.edge (.child n side)).pointer = some m) :
    m = c := by
  obtain ⟨side', hside', hother⟩ := h
  by_cases heq : side = side'
  · subst heq
    exact Option.some.inj (hm.symm.trans hside')
  · rw [hother side heq] at hm
    cases hm

/-- A node with one child wants the tag of the edge to it. -/
theorem Tagged.want_onlyChild (h : t.Tagged R) (hc : t.OnlyChild n c) {side : Side}
    (hside : (t.edge (.child n side)).pointer = some c) (id : Fin 3) :
    t.Want R id n none ↔ carries id (t.edge (.child n side)) = true := by
  obtain ⟨side', hside', hother⟩ := hc
  have hsides : side = side' := by
    by_contra hne
    rw [hother side hne] at hside
    cases hside
  subst hsides
  constructor
  · intro hw
    obtain ⟨side', hside'⟩ := hw
    by_cases heq : side' = side
    · exact heq ▸ hside'
    · rw [h.bare (hother side' heq)] at hside'
      cases hside'
  · intro hw
    exact ⟨side, hw⟩

/-- The place of a node is not one of its own edges. -/
theorem Shape.childPtr_ne_child (ht : Shape t) (hn : t.Has n pa st) (side : Side) :
    t.childPtr pa n ≠ .child n side := by
  intro heq
  cases pa with
  | none => cases heq
  | some p =>
    injection heq with hpn
    exact absurd (ht.lt hn) (by omega)

theorem Splice.shape (h : Splice t t' n pa c) (ht : Shape t) (hn : t.Has n pa none) (hc : t.OnlyChild n c) :
    Shape t' := by
  obtain ⟨stc, hhasc⟩ := hc.has ht
  have hnc := ht.lt hhasc
  have hparent : ∀ {m st}, t.Has m (some n) st → m = c := by
    intro m st hm
    obtain ⟨side, hside⟩ := ht.up hm
    exact hc.eq hside
  have hroot : ∀ {m}, t'.root.pointer = some m ↔
      (.root = t.childPtr pa n ∧ m = c) ∨ (m ≠ n ∧ m ≠ c ∧ t.root.pointer = some m) := by
    intro m
    show (t'.edge .root).pointer = some m ↔ _ ∨ (_ ∧ _ ∧ (t.edge .root).pointer = some m)
    exact h.pointer
  have hpa : .root = t.childPtr pa n ↔ pa = none := by
    cases pa <;> simp [childPtr]
  constructor
  case lt_next =>
    intro m pa' st hm
    rw [h.next]
    rcases h.has.1 hm with ⟨-, ⟨rfl, -, hm⟩ | ⟨-, hm⟩⟩
    · exact ht.lt_next hm
    · exact ht.lt_next hm
  case top =>
    intro m st hm
    rcases h.has.1 hm with ⟨hne, ⟨rfl, hpa', hm⟩ | ⟨hnec, hm⟩⟩
    · exact hroot.2 (.inl ⟨hpa.2 hpa'.symm, rfl⟩)
    · exact hroot.2 (.inr ⟨hne, hnec, ht.top hm⟩)
  case up =>
    intro m p st hm
    rcases h.has.1 hm with ⟨hne, ⟨rfl, rfl, hm⟩ | ⟨hnec, hm⟩⟩
    · obtain ⟨side, -, hside⟩ := ht.sideOf_eq hn
      exact ⟨side, h.pointer.2 (.inl ⟨hside.symm, rfl⟩)⟩
    · obtain ⟨side, hside⟩ := ht.up hm
      exact ⟨side, h.pointer.2 (.inr ⟨hne, hnec, hside⟩)⟩
  case lt =>
    intro m p st hm
    rcases h.has.1 hm with ⟨hne, ⟨rfl, rfl, hm⟩ | ⟨hnec, hm⟩⟩
    · exact (ht.lt hn).trans hnc
    · exact ht.lt hm
  case parent =>
    intro m p st hm
    rcases h.has.1 hm with ⟨hne, ⟨rfl, rfl, hm⟩ | ⟨hnec, hm⟩⟩
    · obtain ⟨pa', st', hp⟩ := ht.parent hn
      have hlt := ht.lt hn
      exact ⟨pa', st', h.has.2 ⟨Nat.ne_of_lt hlt, .inr ⟨Nat.ne_of_lt (hlt.trans hnc), hp⟩⟩⟩
    · have hpn : p ≠ n := fun heq => hnec (hparent (heq ▸ hm))
      obtain ⟨pa', st', hp⟩ := ht.parent hm
      by_cases hpc : p = c
      · subst hpc
        exact ⟨pa, stc, h.has.2 ⟨hpn, .inl ⟨rfl, rfl, hhasc⟩⟩⟩
      · exact ⟨pa', st', h.has.2 ⟨hpn, .inr ⟨hpc, hp⟩⟩⟩
  case down =>
    intro p side m hm
    rcases h.pointer.1 hm with ⟨hplace, rfl⟩ | ⟨hne, hnec, hm⟩
    · have hpa' : pa = some p := by
        cases pa with
        | none => cases hplace
        | some q =>
          injection hplace with hpq
          rw [hpq]
      exact ⟨stc, h.has.2 ⟨Nat.ne_of_gt hnc, .inl ⟨rfl, hpa'.symm, hhasc⟩⟩⟩
    · obtain ⟨st, hhas⟩ := ht.down hm
      exact ⟨st, h.has.2 ⟨hne, .inr ⟨hnec, hhas⟩⟩⟩
  case sides =>
    intro p m hleft hright
    rcases h.pointer.1 hleft with ⟨hplace, rfl⟩ | ⟨hne, hnec, hl⟩
    · rcases h.pointer.1 hright with ⟨hplace', -⟩ | ⟨-, hnec, -⟩
      · cases hplace.trans hplace'.symm
      · exact hnec rfl
    · rcases h.pointer.1 hright with ⟨-, rfl⟩ | ⟨-, -, hr⟩
      · exact hnec rfl
      · exact ht.sides hl hr
  case root_lt =>
    intro m hm
    rw [h.next]
    rcases hroot.1 hm with ⟨-, rfl⟩ | ⟨-, -, hm⟩
    · exact ht.lt_next hhasc
    · exact ht.root_lt hm
  case root =>
    intro m pa' st hm hhas
    rcases hroot.1 hm with ⟨hplace, rfl⟩ | ⟨-, hnec, hm⟩
    · rcases h.has.1 hhas with ⟨-, ⟨-, rfl, -⟩ | ⟨hnec, -⟩⟩
      · exact hpa.1 hplace
      · exact absurd rfl hnec
    · rcases h.has.1 hhas with ⟨-, ⟨rfl, -, -⟩ | ⟨-, hhas⟩⟩
      · exact absurd rfl hnec
      · exact ht.root hm hhas
  case leaf =>
    intro m pa' s hm side
    have hleaf : m ≠ n ∧ ∃ pa', t.Has m pa' (some s) := by
      rcases h.has.1 hm with ⟨hne, ⟨rfl, -, hm⟩ | ⟨-, hm⟩⟩
      · exact ⟨hne, some n, hm⟩
      · exact ⟨hne, pa', hm⟩
    obtain ⟨hne, pa'', hm⟩ := hleaf
    have hnone := ht.leaf hm side
    rw [Option.eq_none_iff_forall_ne_some]
    intro x hx
    rcases h.pointer.1 hx with ⟨hplace, -⟩ | ⟨-, -, hx⟩
    · rw [hplace, ht.pointer_childPtr hn] at hnone
      cases hnone
    · rw [hx] at hnone
      cases hnone
  case owner =>
    intro m pa' s hm
    rw [h.ptreeNode]
    rcases h.has.1 hm with ⟨-, ⟨rfl, -, hm⟩ | ⟨-, hm⟩⟩
    · exact ht.owner hm
    · exact ht.owner hm

theorem Splice.live (h : Splice t t' n pa c) (ht : Shape t) (hn : t.Has n pa none) (hc : t.OnlyChild n c) {s : ℕ} :
    t'.Live s ↔ t.Live s := by
  obtain ⟨stc, hhasc⟩ := hc.has ht
  constructor
  · intro hs
    obtain ⟨m, pa', hm⟩ := hs
    rcases h.has.1 hm with ⟨-, ⟨rfl, -, hm⟩ | ⟨-, hm⟩⟩
    · exact ⟨m, some n, hm⟩
    · exact ⟨m, pa', hm⟩
  · intro hs
    obtain ⟨m, pa', hm⟩ := hs
    have hne : m ≠ n := by
      intro heq
      subst heq
      cases (hn.unique hm).2
    by_cases hmc : m = c
    · subst hmc
      obtain ⟨rfl, -⟩ := hm.unique hhasc
      exact ⟨m, pa, h.has.2 ⟨hne, .inl ⟨rfl, rfl, hm⟩⟩⟩
    · exact ⟨m, pa', h.has.2 ⟨hne, .inr ⟨hmc, hm⟩⟩⟩

/-- The edges of a node are not those of another one. -/
theorem child_ne_child (hne : m ≠ n) (side' : Side) : ∀ side, Place.child m side' ≠ .child n side := by
  intro side heq
  injection heq with hmn
  exact hne hmn

theorem Splice.tagged (h : Splice t t' n pa c) (ht : Shape t) (hn : t.Has n pa none) (hc : t.OnlyChild n c)
    (htag : t.Tagged R) : t'.Tagged R := by
  obtain ⟨stc, hhasc⟩ := hc.has ht
  have hnc : c ≠ n := Nat.ne_of_gt (ht.lt hhasc)
  have hwant : ∀ {id m st}, m ≠ n → (t'.Want R id m st ↔ t.Want R id m st) := by
    intro id m st hne
    cases st with
    | some s => exact Iff.rfl
    | none => simp only [Want, h.carries _ (child_ne_child hne _)]
  intro id place
  by_cases hown : ∃ side, place = .child n side
  · obtain ⟨side, rfl⟩ := hown
    rw [good_of_null]
    · exact h.bare id side
    · intro m pa' st' hm hhas
      rcases h.pointer.1 hm with ⟨hplace, -⟩ | ⟨-, hnec, hm⟩
      · exact ht.childPtr_ne_child hn side hplace.symm
      · exact hnec (hc.eq hm)
  · have hown' : ∀ side, place ≠ .child n side := fun side heq => hown ⟨side, heq⟩
    by_cases hplace : place = t.childPtr pa n
    · -- the edge to the node and the one to its only child have the same tag
      subst hplace
      rw [good_of_pointer (h.has.2 ⟨hnc, .inl ⟨rfl, rfl, hhasc⟩⟩) (h.pointer.2 (.inl ⟨rfl, rfl⟩)),
        h.carries id hown', hwant hnc, (good_of_pointer hn (ht.pointer_childPtr hn)).1 (htag id _)]
      obtain ⟨side, hside⟩ := ht.up hhasc
      rw [← (good_of_pointer hhasc hside).1 (htag id _)]
      exact htag.want_onlyChild hc hside id
    · refine (htag id place).congr (h.carries id hown') fun m => ?_
      refine exists_congr fun pa' => exists_congr fun st' => ?_
      rw [h.pointer, h.has]
      constructor
      · intro hm
        obtain ⟨⟨heq, -⟩ | ⟨hne, hnec, hm⟩, ⟨-, hhas⟩, hw⟩ := hm
        · exact absurd heq hplace
        · obtain ⟨heq, -⟩ | ⟨-, hhas⟩ := hhas
          · exact absurd heq hnec
          exact ⟨hm, hhas, (hwant hne).1 hw⟩
      · intro hm
        obtain ⟨hm, hhas, hw⟩ := hm
        have hne : m ≠ n := by
          intro heq
          subst heq
          exact hplace (ht.place_eq hn hm)
        have hnec : m ≠ c := by
          intro heq
          subst heq
          obtain ⟨side, hside, -⟩ := hc
          exact hown ⟨side, (ht.place_eq hhasc hm).trans (ht.place_eq hhasc hside).symm⟩
        exact ⟨.inr ⟨hne, hnec, hm⟩, ⟨hne, .inr ⟨hnec, hhas⟩⟩, (hwant hne).2 hw⟩

theorem edge_setParent (parent : Option ℕ) (place : Place) : (t.setParent c parent).edge place = t.edge place := by
  cases place with
  | root => rfl
  | child q side =>
    by_cases hq : q = c
    · subst hq
      cases hN : t.node q <;> simp [setParent, edge, hN]
    · simp [setParent, edge, hq]

theorem has_setParent {parent : Option ℕ} : (t.setParent c parent).Has m pa' st ↔
    (m = c ∧ pa' = parent ∧ ∃ pc, t.Has c pc st) ∨ (m ≠ c ∧ t.Has m pa' st) := by
  unfold Has setParent
  by_cases hm : m = c
  · subst hm
    cases hN : t.node m <;> simp [eq_comm]
  · simp [hm]

/-- The node is replaced by its only child, with the child's edge. -/
theorem compress_eq (ht : Shape t) (hn : t.Has n pa none) (hc : t.OnlyChild n c) :
    ∃ side, (t.edge (.child n side)).pointer = some c ∧
      t.compress n =
        some (((t.setParent c pa).setEdge (t.childPtr pa n) (t.edge (.child n side))).delete n) := by
  obtain ⟨N, hN, rfl, hst⟩ := have h := hn; h
  have hedge := edge_child hN
  have hchild : ∃ side, (t.edge (.child n side)).pointer = some c ∧
      (if (N.child .left).pointer ≠ none then N.child .left else N.child .right) = t.edge (.child n side) := by
    obtain ⟨side, hside, hother⟩ := hc
    cases side with
    | left => exact ⟨.left, hside, by rw [← hedge .left, if_pos (by rw [hside]; simp)]⟩
    | right =>
      have hleft := hother .left (by simp)
      exact ⟨.right, hside, by rw [← hedge .left, if_neg (by rw [hleft]; simp), hedge]⟩
  obtain ⟨side, hside, hif⟩ := hchild
  refine ⟨side, hside, ?_⟩
  simp only [compress, hN, Option.bind_eq_bind, Option.bind_some, hif, hside]
  cases hp : N.parent with
  | none => rfl
  | some p =>
    obtain ⟨side', hsideOf, hplace⟩ := ht.sideOf_eq (hp ▸ hn)
    have hsideOf' : (t.setParent c (some p)).sideOf p n = some side' := by
      unfold sideOf at hsideOf ⊢
      simp only [edge_setParent]
      exact hsideOf
    simp only [hsideOf', Option.bind_some, hplace]

theorem compress_splice (ht : Shape t) (htag : t.Tagged R) (hn : t.Has n pa none) (hc : t.OnlyChild n c) :
    ∃ t', t.compress n = some t' ∧ Splice t t' n pa c := by
  obtain ⟨side, hside, hrun⟩ := compress_eq ht hn hc
  obtain ⟨stc, hhasc⟩ := hc.has ht
  have hnc := ht.lt hhasc
  set t₀ := t.setParent c pa with ht₀
  have hvalid : t₀.Valid (t.childPtr pa n) := by
    cases pa with
    | none => trivial
    | some p =>
      obtain ⟨pa', st', hp⟩ := ht.parent hn
      have hpc : p ≠ c := Nat.ne_of_lt ((ht.lt hn).trans hnc)
      exact ⟨pa', st', has_setParent.2 (.inr ⟨hpc, hp⟩)⟩
  have hown := ht.childPtr_ne_child hn
  set t' := (t₀.setEdge (t.childPtr pa n) (t.edge (.child n side))).delete n with ht'
  -- the three kinds of edges: to the node, from the node, and all others
  have hto : t'.edge (t.childPtr pa n) = t.edge (.child n side) := by
    have hself := edge_setEdge_self (e := t.edge (.child n side)) hvalid
    cases hplace : t.childPtr pa n with
    | root =>
      rw [hplace] at hself
      rw [ht', hplace, edge_delete_root, hself]
    | child q side' =>
      rw [hplace] at hself
      have hq : q ≠ n := fun heq => hown side' (heq ▸ hplace)
      rw [ht', hplace, edge_delete, if_neg hq, hself]
  have hfrom : ∀ side', t'.edge (.child n side') = .null := by
    intro side'
    rw [ht', edge_delete, if_pos rfl]
  have hother : ∀ {place}, place ≠ t.childPtr pa n → (∀ side', place ≠ .child n side') →
      t'.edge place = t.edge place := by
    intro place hne hchild
    cases place with
    | root => rw [ht', edge_delete_root, edge_setEdge_ne hne, edge_setParent]
    | child q side' =>
      have hq : q ≠ n := fun heq => hchild side' (heq ▸ rfl)
      rw [ht', edge_delete, if_neg hq, edge_setEdge_ne hne, edge_setParent]
  refine ⟨t', hrun, ?_⟩
  constructor
  case next => cases pa <;> rfl
  case ptreeNode => cases pa <;> rfl
  case has =>
    intro m pa' st'
    rw [ht', has_delete, has_setEdge, has_setParent]
    refine and_congr_right fun _ => or_congr_left (and_congr_right fun _ => and_congr_right fun _ => ?_)
    constructor
    · intro h
      obtain ⟨pc, hpc⟩ := h
      obtain ⟨rfl, -⟩ := hpc.unique hhasc
      exact hpc
    · intro h
      exact ⟨some n, h⟩
  case pointer =>
    intro place m
    by_cases hplace : place = t.childPtr pa n
    · subst hplace
      rw [hto, hside, ht.pointer_childPtr hn, Option.some.injEq, Option.some.injEq]
      constructor
      · intro h
        exact .inl ⟨rfl, h.symm⟩
      · intro h
        obtain ⟨-, h⟩ | ⟨hne, -, h⟩ := h
        · exact h.symm
        · exact absurd h.symm hne
    · by_cases hchild : ∃ side', place = .child n side'
      · obtain ⟨side', rfl⟩ := hchild
        rw [hfrom]
        constructor
        · intro h
          cases h
        · intro h
          obtain ⟨h, -⟩ | ⟨-, hne, h⟩ := h
          · exact absurd h hplace
          · exact absurd (hc.eq h) hne
      · rw [hother hplace fun side' heq => hchild ⟨side', heq⟩]
        constructor
        · intro hm
          refine .inr ⟨fun heq => hplace (ht.place_eq hn (heq ▸ hm)), fun heq => hchild ⟨side, ?_⟩, hm⟩
          subst heq
          exact (ht.place_eq hhasc hm).trans (ht.place_eq hhasc hside).symm
        · intro h
          obtain ⟨h, -⟩ | ⟨-, -, h⟩ := h
          · exact absurd h hplace
          · exact h
  case bare =>
    intro id side'
    rw [hfrom]
    exact carries_null
  case carries =>
    intro id place hchild
    by_cases hplace : place = t.childPtr pa n
    · subst hplace
      rw [hto, Bool.eq_iff_iff]
      exact ((htag.want_onlyChild hc hside id).symm.trans
        ((good_of_pointer hn (ht.pointer_childPtr hn)).1 (htag id _)).symm)
    · rw [hother hplace hchild]

theorem remove_spec (ht : Shape t) (htag : t.Tagged R) {s : ℕ} (hn : t.Has n pa (some s)) (hs : ∀ id, s ∉ R id)
    (compressProcessTree : Bool) :
    ∃ t', t.remove compressProcessTree n = some t' ∧ Shape t' ∧ t'.Tagged R ∧
      ∀ s', t'.Live s' ↔ t.Live s' ∧ s ≠ s' := by
  have hchild : t.Childless n := ht.leaf hn
  have hbare : ∀ id, carries id (t.edge (t.childPtr pa n)) = false := by
    intro id
    rw [Bool.eq_false_iff]
    intro hc
    exact hs id (((good_of_pointer hn (ht.pointer_childPtr hn)).1 (htag id _)).1 hc)
  obtain ⟨t₁, x, hrun, hshape, htag₁, hlive, hx⟩ := removeUp_spec t.next (ht.lt_next hn) ht htag hn hchild hbare
  have hlive₁ : ∀ s', t₁.Live s' ↔ t.Live s' ∧ s ≠ s' := by
    intro s'
    rw [hlive]
    simp
  obtain ⟨N, hN, -, -⟩ := hn
  have hleaf : (N.child .left).pointer = none ∧ (N.child .right).pointer = none :=
    ⟨edge_child hN .left ▸ hchild .left, edge_child hN .right ▸ hchild .right⟩
  have hremove : t.remove compressProcessTree n =
      match x with
      | some n => if compressProcessTree then t₁.compress n else some t₁
      | none => some t₁ := by
    simp only [remove, hN, Option.bind_eq_bind, Option.bind_some, if_pos hleaf, hrun]
    cases x <;> rfl
  rw [hremove]
  cases x with
  | none => exact ⟨t₁, rfl, hshape, htag₁, hlive₁⟩
  | some p =>
    cases compressProcessTree with
    | false => exact ⟨t₁, rfl, hshape, htag₁, hlive₁⟩
    | true =>
      obtain ⟨pa', c, hp, hc⟩ := hx p rfl
      obtain ⟨t₂, hrun₂, hsplice⟩ := compress_splice hshape htag₁ hp hc
      refine ⟨t₂, hrun₂, hsplice.shape hshape hp hc, hsplice.tagged hshape hp hc htag₁, fun s' => ?_⟩
      rw [hsplice.live hshape hp hc]
      exact hlive₁ s'

end PTree

end SymBisect
