import Mathlib.Data.Set.Basic
import SymBisect.Core.PTree

/-!
# The tags of the process tree

What it means for the process tree and its tags to be right, and that `update` of `RandomPathSearcher` keeps
it so.

* `PTree.Shape`: edges and parents agree, and a node with a state is a leaf.
* `PTree.Tagged`: the edge to a leaf is tagged when the state of the leaf is registered, the edge to an inner
  node when one of its own edges is tagged.
* `GoodOff.step`: a turn of either loop of `update` moves the one edge that may be wrong to the parent.
-/

namespace SymBisect

namespace PTree

open RandomPathSearcher

/-! ### Nodes and edges -/

/-- The tree has a node with this parent and state. -/
def Has (t : PTree) (n : ℕ) (parent state : Option ℕ) : Prop :=
  ∃ N, t.node n = some N ∧ N.parent = parent ∧ N.state = state

variable {t : PTree} {n m p : ℕ} {pa pa' st st' : Option ℕ} {place place' : Place} {e : PTreeNodePtr}

theorem Has.unique (h : t.Has n pa st) (h' : t.Has n pa' st') : pa = pa' ∧ st = st' := by
  obtain ⟨N, hN, rfl, rfl⟩ := h
  obtain ⟨N', hN', rfl, rfl⟩ := h'
  obtain rfl := Option.some.inj (hN.symm.trans hN')
  exact ⟨rfl, rfl⟩

theorem edge_child {N : PTreeNode} (h : t.node n = some N) (side : Side) :
    t.edge (.child n side) = N.child side := by
  simp [edge, h]

/-- The node of a place exists. -/
def Valid (t : PTree) : Place → Prop
  | .root => True
  | .child p _ => ∃ pa st, t.Has p pa st

theorem has_setEdge : (t.setEdge place e).Has n pa st ↔ t.Has n pa st := by
  unfold Has setEdge
  cases place with
  | root => exact Iff.rfl
  | child p side =>
    by_cases hn : n = p
    · subst hn
      simp only [Function.update_self, Option.map_eq_some_iff]
      constructor
      · intro h
        obtain ⟨N, ⟨P, hP, rfl⟩, h⟩ := h
        exact ⟨P, hP, h⟩
      · intro h
        obtain ⟨P, hP, h⟩ := h
        exact ⟨_, ⟨P, hP, rfl⟩, h⟩
    · simp only [Function.update_of_ne hn]

theorem edge_setEdge_self (h : t.Valid place) : (t.setEdge place e).edge place = e := by
  cases place with
  | root => rfl
  | child p side =>
    obtain ⟨pa, st, P, hP, -⟩ := h
    simp [setEdge, edge, hP]

theorem edge_setEdge_ne (h : place' ≠ place) : (t.setEdge place e).edge place' = t.edge place' := by
  cases place with
  | root =>
    cases place' with
    | root => exact absurd rfl h
    | child q side => rfl
  | child p side =>
    cases place' with
    | root => rfl
    | child q side' =>
      by_cases hq : q = p
      · subst hq
        have hside : side' ≠ side := fun heq => h (heq ▸ rfl)
        cases hP : t.node q <;> simp [setEdge, edge, hP, hside]
      · simp [setEdge, edge, hq]

theorem has_delete : (t.delete n).Has m pa st ↔ m ≠ n ∧ t.Has m pa st := by
  unfold Has delete
  by_cases hm : m = n
  · subst hm
    simp
  · simp [hm]

theorem edge_delete_root : (t.delete n).edge .root = t.edge .root := rfl

theorem edge_delete (side : Side) :
    (t.delete n).edge (.child m side) = if m = n then .null else t.edge (.child m side) := by
  by_cases hm : m = n
  · subst hm
    simp [delete, edge]
  · simp [delete, edge, hm]

/-! ### The shape of the tree -/

/-- Edges and parents agree, children are younger than their parents, and a node with a state is a leaf. -/
structure Shape (t : PTree) : Prop where
  lt_next : ∀ {n pa st}, t.Has n pa st → n < t.next
  top : ∀ {n st}, t.Has n none st → t.root.pointer = some n
  up : ∀ {n p st}, t.Has n (some p) st → ∃ side, (t.edge (.child p side)).pointer = some n
  lt : ∀ {n p st}, t.Has n (some p) st → p < n
  parent : ∀ {n p st}, t.Has n (some p) st → ∃ pa st', t.Has p pa st'
  down : ∀ {p side c}, (t.edge (.child p side)).pointer = some c → ∃ st, t.Has c (some p) st
  sides : ∀ {p c}, (t.edge (.child p .left)).pointer = some c → (t.edge (.child p .right)).pointer ≠ some c
  root_lt : ∀ {r}, t.root.pointer = some r → r < t.next
  root : ∀ {r pa st}, t.root.pointer = some r → t.Has r pa st → pa = none
  leaf : ∀ {n pa s}, t.Has n pa (some s) → ∀ side, (t.edge (.child n side)).pointer = none
  owner : ∀ {n pa s}, t.Has n pa (some s) → t.ptreeNode s = some n

/-- The edge to a node is stored in one place. -/
theorem Shape.place_eq (h : Shape t) (hn : t.Has n pa st) (hplace : (t.edge place).pointer = some n) :
    place = t.childPtr pa n := by
  cases place with
  | root =>
    obtain rfl := h.root hplace hn
    rfl
  | child p side =>
    obtain ⟨st', hn'⟩ := h.down hplace
    obtain ⟨rfl, -⟩ := hn.unique hn'
    unfold childPtr
    cases side with
    | left => simp [hplace]
    | right =>
      have hleft : (t.edge (.child p .left)).pointer ≠ some n := fun hl => h.sides hl hplace
      simp [hleft]

/-- `childPtr` is the edge to the node. -/
theorem Shape.pointer_childPtr (h : Shape t) (hn : t.Has n pa st) :
    (t.edge (t.childPtr pa n)).pointer = some n := by
  cases pa with
  | none => exact h.top hn
  | some p =>
    obtain ⟨side, hside⟩ := h.up hn
    rwa [h.place_eq hn hside] at hside

theorem Shape.valid (h : Shape t) (hn : t.Has n pa st) : t.Valid (t.childPtr pa n) := by
  cases pa with
  | none => trivial
  | some p => exact h.parent hn

/-- Edges lead to nodes that have been created. -/
theorem Shape.pointer_lt (h : Shape t) (hp : (t.edge place).pointer = some n) : n < t.next := by
  cases place with
  | root => exact h.root_lt hp
  | child p side =>
    obtain ⟨st, hn⟩ := h.down hp
    exact h.lt_next hn

/-- A node that has a child has no state. -/
theorem Shape.inner (h : Shape t) (hn : t.Has n pa st) {side : Side}
    (hside : (t.edge (.child n side)).pointer ≠ none) : st = none := by
  cases st with
  | none => rfl
  | some s => exact absurd (h.leaf hn side) hside

/-! ### The tags -/

/-- The edge carries the bit of the searcher. -/
def carries (id : Fin 3) (e : PTreeNodePtr) : Bool := (e.int &&& idBitMask id) != 0

variable {R R' : Fin 3 → Set ℕ} {id id' : Fin 3}

theorem carries_null : carries id .null = false := by
  revert id
  decide

theorem carries_or (e : PTreeNodePtr) :
    carries id { e with int := e.int ||| idBitMask id' } = (decide (id = id') || carries id e) := by
  have h : ∀ (id id' : Fin 3) (i : BitVec 3), ((i ||| idBitMask id') &&& idBitMask id != 0) =
      (decide (id = id') || (i &&& idBitMask id != 0)) := by decide
  exact h id id' e.int

theorem carries_andNot (e : PTreeNodePtr) :
    carries id { e with int := e.int &&& ~~~idBitMask id' } = (!decide (id = id') && carries id e) := by
  have h : ∀ (id id' : Fin 3) (i : BitVec 3), ((i &&& ~~~idBitMask id') &&& idBitMask id != 0) =
      (!decide (id = id') && (i &&& idBitMask id != 0)) := by decide
  exact h id id' e.int

theorem isOurNodeValid_eq (e : PTreeNodePtr) : isOurNodeValid id e = (e.pointer.isSome && carries id e) := rfl

/-- What the tag of the edge to a node has to say: for a leaf, that its state is registered, for an inner
node, that one of its edges is tagged. -/
def Want (t : PTree) (R : Fin 3 → Set ℕ) (id : Fin 3) (n : ℕ) : Option ℕ → Prop
  | some s => s ∈ R id
  | none => ∃ side, carries id (t.edge (.child n side)) = true

/-- The edge at a place carries the bit exactly when it leads to a node that wants it. -/
def Good (t : PTree) (R : Fin 3 → Set ℕ) (id : Fin 3) (place : Place) : Prop :=
  carries id (t.edge place) = true ↔
    ∃ n pa st, (t.edge place).pointer = some n ∧ t.Has n pa st ∧ t.Want R id n st

/-- All edges are good, for all searchers. -/
def Tagged (t : PTree) (R : Fin 3 → Set ℕ) : Prop := ∀ id place, t.Good R id place

/-- An edge is good when its tag is right for the node it leads to. -/
theorem good_of_pointer (hn : t.Has n pa st) (hp : (t.edge place).pointer = some n) :
    t.Good R id place ↔ (carries id (t.edge place) = true ↔ t.Want R id n st) := by
  have h : (∃ n pa st, (t.edge place).pointer = some n ∧ t.Has n pa st ∧ t.Want R id n st) ↔
      t.Want R id n st := by
    constructor
    · intro h
      obtain ⟨m, pa', st', hm, hhas, hwant⟩ := h
      obtain rfl := Option.some.inj (hp.symm.trans hm)
      obtain ⟨-, rfl⟩ := hn.unique hhas
      exact hwant
    · intro hwant
      exact ⟨n, pa, st, hp, hn, hwant⟩
  unfold Good
  rw [h]

/-- An edge that leads nowhere is good when it is untagged. -/
theorem good_of_null (hp : ∀ {n pa st}, (t.edge place).pointer = some n → ¬ t.Has n pa st) :
    t.Good R id place ↔ carries id (t.edge place) = false := by
  have h : ¬ ∃ n pa st, (t.edge place).pointer = some n ∧ t.Has n pa st ∧ t.Want R id n st := by
    intro h
    obtain ⟨m, pa', st', hm, hhas, -⟩ := h
    exact hp hm hhas
  unfold Good
  rw [iff_false_right h, Bool.not_eq_true]

/-- A good edge that carries the bit leads to a node. -/
theorem Good.isOur (h : t.Good R id place) :
    isOurNodeValid id (t.edge place) = carries id (t.edge place) := by
  rw [isOurNodeValid_eq]
  cases hc : carries id (t.edge place) with
  | false => simp
  | true =>
    obtain ⟨n, pa, st, hp, -⟩ := h.1 hc
    simp [hp]

/-- Whether an edge is good depends on its own tag, and on what is said of the node it leads to. -/
theorem Good.congr {t' : PTree} (h : t.Good R id place)
    (hcarries : carries id (t'.edge place) = carries id (t.edge place))
    (hnode : ∀ n, ((∃ pa st, (t'.edge place).pointer = some n ∧ t'.Has n pa st ∧ t'.Want R' id n st) ↔
      ∃ pa st, (t.edge place).pointer = some n ∧ t.Has n pa st ∧ t.Want R id n st)) : t'.Good R' id place := by
  unfold Good at h ⊢
  rw [hcarries, h]
  exact exists_congr fun n => (hnode n).symm

/-! ### Retagging an edge -/

/-- The two trees differ in the tags of one searcher only. -/
structure Retag (id : Fin 3) (t t' : PTree) : Prop where
  next : t'.next = t.next
  ptreeNode : t'.ptreeNode = t.ptreeNode
  has : ∀ {n pa st}, t'.Has n pa st ↔ t.Has n pa st
  pointer : ∀ place, (t'.edge place).pointer = (t.edge place).pointer
  carries : ∀ {id'} place, id' ≠ id → PTree.carries id' (t'.edge place) = PTree.carries id' (t.edge place)

variable {t' t'' : PTree}

theorem Retag.refl : Retag id t t := ⟨rfl, rfl, Iff.rfl, fun _ => rfl, fun _ _ => rfl⟩

theorem Retag.trans (h : Retag id t t') (h' : Retag id t' t'') : Retag id t t'' where
  next := h'.next.trans h.next
  ptreeNode := h'.ptreeNode.trans h.ptreeNode
  has := h'.has.trans h.has
  pointer := fun place => (h'.pointer place).trans (h.pointer place)
  carries := fun place hne => (h'.carries place hne).trans (h.carries place hne)

theorem Retag.shape (h : Retag id t t') (ht : Shape t) : Shape t' where
  lt_next := fun hn => h.next ▸ ht.lt_next (h.has.1 hn)
  top := fun hn => (h.pointer .root).trans (ht.top (h.has.1 hn))
  up := fun hn => by
    obtain ⟨side, hside⟩ := ht.up (h.has.1 hn)
    exact ⟨side, (h.pointer _).trans hside⟩
  lt := fun hn => ht.lt (h.has.1 hn)
  parent := fun hn => by
    obtain ⟨pa, st', hp⟩ := ht.parent (h.has.1 hn)
    exact ⟨pa, st', h.has.2 hp⟩
  down := fun hp => by
    obtain ⟨st, hc⟩ := ht.down ((h.pointer _).symm.trans hp)
    exact ⟨st, h.has.2 hc⟩
  sides := fun hp hq => ht.sides ((h.pointer _).symm.trans hp) ((h.pointer _).symm.trans hq)
  root_lt := fun hr => h.next ▸ ht.root_lt ((h.pointer .root).symm.trans hr)
  root := fun hr hn => ht.root ((h.pointer .root).symm.trans hr) (h.has.1 hn)
  leaf := fun hn side => (h.pointer _).trans (ht.leaf (h.has.1 hn) side)
  owner := fun hn => h.ptreeNode ▸ ht.owner (h.has.1 hn)

theorem Retag.childPtr (h : Retag id t t') (pa : Option ℕ) (n : ℕ) : t'.childPtr pa n = t.childPtr pa n := by
  cases pa with
  | none => rfl
  | some p => simp only [PTree.childPtr, h.pointer]

/-- The other searchers do not notice. -/
theorem Retag.good_other (h : Retag id t t') (hne : id' ≠ id) (hR : R' id' = R id')
    (hgood : t.Good R id' place) : t'.Good R' id' place := by
  have hwant : ∀ n st, t'.Want R' id' n st ↔ t.Want R id' n st := by
    intro n st
    cases st with
    | none => simp only [Want, h.carries _ hne]
    | some s => simp only [Want, hR]
  refine hgood.congr (h.carries place hne) fun n => ?_
  simp only [h.pointer, h.has, hwant]

/-- Setting the tag of an edge. -/
theorem retag_setEdge (hplace : t.Valid place) {i : BitVec 3}
    (hi : ∀ {id'}, id' ≠ id → carries id' { t.edge place with int := i } = carries id' (t.edge place)) :
    Retag id t (t.setEdge place { t.edge place with int := i }) where
  next := by cases place <;> rfl
  ptreeNode := by cases place <;> rfl
  has := has_setEdge
  pointer := fun place' => by
    by_cases h : place' = place
    · subst h
      rw [edge_setEdge_self hplace]
    · rw [edge_setEdge_ne h]
  carries := fun place' hne => by
    by_cases h : place' = place
    · subst h
      rw [edge_setEdge_self hplace]
      exact hi hne
    · rw [edge_setEdge_ne h]

/-- An edge that is neither the one that was set nor the one to its node stays good. -/
theorem Good.setEdge (h : t.Good R id place') (hne : place' ≠ place)
    (hother : ∀ {p side}, place = .child p side → (t.edge place').pointer ≠ some p) :
    (t.setEdge place e).Good R id place' := by
  refine h.congr (by rw [edge_setEdge_ne hne]) fun n => ?_
  rw [edge_setEdge_ne hne]
  refine exists_congr fun pa => exists_congr fun st => and_congr_right fun hn => ?_
  rw [has_setEdge]
  refine and_congr_right fun hhas => ?_
  cases st with
  | some s => exact Iff.rfl
  | none =>
    refine exists_congr fun side => ?_
    have hside : Place.child n side ≠ place := fun heq => hother heq.symm hn
    rw [edge_setEdge_ne hside]

/-- All edges are good, except for the one to `x`. -/
def GoodOff (t : PTree) (R : Fin 3 → Set ℕ) (id : Fin 3) (x : Option ℕ) : Prop :=
  ∀ place, (∀ n, x = some n → (t.edge place).pointer ≠ some n) → t.Good R id place

/-- One turn of the loops of `update`: once the edge to a node is right, the edge to its parent is the one
left over. -/
theorem GoodOff.step (h : Shape t) (hn : t.Has n pa st) (hoff : t.GoodOff R id (some n))
    (hp : e.pointer = some n) (he : carries id e = true ↔ t.Want R id n st) :
    (t.setEdge (t.childPtr pa n) e).GoodOff R id pa := by
  have hself : ∀ side, Place.child n side ≠ t.childPtr pa n := by
    intro side heq
    cases pa with
    | none => cases heq
    | some p =>
      injection heq with hnp
      exact absurd (h.lt hn) (by omega)
  have hwant : (t.setEdge (t.childPtr pa n) e).Want R id n st ↔ t.Want R id n st := by
    cases st with
    | some s => exact Iff.rfl
    | none => simp only [Want, edge_setEdge_ne (hself _)]
  intro place hplace
  by_cases heq : place = t.childPtr pa n
  · subst heq
    have hedge := edge_setEdge_self (e := e) (h.valid hn)
    rw [good_of_pointer (has_setEdge.2 hn) (by rw [hedge, hp]), hedge, hwant]
    exact he
  · refine (hoff place ?_).setEdge heq ?_
    · intro m hm hptr
      obtain rfl := Option.some.inj hm
      exact heq (h.place_eq hn hptr)
    · intro p side hchild
      rw [edge_setEdge_ne heq] at hplace
      cases pa with
      | none => cases hchild
      | some q =>
        injection hchild with hqp
        exact hqp ▸ hplace q rfl

/-- The edges of a node are good when only the edge to the node may be wrong. -/
theorem GoodOff.children (h : Shape t) (hoff : t.GoodOff R id (some n)) (side : Side) :
    t.Good R id (.child n side) := by
  refine hoff _ fun m hm hptr => ?_
  obtain rfl := Option.some.inj hm
  obtain ⟨st, hc⟩ := h.down hptr
  exact absurd (h.lt hc) (lt_irrefl _)

/-- All edges are good once the one that was left over is. -/
theorem GoodOff.close (h : Shape t) (hn : t.Has n pa st) (hoff : t.GoodOff R id (some n))
    (hedge : carries id (t.edge (t.childPtr pa n)) = true ↔ t.Want R id n st) : t.GoodOff R id none := by
  intro place _
  by_cases heq : (t.edge place).pointer = some n
  · rw [good_of_pointer hn heq, h.place_eq hn heq]
    exact hedge
  · exact hoff place fun m hm => Option.some.inj hm ▸ heq

/-- The loop for an added state: the node wants the bit, and all edges but its own are good. -/
theorem tagUp_spec (fuel : ℕ) : ∀ {t : PTree} {x : Option ℕ}, Shape t → t.GoodOff R id x →
    (∀ n, x = some n → n < fuel ∧ ∃ pa st, t.Has n pa st ∧ t.Want R id n st) →
    ∃ t', tagUp id fuel t x = some t' ∧ Retag id t t' ∧ t'.GoodOff R id none := by
  induction fuel with
  | zero =>
    intro t x ht hoff hx
    cases x with
    | none => exact ⟨t, by unfold tagUp; rfl, .refl, hoff⟩
    | some n => exact absurd (hx n rfl).1 (Nat.not_lt_zero n)
  | succ fuel ih =>
    intro t x ht hoff hx
    cases x with
    | none => exact ⟨t, by unfold tagUp; rfl, .refl, hoff⟩
    | some n =>
      obtain ⟨hfuel, pa, st, hn, hwant⟩ := hx n rfl
      have hptr := ht.pointer_childPtr hn
      obtain ⟨N, hN, rfl, rfl⟩ := have h := hn; h
      simp only [tagUp, hN, Option.bind_eq_bind, Option.bind_some]
      by_cases hour : isOurNodeValid id (t.edge (t.childPtr N.parent n)) = true
      · -- the edge is tagged already: nothing changes above it
        rw [if_pos hour]
        rw [isOurNodeValid_eq, Bool.and_eq_true] at hour
        exact ⟨t, rfl, .refl, hoff.close ht hn (iff_of_true hour.2 hwant)⟩
      · rw [if_neg hour]
        set e : PTreeNodePtr := { t.edge (t.childPtr N.parent n) with
          int := (t.edge (t.childPtr N.parent n)).int ||| idBitMask id } with he
        have hcarries : carries id e = true := by rw [he, carries_or]; simp
        have hretag : Retag id t (t.setEdge (t.childPtr N.parent n) e) :=
          retag_setEdge (ht.valid hn) fun hne => by rw [carries_or]; simp [hne]
        have hoff' := hoff.step (e := e) ht hn hptr (iff_of_true hcarries hwant)
        obtain ⟨t', hrun, hretag', hgood⟩ := ih (hretag.shape ht) hoff' fun p hp => by
          rw [hp] at hn
          obtain ⟨pa, st, hhas⟩ := ht.parent hn
          obtain ⟨side, hside⟩ := ht.up hn
          obtain rfl := ht.inner hhas (by rw [hside]; simp)
          refine ⟨lt_of_lt_of_le (ht.lt hn) (Nat.lt_succ_iff.1 hfuel), pa, none, has_setEdge.2 hhas, side, ?_⟩
          rw [ht.place_eq hn hside, ← hp, edge_setEdge_self (ht.valid (hp ▸ hn))]
          exact hcarries
        exact ⟨t', hrun, hretag.trans hretag', hgood⟩

/-- The loop for a removed state: all edges but the one to the node are good, and that one is tagged. -/
theorem untagUp_spec (fuel : ℕ) : ∀ {t : PTree} {x : Option ℕ}, Shape t → t.GoodOff R id x →
    (∀ n, x = some n → n < fuel ∧ ∃ pa st, t.Has n pa st ∧
      carries id (t.edge (t.childPtr pa n)) = true ∧ ∀ s, st = some s → s ∉ R id) →
    ∃ t', untagUp id fuel t x = some t' ∧ Retag id t t' ∧ t'.GoodOff R id none := by
  induction fuel with
  | zero =>
    intro t x ht hoff hx
    cases x with
    | none => exact ⟨t, by unfold untagUp; rfl, .refl, hoff⟩
    | some n => exact absurd (hx n rfl).1 (Nat.not_lt_zero n)
  | succ fuel ih =>
    intro t x ht hoff hx
    cases x with
    | none => exact ⟨t, by unfold untagUp; rfl, .refl, hoff⟩
    | some n =>
      obtain ⟨hfuel, pa, st, hn, htag, hst⟩ := hx n rfl
      have hptr := ht.pointer_childPtr hn
      obtain ⟨N, hN, rfl, rfl⟩ := have h := hn; h
      have hchild : ∀ side, isOurNodeValid id (N.child side) = carries id (t.edge (.child n side)) := by
        intro side
        rw [← edge_child hN]
        exact (hoff.children ht side).isOur
      simp only [untagUp, hN, Option.bind_eq_bind, Option.bind_some, hchild]
      by_cases hnone : (!carries id (t.edge (.child n .left)) && !carries id (t.edge (.child n .right))) = true
      · rw [if_pos hnone]
        have hour : isOurNodeValid id (t.edge (t.childPtr N.parent n)) = true := by
          rw [isOurNodeValid_eq, hptr, htag]; rfl
        rw [if_pos hour]
        simp only [Bool.and_eq_true, Bool.not_eq_true'] at hnone
        have hwant : ¬ t.Want R id n N.state := by
          cases hs : N.state with
          | some s => exact hst s hs
          | none =>
            intro h
            obtain ⟨side, hside⟩ := h
            cases side with
            | left => rw [hnone.1] at hside; cases hside
            | right => rw [hnone.2] at hside; cases hside
        set e : PTreeNodePtr := { t.edge (t.childPtr N.parent n) with
          int := (t.edge (t.childPtr N.parent n)).int &&& ~~~idBitMask id } with he
        have hcarries : ¬ carries id e = true := by rw [he, carries_andNot]; simp
        have hretag : Retag id t (t.setEdge (t.childPtr N.parent n) e) :=
          retag_setEdge (ht.valid hn) fun hne => by rw [carries_andNot]; simp [hne]
        have hoff' := hoff.step (e := e) ht hn hptr (iff_of_false hcarries hwant)
        obtain ⟨t', hrun, hretag', hgood⟩ := ih (hretag.shape ht) hoff' fun p hp => by
          rw [hp] at hn
          obtain ⟨pa, st, hhas⟩ := ht.parent hn
          obtain ⟨side, hside⟩ := ht.up hn
          obtain rfl := ht.inner hhas (by rw [hside]; simp)
          have hlt := ht.lt hn
          have hpp := ht.pointer_childPtr hhas
          refine ⟨lt_of_lt_of_le hlt (Nat.lt_succ_iff.1 hfuel), pa, none, has_setEdge.2 hhas, ?_,
            fun s hs => nomatch hs⟩
          -- the parent's edge was good, and the edge to `n` was tagged
          have hgood : t.Good R id (t.childPtr pa p) := hoff _ fun m hm hptr' => by
            obtain rfl := Option.some.inj hm
            exact absurd (Option.some.inj (hpp.symm.trans hptr')) (Nat.ne_of_lt hlt)
          have hne : t.childPtr pa p ≠ t.childPtr N.parent n := by
            intro heq
            rw [heq, hptr] at hpp
            exact absurd (Option.some.inj hpp) (Nat.ne_of_gt hlt)
          rw [hretag.childPtr, edge_setEdge_ne hne]
          refine ((good_of_pointer hhas hpp).1 hgood).2 ⟨side, ?_⟩
          rw [ht.place_eq hn hside, ← hp]
          exact htag
        exact ⟨t', hrun, hretag.trans hretag', hgood⟩
      · rw [if_neg hnone]
        refine ⟨t, rfl, .refl, hoff.close ht hn (iff_of_true htag ?_)⟩
        have hside : ∃ side, carries id (t.edge (.child n side)) = true := by
          cases hl : carries id (t.edge (.child n .left)) with
          | true => exact ⟨.left, hl⟩
          | false =>
            cases hr : carries id (t.edge (.child n .right)) with
            | true => exact ⟨.right, hr⟩
            | false => simp [hl, hr] at hnone
        obtain ⟨side, hside⟩ := hside
        obtain ⟨c, -, -, hc, -⟩ := (hoff.children ht side).1 hside
        rw [ht.inner hn (show (t.edge (.child n side)).pointer ≠ none by rw [hc]; simp)]
        exact ⟨side, hside⟩

/-! ### `update` -/

/-- The state has a leaf. -/
def Live (t : PTree) (s : ℕ) : Prop := ∃ n pa, t.Has n pa (some s)

theorem Retag.live (h : Retag id t t') {s : ℕ} : t'.Live s ↔ t.Live s :=
  exists_congr fun _ => exists_congr fun _ => h.has

/-- A change of what is registered matters for the edges to the leaves of the states concerned. -/
theorem Good.reregister (h : t.Good R id place)
    (hsame : ∀ {m pa s}, (t.edge place).pointer = some m → t.Has m pa (some s) → (s ∈ R' id ↔ s ∈ R id)) :
    t.Good R' id place := by
  refine h.congr rfl fun m => ?_
  refine exists_congr fun pa => exists_congr fun st => and_congr_right fun hm => and_congr_right fun hhas => ?_
  cases st with
  | none => exact Iff.rfl
  | some s => exact hsame hm hhas

/-- When one state is registered or removed, the edge to its leaf is the only one that is wrong. -/
theorem Tagged.goodOff (ht : Shape t) (h : t.Tagged R) {s : ℕ} (hn : t.Has n pa (some s))
    (hsame : ∀ {s'}, s' ≠ s → (s' ∈ R' id ↔ s' ∈ R id)) : t.GoodOff R' id (some n) := by
  intro place hplace
  refine (h id place).reregister fun hm hhas => hsame ?_
  intro heq
  subst heq
  have hmn := Option.some.inj ((ht.owner hhas).symm.trans (ht.owner hn))
  exact hplace n rfl (hmn ▸ hm)

theorem GoodOff.tagged (h : t'.GoodOff R' id none) (hretag : Retag id t t') (ht : t.Tagged R)
    (hR : ∀ id', id' ≠ id → R' id' = R id') : t'.Tagged R' := by
  intro id' place
  by_cases hid : id' = id
  · subst hid
    exact h place fun n hn => nomatch hn
  · exact hretag.good_other hid (hR id' hid) (ht id' place)

/-- The first loop of `update`. -/
theorem tag_states (added : List ℕ) : ∀ {t : PTree} {R : Fin 3 → Set ℕ}, Shape t → t.Tagged R →
    (∀ s ∈ added, t.Live s) →
    ∃ t', added.foldlM (fun t es => do
        let pnode ← t.ptreeNode es
        tagUp id t.next t (some pnode)) t = some t' ∧
      Retag id t t' ∧ t'.Tagged (Function.update R id (R id ∪ {s | s ∈ added})) := by
  induction added with
  | nil =>
    intro t R ht htag hlive
    refine ⟨t, rfl, .refl, ?_⟩
    simpa using htag
  | cons s added ih =>
    intro t R ht htag hlive
    obtain ⟨n, pa, hn⟩ := hlive s List.mem_cons_self
    have hsame : ∀ {s'}, s' ≠ s → (s' ∈ Function.update R id (insert s (R id)) id ↔ s' ∈ R id) := by
      intro s' hne
      rw [Function.update_self, Set.mem_insert_iff]
      exact or_iff_right hne
    obtain ⟨t₁, hrun, hretag, hgood⟩ := tagUp_spec t.next ht (htag.goodOff ht hn hsame) fun m hm => by
      obtain rfl := Option.some.inj hm
      refine ⟨ht.lt_next hn, pa, some s, hn, ?_⟩
      show s ∈ Function.update R id (insert s (R id)) id
      rw [Function.update_self]
      exact Set.mem_insert s _
    have htag₁ := hgood.tagged hretag htag fun id' hid => Function.update_of_ne hid _ _
    obtain ⟨t', hfold, hretag', htag'⟩ := ih (hretag.shape ht) htag₁ fun s' hs' =>
      hretag.live.2 (hlive s' (List.mem_cons_of_mem s hs'))
    refine ⟨t', ?_, hretag.trans hretag', ?_⟩
    · simp only [List.foldlM_cons, ht.owner hn, Option.bind_eq_bind, Option.bind_some, hrun]
      simpa only [Option.bind_eq_bind] using hfold
    · rw [Function.update_idem, Function.update_self] at htag'
      have hset : R id ∪ {s' | s' ∈ s :: added} = insert s (R id) ∪ {s' | s' ∈ added} := by
        ext s'
        simp only [Set.mem_union, Set.mem_insert_iff, Set.mem_ofPred_eq, List.mem_cons]
        tauto
      rw [hset]
      exact htag'

/-- The second loop of `update`. -/
theorem untag_states (removed : List ℕ) : ∀ {t : PTree} {R : Fin 3 → Set ℕ}, Shape t → t.Tagged R →
    removed.Nodup → (∀ s ∈ removed, s ∈ R id ∧ t.Live s) →
    ∃ t', removed.foldlM (fun t es => do
        let pnode ← t.ptreeNode es
        untagUp id t.next t (some pnode)) t = some t' ∧
      Retag id t t' ∧ t'.Tagged (Function.update R id (R id \ {s | s ∈ removed})) := by
  induction removed with
  | nil =>
    intro t R ht htag _ _
    refine ⟨t, rfl, .refl, ?_⟩
    simpa using htag
  | cons s removed ih =>
    intro t R ht htag hnodup hreg
    obtain ⟨hs, n, pa, hn⟩ := hreg s List.mem_cons_self
    have hsame : ∀ {s'}, s' ≠ s → (s' ∈ Function.update R id (R id \ {s}) id ↔ s' ∈ R id) := by
      intro s' hne
      rw [Function.update_self, Set.mem_sdiff, Set.mem_singleton_iff]
      exact and_iff_left hne
    obtain ⟨t₁, hrun, hretag, hgood⟩ := untagUp_spec t.next ht (htag.goodOff ht hn hsame) fun m hm => by
      obtain rfl := Option.some.inj hm
      refine ⟨ht.lt_next hn, pa, some s, hn, ?_, ?_⟩
      · exact ((good_of_pointer hn (ht.pointer_childPtr hn)).1 (htag id _)).2 hs
      · intro s' hs'
        obtain rfl := Option.some.inj hs'
        rw [Function.update_self]
        exact fun h => h.2 rfl
    have htag₁ := hgood.tagged hretag htag fun id' hid => Function.update_of_ne hid _ _
    obtain ⟨t', hfold, hretag', htag'⟩ := ih (hretag.shape ht) htag₁ (List.nodup_cons.1 hnodup).2 fun s' hs' => by
      obtain ⟨hreg', hlive'⟩ := hreg s' (List.mem_cons_of_mem s hs')
      have hne : s' ≠ s := fun heq => (List.nodup_cons.1 hnodup).1 (heq ▸ hs')
      exact ⟨(hsame hne).2 hreg', hretag.live.2 hlive'⟩
    refine ⟨t', ?_, hretag.trans hretag', ?_⟩
    · simp only [List.foldlM_cons, ht.owner hn, Option.bind_eq_bind, Option.bind_some, hrun]
      simpa only [Option.bind_eq_bind] using hfold
    · rw [Function.update_idem, Function.update_self] at htag'
      have hset : R id \ {s' | s' ∈ s :: removed} = (R id \ {s}) \ {s' | s' ∈ removed} := by
        ext s'
        simp only [Set.mem_sdiff, Set.mem_singleton_iff, Set.mem_ofPred_eq, List.mem_cons]
        tauto
      rw [hset]
      exact htag'

/-- `update` registers the added states and then takes out the removed ones. -/
theorem update_spec (ht : Shape t) (htag : t.Tagged R) (hlive : ∀ s ∈ R id, t.Live s) {added removed : List ℕ}
    (hadded : ∀ s ∈ added, t.Live s) (hnodup : removed.Nodup)
    (hremoved : ∀ s ∈ removed, s ∈ R id ∪ {s | s ∈ added}) :
    ∃ t', update id t added removed = some t' ∧ Retag id t t' ∧
      t'.Tagged (Function.update R id ((R id ∪ {s | s ∈ added}) \ {s | s ∈ removed})) := by
  obtain ⟨t₁, hrun₁, hretag₁, htag₁⟩ := tag_states added ht htag hadded
  obtain ⟨t₂, hrun₂, hretag₂, htag₂⟩ := untag_states removed (hretag₁.shape ht) htag₁ hnodup fun s hs => by
    rw [Function.update_self]
    refine ⟨hremoved s hs, hretag₁.live.2 ?_⟩
    cases hremoved s hs with
    | inl h => exact hlive s h
    | inr h => exact hadded s h
  rw [Function.update_idem, Function.update_self] at htag₂
  refine ⟨t₂, ?_, hretag₁.trans hretag₂, htag₂⟩
  unfold update
  rw [hrun₁]
  exact hrun₂

end PTree

end SymBisect
