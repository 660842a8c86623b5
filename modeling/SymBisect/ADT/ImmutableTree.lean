import Mathlib
import SymBisect.Lib.SlackTree

/-!
# The persistent search tree

`ImmutableTree` of `include/klee/ADT/ImmutableTree.h` on a heap of nodes with reference counts.  A node is an address; an operation
is a program on the heap that stops at an access to a node that is not there.

* `Node.balance` and the mutators `popMin`, `popMax`, `insert`, `replace` and `remove` copy the path to what they change and share
  the rest.  `insert`, `replace` and `remove` differ in what they do at the end of the search (`Node.update`).
* `Counted h R`: the reference count of every node is the number of nodes and of owners `R` that refer to it.
* `incref_spec`, `newNode_spec`, `decref_spec`: what the three primitives do to the owners; the tree of every other owner stays.

A deleted node is gone from the heap, and its address is not used again.  A count that is decremented below zero stops the program.
-/

namespace SymBisect

open Lib

namespace ImmutableTree

variable {K : Type*} {V : Type}

/-- `ImmutableTree::Node`; `left` and `right` are addresses.  The height and the count are `unsigned` in the source and do not
overflow here. -/
structure Node (V : Type) where
  left : ℕ
  right : ℕ
  value : V
  height : ℕ
  references : ℕ

/-- The nodes by their addresses; `next` is the address of the next new node. -/
structure Heap (V : Type) where
  nodes : ℕ → Option (Node V)
  next : ℕ

/-- A program on the heap. -/
abbrev TreeM (V : Type) := StateT (Heap V) Option

/-- The address of `Node::terminator`. -/
def terminator : ℕ := 0

/-- `isTerminator`. -/
def isTerminator (p : ℕ) : Bool := p == terminator

/-- The heap of a program that has no tree yet. -/
def Heap.empty (V : Type) [Inhabited V] : Heap V :=
  ⟨fun p => if p = terminator then some ⟨terminator, terminator, default, 0, 3⟩ else none, 1⟩

namespace Node

def deref (p : ℕ) : TreeM V (Node V) := fun h => (h.nodes p).map fun n => (n, h)

def store (p : ℕ) (n : Node V) : TreeM V Unit := fun h => some ((), ⟨Function.update h.nodes p (some n), h.next⟩)

def free (p : ℕ) : TreeM V Unit := fun h => some ((), ⟨Function.update h.nodes p none, h.next⟩)

/-- `incref`. -/
def incref (p : ℕ) : TreeM V ℕ := do
  let n ← deref p
  store p { n with references := n.references + 1 }
  return p

/-- `new Node(left, right, value)`. -/
def newNode (left right : ℕ) (value : V) : TreeM V ℕ := do
  let l ← deref left
  let r ← deref right
  fun h => some (h.next,
    ⟨Function.update h.nodes h.next (some ⟨left, right, value, max l.height r.height + 1, 1⟩), h.next + 1⟩)

/-- `decref` with the destructor; the first argument bounds the depth.  The lifetime of a node ends when its destructor begins. -/
def decrefAux : ℕ → ℕ → TreeM V Unit
  | 0, _ => failure
  | fuel + 1, p => do
    let n ← deref p
    if n.references = 0 then failure
    else
      store p { n with references := n.references - 1 }
      if n.references - 1 = 0 then
        free p
        decrefAux fuel n.left
        decrefAux fuel n.right

/-- `decref`. -/
def decref (p : ℕ) : TreeM V Unit := do
  let n ← deref p
  decrefAux (n.height + 1) p

/-- `balance`; it takes over the references to `left` and `right`. -/
def balance (left : ℕ) (value : V) (right : ℕ) : TreeM V ℕ := do
  let l ← deref left
  let r ← deref right
  if l.height > r.height + 2 then
    let ll ← deref l.left
    let lr ← deref l.right
    if ll.height ≥ lr.height then
      let nlr ← newNode (← incref l.right) right value
      let res ← newNode (← incref l.left) nlr l.value
      decref left
      return res
    else
      let nll ← newNode (← incref l.left) (← incref lr.left) l.value
      let nlr ← newNode (← incref lr.right) right value
      let res ← newNode nll nlr lr.value
      decref left
      return res
  else if r.height > l.height + 2 then
    let rl ← deref r.left
    let rr ← deref r.right
    if rr.height ≥ rl.height then
      let nrl ← newNode left (← incref r.left) value
      let res ← newNode nrl (← incref r.right) r.value
      decref right
      return res
    else
      let nrl ← newNode left (← incref rl.left) value
      let nrr ← newNode (← incref rl.right) (← incref r.right) r.value
      let res ← newNode nrl nrr rl.value
      decref right
      return res
  else
    newNode left right value

/-- `popMin`; the first argument bounds the depth. -/
def popMinAux : ℕ → ℕ → TreeM V (V × ℕ)
  | 0, _ => failure
  | fuel + 1, p => do
    let n ← deref p
    if isTerminator n.left then
      return (n.value, ← incref n.right)
    else
      let (valueOut, l) ← popMinAux fuel n.left
      return (valueOut, ← balance l n.value (← incref n.right))

/-- `popMax`; the first argument bounds the depth. -/
def popMaxAux : ℕ → ℕ → TreeM V (V × ℕ)
  | 0, _ => failure
  | fuel + 1, p => do
    let n ← deref p
    if isTerminator n.right then
      return (n.value, ← incref n.left)
    else
      let l ← incref n.left
      let (valueOut, r) ← popMaxAux fuel n.right
      return (valueOut, ← balance l n.value r)

/-- `popMin`. -/
def popMin (p : ℕ) : TreeM V (V × ℕ) := do
  let n ← deref p
  popMinAux (n.height + 1) p

/-- `popMax`. -/
def popMax (p : ℕ) : TreeM V (V × ℕ) := do
  let n ← deref p
  popMaxAux (n.height + 1) p

variable (o : KeyOrder K V)

/-- The walk of `insert`, `replace` and `remove` to a key: `absent` where the search ends at the terminator, and `present` at a
node with the key.  The first argument bounds the depth. -/
def updateAux (k : K) (absent : TreeM V ℕ) (present : ℕ → Node V → TreeM V ℕ) : ℕ → ℕ → TreeM V ℕ
  | 0, _ => failure
  | fuel + 1, p =>
    if isTerminator p then absent
    else do
      let n ← deref p
      if o.lt k (o.key n.value) then
        balance (← updateAux k absent present fuel n.left) n.value (← incref n.right)
      else if o.lt (o.key n.value) k then
        balance (← incref n.left) n.value (← updateAux k absent present fuel n.right)
      else present p n

def update (k : K) (absent : TreeM V ℕ) (present : ℕ → Node V → TreeM V ℕ) (p : ℕ) : TreeM V ℕ := do
  let n ← deref p
  updateAux o k absent present (n.height + 1) p

/-- `new Node(terminator.incref(), terminator.incref(), v)`. -/
def single (v : V) : TreeM V ℕ := do newNode (← incref terminator) (← incref terminator) v

/-- `insert`. -/
def insert (p : ℕ) (v : V) : TreeM V ℕ := update o (o.key v) (single v) (fun p _ => incref p) p

/-- `replace`. -/
def replace (p : ℕ) (v : V) : TreeM V ℕ :=
  update o (o.key v) (single v) (fun _ n => do newNode (← incref n.left) (← incref n.right) v) p

/-- What `remove` does at a node with the key. -/
def removeNode (n : Node V) : TreeM V ℕ :=
  if isTerminator n.left then incref n.right
  else if isTerminator n.right then incref n.left
  else do
    let (min, nr) ← popMin n.right
    balance (← incref n.left) min nr

/-- `remove`. -/
def remove (p : ℕ) (k : K) : TreeM V ℕ := update o k (incref terminator) (fun _ n => removeNode n) p

end Node

/-! ### Trees in the heap -/

/-- A tree with the addresses of its nodes. -/
inductive PTree (V : Type) where
  | nil
  | node (addr : ℕ) (left : PTree V) (value : V) (right : PTree V)

namespace PTree

def addr : PTree V → ℕ
  | nil => terminator
  | node p _ _ _ => p

/-- The tree without the addresses. -/
def erase : PTree V → SlackTree V
  | nil => .nil
  | node _ l v r => .node l.erase v r.erase

def height (T : PTree V) : ℕ := T.erase.height

/-- The nodes of the tree are in the heap, with the heights of their trees. -/
def Stored (h : Heap V) : PTree V → Prop
  | nil => True
  | node p l v r =>
    p ≠ terminator ∧ (∃ references, h.nodes p = some ⟨l.addr, r.addr, v, (node p l v r).height, references⟩) ∧
      l.Stored h ∧ r.Stored h

/-- The addresses of the nodes. -/
def addrs : PTree V → List ℕ
  | nil => []
  | node p l _ r => p :: (l.addrs ++ r.addrs)

/-- One of the trees below a tree, or the tree itself. -/
inductive Sub : PTree V → PTree V → Prop
  | refl (T : PTree V) : Sub T T
  | left {T l r : PTree V} {p : ℕ} {v : V} (h : Sub T l) : Sub T (node p l v r)
  | right {T l r : PTree V} {p : ℕ} {v : V} (h : Sub T r) : Sub T (node p l v r)

theorem Sub.trans {S T U : PTree V} (h : Sub S T) (h' : Sub T U) : Sub S U := by
  induction h' with
  | refl => exact h
  | left _ ih => exact .left ih
  | right _ ih => exact .right ih

theorem Stored.sub {h : Heap V} {S T : PTree V} (hsub : Sub S T) (hT : T.Stored h) : S.Stored h := by
  induction hsub with
  | refl => exact hT
  | left _ ih => exact ih hT.2.2.1
  | right _ ih => exact ih hT.2.2.2

/-- A tree stays in the heap when its nodes only change their counts. -/
theorem Stored.mono {h h' : Heap V} {T : PTree V}
    (hnodes : ∀ p ∈ T.addrs, ∀ n, h.nodes p = some n → ∃ references, h'.nodes p = some { n with references := references })
    (hT : T.Stored h) : T.Stored h' := by
  induction T with
  | nil => trivial
  | node p l v r ihl ihr =>
    obtain ⟨hp, ⟨references, hn⟩, hl, hr⟩ := hT
    refine ⟨hp, hnodes p List.mem_cons_self _ hn, ihl ?_ hl, ihr ?_ hr⟩
    · intro q hq
      exact hnodes q (List.mem_cons_of_mem _ (List.mem_append_left _ hq))
    · intro q hq
      exact hnodes q (List.mem_cons_of_mem _ (List.mem_append_right _ hq))

end PTree

/-! ### Reference counts -/

/-- How often a node refers to an address. -/
def Node.refersTo (n : Node V) (q : ℕ) : ℕ := (if n.left = q then 1 else 0) + if n.right = q then 1 else 0

def links (nodes : ℕ → Option (Node V)) (q p : ℕ) : ℕ := (nodes p).elim 0 fun n => n.refersTo q

/-- How often the nodes refer to an address. -/
def Heap.edges (h : Heap V) (q : ℕ) : ℕ := ∑ p ∈ Finset.range h.next, links h.nodes q p

/-- The reference count of an address, zero where there is no node. -/
def Heap.count (h : Heap V) (q : ℕ) : ℕ := (h.nodes q).elim 0 Node.references

/-- The owners `R` hold one reference to each of their trees; all counts are right. -/
structure Counted [Inhabited V] (h : Heap V) (R : Multiset (PTree V)) : Prop where
  terminator : ∃ references, h.nodes terminator = some ⟨terminator, terminator, default, 0, references⟩
  bound : ∀ q, h.next ≤ q → h.nodes q = none
  counts : ∀ q, h.count q = (R.map PTree.addr).count q + h.edges q + if q = ImmutableTree.terminator then 1 else 0
  stored : ∀ T ∈ R, T.Stored h

theorem sum_links_update (nodes : ℕ → Option (Node V)) (q : ℕ) {p next : ℕ} (hp : p < next) (n : Option (Node V)) :
    (∑ x ∈ Finset.range next, links (Function.update nodes p n) q x) + (nodes p).elim 0 (fun n => n.refersTo q) =
      (∑ x ∈ Finset.range next, links nodes q x) + n.elim 0 fun n => n.refersTo q := by
  have hmem : p ∈ Finset.range next := Finset.mem_range.2 hp
  have hfun : links (Function.update nodes p n) q = Function.update (links nodes q) p (n.elim 0 fun n => n.refersTo q) := by
    funext x
    by_cases hx : x = p
    · subst hx
      rw [links, Function.update_self, Function.update_self]
    · rw [links, Function.update_of_ne hx, Function.update_of_ne hx, links]
  rw [hfun, Finset.sum_update_of_mem hmem, Finset.sum_eq_add_sum_sdiff_singleton_of_mem hmem (links nodes q), links]
  omega

theorem refersTo_le_edges {h : Heap V} {p : ℕ} {n : Node V} (hn : h.nodes p = some n) (hp : p < h.next) (q : ℕ) :
    n.refersTo q ≤ h.edges q := by
  have hle : links h.nodes q p ≤ h.edges q :=
    Finset.single_le_sum (f := links h.nodes q) (fun x _ => Nat.zero_le _) (Finset.mem_range.2 hp)
  rwa [links, hn] at hle

theorem count_eq {h : Heap V} {p : ℕ} {n : Node V} (hn : h.nodes p = some n) : h.count p = n.references := by
  rw [Heap.count, hn]
  rfl

namespace Counted

variable [Inhabited V] {h h' : Heap V} {R : Multiset (PTree V)} {T S : PTree V}

theorem swap (hc : Counted h (S ::ₘ T ::ₘ R)) : Counted h (T ::ₘ S ::ₘ R) := by
  rwa [Multiset.cons_swap]

/-- There is a node at the address of every tree in the heap, as high as the tree. -/
theorem node_of_stored (hc : Counted h R) (hT : T.Stored h) : ∃ n, h.nodes T.addr = some n ∧ n.height = T.height := by
  cases T with
  | nil =>
    obtain ⟨references, hn⟩ := hc.terminator
    exact ⟨_, hn, rfl⟩
  | node p l v r =>
    obtain ⟨-, ⟨references, hn⟩, -, -⟩ := hT
    exact ⟨_, hn, rfl⟩

theorem lt_next (hc : Counted h R) {p : ℕ} {n : Node V} (hn : h.nodes p = some n) : p < h.next := by
  by_contra hge
  rw [hc.bound p (Nat.le_of_not_lt hge)] at hn
  cases hn

/-- A node that is not referred to from any node is in no tree of another address. -/
theorem notMem_addrs (hc : Counted h R) {p : ℕ} (hp : h.edges p = 0) (hT : T.Stored h) (hne : T.addr ≠ p) : p ∉ T.addrs := by
  induction T with
  | nil => exact List.not_mem_nil
  | node q l v r ihl ihr =>
    obtain ⟨-, ⟨references, hn⟩, hl, hr⟩ := hT
    have hle := refersTo_le_edges hn (hc.lt_next hn) p
    rw [hp, Node.refersTo, Nat.le_zero, Nat.add_eq_zero_iff] at hle
    have hlp : l.addr ≠ p := by
      intro heq
      rw [if_pos heq] at hle
      exact absurd hle.1 Nat.one_ne_zero
    have hrp : r.addr ≠ p := by
      intro heq
      rw [if_pos heq] at hle
      exact absurd hle.2 Nat.one_ne_zero
    rw [PTree.addrs, List.mem_cons, List.mem_append, not_or, not_or]
    exact ⟨Ne.symm hne, ihl hl hlp, ihr hr hrp⟩

/-- A change of one count. -/
theorem store_references (hc : Counted h R) {p references : ℕ} {n : Node V} (hn : h.nodes p = some n) {R' : Multiset (PTree V)}
    (hcount : ∀ q, (if q = p then references else h.count q) =
      (R'.map PTree.addr).count q + h.edges q + if q = ImmutableTree.terminator then 1 else 0)
    (hstored : ∀ T ∈ R', T.Stored h) :
    Counted ⟨Function.update h.nodes p (some { n with references := references }), h.next⟩ R' := by
  have hlt := hc.lt_next hn
  have hnodes : ∀ q m, h.nodes q = some m → ∃ references',
      Function.update h.nodes p (some { n with references := references }) q = some { m with references := references' } := by
    intro q m hm
    by_cases hq : q = p
    · subst hq
      rw [hn] at hm
      cases hm
      exact ⟨references, by rw [Function.update_self]⟩
    · exact ⟨m.references, by rw [Function.update_of_ne hq, hm]⟩
  refine ⟨?_, ?_, ?_, ?_⟩
  · obtain ⟨references', hterm⟩ := hc.terminator
    exact hnodes _ _ hterm
  · intro q hq
    have hne : q ≠ p := fun heq => absurd hlt (by rw [← heq]; exact Nat.not_lt_of_le hq)
    show Function.update h.nodes p _ q = none
    rw [Function.update_of_ne hne]
    exact hc.bound q hq
  · intro q
    have hedges : Heap.edges ⟨Function.update h.nodes p (some { n with references := references }), h.next⟩ q = h.edges q := by
      have hsum := sum_links_update h.nodes q hlt (some { n with references := references })
      rw [hn] at hsum
      exact Nat.add_right_cancel hsum
    rw [hedges, ← hcount q]
    show (Function.update h.nodes p _ q).elim 0 Node.references = _
    by_cases hq : q = p
    · subst hq
      rw [if_pos rfl, Function.update_self]
      rfl
    · rw [if_neg hq, Function.update_of_ne hq]
      rfl
  · intro T hT
    exact (hstored T hT).mono fun q _ m hm => hnodes q m hm

end Counted

/-! ### What the primitives do -/

section Primitives

variable {α β : Type}

theorem run_bind {m : TreeM V α} {f : α → TreeM V β} {h h' : Heap V} {a : α} (hm : m h = some (a, h')) :
    (m >>= f) h = f a h' := by
  show (m h).bind _ = _
  rw [hm]
  rfl

theorem deref_eq {h : Heap V} {p : ℕ} {n : Node V} (hn : h.nodes p = some n) : Node.deref p h = some (n, h) := by
  rw [Node.deref, hn]
  rfl

theorem store_eq (p : ℕ) (n : Node V) (h : Heap V) :
    Node.store p n h = some ((), ⟨Function.update h.nodes p (some n), h.next⟩) := rfl

theorem free_eq (p : ℕ) (h : Heap V) : Node.free p h = some ((), ⟨Function.update h.nodes p none, h.next⟩) := rfl

variable {h : Heap V} {R : Multiset (PTree V)} {T : PTree V}

/-- A tree that an owner keeps: the terminator, or a tree below that of the owner. -/
def Held (R : Multiset (PTree V)) (T : PTree V) : Prop := T = .nil ∨ ∃ U ∈ R, PTree.Sub T U

theorem Held.mono {S : PTree V} (h : Held R T) : Held (S ::ₘ R) T := by
  cases h with
  | inl hnil => exact .inl hnil
  | inr hsub =>
    obtain ⟨U, hU, hsub⟩ := hsub
    exact .inr ⟨U, Multiset.mem_cons_of_mem hU, hsub⟩

theorem Held.of_mem (h : T ∈ R) : Held R T := .inr ⟨T, h, .refl T⟩

theorem Held.sub {S : PTree V} (h : Held R T) (hsub : PTree.Sub S T) : Held R S := by
  cases h with
  | inl hnil =>
    subst hnil
    cases hsub
    exact .inl rfl
  | inr hown =>
    obtain ⟨U, hU, hTU⟩ := hown
    exact .inr ⟨U, hU, hsub.trans hTU⟩

variable [Inhabited V]

theorem Counted.stored_of_held (hc : Counted h R) (hT : Held R T) : T.Stored h := by
  cases hT with
  | inl hnil =>
    subst hnil
    trivial
  | inr hown =>
    obtain ⟨U, hU, hsub⟩ := hown
    exact (hc.stored U hU).sub hsub

/-- **`incref`** makes another owner. -/
theorem incref_spec (hc : Counted h R) (hT : Held R T) :
    ∃ h', Node.incref T.addr h = some (T.addr, h') ∧ Counted h' (T ::ₘ R) := by
  have hstored := hc.stored_of_held hT
  obtain ⟨n, hn, -⟩ := hc.node_of_stored hstored
  refine ⟨⟨Function.update h.nodes T.addr (some { n with references := n.references + 1 }), h.next⟩, ?_, ?_⟩
  · rw [Node.incref, run_bind (deref_eq hn)]
    rfl
  · refine hc.store_references hn ?_ ?_
    · intro q
      rw [Multiset.map_cons, Multiset.count_cons, hc.counts q]
      by_cases hq : q = T.addr
      · rw [if_pos hq, if_pos hq, ← count_eq hn, ← hq, hc.counts q]
        omega
      · rw [if_neg hq, if_neg hq, Nat.add_zero]
    · intro S hS
      rw [Multiset.mem_cons] at hS
      cases hS with
      | inl heq => rw [heq]; exact hstored
      | inr hmem => exact hc.stored S hmem

omit [Inhabited V] in
theorem newNode_links (nodes : ℕ → Option (Node V)) (next : ℕ) (n : Node V) (q : ℕ) :
    ∑ p ∈ Finset.range (next + 1), links (Function.update nodes next (some n)) q p =
      (∑ p ∈ Finset.range next, links nodes q p) + n.refersTo q := by
  have hold : ∑ p ∈ Finset.range next, links (Function.update nodes next (some n)) q p =
      ∑ p ∈ Finset.range next, links nodes q p := by
    refine Finset.sum_congr rfl ?_
    intro p hp
    rw [links, Function.update_of_ne (Nat.ne_of_lt (Finset.mem_range.1 hp)), links]
  rw [Finset.sum_range_succ, hold, links, Function.update_self]
  rfl

/-- **`new Node`** takes the references to the subtrees over. -/
theorem newNode_spec {l r : PTree V} (hc : Counted h (l ::ₘ r ::ₘ R)) (v : V) :
    ∃ p h', Node.newNode l.addr r.addr v h = some ((PTree.node p l v r).addr, h') ∧ Counted h' (.node p l v r ::ₘ R) := by
  obtain ⟨nl, hnl, hl⟩ := hc.node_of_stored (hc.stored l (Multiset.mem_cons_self _ _))
  obtain ⟨nr, hnr, hr⟩ := hc.node_of_stored (hc.stored r (Multiset.mem_cons_of_mem (Multiset.mem_cons_self _ _)))
  have hfree := hc.bound h.next le_rfl
  obtain ⟨refs, hterm⟩ := hc.terminator
  have hpos : h.next ≠ terminator := fun heq => by
    rw [heq, hterm] at hfree
    cases hfree
  have hnodes : ∀ q m, h.nodes q = some m → Function.update h.nodes h.next
      (some ⟨l.addr, r.addr, v, max nl.height nr.height + 1, 1⟩) q = some m := by
    intro q m hm
    have hne : q ≠ h.next := Nat.ne_of_lt (hc.lt_next hm)
    rw [Function.update_of_ne hne, hm]
  have hkeep : ∀ T : PTree V, T.Stored h → T.Stored ⟨Function.update h.nodes h.next
      (some ⟨l.addr, r.addr, v, max nl.height nr.height + 1, 1⟩), h.next + 1⟩ :=
    fun T hT => hT.mono fun q _ m hm => ⟨m.references, hnodes q m hm⟩
  refine ⟨h.next, ⟨Function.update h.nodes h.next (some ⟨l.addr, r.addr, v, max nl.height nr.height + 1, 1⟩), h.next + 1⟩,
    ?_, ?_⟩
  · rw [Node.newNode, run_bind (deref_eq hnl), run_bind (deref_eq hnr)]
    rfl
  · refine ⟨⟨refs, hnodes _ _ hterm⟩, ?_, ?_, ?_⟩
    · intro q hq
      have hne : q ≠ h.next := fun heq => by
        rw [heq] at hq
        exact Nat.not_succ_le_self _ hq
      show Function.update h.nodes h.next _ q = none
      rw [Function.update_of_ne hne]
      exact hc.bound q (Nat.le_of_succ_le hq)
    · intro q
      have hold := hc.counts q
      rw [Multiset.map_cons, Multiset.map_cons, Multiset.count_cons, Multiset.count_cons, Heap.edges] at hold
      have hedges : Heap.edges ⟨Function.update h.nodes h.next
          (some ⟨l.addr, r.addr, v, max nl.height nr.height + 1, 1⟩), h.next + 1⟩ q = _ := newNode_links h.nodes h.next _ q
      rw [hedges, Node.refersTo, Multiset.map_cons, Multiset.count_cons]
      show (Function.update h.nodes h.next _ q).elim 0 Node.references = _ + (if q = h.next then 1 else 0) + _ + _
      simp only [eq_comm (a := l.addr), eq_comm (a := r.addr)]
      by_cases hq : q = h.next
      · have hzero : h.count q = 0 := by
          rw [Heap.count, hq, hfree]
          rfl
        rw [hzero] at hold
        rw [if_pos hq, hq, Function.update_self]
        rw [hq] at hold
        show 1 = _
        omega
      · rw [Function.update_of_ne hq, if_neg hq]
        have hcount : (h.nodes q).elim 0 Node.references = h.count q := rfl
        omega
    · intro T hT
      rw [Multiset.mem_cons] at hT
      cases hT with
      | inl heq =>
        subst heq
        refine ⟨hpos, ⟨1, ?_⟩, hkeep l (hc.stored l (Multiset.mem_cons_self _ _)),
          hkeep r (hc.stored r (Multiset.mem_cons_of_mem (Multiset.mem_cons_self _ _)))⟩
        show Function.update h.nodes h.next _ h.next = _
        rw [Function.update_self, hl, hr]
        rfl
      | inr hmem => exact hkeep T (hc.stored T (Multiset.mem_cons_of_mem (Multiset.mem_cons_of_mem hmem)))

/-- The owner gives up a node that nothing else refers to. -/
theorem Counted.free {p : ℕ} {l r : PTree V} {v : V} (hc : Counted h (.node p l v r ::ₘ R)) (hone : h.count p = 1) :
    Counted ⟨Function.update h.nodes p none, h.next⟩ (l ::ₘ r ::ₘ R) := by
  have hT := hc.stored _ (Multiset.mem_cons_self _ _)
  obtain ⟨hp, ⟨references, hn⟩, hl, hr⟩ := hT
  have hlt := hc.lt_next hn
  have hcount := hc.counts p
  rw [hone, Multiset.map_cons, Multiset.count_cons, if_neg hp, PTree.addr, if_pos rfl] at hcount
  have hedges : h.edges p = 0 := by omega
  have howners : (R.map PTree.addr).count p = 0 := by omega
  have hkeep : ∀ T : PTree V, T.Stored h → p ∉ T.addrs → T.Stored ⟨Function.update h.nodes p none, h.next⟩ := by
    intro T hT hmem
    refine hT.mono ?_
    intro q hq m hm
    have hne : q ≠ p := fun heq => hmem (heq ▸ hq)
    refine ⟨m.references, ?_⟩
    show Function.update h.nodes p none q = _
    rw [Function.update_of_ne hne, hm]
  have hkids := refersTo_le_edges hn hlt p
  rw [hedges, Node.refersTo, Nat.le_zero, Nat.add_eq_zero_iff] at hkids
  have hlp : l.addr ≠ p := fun heq => by
    rw [if_pos heq] at hkids
    exact Nat.one_ne_zero hkids.1
  have hrp : r.addr ≠ p := fun heq => by
    rw [if_pos heq] at hkids
    exact Nat.one_ne_zero hkids.2
  refine ⟨?_, ?_, ?_, ?_⟩
  · obtain ⟨refs, hterm⟩ := hc.terminator
    refine ⟨refs, ?_⟩
    show Function.update h.nodes p none ImmutableTree.terminator = _
    rw [Function.update_of_ne (Ne.symm hp), hterm]
  · intro q hq
    show Function.update h.nodes p none q = none
    by_cases hqp : q = p
    · rw [hqp, Function.update_self]
    · rw [Function.update_of_ne hqp]
      exact hc.bound q hq
  · intro q
    have hedges' : Heap.edges ⟨Function.update h.nodes p none, h.next⟩ q +
        ((if q = l.addr then 1 else 0) + if q = r.addr then 1 else 0) = h.edges q := by
      have hsum := sum_links_update h.nodes q hlt none
      rw [hn] at hsum
      simp only [Option.elim_some, Option.elim_none, Node.refersTo, eq_comm (b := q)] at hsum
      exact hsum
    have hold := hc.counts q
    rw [Multiset.map_cons, Multiset.count_cons, PTree.addr] at hold
    rw [Multiset.map_cons, Multiset.map_cons, Multiset.count_cons, Multiset.count_cons]
    show (Function.update h.nodes p none q).elim 0 Node.references = _
    by_cases hqp : q = p
    · subst hqp
      rw [hone, if_pos rfl] at hold
      rw [Function.update_self]
      show 0 = _
      omega
    · have hcountq : (h.nodes q).elim 0 Node.references = h.count q := rfl
      rw [if_neg hqp] at hold
      rw [Function.update_of_ne hqp]
      omega
  · intro T hT
    rw [Multiset.mem_cons, Multiset.mem_cons] at hT
    obtain rfl | rfl | hmem := hT
    · exact hkeep T hl (hc.notMem_addrs hedges hl hlp)
    · exact hkeep T hr (hc.notMem_addrs hedges hr hrp)
    · have hTs := hc.stored T (Multiset.mem_cons_of_mem hmem)
      refine hkeep T hTs (hc.notMem_addrs hedges hTs ?_)
      intro heq
      rw [Multiset.count_eq_zero] at howners
      exact howners (heq ▸ Multiset.mem_map_of_mem _ hmem)

theorem decrefAux_spec (fuel : ℕ) (hc : Counted h (T ::ₘ R)) (hfuel : T.height < fuel) :
    ∃ h', Node.decrefAux fuel T.addr h = some ((), h') ∧ Counted h' R := by
  induction fuel generalizing T R h with
  | zero => exact absurd hfuel (Nat.not_lt_zero _)
  | succ fuel ih =>
    have hstored := hc.stored T (Multiset.mem_cons_self _ _)
    obtain ⟨n, hn, -⟩ := hc.node_of_stored hstored
    have hcount := hc.counts T.addr
    rw [count_eq hn, Multiset.map_cons, Multiset.count_cons, if_pos rfl] at hcount
    have hpos : n.references ≠ 0 := by omega
    rw [Node.decrefAux, run_bind (deref_eq hn)]
    rw [if_neg hpos]
    by_cases hone : n.references - 1 = 0
    · cases T with
      | nil =>
        -- the terminator keeps the reference it starts with
        rw [PTree.addr, if_pos rfl] at hcount
        omega
      | node p l v r =>
        obtain ⟨-, ⟨references, hn'⟩, -, -⟩ := hstored
        have hkids : n.left = l.addr ∧ n.right = r.addr := by
          have hsome := hn.symm.trans hn'
          cases hsome
          exact ⟨rfl, rfl⟩
        have hlast : h.count p = 1 := by
          have hreferences := count_eq hn
          rw [PTree.addr] at hreferences
          omega
        have hfree := hc.free hlast
        have hheights : l.height < fuel ∧ r.height < fuel := by
          have hheight : (PTree.node p l v r).height = max l.height r.height + 1 := rfl
          omega
        obtain ⟨h₁, hl, hc₁⟩ := ih hfree hheights.1
        obtain ⟨h₂, hr, hc₂⟩ := ih hc₁ hheights.2
        refine ⟨h₂, ?_, hc₂⟩
        rw [run_bind (store_eq _ _ _), if_pos hone, run_bind (free_eq _ _), hkids.1, hkids.2]
        show (Node.decrefAux fuel l.addr >>= fun _ => Node.decrefAux fuel r.addr)
          ⟨Function.update (Function.update h.nodes p _) p none, h.next⟩ = _
        rw [Function.update_idem, run_bind hl, hr]
    · refine ⟨⟨Function.update h.nodes T.addr (some { n with references := n.references - 1 }), h.next⟩, ?_, ?_⟩
      · rw [run_bind (store_eq _ _ _), if_neg hone]
        rfl
      · refine hc.store_references hn ?_ fun S hS => hc.stored S (Multiset.mem_cons_of_mem hS)
        intro q
        have hold := hc.counts q
        rw [Multiset.map_cons, Multiset.count_cons] at hold
        by_cases hq : q = T.addr
        · rw [if_pos hq, hq] at *
          omega
        · rw [if_neg hq] at hold ⊢
          exact hold

/-- **`decref`** gives up a reference; no tree of another owner is lost. -/
theorem decref_spec (hc : Counted h (T ::ₘ R)) : ∃ h', Node.decref T.addr h = some ((), h') ∧ Counted h' R := by
  obtain ⟨n, hn, hheight⟩ := hc.node_of_stored (hc.stored T (Multiset.mem_cons_self _ _))
  obtain ⟨h', hrun, hc'⟩ := decrefAux_spec (n.height + 1) hc (by omega)
  refine ⟨h', ?_, hc'⟩
  rw [Node.decref, run_bind (deref_eq hn)]
  exact hrun

end Primitives

end ImmutableTree

end SymBisect
