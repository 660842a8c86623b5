import Mathlib
import SymBisect.ADT.ImmutableTreeSound

/-!
# Searches and iterators of the persistent tree

The searches of `ImmutableTree` follow one path.  An iterator keeps the path from the root to its node on a stack of the height of
the tree; it is at the end when the stack is empty.

* `search_spec`, `lookup_previous_spec`, `min_spec`, `max_spec`, `size_spec`: the searches on the sorted entries.
* `path T i`: the stack of an iterator at the entry `i`.
* `increment_spec`, `decrement_spec`: an iterator goes to the next and to the previous entry, and back from the end.
* `lower_bound_spec`, `upper_bound_spec`, `find_spec`: where these put an iterator.

Operators `++` and `--` differ in the sides only (`Iterator.step`).
-/

namespace SymBisect

open Lib

namespace ImmutableTree

variable {K : Type*} {V : Type} (o : KeyOrder K V)

namespace Node

/-! ### Searches -/

/-- The loop of `count` and `lookup`; the first argument bounds the depth. -/
def searchAux {α : Type} (k : K) (found : V → α) (absent : α) : ℕ → ℕ → TreeM V α
  | 0, _ => failure
  | fuel + 1, p =>
    if isTerminator p then return absent
    else do
      let n ← deref p
      if o.lt k (o.key n.value) then searchAux k found absent fuel n.left
      else if o.lt (o.key n.value) k then searchAux k found absent fuel n.right
      else return found n.value

def search {α : Type} (k : K) (found : V → α) (absent : α) (p : ℕ) : TreeM V α := do
  let n ← deref p
  searchAux o k found absent (n.height + 1) p

/-- `count`. -/
def count (p : ℕ) (k : K) : TreeM V ℕ := search o k (fun _ => 1) 0 p

/-- `lookup`. -/
def lookup (p : ℕ) (k : K) : TreeM V (Option V) := search o k some none p

/-- The loop of `lookup_previous`. -/
def lookupPreviousAux (k : K) : ℕ → ℕ → Option V → TreeM V (Option V)
  | 0, _, _ => failure
  | fuel + 1, p, result =>
    if isTerminator p then return result
    else do
      let n ← deref p
      if o.lt k (o.key n.value) then lookupPreviousAux k fuel n.left result
      else if o.lt (o.key n.value) k then lookupPreviousAux k fuel n.right (some n.value)
      else return some n.value

/-- `lookup_previous`. -/
def lookupPrevious (p : ℕ) (k : K) : TreeM V (Option V) := do
  let n ← deref p
  lookupPreviousAux o k (n.height + 1) p none

/-- The loop of `min` and `max`. -/
def lastAux (child : Node V → ℕ) : ℕ → ℕ → TreeM V V
  | 0, _ => failure
  | fuel + 1, p => do
    let n ← deref p
    if isTerminator (child n) then return n.value else lastAux child fuel (child n)

def last (child : Node V → ℕ) (p : ℕ) : TreeM V V :=
  if isTerminator p then failure
  else do
    let n ← deref p
    lastAux child (n.height + 1) p

/-- `min`. -/
def min (p : ℕ) : TreeM V V := last Node.left p

/-- `max`. -/
def max (p : ℕ) : TreeM V V := last Node.right p

/-- `Node::size`. -/
def sizeAux : ℕ → ℕ → TreeM V ℕ
  | 0, _ => failure
  | fuel + 1, p =>
    if isTerminator p then return 0
    else do
      let n ← deref p
      return (← sizeAux fuel n.left) + 1 + (← sizeAux fuel n.right)

/-- `size`. -/
def size (p : ℕ) : TreeM V ℕ := do
  let n ← deref p
  sizeAux (n.height + 1) p

end Node

/-! ### Iterators -/

/-- `ImmutableTree::iterator`: the root it keeps alive and its `FixedStack`, the top first, which has room for `max` nodes. -/
structure Iterator where
  root : ℕ
  max : ℕ
  stack : List ℕ

namespace Iterator

open Node

/-- `FixedStack::push_back`. -/
def push (max p : ℕ) (stack : List ℕ) : TreeM V (List ℕ) :=
  if stack.length < max then return p :: stack else failure

/-- The nodes from `p` on in one direction, pushed. -/
def descend (child : Node V → ℕ) (max : ℕ) : ℕ → ℕ → List ℕ → TreeM V (List ℕ)
  | 0, _, _ => failure
  | fuel + 1, p, stack =>
    if isTerminator p then return stack
    else do
      let stack ← push max p stack
      let n ← deref p
      descend child max fuel (child n) stack

/-- Nodes are popped until the last one popped is a child of the top on the given side. -/
def climb (child : Node V → ℕ) (prev : ℕ) : List ℕ → TreeM V (List ℕ)
  | [] => return []
  | p :: rest => do
    let n ← deref p
    if prev = child n then return p :: rest else climb child p rest

/-- The common part of `++` and `--`: towards one side, then all the way back to the other. -/
def step (toward back : Node V → ℕ) (max p : ℕ) (rest : List ℕ) : TreeM V (List ℕ) := do
  let n ← deref p
  if isTerminator (toward n) then climb back p rest
  else do
    let stack ← push max (toward n) (p :: rest)
    let m ← deref (toward n)
    descend back max m.height (back m) stack

/-- `operator++`, which asserts that the iterator is not at the end. -/
def increment (it : Iterator) : TreeM V Iterator :=
  match it.stack with
  | [] => failure
  | p :: rest => do return { it with stack := ← step Node.right Node.left it.max p rest }

/-- `operator--`; from the end it goes to the last entry. -/
def decrement (it : Iterator) : TreeM V Iterator :=
  match it.stack with
  | [] => do
    let n ← deref it.root
    return { it with stack := ← descend Node.right it.max (n.height + 1) it.root [] }
  | p :: rest => do return { it with stack := ← step Node.left Node.right it.max p rest }

/-- `operator*`. -/
def value (it : Iterator) : TreeM V V :=
  match it.stack with
  | [] => failure
  | p :: _ => do return (← deref p).value

/-- The constructor from a root. -/
def make (root : ℕ) (atBeginning : Bool) : TreeM V Iterator := do
  let root ← incref root
  let n ← deref root
  if atBeginning then return ⟨root, n.height, ← descend Node.left n.height (n.height + 1) root []⟩
  else return ⟨root, n.height, []⟩

/-- The destructor. -/
def destroy (it : Iterator) : TreeM V Unit := decref it.root

/-- The loop of `lower_bound`, and whether it returned at a node with the key. -/
def lowerBoundLoop (k : K) (max : ℕ) : ℕ → ℕ → List ℕ → TreeM V (Bool × List ℕ)
  | 0, _, _ => failure
  | fuel + 1, p, stack =>
    if isTerminator p then return (false, stack)
    else do
      let stack ← push max p stack
      let n ← deref p
      if o.lt k (o.key n.value) then lowerBoundLoop k max fuel n.left stack
      else if o.lt (o.key n.value) k then lowerBoundLoop k max fuel n.right stack
      else return (true, stack)

/-- `lower_bound`. -/
def lowerBound (p : ℕ) (k : K) : TreeM V Iterator := do
  let it ← make p false
  let n ← deref p
  let (found, stack) ← lowerBoundLoop o k it.max (n.height + 1) p it.stack
  if found then return { it with stack := stack }
  else match stack with
    | [] => return { it with stack := stack }
    | last :: rest => do
      let n ← deref last
      if o.lt (o.key n.value) k then increment { it with stack := last :: rest }
      else return { it with stack := last :: rest }

/-- `upper_bound`. -/
def upperBound (p : ℕ) (k : K) : TreeM V Iterator := do
  let end_ ← make p false
  let it ← lowerBound o p k
  if it.stack = end_.stack then
    destroy end_
    return it
  else
    let v ← it.value
    let it ← if !o.lt k (o.key v) then it.increment else pure it
    destroy end_
    return it

/-- `find`. -/
def find (p : ℕ) (k : K) : TreeM V Iterator := do
  let end_ ← make p false
  let it ← lowerBound o p k
  if it.stack = end_.stack then
    destroy it
    return end_
  else
    let v ← it.value
    if o.lt k (o.key v) then
      destroy it
      return end_
    else
      destroy end_
      return it

end Iterator

/-! ### What the searches find -/

section Searches

variable {o} [Inhabited V] {h : Heap V} {R : Multiset (PTree V)} {T : PTree V} {k : K}

/-- The entries of the tree, in order. -/
def PTree.toList (T : PTree V) : List V := T.erase.toList

omit [Inhabited V] in
theorem toList_node (p : ℕ) (l : PTree V) (v : V) (r : PTree V) : (PTree.node p l v r).toList = l.toList ++ v :: r.toList := rfl

omit [Inhabited V] in
theorem length_toList (T : PTree V) : T.toList.length = T.erase.size := (SlackTree.size_eq _).symm

omit [Inhabited V] in
theorem not_isTerminator {p : ℕ} (hp : p ≠ terminator) (l : PTree V) (v : V) (r : PTree V) :
    ¬isTerminator (PTree.node p l v r).addr = true := by
  intro heq
  exact hp (eq_of_beq heq)

omit [Inhabited V] in
theorem searchAux_spec {α : Type} (fuel : ℕ) (found : V → α) (absent : α) (hT : T.Stored h) (hsorted : o.Sorted T.toList)
    (hfuel : T.height < fuel) :
    Node.searchAux o k found absent fuel T.addr h = some ((o.lookup k T.toList).elim absent found, h) := by
  induction T generalizing fuel with
  | nil =>
    cases fuel with
    | zero => exact absurd hfuel (Nat.not_lt_zero _)
    | succ fuel => rfl
  | node p l v r ihl ihr =>
    cases fuel with
    | zero => exact absurd hfuel (Nat.not_lt_zero _)
    | succ fuel =>
      obtain ⟨hp, ⟨references, hn⟩, hl, hr⟩ := hT
      have hnode : h.nodes (PTree.node p l v r).addr = _ := hn
      have hheight : (PTree.node p l v r).height = max l.height r.height + 1 := rfl
      have hleft : l.height < fuel := by omega
      have hright : r.height < fuel := by omega
      rw [toList_node] at hsorted ⊢
      obtain ⟨hsl, hsr, hlv, hvr⟩ := o.sorted_append_cons.1 hsorted
      rw [Node.searchAux, if_neg (not_isTerminator hp l v r), run_bind (deref_eq hnode)]
      by_cases hkv : o.lt k (o.key v) = true
      · rw [if_pos hkv, ihl fuel hl hsl hleft, KeyOrder.lookup_left hkv hvr]
      · rw [if_neg hkv]
        by_cases hvk : o.lt (o.key v) k = true
        · rw [if_pos hvk, ihr fuel hr hsr hright, KeyOrder.lookup_right hvk hlv]
        · rw [if_neg hvk]
          rw [Bool.not_eq_true] at hkv hvk
          rw [KeyOrder.lookup_root hkv hvk hlv]
          rfl

theorem search_spec {α : Type} (found : V → α) (absent : α) (hc : Counted h R) (hT : T.Stored h) (hsorted : o.Sorted T.toList) :
    Node.search o k found absent T.addr h = some ((o.lookup k T.toList).elim absent found, h) := by
  obtain ⟨n, hn, hheight⟩ := hc.node_of_stored hT
  rw [Node.search, run_bind (deref_eq hn)]
  exact searchAux_spec (n.height + 1) found absent hT hsorted (by omega)

/-- **`lookup`**. -/
theorem lookup_spec (hc : Counted h R) (hT : T.Stored h) (hsorted : o.Sorted T.toList) :
    Node.lookup o T.addr k h = some (o.lookup k T.toList, h) := by
  rw [Node.lookup, search_spec some none hc hT hsorted]
  cases o.lookup k T.toList with
  | none => rfl
  | some v => rfl

/-- **`count`**. -/
theorem count_spec (hc : Counted h R) (hT : T.Stored h) (hsorted : o.Sorted T.toList) :
    Node.count o T.addr k h = some ((o.lookup k T.toList).elim 0 fun _ => 1, h) :=
  search_spec (fun _ => 1) 0 hc hT hsorted

omit [Inhabited V] in
theorem lookupPreviousAux_spec (fuel : ℕ) (result : Option V) (hT : T.Stored h) (hsorted : o.Sorted T.toList)
    (hfuel : T.height < fuel) :
    Node.lookupPreviousAux o k fuel T.addr result h = some ((o.previous k T.toList).or result, h) := by
  induction T generalizing fuel result with
  | nil =>
    cases fuel with
    | zero => exact absurd hfuel (Nat.not_lt_zero _)
    | succ fuel => rfl
  | node p l v r ihl ihr =>
    cases fuel with
    | zero => exact absurd hfuel (Nat.not_lt_zero _)
    | succ fuel =>
      obtain ⟨hp, ⟨references, hn⟩, hl, hr⟩ := hT
      have hnode : h.nodes (PTree.node p l v r).addr = _ := hn
      have hheight : (PTree.node p l v r).height = max l.height r.height + 1 := rfl
      have hleft : l.height < fuel := by omega
      have hright : r.height < fuel := by omega
      rw [toList_node] at hsorted ⊢
      obtain ⟨hsl, hsr, hlv, hvr⟩ := o.sorted_append_cons.1 hsorted
      rw [Node.lookupPreviousAux, if_neg (not_isTerminator hp l v r), run_bind (deref_eq hnode)]
      by_cases hkv : o.lt k (o.key v) = true
      · rw [if_pos hkv, ihl fuel result hl hsl hleft, KeyOrder.previous_left hkv hvr]
      · rw [if_neg hkv]
        rw [Bool.not_eq_true] at hkv
        by_cases hvk : o.lt (o.key v) k = true
        · -- the node is the answer unless there is one on its right
          rw [if_pos hvk, ihr fuel (some v) hr hsr hright, KeyOrder.previous_right hkv, Option.or_assoc, Option.some_or]
        · rw [if_neg hvk]
          rw [Bool.not_eq_true] at hvk
          rw [KeyOrder.previous_root hkv hvk hvr]
          rfl

/-- **`lookup_previous`**. -/
theorem lookup_previous_spec (hc : Counted h R) (hT : T.Stored h) (hsorted : o.Sorted T.toList) :
    Node.lookupPrevious o T.addr k h = some (o.previous k T.toList, h) := by
  obtain ⟨n, hn, hheight⟩ := hc.node_of_stored hT
  rw [Node.lookupPrevious, run_bind (deref_eq hn), lookupPreviousAux_spec (n.height + 1) none hT hsorted (by omega), Option.or_none]

omit [Inhabited V] in
theorem PTree.node_ne_nil (p : ℕ) (l : PTree V) (v : V) (r : PTree V) : PTree.node p l v r ≠ .nil := by
  intro h
  cases h

omit [Inhabited V] in
/-- The walk of `min` and `max`: `kid` is the subtree that `child` refers to, and `entry` the entry on that side. -/
theorem lastAux_spec {child : Node V → ℕ} {kid : PTree V → PTree V} {entry : PTree V → Option V}
    (hchild : ∀ p l v r height references, child ⟨l.addr, r.addr, v, height, references⟩ = (kid (.node p l v r)).addr)
    (hsub : ∀ p l v r, PTree.Sub (kid (.node p l v r)) (.node p l v r) ∧ (kid (.node p l v r)).height < (PTree.node p l v r).height)
    (hentry : ∀ p l v r, entry (.node p l v r) = (entry (kid (.node p l v r))).or (some v)) (hnil : entry .nil = none)
    (fuel : ℕ) (hT : T.Stored h) (hne : T ≠ .nil) (hfuel : T.height < fuel) :
    ∃ v, Node.lastAux child fuel T.addr h = some (v, h) ∧ entry T = some v := by
  induction fuel generalizing T with
  | zero => exact absurd hfuel (Nat.not_lt_zero _)
  | succ fuel ih =>
    cases T with
    | nil => exact absurd rfl hne
    | node p l v r =>
      obtain ⟨hs, hlow⟩ := hsub p l v r
      have hkid := hT.sub hs
      obtain ⟨hp, ⟨references, hn⟩, -, -⟩ := hT
      have hnode : h.nodes (PTree.node p l v r).addr = _ := hn
      rw [Node.lastAux, run_bind (deref_eq hnode), hchild p, isTerminator_addr hkid, hentry]
      cases hcase : kid (PTree.node p l v r) with
      | nil =>
        rw [hnil]
        exact ⟨v, rfl, rfl⟩
      | node q l' v' r' =>
        rw [hcase] at hkid hlow
        obtain ⟨w, hrun, hw⟩ := ih hkid (PTree.node_ne_nil q l' v' r') (by omega)
        exact ⟨w, hrun, by rw [hw]; rfl⟩

theorem last_spec {child : Node V → ℕ} (kid : PTree V → PTree V) (entry : PTree V → Option V)
    (hchild : ∀ p l v r height references, child ⟨l.addr, r.addr, v, height, references⟩ = (kid (.node p l v r)).addr)
    (hsub : ∀ p l v r, PTree.Sub (kid (.node p l v r)) (.node p l v r) ∧ (kid (.node p l v r)).height < (PTree.node p l v r).height)
    (hentry : ∀ p l v r, entry (.node p l v r) = (entry (kid (.node p l v r))).or (some v)) (hnil : entry .nil = none)
    (hc : Counted h R) (hT : T.Stored h) :
    Node.last child T.addr h = (entry T).map fun v => (v, h) := by
  rw [Node.last, isTerminator_addr hT]
  obtain ⟨n, hn, hheight⟩ := hc.node_of_stored hT
  cases T with
  | nil =>
    rw [hnil]
    rfl
  | node p l v r =>
    obtain ⟨w, hrun, hw⟩ := lastAux_spec hchild hsub hentry hnil (n.height + 1) hT (PTree.node_ne_nil p l v r) (by omega)
    rw [hw]
    show (Node.deref (PTree.node p l v r).addr >>= _) h = _
    rw [run_bind (deref_eq hn), hrun]
    rfl

/-- The left subtree. -/
def PTree.leftKid : PTree V → PTree V
  | .nil => .nil
  | .node _ l _ _ => l

/-- The right subtree. -/
def PTree.rightKid : PTree V → PTree V
  | .nil => .nil
  | .node _ _ _ r => r

/-- **`min`**, which asserts that there is an entry. -/
theorem min_spec (hc : Counted h R) (hT : T.Stored h) : Node.min T.addr h = T.toList.head?.map fun v => (v, h) := by
  refine last_spec PTree.leftKid (fun T => T.toList.head?) ?_ ?_ ?_ rfl hc hT
  · intro p l v r height references
    rfl
  · intro p l v r
    exact ⟨.left (.refl _), Nat.lt_succ_of_le (Nat.le_max_left _ _)⟩
  · intro p l v r
    show (l.toList ++ v :: r.toList).head? = l.toList.head?.or (some v)
    rw [List.head?_append, List.head?_cons]

/-- **`max`**, which asserts that there is an entry. -/
theorem max_spec (hc : Counted h R) (hT : T.Stored h) : Node.max T.addr h = T.toList.getLast?.map fun v => (v, h) := by
  refine last_spec PTree.rightKid (fun T => T.toList.getLast?) ?_ ?_ ?_ rfl hc hT
  · intro p l v r height references
    rfl
  · intro p l v r
    exact ⟨.right (.refl _), Nat.lt_succ_of_le (Nat.le_max_right _ _)⟩
  · intro p l v r
    show (l.toList ++ v :: r.toList).getLast? = r.toList.getLast?.or (some v)
    rw [List.getLast?_append, List.getLast?_cons, Option.some_or]
    cases r.toList.getLast? with
    | none => rfl
    | some w => rfl

omit [Inhabited V] in
theorem sizeAux_spec (fuel : ℕ) (hT : T.Stored h) (hfuel : T.height < fuel) :
    Node.sizeAux fuel T.addr h = some (T.toList.length, h) := by
  induction T generalizing fuel with
  | nil =>
    cases fuel with
    | zero => exact absurd hfuel (Nat.not_lt_zero _)
    | succ fuel => rfl
  | node p l v r ihl ihr =>
    cases fuel with
    | zero => exact absurd hfuel (Nat.not_lt_zero _)
    | succ fuel =>
      obtain ⟨hp, ⟨references, hn⟩, hl, hr⟩ := hT
      have hnode : h.nodes (PTree.node p l v r).addr = _ := hn
      have hheight : (PTree.node p l v r).height = max l.height r.height + 1 := rfl
      have hleft : l.height < fuel := by omega
      have hright : r.height < fuel := by omega
      rw [Node.sizeAux, if_neg (not_isTerminator hp l v r), run_bind (deref_eq hnode), run_bind (ihl fuel hl hleft),
        run_bind (ihr fuel hr hright), toList_node, List.length_append, List.length_cons, Nat.add_assoc, Nat.add_comm 1]
      rfl

/-- **`size`**. -/
theorem size_spec (hc : Counted h R) (hT : T.Stored h) : Node.size T.addr h = some (T.toList.length, h) := by
  obtain ⟨n, hn, hheight⟩ := hc.node_of_stored hT
  rw [Node.size, run_bind (deref_eq hn)]
  exact sizeAux_spec (n.height + 1) hT (by omega)

end Searches

/-! ### Paths -/

section Paths

variable {o}

/-- The path to the `i`-th node below `p`, where `first` and `second` are the paths in the subtree that comes first, of `n` nodes,
and in the other one. -/
def along (p n : ℕ) (first second : ℕ → List ℕ) (i : ℕ) : List ℕ :=
  if i < n then first i ++ [p] else if i = n then [p] else second (i - n - 1) ++ [p]

/-- The nodes from that of the entry `i` up to the root. -/
def PTree.path : PTree V → ℕ → List ℕ
  | .nil, _ => []
  | .node p l _ r, i => along p l.erase.size l.path r.path i

/-- The same with the entries counted from the last. -/
def PTree.pathBack : PTree V → ℕ → List ℕ
  | .nil, _ => []
  | .node p l _ r, i => along p r.erase.size r.pathBack l.pathBack i

theorem size_node (p : ℕ) (l : PTree V) (v : V) (r : PTree V) : (PTree.node p l v r).erase.size = l.erase.size + 1 + r.erase.size :=
  rfl

theorem pathBack_eq (T : PTree V) (i : ℕ) (hi : i < T.erase.size) : T.pathBack i = T.path (T.erase.size - 1 - i) := by
  induction T generalizing i with
  | nil => rfl
  | node p l v r ihl ihr =>
    rw [size_node] at hi ⊢
    rw [PTree.path, PTree.pathBack, along, along]
    by_cases hlow : i < r.erase.size
    · have hnot : ¬l.erase.size + 1 + r.erase.size - 1 - i < l.erase.size := by omega
      have hne : ¬l.erase.size + 1 + r.erase.size - 1 - i = l.erase.size := by omega
      have hidx : l.erase.size + 1 + r.erase.size - 1 - i - l.erase.size - 1 = r.erase.size - 1 - i := by omega
      rw [if_pos hlow, if_neg hnot, if_neg hne, hidx, ihr i hlow]
    · rw [if_neg hlow]
      by_cases heq : i = r.erase.size
      · have hroot : l.erase.size + 1 + r.erase.size - 1 - i = l.erase.size := by omega
        have hnot : ¬l.erase.size < l.erase.size := lt_irrefl _
        rw [if_pos heq, hroot, if_neg hnot, if_pos rfl]
      · have hleft : l.erase.size + 1 + r.erase.size - 1 - i < l.erase.size := by omega
        have hidx : l.erase.size - 1 - (i - r.erase.size - 1) = l.erase.size + 1 + r.erase.size - 1 - i := by omega
        rw [if_neg heq, if_pos hleft, ihl _ (by omega), hidx]

/-- The top of the path to an entry is its node. -/
theorem path_top {h : Heap V} {T : PTree V} (hT : T.Stored h) (i : ℕ) (hi : i < T.erase.size) :
    ∃ q rest n, T.path i = q :: rest ∧ h.nodes q = some n ∧ T.toList[i]? = some n.value := by
  induction T generalizing i with
  | nil => exact absurd hi (Nat.not_lt_zero _)
  | node p l v r ihl ihr =>
    obtain ⟨hp, ⟨references, hn⟩, hl, hr⟩ := hT
    rw [PTree.path, along, toList_node]
    rw [size_node] at hi
    by_cases hlow : i < l.erase.size
    · obtain ⟨q, rest, n, hpath, hq, hv⟩ := ihl hl i hlow
      refine ⟨q, rest ++ [p], n, ?_, hq, ?_⟩
      · rw [if_pos hlow, hpath, List.cons_append]
      · rw [List.getElem?_append_left (by rw [length_toList]; exact hlow), hv]
    · rw [if_neg hlow, List.getElem?_append_right (by rw [length_toList]; omega), length_toList]
      by_cases heq : i = l.erase.size
      · refine ⟨p, [], _, if_pos heq, hn, ?_⟩
        rw [heq, Nat.sub_self, List.getElem?_cons_zero]
      · obtain ⟨q, rest, n, hpath, hq, hv⟩ := ihr hr (i - l.erase.size - 1) (by omega)
        refine ⟨q, rest ++ [p], n, ?_, hq, ?_⟩
        · rw [if_neg heq, hpath, List.cons_append]
        · have hidx : i - l.erase.size = i - l.erase.size - 1 + 1 := by omega
          rw [hidx, List.getElem?_cons_succ, hv]

/-- Iteration below a tree, with the nodes above it on the stack: `descend` puts the path to the first entry on it, and a step goes
on to the next entry or climbs out of the tree. -/
structure Walks (toward back : Node V → ℕ) (max : ℕ) (h : Heap V) (T : PTree V) (path : ℕ → List ℕ) : Prop where
  descend : ∀ fuel stack, T.height < fuel → T.height + stack.length ≤ max →
    Iterator.descend back max fuel T.addr stack h = some (path 0 ++ stack, h)
  step : ∀ i above, i < T.erase.size → T.height + above.length ≤ max →
    ∃ q rest, path i ++ above = q :: rest ∧
      Iterator.step toward back max q rest h =
        if i + 1 < T.erase.size then some (path (i + 1) ++ above, h) else Iterator.climb back T.addr above h

theorem walks_nil (toward back : Node V → ℕ) (max : ℕ) (h : Heap V) {path : ℕ → List ℕ} (hpath : path 0 = []) :
    Walks toward back max h .nil path := by
  refine ⟨?_, ?_⟩
  · intro fuel stack hfuel _
    cases fuel with
    | zero => exact absurd hfuel (Nat.not_lt_zero _)
    | succ fuel =>
      rw [hpath]
      rfl
  · intro i above hi
    exact absurd hi (Nat.not_lt_zero _)

theorem push_eq {max p : ℕ} {stack : List ℕ} (h : Heap V) (hroom : stack.length < max) :
    Iterator.push max p stack h = some (p :: stack, h) := by
  rw [Iterator.push, if_pos hroom]
  rfl

theorem climb_eq {back : Node V → ℕ} {prev p : ℕ} {rest : List ℕ} {h : Heap V} {n : Node V} (hn : h.nodes p = some n) :
    Iterator.climb back prev (p :: rest) h =
      if prev = back n then some (p :: rest, h) else Iterator.climb back p rest h := by
  rw [Iterator.climb, run_bind (deref_eq hn)]
  by_cases hprev : prev = back n
  · rw [if_pos hprev, if_pos hprev]
    rfl
  · rw [if_neg hprev, if_neg hprev]

theorem eq_nil_of_size {T : PTree V} (hsize : T.erase.size = 0) : T = .nil := by
  cases T with
  | nil => rfl
  | node p l v r =>
    rw [size_node] at hsize
    omega

/-- **One node.** `near` is the subtree on the side one comes back to, and `far` the one on the side of the step. -/
theorem walks_node {toward back : Node V → ℕ} {max p : ℕ} {h : Heap V} {near far T : PTree V} {n : Node V}
    {first second : ℕ → List ℕ} (hp : p ≠ terminator) (hn : h.nodes p = some n) (hback : back n = near.addr)
    (htoward : toward n = far.addr) (haddr : T.addr = p) (hsize : T.erase.size = near.erase.size + 1 + far.erase.size)
    (hnear : near.height < T.height) (hfar : far.height < T.height) (hstored : far.Stored h)
    (hzero : near = .nil → first 0 = []) (hdistinct : far ≠ .nil → far.addr ≠ near.addr)
    (hw : Walks toward back max h near first) (hw' : Walks toward back max h far second) :
    Walks toward back max h T (along p near.erase.size first second) := by
  have hstart : along p near.erase.size first second 0 = first 0 ++ [p] := by
    rw [along]
    by_cases hpos : 0 < near.erase.size
    · rw [if_pos hpos]
    · have hnil := eq_nil_of_size (Nat.eq_zero_of_not_pos hpos)
      rw [if_neg hpos, hzero hnil, hnil]
      rfl
  refine ⟨?_, ?_⟩
  · intro fuel stack hfuel hroom
    cases fuel with
    | zero => exact absurd hfuel (Nat.not_lt_zero _)
    | succ fuel =>
      have hnot : ¬isTerminator p = true := by
        intro heq
        exact hp (eq_of_beq heq)
      have hdescend := hw.descend fuel (p :: stack) (by omega) (by rw [List.length_cons]; omega)
      rw [haddr, Iterator.descend, if_neg hnot, run_bind (push_eq h (by omega)), run_bind (deref_eq hn), hback, hdescend, hstart,
        List.append_assoc]
      rfl
  · intro i above hi hroom
    rw [hsize] at hi
    rw [along, hsize]
    by_cases hlow : i < near.erase.size
    · obtain ⟨q, rest, hpath, hstep⟩ := hw.step i (p :: above) hlow (by rw [List.length_cons]; omega)
      refine ⟨q, rest, ?_, ?_⟩
      · rw [if_pos hlow, List.append_assoc]
        exact hpath
      · rw [hstep, if_pos (show i + 1 < near.erase.size + 1 + far.erase.size by omega), along]
        by_cases hnext : i + 1 < near.erase.size
        · rw [if_pos hnext, if_pos hnext, List.append_assoc]
          rfl
        · -- the step climbs from the last node of the near subtree to `p`
          rw [if_neg hnext, if_neg hnext, if_pos (show i + 1 = near.erase.size by omega), climb_eq hn, if_pos hback.symm]
          rfl
    · rw [if_neg hlow]
      by_cases heq : i = near.erase.size
      · refine ⟨p, above, if_pos heq ▸ rfl, ?_⟩
        rw [Iterator.step, run_bind (deref_eq hn), htoward, isTerminator_addr hstored]
        cases far with
        | nil =>
          rw [if_neg (show ¬i + 1 < near.erase.size + 1 + (PTree.nil : PTree V).erase.size from by rw [heq]; exact lt_irrefl _), haddr]
          rfl
        | node q l v r =>
          obtain ⟨hq, ⟨references, hm⟩, -, -⟩ := hstored
          have hnode : h.nodes (PTree.node q l v r).addr = _ := hm
          have hnot : ¬isTerminator (PTree.node q l v r).addr = true := not_isTerminator hq l v r
          have hdescend := hw'.descend ((PTree.node q l v r).height + 1) (p :: above) (Nat.lt_succ_self _)
            (by rw [List.length_cons]; omega)
          have hroot : ¬i + 1 < near.erase.size := by omega
          have hroot' : ¬i + 1 = near.erase.size := by omega
          have hidx : i + 1 - near.erase.size - 1 = 0 := by omega
          have hroom' : (p :: above).length < max := by
            have hpos : 0 < (PTree.node q l v r).height := Nat.succ_pos _
            rw [List.length_cons]
            omega
          rw [Iterator.descend, if_neg hnot, run_bind (push_eq h hroom'), run_bind (deref_eq hnode)] at hdescend
          rw [if_pos (show i + 1 < near.erase.size + 1 + (PTree.node q l v r).erase.size by rw [size_node]; omega), along, if_neg hroot,
            if_neg hroot', hidx, List.append_assoc]
          show (Iterator.push max (PTree.node q l v r).addr (p :: above) >>= _) h = _
          rw [run_bind (push_eq h hroom'), run_bind (deref_eq hnode)]
          exact hdescend
      · obtain ⟨q, rest, hpath, hstep⟩ := hw'.step (i - near.erase.size - 1) (p :: above) (by omega)
          (by rw [List.length_cons]; omega)
        have hne : far ≠ .nil := by
          intro hnil
          rw [hnil] at hi
          exact absurd hi (by have hzero' : (PTree.nil : PTree V).erase.size = 0 := rfl; omega)
        refine ⟨q, rest, ?_, ?_⟩
        · rw [if_neg heq, List.append_assoc]
          exact hpath
        · rw [hstep, along]
          by_cases hnext : i - near.erase.size - 1 + 1 < far.erase.size
          · have hidx : i + 1 - near.erase.size - 1 = i - near.erase.size - 1 + 1 := by omega
            rw [if_pos hnext, if_pos (show i + 1 < near.erase.size + 1 + far.erase.size by omega),
              if_neg (show ¬i + 1 < near.erase.size by omega), if_neg (show ¬i + 1 = near.erase.size by omega), hidx,
              List.append_assoc]
            rfl
          · -- the step climbs past `p`, which is not reached from the near side
            rw [if_neg hnext, if_neg (show ¬i + 1 < near.erase.size + 1 + far.erase.size by omega), climb_eq hn, hback,
              if_neg (hdistinct hne), haddr]

/-- Two subtrees on the sides of an entry are at different addresses. -/
theorem addr_ne {h : Heap V} {l r : PTree V} (hl : l.Stored h) (hr : r.Stored h)
    (hlt : ∀ x ∈ l.toList, ∀ y ∈ r.toList, o.lt (o.key x) (o.key y) = true) (hne : l ≠ .nil) : l.addr ≠ r.addr := by
  cases l with
  | nil => exact absurd rfl hne
  | node p l₁ v l₂ =>
    obtain ⟨hp, ⟨references, hn⟩, -, -⟩ := hl
    cases r with
    | nil => exact hp
    | node q r₁ w r₂ =>
      obtain ⟨-, ⟨references', hm⟩, -, -⟩ := hr
      intro heq
      rw [show p = q from heq, hm] at hn
      have hvw : w = v := congrArg Node.value (Option.some.inj hn)
      have hself := hlt v (List.mem_append_right _ List.mem_cons_self) w (List.mem_append_right _ List.mem_cons_self)
      rw [hvw, o.irrefl] at hself
      cases hself

/-- The two sides of a node. -/
theorem sides {p : ℕ} {l r : PTree V} {v : V} {h : Heap V} (hT : (PTree.node p l v r).Stored h)
    (hsorted : o.Sorted (PTree.node p l v r).toList) :
    (l ≠ .nil → l.addr ≠ r.addr) ∧ (r ≠ .nil → r.addr ≠ l.addr) := by
  obtain ⟨-, -, hl, hr⟩ := hT
  rw [toList_node] at hsorted
  obtain ⟨-, -, hlv, hvr⟩ := o.sorted_append_cons.1 hsorted
  have hlt : ∀ x ∈ l.toList, ∀ y ∈ r.toList, o.lt (o.key x) (o.key y) = true :=
    fun x hx y hy => o.trans (hlv x hx) (hvr y hy)
  refine ⟨addr_ne hl hr hlt, ?_⟩
  intro hne heq
  cases l with
  | nil =>
    cases r with
    | nil => exact hne rfl
    | node q r₁ w r₂ => exact hr.1 heq
  | node q l₁ w l₂ => exact addr_ne hl hr hlt (PTree.node_ne_nil q l₁ w l₂) heq.symm

theorem walks_forward (max : ℕ) {h : Heap V} {T : PTree V} (hT : T.Stored h) (hsorted : o.Sorted T.toList) :
    Walks Node.right Node.left max h T T.path := by
  induction T with
  | nil => exact walks_nil _ _ _ _ rfl
  | node p l v r ihl ihr =>
    have hdistinct := (sides hT hsorted).2
    obtain ⟨hp, ⟨references, hn⟩, hl, hr⟩ := hT
    rw [toList_node] at hsorted
    obtain ⟨hsl, hsr, -, -⟩ := o.sorted_append_cons.1 hsorted
    have hzero : l = .nil → l.path 0 = [] := by
      intro hnil
      rw [hnil]
      rfl
    exact walks_node hp hn rfl rfl rfl rfl (Nat.lt_succ_of_le (Nat.le_max_left _ _)) (Nat.lt_succ_of_le (Nat.le_max_right _ _)) hr
      hzero hdistinct (ihl hl hsl) (ihr hr hsr)

theorem walks_backward (max : ℕ) {h : Heap V} {T : PTree V} (hT : T.Stored h) (hsorted : o.Sorted T.toList) :
    Walks Node.left Node.right max h T T.pathBack := by
  induction T with
  | nil => exact walks_nil _ _ _ _ rfl
  | node p l v r ihl ihr =>
    have hdistinct := (sides hT hsorted).1
    obtain ⟨hp, ⟨references, hn⟩, hl, hr⟩ := hT
    rw [toList_node] at hsorted
    obtain ⟨hsl, hsr, -, -⟩ := o.sorted_append_cons.1 hsorted
    have hzero : r = .nil → r.pathBack 0 = [] := by
      intro hnil
      rw [hnil]
      rfl
    have hsize : (PTree.node p l v r).erase.size = r.erase.size + 1 + l.erase.size := by
      rw [size_node]
      omega
    exact walks_node hp hn rfl rfl rfl hsize (Nat.lt_succ_of_le (Nat.le_max_right _ _)) (Nat.lt_succ_of_le (Nat.le_max_left _ _)) hl
      hzero hdistinct (ihr hr hsr) (ihl hl hsl)

end Paths

/-! ### What the iterators do -/

section Iterators

variable {o}

theorem path_left {p : ℕ} {l r : PTree V} {v : V} {i : ℕ} (hi : i < l.erase.size) :
    (PTree.node p l v r).path i = l.path i ++ [p] := if_pos hi

theorem path_root (p : ℕ) (l : PTree V) (v : V) (r : PTree V) : (PTree.node p l v r).path l.erase.size = [p] := by
  rw [PTree.path, along, if_neg (lt_irrefl _), if_pos rfl]

theorem path_right (p : ℕ) (l : PTree V) (v : V) (r : PTree V) (i : ℕ) :
    (PTree.node p l v r).path (l.erase.size + 1 + i) = r.path i ++ [p] := by
  have hlow : ¬l.erase.size + 1 + i < l.erase.size := by omega
  have hne : ¬l.erase.size + 1 + i = l.erase.size := by omega
  have hidx : l.erase.size + 1 + i - l.erase.size - 1 = i := by omega
  rw [PTree.path, along, if_neg hlow, if_neg hne, hidx]

theorem entry_root (l : PTree V) (v : V) (r : PTree V) : (l.toList ++ v :: r.toList)[l.erase.size]? = some v := by
  rw [← length_toList, List.getElem?_append_right le_rfl, Nat.sub_self, List.getElem?_cons_zero]

theorem entry_right (l : PTree V) (v : V) (r : PTree V) (i : ℕ) :
    (l.toList ++ v :: r.toList)[l.erase.size + 1 + i]? = r.toList[i]? := by
  have hidx : l.toList.length + 1 + i - l.toList.length = i + 1 := by omega
  rw [← length_toList, List.getElem?_append_right (by omega), hidx, List.getElem?_cons_succ]

/-- An iterator at the entry `i` of a tree; it is at the end behind the last entry. -/
structure At (T : PTree V) (it : Iterator) (i : ℕ) : Prop where
  root : it.root = T.addr
  max : it.max = T.height
  le : i ≤ T.toList.length
  stack : it.stack = if i < T.toList.length then T.path i else []

variable [Inhabited V] {h : Heap V} {R : Multiset (PTree V)} {T : PTree V} {k : K} {it : Iterator} {i : ℕ}

omit [Inhabited V] in
theorem At.top (hat : At T it i) (hT : T.Stored h) (hi : i < T.toList.length) :
    ∃ q rest n, it.stack = q :: rest ∧ T.path i = q :: rest ∧ h.nodes q = some n ∧ T.toList[i]? = some n.value := by
  rw [length_toList] at hi
  obtain ⟨q, rest, n, hpath, hn, hv⟩ := path_top hT i hi
  refine ⟨q, rest, n, ?_, hpath, hn, hv⟩
  rw [hat.stack, length_toList, if_pos hi, hpath]

omit [Inhabited V] in
/-- The stack is empty at the end only. -/
theorem At.stack_eq_nil (hat : At T it i) (hT : T.Stored h) : it.stack = [] ↔ i = T.toList.length := by
  constructor
  · intro hnil
    by_contra hne
    obtain ⟨q, rest, n, hstack, -, -, -⟩ := hat.top hT (lt_of_le_of_ne hat.le hne)
    rw [hnil] at hstack
    cases hstack
  · intro heq
    rw [hat.stack, if_neg (by omega)]

/-- **The constructor**: the iterator is an owner of the tree, at its beginning or at its end. -/
theorem make_spec (hc : Counted h R) (hT : Held R T) (hsorted : o.Sorted T.toList) (atBeginning : Bool) :
    ∃ it h', Iterator.make T.addr atBeginning h = some (it, h') ∧ Counted h' (T ::ₘ R) ∧
      At T it (if atBeginning then 0 else T.toList.length) := by
  obtain ⟨h', hrun, hc'⟩ := incref_spec hc hT
  have hstored := hc'.stored T mem_first
  obtain ⟨n, hn, hheight⟩ := hc'.node_of_stored hstored
  rw [Iterator.make, run_bind hrun, run_bind (deref_eq hn)]
  cases atBeginning with
  | false => exact ⟨⟨T.addr, n.height, []⟩, h', rfl, hc', rfl, hheight, le_rfl, (if_neg (lt_irrefl _)).symm⟩
  | true =>
    have hdescend := (walks_forward n.height hstored hsorted).descend (n.height + 1) [] (by omega)
      (by rw [List.length_nil]; omega)
    rw [List.append_nil] at hdescend
    refine ⟨⟨T.addr, n.height, T.path 0⟩, h', ?_, hc', rfl, hheight, Nat.zero_le _, ?_⟩
    · rw [if_pos rfl, run_bind hdescend]
      rfl
    · show T.path 0 = if 0 < T.toList.length then T.path 0 else []
      cases T with
      | nil => rfl
      | node p l v r =>
        have hpos : 0 < (PTree.node p l v r).toList.length := by
          rw [length_toList, size_node]
          omega
        rw [if_pos hpos]

/-- **The destructor** gives the tree up. -/
theorem destroy_spec (hc : Counted h (T ::ₘ R)) (hat : At T it i) : ∃ h', it.destroy h = some ((), h') ∧ Counted h' R := by
  rw [Iterator.destroy, hat.root]
  exact decref_spec hc

omit [Inhabited V] in
/-- **`operator*`**. -/
theorem value_spec (hat : At T it i) (hT : T.Stored h) (hi : i < T.toList.length) :
    ∃ v, T.toList[i]? = some v ∧ it.value h = some (v, h) := by
  obtain ⟨q, rest, n, hstack, -, hn, hv⟩ := hat.top hT hi
  refine ⟨n.value, hv, ?_⟩
  rw [Iterator.value, hstack]
  show (Node.deref q >>= _) h = _
  rw [run_bind (deref_eq hn)]
  rfl

omit [Inhabited V] in
/-- **`operator++`** goes to the next entry or to the end. -/
theorem increment_spec (hat : At T it i) (hT : T.Stored h) (hsorted : o.Sorted T.toList) (hi : i < T.toList.length) :
    ∃ it', it.increment h = some (it', h) ∧ At T it' (i + 1) := by
  obtain ⟨q, rest, n, hstack, hpath, -, -⟩ := hat.top hT hi
  obtain ⟨q', rest', hpath', hstep⟩ := (walks_forward it.max hT hsorted).step i [] (by rw [← length_toList]; exact hi)
    (by rw [List.length_nil, hat.max, Nat.add_zero])
  rw [List.append_nil] at hpath' hstep
  rw [hpath] at hpath'
  obtain ⟨rfl, rfl⟩ := List.cons.inj hpath'
  refine ⟨{ it with stack := if i + 1 < T.toList.length then T.path (i + 1) else [] }, ?_, hat.root, hat.max, hi, rfl⟩
  rw [Iterator.increment, hstack]
  show (Iterator.step Node.right Node.left it.max q rest >>= _) h = _
  rw [length_toList]
  by_cases hnext : i + 1 < T.erase.size
  · rw [if_pos hnext] at hstep
    rw [run_bind hstep, if_pos hnext]
    rfl
  · rw [if_neg hnext] at hstep
    rw [run_bind hstep, if_neg hnext]
    rfl

/-- **`operator--`** goes to the entry before, from the end to the last entry and from the first entry to the end. -/
theorem decrement_spec (hc : Counted h R) (hat : At T it i) (hT : T.Stored h) (hsorted : o.Sorted T.toList) :
    ∃ it', it.decrement h = some (it', h) ∧ At T it' (if i = 0 then T.toList.length else i - 1) := by
  have hwalks := walks_backward it.max hT hsorted
  have hlen := length_toList T
  by_cases hend : i = T.toList.length
  · have hstack := (hat.stack_eq_nil hT).2 hend
    obtain ⟨n, hn, hheight⟩ := hc.node_of_stored hT
    have hdescend := hwalks.descend (n.height + 1) [] (by omega) (by rw [List.length_nil, hat.max, Nat.add_zero])
    rw [List.append_nil] at hdescend
    refine ⟨{ it with stack := T.pathBack 0 }, ?_, hat.root, hat.max, ?_, ?_⟩
    · rw [Iterator.decrement, hstack]
      show (Node.deref it.root >>= _) h = _
      rw [hat.root, run_bind (deref_eq hn), run_bind hdescend]
      rfl
    · by_cases hzero : i = 0
      · rw [if_pos hzero]
      · rw [if_neg hzero]
        omega
    · show T.pathBack 0 = _
      cases T with
      | nil =>
        rw [hend]
        rfl
      | node p l v r =>
        rw [size_node] at hlen
        have hpos : ¬i = 0 := by omega
        have hlast := pathBack_eq (PTree.node p l v r) 0 (by rw [size_node]; omega)
        have hlt : i - 1 < (PTree.node p l v r).toList.length := by omega
        rw [if_neg hpos, if_pos hlt, hlast, ← length_toList, hend, Nat.sub_zero]
  · have hi : i < T.toList.length := lt_of_le_of_ne hat.le hend
    obtain ⟨q, rest, n, hstack, hpath, -, -⟩ := hat.top hT hi
    -- counted from the last entry the step goes on to the next one
    obtain ⟨q', rest', hpath', hstep⟩ := hwalks.step (T.erase.size - 1 - i) [] (by omega)
      (by rw [List.length_nil, hat.max, Nat.add_zero])
    have hmirror : T.pathBack (T.erase.size - 1 - i) = T.path i := by
      rw [pathBack_eq T _ (by omega)]
      congr 1
      omega
    rw [List.append_nil, hmirror, hpath] at hpath'
    obtain ⟨rfl, rfl⟩ := List.cons.inj hpath'
    refine ⟨{ it with stack := if i = 0 then [] else T.path (i - 1) }, ?_, hat.root, hat.max, ?_, ?_⟩
    · rw [Iterator.decrement, hstack]
      show (Iterator.step Node.left Node.right it.max q rest >>= _) h = _
      by_cases hzero : i = 0
      · rw [if_neg (by omega)] at hstep
        rw [run_bind hstep, if_pos hzero]
        rfl
      · have hprevious : T.pathBack (T.erase.size - 1 - i + 1) = T.path (i - 1) := by
          rw [pathBack_eq T _ (by omega)]
          congr 1
          omega
        rw [if_pos (by omega), hprevious, List.append_nil] at hstep
        rw [run_bind hstep, if_neg hzero]
        rfl
    · by_cases hzero : i = 0
      · rw [if_pos hzero]
      · rw [if_neg hzero]
        omega
    · show (if i = 0 then [] else T.path (i - 1)) = _
      by_cases hzero : i = 0
      · rw [if_pos hzero, if_pos hzero, if_neg (lt_irrefl _)]
      · rw [if_neg hzero, if_neg hzero, if_pos (by omega)]

/-! ### Bounds -/

/-- The entry at which the loop of `lower_bound` ends: the last one before the key or the first one not before it. -/
def Reached (o : KeyOrder K V) (k : K) (l : List V) (found : Bool) (i : ℕ) : Prop :=
  ∃ x, l[i]? = some x ∧ o.before k l = (if o.lt (o.key x) k then i + 1 else i) ∧ (found = true → o.lt (o.key x) k = false)

omit [Inhabited V] in
theorem lowerBoundLoop_nil {max fuel : ℕ} (above : List ℕ) (hfuel : 0 < fuel) :
    Iterator.lowerBoundLoop o k max fuel (PTree.nil : PTree V).addr above h = some ((false, above), h) := by
  cases fuel with
  | zero => exact absurd hfuel (lt_irrefl _)
  | succ fuel => rfl

omit [Inhabited V] in
theorem lowerBoundLoop_spec {max fuel : ℕ} {above : List ℕ} (hne : T ≠ .nil) (hT : T.Stored h) (hsorted : o.Sorted T.toList)
    (hfuel : T.height < fuel) (hroom : T.height + above.length ≤ max) :
    ∃ found i, Iterator.lowerBoundLoop o k max fuel T.addr above h = some ((found, T.path i ++ above), h) ∧
      Reached o k T.toList found i := by
  induction T generalizing fuel above with
  | nil => exact absurd rfl hne
  | node p l v r ihl ihr =>
    cases fuel with
    | zero => exact absurd hfuel (Nat.not_lt_zero _)
    | succ fuel =>
      obtain ⟨hp, ⟨references, hn⟩, hl, hr⟩ := hT
      have hnode : h.nodes (PTree.node p l v r).addr = _ := hn
      have hheight : (PTree.node p l v r).height = Max.max l.height r.height + 1 := rfl
      have hlen : (p :: above).length = above.length + 1 := List.length_cons
      have hroomLeft : l.height + (p :: above).length ≤ max := by omega
      have hroomRight : r.height + (p :: above).length ≤ max := by omega
      rw [toList_node] at hsorted ⊢
      obtain ⟨hsl, hsr, hlv, hvr⟩ := o.sorted_append_cons.1 hsorted
      rw [Iterator.lowerBoundLoop, if_neg (not_isTerminator hp l v r), run_bind (push_eq h (by omega)), run_bind (deref_eq hnode)]
      by_cases hkv : o.lt k (o.key v) = true
      · rw [if_pos hkv]
        by_cases hnil : l = .nil
        · subst hnil
          refine ⟨false, 0, lowerBoundLoop_nil _ (by omega), v, rfl, ?_, fun _ => o.asymm hkv⟩
          rw [KeyOrder.before_left hkv hvr, o.asymm hkv]
          rfl
        · obtain ⟨found, i, hrun, x, hx, hbefore, hfound⟩ := ihl hnil hl hsl (show l.height < fuel by omega) hroomLeft
          have hi : i < l.toList.length := (List.getElem?_eq_some_iff.1 hx).1
          refine ⟨found, i, ?_, x, ?_, ?_, hfound⟩
          · rw [path_left (by rw [← length_toList]; exact hi), List.append_assoc]
            exact hrun
          · rw [List.getElem?_append_left hi, hx]
          · rw [KeyOrder.before_left hkv hvr, hbefore]
      · rw [if_neg hkv]
        rw [Bool.not_eq_true] at hkv
        by_cases hvk : o.lt (o.key v) k = true
        · rw [if_pos hvk]
          by_cases hnil : r = .nil
          · subst hnil
            refine ⟨false, l.erase.size, ?_, v, entry_root l v .nil, ?_, fun hfalse => Bool.noConfusion hfalse⟩
            · rw [path_root]
              exact lowerBoundLoop_nil _ (by omega)
            · rw [KeyOrder.before_right hvk hlv, if_pos hvk, length_toList]
              rfl
          · obtain ⟨found, i, hrun, x, hx, hbefore, hfound⟩ := ihr hnil hr hsr (show r.height < fuel by omega) hroomRight
            refine ⟨found, l.erase.size + 1 + i, ?_, x, ?_, ?_, hfound⟩
            · rw [path_right, List.append_assoc]
              exact hrun
            · rw [entry_right, hx]
            · rw [KeyOrder.before_right hvk hlv, hbefore, length_toList]
              by_cases hxk : o.lt (o.key x) k = true
              · rw [if_pos hxk, if_pos hxk]
                omega
              · rw [if_neg hxk, if_neg hxk]
        · rw [if_neg hvk]
          rw [Bool.not_eq_true] at hvk
          refine ⟨true, l.erase.size, ?_, v, entry_root l v r, ?_, fun _ => hvk⟩
          · rw [path_root]
            rfl
          · rw [KeyOrder.before_root hkv hvk hlv hvr, hvk, length_toList]
            rfl

/-- **`lower_bound`** is at the first entry that is not before the key, or at the end. -/
theorem lower_bound_spec (hc : Counted h R) (hT : Held R T) (hsorted : o.Sorted T.toList) (k : K) :
    ∃ it h', Iterator.lowerBound o T.addr k h = some (it, h') ∧ Counted h' (T ::ₘ R) ∧ At T it (o.before k T.toList) := by
  obtain ⟨it, h', hrun, hc', hat⟩ := make_spec hc hT hsorted false
  have hstored := hc'.stored T mem_first
  obtain ⟨n, hn, hheight⟩ := hc'.node_of_stored hstored
  have hstack := (hat.stack_eq_nil hstored).2 rfl
  rw [Iterator.lowerBound, run_bind hrun, run_bind (deref_eq hn), hstack]
  by_cases hnil : T = .nil
  · subst hnil
    refine ⟨it, h', ?_, hc', hat⟩
    rw [run_bind (lowerBoundLoop_nil [] (Nat.succ_pos _))]
    show some ({ it with stack := [] }, h') = some (it, h')
    rw [← hstack]
  · have hroom : T.height + ([] : List ℕ).length ≤ it.max := by rw [List.length_nil, hat.max, Nat.add_zero]
    obtain ⟨found, i, hloop, x, hx, hbefore, hfound⟩ := lowerBoundLoop_spec (k := k) hnil hstored hsorted (show T.height < n.height + 1 by omega) hroom
    have hi : i < T.toList.length := (List.getElem?_eq_some_iff.1 hx).1
    rw [List.append_nil] at hloop
    rw [run_bind hloop]
    have hat' : At T { it with stack := T.path i } i := ⟨hat.root, hat.max, Nat.le_of_lt hi, (if_pos hi).symm⟩
    obtain ⟨q, rest, m, hstack', -, hm, hv⟩ := hat'.top hstored hi
    have hpath : T.path i = q :: rest := hstack'
    have hmx : m.value = x := Option.some.inj (hv.symm.trans hx)
    cases found with
    | true =>
      refine ⟨{ it with stack := T.path i }, h', rfl, hc', ?_⟩
      rw [hbefore, hfound rfl]
      exact hat'
    | false =>
      rw [hpath] at hat' ⊢
      show ∃ it' h'', (Node.deref q >>= _) h' = _ ∧ _
      rw [run_bind (deref_eq hm), hmx, hbefore]
      by_cases hxk : o.lt (o.key x) k = true
      · obtain ⟨it', hinc, hat''⟩ := increment_spec hat' hstored hsorted hi
        rw [if_pos hxk, if_pos hxk]
        exact ⟨it', h', hinc, hc', hat''⟩
      · rw [if_neg hxk, if_neg hxk]
        exact ⟨_, h', rfl, hc', hat'⟩

/-- **`upper_bound`** is at the first entry after the key, or at the end. -/
theorem upper_bound_spec (hc : Counted h R) (hT : Held R T) (hsorted : o.Sorted T.toList) (k : K) :
    ∃ it h', Iterator.upperBound o T.addr k h = some (it, h') ∧ Counted h' (T ::ₘ R) ∧ At T it (o.upto k T.toList) := by
  obtain ⟨last, h₁, hrun₁, hc₁, hlast⟩ := make_spec hc hT hsorted false
  obtain ⟨it, h₂, hrun₂, hc₂, hat⟩ := lower_bound_spec hc₁ hT.mono hsorted k
  have hstored := hc₂.stored T mem_first
  obtain ⟨h₃, hrun₃, hc₃⟩ := destroy_spec hc₂ hlast
  have hend := (hlast.stack_eq_nil hstored).2 rfl
  rw [Iterator.upperBound, run_bind hrun₁, run_bind hrun₂, hend]
  by_cases hstack : it.stack = []
  · have hlen := (hat.stack_eq_nil hstored).1 hstack
    refine ⟨it, h₃, ?_, hc₃, ?_⟩
    · rw [if_pos hstack, run_bind hrun₃]
      rfl
    · rw [KeyOrder.upto_of_length hlen]
      exact hat
  · have hlt : o.before k T.toList < T.toList.length :=
      lt_of_le_of_ne hat.le fun heq => hstack ((hat.stack_eq_nil hstored).2 heq)
    obtain ⟨v, hv, hvalue⟩ := value_spec hat hstored hlt
    rw [if_neg hstack, run_bind hvalue, KeyOrder.upto_of_getElem? hsorted hv]
    cases hkv : o.lt k (o.key v) with
    | true =>
      refine ⟨it, h₃, ?_, hc₃, hat⟩
      rw [Bool.not_true, if_neg Bool.false_ne_true, pure_bind]
      show (last.destroy >>= _) h₂ = _
      rw [run_bind hrun₃]
      rfl
    | false =>
      obtain ⟨it', hinc, hat'⟩ := increment_spec hat hstored hsorted hlt
      refine ⟨it', h₃, ?_, hc₃, hat'⟩
      show (it.increment >>= _) h₂ = _
      rw [run_bind hinc]
      show (last.destroy >>= _) h₂ = _
      rw [run_bind hrun₃]
      rfl

/-- **`find`** is at the entry for the key, or at the end. -/
theorem find_spec (hc : Counted h R) (hT : Held R T) (hsorted : o.Sorted T.toList) (k : K) :
    ∃ it h', Iterator.find o T.addr k h = some (it, h') ∧ Counted h' (T ::ₘ R) ∧
      At T it (if (o.lookup k T.toList).isSome then o.before k T.toList else T.toList.length) := by
  obtain ⟨last, h₁, hrun₁, hc₁, hlast⟩ := make_spec hc hT hsorted false
  obtain ⟨it, h₂, hrun₂, hc₂, hat⟩ := lower_bound_spec hc₁ hT.mono hsorted k
  have hstored := hc₂.stored T mem_first
  obtain ⟨h₃, hrun₃, hc₃⟩ := destroy_spec hc₂ hlast
  obtain ⟨h₄, hrun₄, hc₄⟩ := destroy_spec hc₂ hat
  have hend := (hlast.stack_eq_nil hstored).2 rfl
  rw [Iterator.find, run_bind hrun₁, run_bind hrun₂, hend, KeyOrder.lookup_eq hsorted]
  by_cases hstack : it.stack = []
  · have hlen := (hat.stack_eq_nil hstored).1 hstack
    refine ⟨last, h₄, ?_, hc₄, ?_⟩
    · rw [if_pos hstack, run_bind hrun₄]
      rfl
    · rw [hlen, List.getElem?_eq_none le_rfl]
      exact hlast
  · have hlt : o.before k T.toList < T.toList.length :=
      lt_of_le_of_ne hat.le fun heq => hstack ((hat.stack_eq_nil hstored).2 heq)
    obtain ⟨v, hv, hvalue⟩ := value_spec hat hstored hlt
    rw [if_neg hstack, run_bind hvalue, hv, Option.filter_some]
    cases hkv : o.lt k (o.key v) with
    | true =>
      refine ⟨last, h₄, ?_, hc₄, hlast⟩
      rw [if_pos rfl, run_bind hrun₄]
      rfl
    | false =>
      refine ⟨it, h₃, ?_, hc₃, hat⟩
      rw [if_neg Bool.false_ne_true, run_bind hrun₃]
      rfl

end Iterators

end ImmutableTree

end SymBisect
