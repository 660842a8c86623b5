import Mathlib.Data.BitVec
import Mathlib.Logic.Function.Basic

/-!
# The process tree and its tags

`PTree` of `lib/Core/PTree.cpp` and the `RandomPathSearcher` of `lib/Core/Searcher.cpp`.  The nodes live in a
heap and know their parent; an edge is a pointer with a tag of three bits, one for every searcher, and the
root is an edge too.  Nodes are numbered in the order of their creation, which bounds the loops that go up
and down the tree.
-/

namespace SymBisect

/-- The two children of a node. -/
inductive Side where
  | left
  | right
  deriving DecidableEq

/-- `PTreeNodePtr`: a pointer and a tag of `PtrBitCount` bits. -/
structure PTreeNodePtr where
  pointer : Option ℕ
  int : BitVec 3

/-- `PTreeNodePtr(nullptr)`. -/
def PTreeNodePtr.null : PTreeNodePtr := ⟨none, 0⟩

/-- `PTreeNode`: `left` and `right` are its two children. -/
structure PTreeNode where
  parent : Option ℕ
  child : Side → PTreeNodePtr
  state : Option ℕ

/-- `PTree`, with the heap of its nodes and the field `ptreeNode` of the states. -/
structure PTree where
  node : ℕ → Option PTreeNode
  next : ℕ
  root : PTreeNodePtr
  ptreeNode : ℕ → Option ℕ

/-- Where an edge is stored. -/
inductive Place where
  | root
  | child (parent : ℕ) (side : Side)
  deriving DecidableEq

namespace PTree

/-! ### The tree -/

/-- `PTree(initialState)`. -/
def init (initialState : ℕ) : PTree where
  node := fun n => if n = 0 then some ⟨none, fun _ => .null, some initialState⟩ else none
  next := 1
  root := ⟨some 0, 0⟩
  ptreeNode := fun s => if s = initialState then some 0 else none

/-- The edge at a place. -/
def edge (t : PTree) : Place → PTreeNodePtr
  | .root => t.root
  | .child p side => ((t.node p).map fun P => P.child side).getD .null

/-- Write an edge. -/
def setEdge (t : PTree) (place : Place) (e : PTreeNodePtr) : PTree :=
  match place with
  | .root => { t with root := e }
  | .child p side =>
    { t with
      node := Function.update t.node p
        ((t.node p).map fun P => { P with child := Function.update P.child side e }) }

/-- `delete n`. -/
def delete (t : PTree) (n : ℕ) : PTree := { t with node := Function.update t.node n none }

/-- The place of the edge to a node: `parent ? (parent->left == pnode ? &parent->left : &parent->right)
: &root`. -/
def childPtr (t : PTree) (parent : Option ℕ) (pnode : ℕ) : Place :=
  match parent with
  | none => .root
  | some p => .child p (if (t.edge (.child p .left)).pointer = some pnode then .left else .right)

/-- `attach`, with its assertions. -/
def attach (t : PTree) (node leftState rightState : ℕ) : Option PTree := do
  let n ← t.node node
  if (n.child .left).pointer = none ∧ (n.child .right).pointer = none ∧ t.ptreeNode rightState = some node then
    -- the current node inherits the tag
    let currentNodeTag := (t.edge (t.childPtr n.parent node)).int
    let child := fun
      | .left => ⟨some t.next, 0⟩
      | .right => ⟨some (t.next + 1), currentNodeTag⟩
    let leaf := fun state => (⟨some node, fun _ => .null, some state⟩ : PTreeNode)
    some
      { t with
        node := Function.update (Function.update (Function.update t.node node
          (some ⟨n.parent, child, none⟩)) t.next (some (leaf leftState))) (t.next + 1) (some (leaf rightState))
        next := t.next + 2
        ptreeNode := Function.update (Function.update t.ptreeNode leftState (some t.next)) rightState
          (some (t.next + 1)) }
  else none

/-- The side of the parent on which a node is, with the assertion of `remove`. -/
def sideOf (t : PTree) (p n : ℕ) : Option Side :=
  if (t.edge (.child p .left)).pointer = some n then some .left
  else if (t.edge (.child p .right)).pointer = some n then some .right
  else none

/-- The loop of `remove`: delete the node, and then its ancestors as long as they have no child.  What is
returned is the last `n`. -/
def removeUp : ℕ → PTree → ℕ → Option (PTree × Option ℕ)
  | 0, _, _ => none
  | fuel + 1, t, n => do
    let N ← t.node n
    match N.parent with
    | none => some (t.delete n, none)
    | some p => do
      let side ← t.sideOf p n
      let t := (t.setEdge (.child p side) .null).delete n
      if (t.edge (.child p .left)).pointer = none ∧ (t.edge (.child p .right)).pointer = none then
        removeUp fuel t p
      else some (t, some p)

/-- `child.getPointer()->parent = parent`. -/
def setParent (t : PTree) (c : ℕ) (parent : Option ℕ) : PTree :=
  { t with node := Function.update t.node c ((t.node c).map fun C => { C with parent := parent }) }

/-- With `CompressProcessTree`: connect the only child of a node to the node's parent. -/
def compress (t : PTree) (n : ℕ) : Option PTree := do
  let N ← t.node n
  let child := if (N.child .left).pointer ≠ none then N.child .left else N.child .right
  let c ← child.pointer
  let t := t.setParent c N.parent
  match N.parent with
  | none => some ((t.setEdge .root child).delete n)
  | some p => do
    let side ← t.sideOf p n
    some ((t.setEdge (.child p side) child).delete n)

/-- `remove`, with its assertion. -/
def remove (t : PTree) (compressProcessTree : Bool) (n : ℕ) : Option PTree := do
  let N ← t.node n
  if (N.child .left).pointer = none ∧ (N.child .right).pointer = none then
    match ← removeUp t.next t n with
    | (t, some n) => if compressProcessTree then t.compress n else some t
    | (t, none) => some t
  else none

end PTree

/-! ### The searcher -/

namespace RandomPathSearcher

/-- `idBitMask`, the bit that `getNextId` hands out: there are at most three searchers. -/
def idBitMask (id : Fin 3) : BitVec 3 := 1#3 <<< id.val

/-- `IS_OUR_NODE_VALID`. -/
def isOurNodeValid (id : Fin 3) (e : PTreeNodePtr) : Bool :=
  e.pointer.isSome && (e.int &&& idBitMask id) != 0

variable (id : Fin 3)

/-- The loop of `update` for an added state: tag the edges up to one that is tagged. -/
def tagUp : ℕ → PTree → Option ℕ → Option PTree
  | _, t, none => some t
  | 0, _, some _ => none
  | fuel + 1, t, some pnode => do
    let N ← t.node pnode
    let place := t.childPtr N.parent pnode
    if isOurNodeValid id (t.edge place) then some t
    else tagUp fuel (t.setEdge place { t.edge place with int := (t.edge place).int ||| idBitMask id }) N.parent

/-- The loop of `update` for a removed state: clear the edges up to a node with a tagged child. -/
def untagUp : ℕ → PTree → Option ℕ → Option PTree
  | _, t, none => some t
  | 0, _, some _ => none
  | fuel + 1, t, some pnode => do
    let N ← t.node pnode
    if !isOurNodeValid id (N.child .left) && !isOurNodeValid id (N.child .right) then do
      let place := t.childPtr N.parent pnode
      if isOurNodeValid id (t.edge place) then
        untagUp fuel (t.setEdge place { t.edge place with int := (t.edge place).int &&& ~~~idBitMask id }) N.parent
      else none
    else some t

/-- `update`. -/
def update (t : PTree) (addedStates removedStates : List ℕ) : Option PTree := do
  let t ← addedStates.foldlM (fun t es => do
    let pnode ← t.ptreeNode es
    tagUp id t.next t (some pnode)) t
  removedStates.foldlM (fun t es => do
    let pnode ← t.ptreeNode es
    untagUp id t.next t (some pnode)) t

/-- The loop of `selectState`: `rng k` is the `k`-th random number, of which `bits` bits are left. -/
def selectLoop (t : PTree) (rng : ℕ → BitVec 32) : ℕ → ℕ → BitVec 32 → ℕ → ℕ → Option ℕ
  | 0, _, _, _, _ => none
  | fuel + 1, n, flips, bits, k => do
    let N ← t.node n
    match N.state with
    | some state => some state
    | none =>
      if !isOurNodeValid id (N.child .left) then
        if isOurNodeValid id (N.child .right) then do
          let c ← (N.child .right).pointer
          if n ≠ c then selectLoop t rng fuel c flips bits k else none
        else none
      else if !isOurNodeValid id (N.child .right) then do
        let c ← (N.child .left).pointer
        if n ≠ c then selectLoop t rng fuel c flips bits k else none
      else
        let flips' := if bits = 0 then rng k else flips
        let bits' := (if bits = 0 then 32 else bits) - 1
        let side := if flips'.getLsbD bits' then Side.left else .right
        do
          let c ← (N.child side).pointer
          selectLoop t rng fuel c flips' bits' (if bits = 0 then k + 1 else k)

/-- `selectState`, with its assertion; the loop takes at most one turn for every node. -/
def selectState (t : PTree) (rng : ℕ → BitVec 32) : Option ℕ :=
  if (t.root.int &&& idBitMask id) != 0 then do
    let n ← t.root.pointer
    selectLoop id t rng (t.next + 1) n 0 0 0
  else none

/-- `empty`. -/
def empty (t : PTree) : Bool := !isOurNodeValid id t.root

end RandomPathSearcher

end SymBisect
