import SymBisect.Lib.LinkedTree

/-!
# The weighted tree

`DiscretePDF` of `include/klee/ADT/DiscretePDF.inc`: items with weights in a red-black tree whose nodes also keep the sum of the
weights below them.  Sums are exact.  A loop gets as many turns as there were ever nodes, twice; a missing node or one turn more
aborts.

* `setSum_spec`, `rotate_spec`: what the two changes do to the tree, seen from the node.
-/

namespace SymBisect

open Lib

namespace DiscretePDF

/-- `Node`, up to its links. -/
structure Node (T W : Type) where
  m_mark : Bool
  key : T
  weight : W
  sumWeights : W
  deriving DecidableEq

end DiscretePDF

/-- The nodes, and `m_root`. -/
abbrev DiscretePDF (T W : Type) := LinkedHeap (DiscretePDF.Node T W)

namespace DiscretePDF

open LinkedHeap

variable {T W : Type}

/-- How many turns a loop may take that starts now. -/
def turns (s : DiscretePDF T W) : ℕ := 2 * s.next + 2

/-! ### Nodes -/

def markRed (n : ℕ) : Prog (DiscretePDF T W) PUnit := modifyCell n fun c => { c with label := { c.label with m_mark := true } }

def markBlack (n : ℕ) : Prog (DiscretePDF T W) PUnit := modifyCell n fun c => { c with label := { c.label with m_mark := false } }

def isBlack (n : ℕ) : Prog (DiscretePDF T W) Bool := do
  let c ← deref n
  pure !c.label.m_mark

/-- `leftIsBlack` and `rightIsBlack`: a missing node is black. -/
def linkIsBlack : Option ℕ → Prog (DiscretePDF T W) Bool
  | none => pure true
  | some n => isBlack n

def leftIsBlack (n : ℕ) : Prog (DiscretePDF T W) Bool := do
  let c ← deref n
  linkIsBlack c.left

def rightIsBlack (n : ℕ) : Prog (DiscretePDF T W) Bool := do
  let c ← deref n
  linkIsBlack c.right

/-- `if (left) left->markBlack()`. -/
def markLinkBlack : Option ℕ → Prog (DiscretePDF T W) PUnit
  | none => pure ⟨⟩
  | some n => markBlack n

/-- `this==parent->left?parent->right:parent->left`. -/
def sibling (n : ℕ) : Prog (DiscretePDF T W) (Option ℕ) := do
  let c ← deref n
  let p ← Prog.unwrap c.parent
  let cp ← deref p
  pure (if cp.left = some n then cp.right else cp.left)

/-- `n->parent`, which is dereferenced. -/
def parent (n : ℕ) : Prog (DiscretePDF T W) ℕ := do
  let c ← deref n
  Prog.unwrap c.parent

section

variable [AddCommMonoid W]

/-- The sum of what a link leads to. -/
def linkSum : Option ℕ → Prog (DiscretePDF T W) W
  | none => pure 0
  | some n => do
    let c ← deref n
    pure c.label.sumWeights

def setSum (n : ℕ) : Prog (DiscretePDF T W) PUnit := do
  let c ← deref n
  let l ← linkSum c.left
  let r ← linkSum c.right
  modifyCell n fun c => { c with label := { c.label with sumWeights := c.label.weight + l + r } }

/-- The loop of `propagateSumsUp`. -/
def propagateLoop : ℕ → Option ℕ → Prog (DiscretePDF T W) PUnit
  | 0, _ => Prog.abort
  | _ + 1, none => pure ⟨⟩
  | fuel + 1, some n => do
    setSum n
    let c ← deref n
    propagateLoop fuel c.parent

def propagateSumsUp (n : Option ℕ) : Prog (DiscretePDF T W) PUnit := do
  let s ← Prog.get
  propagateLoop (turns s) n

/-! ### Balancing -/

/-- `if (p->left) p->left->parent = p`. -/
def adopt (p : ℕ) : Option ℕ → Prog (DiscretePDF T W) PUnit
  | none => pure ⟨⟩
  | some m => modifyCell m fun c => { c with parent := some p }

/-- `rotate`, up to the sums. -/
def turn (n p : ℕ) (c cp : Cell (Node T W)) : Prog (DiscretePDF T W) PUnit := do
  modifyCell n fun c => { c with parent := cp.parent }
  modifyCell p fun c => { c with parent := some n }
  if cp.left = some n then do
    modifyCell p fun cp => { cp with left := c.right }
    modifyCell n fun c => { c with right := some p }
    adopt p c.right
  else do
    modifyCell p fun cp => { cp with right := c.left }
    modifyCell n fun c => { c with left := some p }
    adopt p c.left

/-- The link to `p` becomes a link to `n`. -/
def relink (n p : ℕ) : Option ℕ → Prog (DiscretePDF T W) PUnit
  | none => setLink (some n) .root
  | some pp => do
    let c ← deref pp
    if c.left = some p then setLink (some n) (.left pp) else setLink (some n) (.right pp)

def rotate (n : ℕ) : Prog (DiscretePDF T W) PUnit := do
  let c ← deref n
  let p ← Prog.unwrap c.parent
  let cp ← deref p
  turn n p c cp
  setSum n
  setSum p
  relink n p cp.parent

/-- `if (!same direction) { rotate(n); p = n; }`. -/
def turnIn (n p : ℕ) (same : Prop) [Decidable same] : Prog (DiscretePDF T W) ℕ :=
  if same then pure p
  else do
    rotate n
    pure n

/-- `split` below a red node. -/
def splitRed (n p : ℕ) : Prog (DiscretePDF T W) PUnit := do
  let pp ← parent p
  markRed pp
  let cp ← deref p
  let cpp ← deref pp
  let top ← turnIn n p ((cp.left = some n ∧ cpp.left = some p) ∨ (cp.right = some n ∧ cpp.right = some p))
  rotate top
  markBlack top

def split (n : ℕ) : Prog (DiscretePDF T W) PUnit := do
  let c ← deref n
  markLinkBlack c.left
  markLinkBlack c.right
  match c.parent with
  | none => pure ⟨⟩
  | some p => do
    markRed n
    let black ← isBlack p
    if black then pure ⟨⟩ else splitRed n p

/-- The red near child `near` of the sibling `s` is rotated up: it is the sibling then. -/
def rotateNear (s : ℕ) (near : Option ℕ) : Prog (DiscretePDF T W) ℕ := do
  let m ← Prog.unwrap near
  rotate m
  markRed s
  let top ← parent s
  markBlack top
  pure top

/-- The black sibling, so that its far child is red. -/
def farRed (n s : ℕ) : Prog (DiscretePDF T W) ℕ := do
  let p ← parent n
  let cp ← deref p
  let leftBlack ← leftIsBlack s
  let rightBlack ← rightIsBlack s
  let cs ← deref s
  if cp.left = some n ∧ rightBlack = true then rotateNear s cs.left
  else if cp.right = some n ∧ leftBlack = true then rotateNear s cs.right
  else pure s

/-- `lengthen` where a child of the black sibling `s` is red. -/
def lengthenRed (n s : ℕ) : Prog (DiscretePDF T W) PUnit := do
  let s ← farRed n s
  rotate s
  let p ← parent n
  let black ← isBlack p
  Prog.when (black = false) (markRed s)
  let cs ← deref s
  let l ← Prog.unwrap cs.left
  markBlack l
  let r ← Prog.unwrap cs.right
  markBlack r

/-- A red sibling is rotated up; what is returned is the sibling after that. -/
def blackSibling (n p : ℕ) : Option ℕ → Prog (DiscretePDF T W) (Option ℕ)
  | none => pure none
  | some s => do
    let black ← isBlack s
    if black then pure (some s)
    else do
      markRed p
      markBlack s
      rotate s
      sibling n

/-- `lengthen`, so many nodes up. -/
def lengthenUp : ℕ → ℕ → Prog (DiscretePDF T W) PUnit
  | 0, _ => Prog.abort
  | fuel + 1, n => do
    let black ← isBlack n
    if black then do
      let c ← deref n
      match c.parent with
      | none => pure ⟨⟩
      | some p => do
        let s ← sibling n
        let s ← blackSibling n p s
        match s with
        | none => do
          let p ← parent n
          lengthenUp fuel p
        | some s => do
          let leftBlack ← leftIsBlack s
          let rightBlack ← rightIsBlack s
          if leftBlack && rightBlack then do
            let p ← parent n
            let black ← isBlack p
            markRed s
            if black then lengthenUp fuel p else markBlack p
          else lengthenRed n s
    else markBlack n

def lengthen (n : ℕ) : Prog (DiscretePDF T W) PUnit := do
  let s ← Prog.get
  lengthenUp (turns s) n

/-! ### The operations -/

variable [LinearOrder T]

/-- The loop of `insert`; it returns the last node it was at. -/
def descend (item : T) : ℕ → Option ℕ → Option ℕ → Prog (DiscretePDF T W) (Option ℕ)
  | 0, _, _ => Prog.abort
  | _ + 1, p, none => pure p
  | fuel + 1, _, some n => do
    let leftBlack ← leftIsBlack n
    let rightBlack ← rightIsBlack n
    Prog.when ((!leftBlack && !rightBlack) = true) (split n)
    let c ← deref n
    if c.label.key = item then Prog.abort
    else descend item fuel (some n) (if item < c.label.key then c.left else c.right)

/-- The new node is linked to the last one. -/
def linkLeaf (item : T) (n : ℕ) : Option ℕ → Prog (DiscretePDF T W) PUnit
  | none => setLink (some n) .root
  | some p => do
    let cp ← deref p
    setLink (some n) (if item < cp.label.key then .left p else .right p)
    split n

def insert (item : T) (weight : W) : Prog (DiscretePDF T W) PUnit := do
  let s ← Prog.get
  let p ← descend item (turns s) none s.root
  let n ← alloc ⟨⟨false, item, weight, 0⟩, p, none, none⟩
  linkLeaf item n p
  propagateSumsUp (some n)

/-- The loop of `lookup`; it returns the place of the link to the item. -/
def lookupLoop (item : T) : ℕ → LinkPlace → Prog (DiscretePDF T W) LinkPlace
  | 0, _ => Prog.abort
  | fuel + 1, np => do
    let link ← follow np
    match link with
    | none => pure np
    | some n => do
      let c ← deref n
      if c.label.key = item then pure np
      else lookupLoop item fuel (if item < c.label.key then .left n else .right n)

def lookup (item : T) : Prog (DiscretePDF T W) LinkPlace := do
  let s ← Prog.get
  lookupLoop item (turns s) .root

/-- `while ((*leftMaxp)->right) leftMaxp = &(*leftMaxp)->right`. -/
def leftMax : ℕ → LinkPlace → Prog (DiscretePDF T W) LinkPlace
  | 0, _ => Prog.abort
  | fuel + 1, np => do
    let link ← follow np
    let n ← Prog.unwrap link
    let c ← deref n
    match c.right with
    | none => pure np
    | some _ => leftMax fuel (.right n)

/-- The node that goes: that of the item, or its predecessor, whose item moves up. -/
def moveMaxFrom (np : LinkPlace) (n : ℕ) : Option ℕ → Prog (DiscretePDF T W) (LinkPlace × ℕ)
  | none => pure (np, n)
  | some _ => do
    let s ← Prog.get
    let leftMaxp ← leftMax (turns s) (.left n)
    let link ← follow leftMaxp
    let m ← Prog.unwrap link
    let cm ← deref m
    modifyCell n fun c => { c with label := { c.label with key := cm.label.key, weight := cm.label.weight } }
    pure (leftMaxp, m)

def moveMax (np : LinkPlace) (n : ℕ) : Prog (DiscretePDF T W) (LinkPlace × ℕ) := do
  let c ← deref n
  moveMaxFrom np n c.left

/-- `child->parent = n->parent`, and the balance. -/
def adoptChild (n : ℕ) (parent : Option ℕ) : Option ℕ → Prog (DiscretePDF T W) PUnit
  | none => pure ⟨⟩
  | some child => do
    modifyCell child fun cc => { cc with parent := parent }
    let black ← isBlack n
    if black then lengthen child else pure ⟨⟩

/-- The node, which has at most one child, is replaced by it and deleted. -/
def unlink (np : LinkPlace) (n : ℕ) : Prog (DiscretePDF T W) PUnit := do
  let c ← deref n
  let child := if c.left.isSome then c.left else c.right
  setLink child np
  adoptChild n c.parent child
  let c ← deref n
  propagateSumsUp c.parent
  Prog.modify fun s => { s with cells := Function.update s.cells n none }

def remove (item : T) : Prog (DiscretePDF T W) PUnit := do
  let np ← lookup item
  let link ← follow np
  let n ← Prog.unwrap link
  let r ← moveMax np n
  unlink r.1 r.2

def update (item : T) (weight : W) : Prog (DiscretePDF T W) PUnit := do
  let np ← lookup item
  let link ← follow np
  let n ← Prog.unwrap link
  modifyCell n fun c => { c with label := { c.label with weight := weight } }
  propagateSumsUp (some n)

end

/-! ### `choose` -/

section

variable [Field W] [LinearOrder W]

/-- The rest of a turn of `choose`, when the item is not on the left: how it goes on, or that it ends. -/
def chooseHere (w : W) (c : Cell (Node T W)) : Option (W × ℕ) :=
  match c.right with
  | none => none
  | some right => if w < c.label.weight then none else some (w - c.label.weight, right)

def chooseNext (w l : W) (c : Cell (Node T W)) : Option (W × ℕ) :=
  match c.left with
  | none => chooseHere w c
  | some left => if w < l then some (w, left) else chooseHere (w - l) c

/-- The loop of `choose`. -/
def chooseLoop : ℕ → W → ℕ → Prog (DiscretePDF T W) T
  | 0, _, _ => Prog.abort
  | fuel + 1, w, n => do
    let c ← deref n
    let l ← linkSum c.left
    match chooseNext w l c with
    | none => pure c.label.key
    | some next => chooseLoop fuel next.1 next.2

def choose (p : W) : Prog (DiscretePDF T W) T := do
  Prog.assert (0 ≤ p ∧ p < 1)
  let s ← Prog.get
  let root ← Prog.unwrap s.root
  let c ← deref root
  chooseLoop (turns s) (c.label.sumWeights * p) root

end

/-! ### What a program does to the tree, seen from a node -/

open LinkedTree

/-- The trees of `DiscretePDF`. -/
abbrev Tree (T W : Type) := LinkedTree (Node T W)

/-- A missing node is not red. -/
def isRed : Tree T W → Bool
  | .nil => false
  | .node _ x _ _ => x.m_mark

/-- The tree with another mark on its root. -/
def paint (mark : Bool) : Tree T W → Tree T W
  | .nil => .nil
  | .node a x l r => .node a { x with m_mark := mark } l r

variable {H : ℕ → Option (Cell (Node T W))} {s : DiscretePDF T W} {f g : Frame (Node T W)} {path : Path (Node T W)}
  {t l r : Tree T W} {a : ℕ} {x : Node T W}

theorem isBlack_eq (h : Shows H s path (.node a x l r)) : isBlack a s = (some (!x.m_mark), s) :=
  Prog.bind_of_result (deref_eq h.cell)

theorem linkIsBlack_eq (h : Shows H s path t) : linkIsBlack t.link s = (some (!isRed t), s) := by
  cases t with
  | nil => rfl
  | node a x l r => exact isBlack_eq h

/-- The left child of the node. -/
theorem downLeft (h : Shows H s path (.node a x l r)) : Shows H s (⟨a, x, true, r⟩ :: path) l := Shows.up_iff.2 h

/-- The right child of the node. -/
theorem downRight (h : Shows H s path (.node a x l r)) : Shows H s (⟨a, x, false, l⟩ :: path) r := Shows.up_iff.2 h

theorem leftIsBlack_eq (h : Shows H s path (.node a x l r)) : leftIsBlack a s = (some (!isRed l), s) :=
  (Prog.bind_of_result (deref_eq h.cell)).trans (linkIsBlack_eq (downLeft h))

theorem rightIsBlack_eq (h : Shows H s path (.node a x l r)) : rightIsBlack a s = (some (!isRed r), s) :=
  (Prog.bind_of_result (deref_eq h.cell)).trans (linkIsBlack_eq (downRight h))

/-- A write to the label of the node. -/
theorem relabel_spec (h : Shows H s path (.node a x l r)) (y : Node T W) {m : Prog (DiscretePDF T W) PUnit}
    (hm : m s = (some ⟨⟩, s.set a ⟨y, Path.parent path, l.link, r.link⟩)) :
    ∃ s', m s = (some ⟨⟩, s') ∧ Shows H s' path (.node a y l r) := ⟨_, hm, h.relabel y⟩

theorem markRed_spec (h : Shows H s path (.node a x l r)) :
    ∃ s', markRed a s = (some ⟨⟩, s') ∧ Shows H s' path (.node a { x with m_mark := true } l r) :=
  relabel_spec h _ (modifyCell_eq h.cell)

theorem markBlack_spec (h : Shows H s path (.node a x l r)) :
    ∃ s', markBlack a s = (some ⟨⟩, s') ∧ Shows H s' path (.node a { x with m_mark := false } l r) :=
  relabel_spec h _ (modifyCell_eq h.cell)

theorem markLinkBlack_spec (h : Shows H s path t) :
    ∃ s', markLinkBlack t.link s = (some ⟨⟩, s') ∧ Shows H s' path (paint false t) := by
  cases t with
  | nil => exact ⟨s, rfl, h⟩
  | node a x l r => exact markBlack_spec h

section

variable [AddCommMonoid W]

/-- The sum that is kept at the root. -/
def sumOf : Tree T W → W
  | .nil => 0
  | .node _ x _ _ => x.sumWeights

/-- `setSum` on the label. -/
def Node.withSum (x : Node T W) (l r : W) : Node T W := { x with sumWeights := x.weight + l + r }

theorem linkSum_of_cell {n : ℕ} {c : Cell (Node T W)} (h : s.cells n = some c) :
    linkSum (some n) s = (some c.label.sumWeights, s) := Prog.bind_of_result (deref_eq h)

theorem linkSum_eq (h : Shows H s path t) : linkSum t.link s = (some (sumOf t), s) := by
  cases t with
  | nil => rfl
  | node a x l r => exact linkSum_of_cell h.cell

/-- `setSum` on a cell, whatever it is part of. -/
theorem setSum_of_cell {n : ℕ} {c : Cell (Node T W)} {wl wr : W} (h : s.cells n = some c)
    (hl : linkSum c.left s = (some wl, s)) (hr : linkSum c.right s = (some wr, s)) :
    setSum n s = (some ⟨⟩, s.set n { c with label := c.label.withSum wl wr }) := by
  unfold setSum
  rw [Prog.bind_of_result (deref_eq h), Prog.bind_of_result hl, Prog.bind_of_result hr]
  exact modifyCell_eq h

/-- **`setSum`**. -/
theorem setSum_spec (h : Shows H s path (.node a x l r)) :
    ∃ s', setSum a s = (some ⟨⟩, s') ∧ Shows H s' path (.node a (x.withSum (sumOf l) (sumOf r)) l r) :=
  relabel_spec h _ (setSum_of_cell h.cell (linkSum_eq (downLeft h)) (linkSum_eq (downRight h)))

/-! ### `rotate` -/

omit [AddCommMonoid W] in
/-- The root of the moved tree gets another parent. -/
theorem adopt_turned {u : DiscretePDF T W} (h : Shows H s (f :: path) (.node a x l r))
    (hlower : u.cells a = some (f.lowerCell x (Path.parent path) l r))
    (hupper : u.cells f.addr = some (f.cell (some a) (f.inner l r).link))
    (hsame : ∀ b, b ≠ a → b ≠ f.addr → u.cells b = s.cells b) (hroot : u.root = s.root) (hnext : u.next = s.next) :
    ∃ s₁, adopt f.addr (f.inner l r).link u = (some ⟨⟩, s₁) ∧ Shows.Turned s s₁ f path a x f.label l r := by
  obtain ⟨-, hkids, -, -⟩ := h.apart
  obtain ⟨⟨-, -, hft⟩, -, -⟩ := h.apart_edge
  have hkid : ∀ c, (f.inner l r).link = some c → c ≠ a ∧ c ≠ f.addr := fun c hc =>
    ⟨fun heq => hkids (heq ▸ Shows.inner_mem hc), fun heq => hft (heq ▸ Multiset.mem_cons_of_mem (Shows.inner_mem hc))⟩
  have hcell : ∀ c, (f.inner l r).link = some c → ∃ cell, s.cells c = some cell := by
    intro c hc
    unfold Frame.inner at hc
    cases hside : f.isLeft with
    | true =>
      rw [hside] at hc
      exact h.tree.2.2.root hc
    | false =>
      rw [hside] at hc
      exact h.tree.2.1.root hc
  cases hm : (f.inner l r).link with
  | none =>
    refine ⟨u, rfl, ⟨hlower, hupper, fun c hc => ?_, fun b hba hbf _ => hsame b hba hbf, hroot, hnext⟩⟩
    rw [hm] at hc
    cases hc
  | some m =>
    obtain ⟨cell, hc⟩ := hcell m hm
    obtain ⟨hma, hmf⟩ := hkid m hm
    have hum := (hsame m hma hmf).trans hc
    refine ⟨_, modifyCell_eq hum, ⟨?_, ?_, fun c hc' => ?_, fun b hba hbf hb => ?_, hroot, hnext⟩⟩
    · rw [set_cells_of_ne hma.symm]
      exact hlower
    · rw [set_cells_of_ne hmf.symm]
      exact hupper
    · obtain rfl := Option.some.inj (hm.symm.trans hc')
      rw [set_cells_self, hc]
      rfl
    · rw [set_cells_of_ne fun heq : b = m => hb (hm.trans (congrArg some heq.symm))]
      exact hsame b hba hbf

omit [AddCommMonoid W] in
/-- **The links that `turn` writes.** -/
theorem turn_spec (h : Shows H s (f :: path) (.node a x l r)) :
    ∃ s₁, turn a f.addr ⟨x, Path.parent (f :: path), l.link, r.link⟩ (f.cell (Path.parent path) (some a)) s = (some ⟨⟩, s₁) ∧
      Shows.Turned s s₁ f path a x f.label l r := by
  have hcell := h.cell
  have hupper := h.rest.1
  obtain ⟨hpath, -, -, -⟩ := h.apart
  rw [Path.addrs, Multiset.mem_cons, Multiset.mem_add, not_or, not_or] at hpath
  obtain ⟨p, y, side, other⟩ := f
  have hap : a ≠ p := hpath.1
  have hpa : p ≠ a := hap.symm
  unfold turn
  cases side with
  | true =>
    rw [Prog.bind_of_result (modifyCell_eq hcell)]
    rw [Prog.bind_of_result (modifyCell_eq ((set_cells_of_ne hpa).trans hupper)), if_pos (by rfl)]
    rw [Prog.bind_of_result (modifyCell_eq set_cells_self)]
    rw [Prog.bind_of_result (modifyCell_eq (by simp [hap]; rfl))]
    refine adopt_turned h ?_ ?_ (fun b hba hbp => ?_) rfl rfl
    · simp [Frame.lowerCell, Frame.cell]
    · simp [Frame.cell, Frame.inner, hpa]
    · have hbp' : b ≠ p := hbp
      simp [hba, hbp']
  | false =>
    rw [Prog.bind_of_result (modifyCell_eq hcell)]
    rw [Prog.bind_of_result (modifyCell_eq ((set_cells_of_ne hpa).trans hupper)),
      if_neg (by exact fun hlink => hpath.2.1 (mem_addrs_of_link hlink))]
    rw [Prog.bind_of_result (modifyCell_eq set_cells_self)]
    rw [Prog.bind_of_result (modifyCell_eq (by simp [hap]; rfl))]
    refine adopt_turned h ?_ ?_ (fun b hba hbp => ?_) rfl rfl
    · simp [Frame.lowerCell, Frame.cell]
    · simp [Frame.cell, Frame.inner, hpa]
    · have hbp' : b ≠ p := hbp
      simp [hba, hbp']

/-- The sum of a tree whose root has kept its label. -/
theorem linkSum_of_label {u : DiscretePDF T W} (h : Shows H s path t)
    (hsame : ∀ b, t.link = some b → (u.cells b).map Cell.label = (s.cells b).map Cell.label) :
    linkSum t.link u = (some (sumOf t), u) := by
  cases t with
  | nil => rfl
  | node b x l r =>
    have hb := hsame b rfl
    rw [h.cell] at hb
    obtain ⟨c, hc, hlabel⟩ := Option.map_eq_some_iff.1 hb
    rw [LinkedTree.link, linkSum_of_cell hc, hlabel]
    rfl

/-- The label of the node that is rotated up: its sum still counts the old sum of the other one. -/
def lowerLabel (f : Frame (Node T W)) (x : Node T W) (l r : Tree T W) : Node T W :=
  match f.isLeft with
  | true => x.withSum (sumOf l) f.label.sumWeights
  | false => x.withSum f.label.sumWeights (sumOf r)

/-- The label of the node that is rotated down. -/
def upperLabel (f : Frame (Node T W)) (l r : Tree T W) : Node T W :=
  match f.isLeft with
  | true => f.label.withSum (sumOf r) (sumOf f.other)
  | false => f.label.withSum (sumOf f.other) (sumOf l)

/-- The tree after `rotate`. -/
def rotated (f : Frame (Node T W)) (a : ℕ) (x : Node T W) (l r : Tree T W) : Tree T W :=
  f.rotate a (lowerLabel f x l r) (upperLabel f l r) l r

/-- The sums after `turn`. -/
theorem sums_spec {s₁ : DiscretePDF T W} (h : Shows H s (f :: path) (.node a x l r))
    (ht : Shows.Turned s s₁ f path a x f.label l r) :
    ∃ s₂ s₃, setSum a s₁ = (some ⟨⟩, s₂) ∧ setSum f.addr s₂ = (some ⟨⟩, s₃) ∧
      Shows.Turned s s₃ f path a (lowerLabel f x l r) (upperLabel f l r) l r := by
  obtain ⟨hpath, hkids, -, -⟩ := h.apart
  obtain ⟨⟨hfo, -, hft⟩, hother, -⟩ := h.apart_edge
  rw [Path.addrs, Multiset.mem_cons, Multiset.mem_add, not_or, not_or] at hpath
  have hkid : ∀ b ∈ l.addrs + r.addrs, b ≠ a ∧ b ≠ f.addr := fun b hb =>
    ⟨fun heq => hkids (heq ▸ hb), fun heq => hft (heq ▸ Multiset.mem_cons_of_mem hb)⟩
  -- the labels of the subtrees have not changed
  have hlabel : ∀ b ∈ l.addrs + r.addrs, (s₁.cells b).map Cell.label = (s.cells b).map Cell.label := by
    intro b hb
    by_cases hinner : (f.inner l r).link = some b
    · rw [ht.inner b hinner, Option.map_map]
      rfl
    · rw [ht.others b (hkid b hb).1 (hkid b hb).2 hinner]
  have hlabelOther : ∀ b ∈ f.other.addrs, (s₁.cells b).map Cell.label = (s.cells b).map Cell.label := by
    intro b hb
    rw [ht.others b (fun heq => hpath.2.1 (heq ▸ hb)) (fun heq => hfo (heq ▸ hb)) fun hinner => (hother b hb).2
      (Multiset.mem_cons_of_mem (Shows.inner_mem hinner))]
  have hl := linkSum_of_label (u := s₁) (downLeft h) fun b hb => hlabel b (Multiset.mem_add.2 (.inl (mem_addrs_of_link hb)))
  have hr := linkSum_of_label (u := s₁) (downRight h) fun b hb => hlabel b (Multiset.mem_add.2 (.inr (mem_addrs_of_link hb)))
  have hp := linkSum_of_cell ht.upper
  have hne : f.addr ≠ a := Ne.symm hpath.1
  -- the second sum is taken of trees that the first one has not changed
  have hsecond : ∀ c : Cell (Node T W), linkSum l.link (s₁.set a c) = (some (sumOf l), s₁.set a c) ∧
      linkSum r.link (s₁.set a c) = (some (sumOf r), s₁.set a c) ∧
      linkSum f.other.link (s₁.set a c) = (some (sumOf f.other), s₁.set a c) := by
    intro c
    have hsame : ∀ b, b ≠ a → ((s₁.set a c).cells b).map Cell.label = (s₁.cells b).map Cell.label := fun b hb =>
      congrArg _ (set_cells_of_ne hb)
    refine ⟨linkSum_of_label (downLeft h) fun b hb => ?_, linkSum_of_label (downRight h) fun b hb => ?_,
      linkSum_of_label h.beside fun b hb => ?_⟩
    · have hmem : b ∈ l.addrs + r.addrs := Multiset.mem_add.2 (.inl (mem_addrs_of_link hb))
      exact (hsame b (hkid b hmem).1).trans (hlabel b hmem)
    · have hmem : b ∈ l.addrs + r.addrs := Multiset.mem_add.2 (.inr (mem_addrs_of_link hb))
      exact (hsame b (hkid b hmem).1).trans (hlabel b hmem)
    · have hmem := mem_addrs_of_link hb
      exact (hsame b fun heq => hpath.2.1 (heq ▸ hmem)).trans (hlabelOther b hmem)
  have hturned : ∀ c₁ c₂ : Cell (Node T W), c₁ = f.lowerCell (lowerLabel f x l r) (Path.parent path) l r →
      c₂ = Frame.cell { f with label := upperLabel f l r } (some a) (f.inner l r).link →
      Shows.Turned s ((s₁.set a c₁).set f.addr c₂) f path a (lowerLabel f x l r) (upperLabel f l r) l r := by
    intro c₁ c₂ hc₁ hc₂
    refine ⟨?_, ?_, fun c hc => ?_, fun b hba hbf hb => ?_, ht.root, ht.next⟩
    · rw [set_cells_of_ne hne.symm, set_cells_self, hc₁]
    · rw [set_cells_self, hc₂]
    · have hk := hkid c (Shows.inner_mem hc)
      rw [set_cells_of_ne hk.2, set_cells_of_ne hk.1]
      exact ht.inner c hc
    · rw [set_cells_of_ne hbf, set_cells_of_ne hba]
      exact ht.others b hba hbf hb
  have hupper : ∀ c : Cell (Node T W), (s₁.set a c).cells f.addr = some (f.cell (some a) (f.inner l r).link) := fun c =>
    (set_cells_of_ne hne).trans ht.upper
  have hlower := ht.lower
  obtain ⟨p, y, side, other⟩ := f
  cases side with
  | true =>
    exact ⟨_, _, setSum_of_cell hlower hl hp, setSum_of_cell (hupper _) (hsecond _).2.1 (hsecond _).2.2, hturned _ _ rfl rfl⟩
  | false =>
    exact ⟨_, _, setSum_of_cell hlower hp hr, setSum_of_cell (hupper _) (hsecond _).2.2 (hsecond _).1, hturned _ _ rfl rfl⟩

omit [AddCommMonoid W] in
theorem relink_eq {u : DiscretePDF T W} {n p : ℕ} (hrest : Path.Rep u.cells u.root path (some p))
    (hp : p ∉ Path.addrs path) : relink n p (Path.parent path) u = setLink (some n) (Path.place path) u := by
  cases path with
  | nil => rfl
  | cons g path =>
    have hcell := hrest.1
    have hpg : p ∉ g.other.addrs := fun hmem => hp (Multiset.mem_cons_of_mem (Multiset.mem_add.2 (.inl hmem)))
    obtain ⟨b, y, side, other⟩ := g
    show (deref b >>= fun c => if c.left = some p then setLink (some n) (.left b) else setLink (some n) (.right b)) u = _
    rw [Prog.bind_of_result (deref_eq hcell)]
    cases side with
    | true => rw [if_pos (by rfl)]; rfl
    | false => rw [if_neg (by exact fun hlink => hpg (mem_addrs_of_link hlink))]; rfl

/-- **`rotate`**. -/
theorem rotate_spec (h : Shows H s (f :: path) (.node a x l r)) :
    ∃ s', rotate a s = (some ⟨⟩, s') ∧ Shows H s' path (rotated f a x l r) := by
  have hupper := h.rest.1
  obtain ⟨s₁, hs₁, hturn⟩ := turn_spec h
  obtain ⟨s₂, s₃, hs₂, hs₃, hturned⟩ := sums_spec h hturn
  have hrest := hturned.rest h
  have hlink := hrest.wp_setLink (some a) (E := fun _ => False) (Multiset.nodup_add.1 (Shows.up_iff.1 h).nodup).1
  obtain ⟨⟨⟩, s', hs', hrest', hnext, habove⟩ := hlink.exists_result
  refine ⟨s', ?_, h.rotated hturned hrest' habove hnext⟩
  unfold rotate
  rw [Prog.bind_of_result (deref_eq h.cell)]
  show (deref f.addr >>= _) s = _
  rw [Prog.bind_of_result (deref_eq hupper)]
  have hparent : (f.cell (Path.parent path) (some a)).parent = Path.parent path := by
    obtain ⟨p, y, side, other⟩ := f
    cases side with
    | true => rfl
    | false => rfl
  rw [LinkedTree.link, Prog.bind_of_result hs₁, Prog.bind_of_result hs₂, Prog.bind_of_result hs₃, hparent,
    relink_eq hrest h.apart_edge.1.2.1, hs']

end

end DiscretePDF

end SymBisect
