import SymBisect.ADT.DiscretePDF

/-!
# Balancing the weighted tree

What `split` and `lengthen` do to the tree around a node, case by case.

* `split_root`, `split_black`, `split_same`, `split_turn`: below nothing, below a black node, and below a red one, which is rotated
  up or over which the node is rotated twice.
-/

namespace SymBisect.DiscretePDF

open Lib LinkedHeap LinkedTree

variable {T W : Type} {H : ℕ → Option (Cell (Node T W))} {s : DiscretePDF T W} {f g : Frame (Node T W)} {path : Path (Node T W)}
  {t l r : Tree T W} {a : ℕ} {x : Node T W}

/-! ### Above the node -/

/-- The label with a red mark. -/
def Node.red (x : Node T W) : Node T W := { x with m_mark := true }

/-- The label with a black mark. -/
def Node.black (x : Node T W) : Node T W := { x with m_mark := false }

theorem isBlack_above (h : Shows H s (f :: path) t) : isBlack f.addr s = (some (!f.label.m_mark), s) := by
  have hup := Shows.up_iff.1 h
  obtain ⟨b, y, side, other⟩ := f
  cases side with
  | true => exact isBlack_eq hup
  | false => exact isBlack_eq hup

/-- The edge with another label on its upper end. -/
def reframe (f : Frame (Node T W)) (y : Node T W) : Frame (Node T W) := { f with label := y }

theorem markRed_above (h : Shows H s (f :: path) t) :
    ∃ s', markRed f.addr s = (some ⟨⟩, s') ∧ Shows H s' (reframe f f.label.red :: path) t := by
  have hup := Shows.up_iff.1 h
  obtain ⟨b, y, side, other⟩ := f
  cases side with
  | true =>
    obtain ⟨s', hs', h'⟩ := markRed_spec hup
    exact ⟨s', hs', Shows.up_iff.2 h'⟩
  | false =>
    obtain ⟨s', hs', h'⟩ := markRed_spec hup
    exact ⟨s', hs', Shows.up_iff.2 h'⟩

theorem markBlack_above (h : Shows H s (f :: path) t) :
    ∃ s', markBlack f.addr s = (some ⟨⟩, s') ∧ Shows H s' (reframe f f.label.black :: path) t := by
  have hup := Shows.up_iff.1 h
  obtain ⟨b, y, side, other⟩ := f
  cases side with
  | true =>
    obtain ⟨s', hs', h'⟩ := markBlack_spec hup
    exact ⟨s', hs', Shows.up_iff.2 h'⟩
  | false =>
    obtain ⟨s', hs', h'⟩ := markBlack_spec hup
    exact ⟨s', hs', Shows.up_iff.2 h'⟩

/-- A red mark two edges above. -/
theorem markRed_above_twice (h : Shows H s (f :: g :: path) t) :
    ∃ s', markRed g.addr s = (some ⟨⟩, s') ∧ Shows H s' (f :: reframe g g.label.red :: path) t := by
  obtain ⟨s', hs', h'⟩ := markRed_above (Shows.up_iff.1 h)
  exact ⟨s', hs', Shows.up_iff.2 h'⟩

/-- The cell at the upper end of an edge. -/
theorem cell_above (h : Shows H s (f :: path) t) : s.cells f.addr = some (f.cell (Path.parent path) t.link) := h.rest.1

theorem cell_parent (f : Frame (Node T W)) (p link : Option ℕ) : (f.cell p link).parent = p := by
  obtain ⟨b, y, side, other⟩ := f
  cases side with
  | true => rfl
  | false => rfl

theorem parent_above (h : Shows H s (f :: g :: path) t) : parent f.addr s = (some g.addr, s) := by
  unfold parent
  rw [Prog.bind_of_result (deref_eq (cell_above h)), cell_parent]
  rfl

/-- On which side of the edge the node is. -/
theorem cell_left_iff (h : Shows H s (f :: path) t) (ha : t.link = some a) (p : Option ℕ) :
    (f.cell p (some a)).left = some a ↔ f.isLeft = true := by
  have hother : f.other.link ≠ some a := fun heq => (h.apart_edge.2.1 a (mem_addrs_of_link heq)).2 (mem_addrs_of_link ha)
  obtain ⟨b, y, side, other⟩ := f
  cases side with
  | true => exact iff_of_true rfl rfl
  | false => exact iff_of_false hother Bool.false_ne_true

theorem cell_right_iff (h : Shows H s (f :: path) t) (ha : t.link = some a) (p : Option ℕ) :
    (f.cell p (some a)).right = some a ↔ f.isLeft = false := by
  have hother : f.other.link ≠ some a := fun heq => (h.apart_edge.2.1 a (mem_addrs_of_link heq)).2 (mem_addrs_of_link ha)
  obtain ⟨b, y, side, other⟩ := f
  cases side with
  | true => exact iff_of_false hother Bool.true_eq_false_eq_False
  | false => exact iff_of_true rfl rfl

section

variable [AddCommMonoid W]

/-! ### `split` -/

/-- `split` after the children are marked. -/
def splitBelow (n : ℕ) : Option ℕ → Prog (DiscretePDF T W) PUnit
  | none => pure ⟨⟩
  | some p => do
    markRed n
    let black ← isBlack p
    if black then pure ⟨⟩ else splitRed n p

theorem split_children (h : Shows H s path (.node a x l r)) :
    ∃ s₁, split a s = splitBelow a (Path.parent path) s₁ ∧ Shows H s₁ path (.node a x (paint false l) (paint false r)) := by
  obtain ⟨s₁, hs₁, h₁⟩ := markLinkBlack_spec (downLeft h)
  have h₁' : Shows H s₁ path (.node a x (paint false l) r) := Shows.up_iff.1 h₁
  obtain ⟨s₂, hs₂, h₂⟩ := markLinkBlack_spec (downRight h₁')
  refine ⟨s₂, ?_, Shows.up_iff.1 h₂⟩
  unfold split
  rw [Prog.bind_of_result (deref_eq h.cell), Prog.bind_of_result hs₁, Prog.bind_of_result hs₂]
  cases path with
  | nil => rfl
  | cons f path => rfl

theorem split_root (h : Shows H s [] (.node a x l r)) :
    ∃ s', split a s = (some ⟨⟩, s') ∧ Shows H s' [] (.node a x (paint false l) (paint false r)) := by
  obtain ⟨s₁, hs₁, h₁⟩ := split_children h
  exact ⟨s₁, hs₁, h₁⟩

theorem split_black (h : Shows H s (f :: path) (.node a x l r)) (hblack : f.label.m_mark = false) :
    ∃ s', split a s = (some ⟨⟩, s') ∧ Shows H s' (f :: path) (.node a x.red (paint false l) (paint false r)) := by
  obtain ⟨s₁, hs₁, h₁⟩ := split_children h
  obtain ⟨s₂, hs₂, h₂⟩ := markRed_spec h₁
  refine ⟨s₂, ?_, h₂⟩
  rw [hs₁]
  show (markRed a >>= _) s₁ = _
  rw [Prog.bind_of_result hs₂, Prog.bind_of_result (isBlack_above h₂), hblack]
  rfl

/-- The red node above is rotated up: it gets the former grandparent as its other child. -/
def uncle (f g : Frame (Node T W)) : Tree T W :=
  match f.isLeft with
  | true => .node g.addr (g.label.red.withSum (sumOf f.other) (sumOf g.other)) f.other g.other
  | false => .node g.addr (g.label.red.withSum (sumOf g.other) (sumOf f.other)) g.other f.other

theorem turnIn_congr {n m : ℕ} {p q : Prop} [Decidable p] [Decidable q] (h : p ↔ q) :
    (turnIn n m p : Prog (DiscretePDF T W) ℕ) = turnIn n m q := by
  unfold turnIn
  by_cases hp : p
  · rw [if_pos hp, if_pos (h.1 hp)]
  · rw [if_neg hp, if_neg fun hq => hp (h.2 hq)]

/-- `splitRed` up to the rotations. -/
theorem splitRed_eq (h : Shows H s (f :: g :: path) (.node a x l r)) :
    ∃ s', splitRed a f.addr s = (turnIn a f.addr (f.isLeft = g.isLeft) >>= fun top =>
        rotate top >>= fun _ => markBlack top) s' ∧
      Shows H s' (f :: reframe g g.label.red :: path) (.node a x l r) := by
  obtain ⟨s', hs', h'⟩ := markRed_above_twice h
  refine ⟨s', ?_, h'⟩
  have hup := Shows.up_iff.1 h'
  have hcell : s'.cells g.addr = some ((reframe g g.label.red).cell (Path.parent path) (some f.addr)) := by
    have hcell := cell_above hup
    rwa [Frame.fill_link] at hcell
  unfold splitRed
  rw [Prog.bind_of_result (parent_above h), Prog.bind_of_result hs', Prog.bind_of_result (deref_eq (cell_above h')),
    Prog.bind_of_result (deref_eq hcell)]
  have hsame : ((f.cell (some g.addr) (some a)).left = some a ∧
        ((reframe g g.label.red).cell (Path.parent path) (some f.addr)).left = some f.addr ∨
      (f.cell (some g.addr) (some a)).right = some a ∧
        ((reframe g g.label.red).cell (Path.parent path) (some f.addr)).right = some f.addr) ↔ f.isLeft = g.isLeft := by
    rw [cell_left_iff h' rfl, cell_right_iff h' rfl, cell_left_iff hup (f.fill_link _), cell_right_iff hup (f.fill_link _)]
    show (f.isLeft = true ∧ g.isLeft = true ∨ f.isLeft = false ∧ g.isLeft = false) ↔ _
    generalize f.isLeft = b
    generalize g.isLeft = c
    revert b c
    decide
  exact congrFun (congrArg (· >>= fun top => rotate top >>= fun _ => markBlack top) (turnIn_congr hsame)) s'

/-- Below a red node: where the rotations start. -/
theorem split_red (h : Shows H s (f :: g :: path) (.node a x l r)) (hred : f.label.m_mark = true) :
    ∃ s', split a s = (turnIn a f.addr (f.isLeft = g.isLeft) >>= fun top => rotate top >>= fun _ => markBlack top) s' ∧
      Shows H s' (f :: reframe g g.label.red :: path) (.node a x.red (paint false l) (paint false r)) := by
  obtain ⟨s₁, hs₁, h₁⟩ := split_children h
  obtain ⟨s₂, hs₂, h₂⟩ := markRed_spec h₁
  obtain ⟨s₃, hs₃, h₃⟩ := splitRed_eq h₂
  refine ⟨s₃, ?_, h₃⟩
  rw [hs₁]
  show (markRed a >>= _) s₁ = _
  rw [Prog.bind_of_result hs₂, Prog.bind_of_result (isBlack_above h₂), hred]
  exact hs₃

theorem split_same (h : Shows H s (f :: g :: path) (.node a x l r)) (hred : f.label.m_mark = true)
    (hside : f.isLeft = g.isLeft) : ∃ s' sum, split a s = (some ⟨⟩, s') ∧
      Shows H s' (⟨f.addr, { f.label.black with sumWeights := sum }, f.isLeft, uncle f g⟩ :: path)
        (.node a x.red (paint false l) (paint false r)) := by
  obtain ⟨s₁, hs₁, h₁⟩ := split_red h hred
  rw [hs₁, turnIn, if_pos hside]
  obtain ⟨p, y, side, other⟩ := f
  obtain ⟨q, z, gside, gother⟩ := g
  obtain rfl : side = gside := hside
  cases side with
  | true =>
    obtain ⟨s₂, hs₂, h₂⟩ := rotate_spec (Shows.up_iff.1 h₁)
    obtain ⟨s₃, hs₃, h₃⟩ := markBlack_spec h₂
    exact ⟨s₃, _, (Prog.bind_of_result hs₂).trans hs₃, Shows.up_iff.2 h₃⟩
  | false =>
    obtain ⟨s₂, hs₂, h₂⟩ := rotate_spec (Shows.up_iff.1 h₁)
    obtain ⟨s₃, hs₃, h₃⟩ := markBlack_spec h₂
    exact ⟨s₃, _, (Prog.bind_of_result hs₂).trans hs₃, Shows.up_iff.2 h₃⟩

/-- The node is rotated over both: these are its children then. -/
def turnedLeft (f g : Frame (Node T W)) (l : Tree T W) : Tree T W :=
  match f.isLeft with
  | true => .node g.addr (g.label.red.withSum (sumOf g.other) (sumOf l)) g.other l
  | false => .node f.addr (f.label.withSum (sumOf f.other) (sumOf l)) f.other l

def turnedRight (f g : Frame (Node T W)) (r : Tree T W) : Tree T W :=
  match f.isLeft with
  | true => .node f.addr (f.label.withSum (sumOf r) (sumOf f.other)) r f.other
  | false => .node g.addr (g.label.red.withSum (sumOf r) (sumOf g.other)) r g.other

theorem split_turn (h : Shows H s (f :: g :: path) (.node a x l r)) (hred : f.label.m_mark = true)
    (hside : f.isLeft ≠ g.isLeft) : ∃ s' sum, split a s = (some ⟨⟩, s') ∧
      Shows H s' path (.node a { x.black with sumWeights := sum } (turnedLeft f g (paint false l))
        (turnedRight f g (paint false r))) := by
  obtain ⟨s₁, hs₁, h₁⟩ := split_red h hred
  rw [hs₁, turnIn, if_neg hside]
  obtain ⟨s₂, hs₂, h₂⟩ := rotate_spec h₁
  obtain ⟨p, y, side, other⟩ := f
  obtain ⟨q, z, gside, gother⟩ := g
  cases side with
  | true =>
    obtain rfl : gside = false := by simpa using hside
    obtain ⟨s₃, hs₃, h₃⟩ := rotate_spec h₂
    obtain ⟨s₄, hs₄, h₄⟩ := markBlack_spec h₃
    refine ⟨s₄, _, ?_, h₄⟩
    rw [Prog.bind_assoc, Prog.bind_of_result hs₂]
    exact (Prog.bind_of_result hs₃).trans hs₄
  | false =>
    obtain rfl : gside = true := by simpa using hside
    obtain ⟨s₃, hs₃, h₃⟩ := rotate_spec h₂
    obtain ⟨s₄, hs₄, h₄⟩ := markBlack_spec h₃
    refine ⟨s₄, _, ?_, h₄⟩
    rw [Prog.bind_assoc, Prog.bind_of_result hs₂]
    exact (Prog.bind_of_result hs₃).trans hs₄

end

end SymBisect.DiscretePDF
