import Mathlib
import SymBisect.Lib.Prog

/-!
# Trees with links to the parents

A heap of cells, each with a label and with links to its parent and its children.  `Shows H s path t` says that the cells of `s` are
a tree, seen from a place in it: `t` is the tree below that place and `path` leads from it to the root.  Outside of the tree the
cells are those of `H`.

* `Shows.up_iff`, `Shows.beside`: the place is moved by an edge.
* `Shows.relabel`, `Shows.attach`, `Shows.spliced`, `Shows.rotated`, `Shows.freed`: what the writes of an operation do to the tree at
  the place.
-/

namespace SymBisect.Lib

/-- A label, and the links to the parent and the children. -/
structure Cell (L : Type) where
  label : L
  parent : Option ℕ
  left : Option ℕ
  right : Option ℕ

/-- Cells by address, the link to the root, and the next address. -/
structure LinkedHeap (L : Type) where
  cells : ℕ → Option (Cell L)
  root : Option ℕ
  next : ℕ

/-- Where a link is kept. -/
inductive LinkPlace where
  | root
  | left (a : ℕ)
  | right (a : ℕ)
  deriving DecidableEq

namespace LinkedHeap

variable {L : Type}

/-- No cells. -/
def empty : LinkedHeap L := ⟨fun _ => none, none, 0⟩

/-- A cell with new contents. -/
def set (s : LinkedHeap L) (a : ℕ) (c : Cell L) : LinkedHeap L := { s with cells := Function.update s.cells a (some c) }

/-- The cell at an address. -/
def deref (a : ℕ) : Prog (LinkedHeap L) (Cell L) := fun s => (s.cells a, s)

/-- Change the cell at an address. -/
def modifyCell (a : ℕ) (f : Cell L → Cell L) : Prog (LinkedHeap L) PUnit := do
  let c ← deref a
  Prog.modify fun s => s.set a (f c)

/-- The link at a place. -/
def follow : LinkPlace → Prog (LinkedHeap L) (Option ℕ)
  | .root => Prog.gets root
  | .left a => do
    let c ← deref a
    pure c.left
  | .right a => do
    let c ← deref a
    pure c.right

/-- Change the link at a place. -/
def setLink (link : Option ℕ) : LinkPlace → Prog (LinkedHeap L) PUnit
  | .root => Prog.modify fun s => { s with root := link }
  | .left a => modifyCell a fun c => { c with left := link }
  | .right a => modifyCell a fun c => { c with right := link }

/-- A new cell. -/
def alloc (c : Cell L) : Prog (LinkedHeap L) ℕ := fun s => (some s.next, { s.set s.next c with next := s.next + 1 })

variable {s : LinkedHeap L} {a b : ℕ} {c : Cell L}

@[simp] theorem set_cells_self : (s.set a c).cells a = some c := Function.update_self ..

@[simp] theorem set_cells_of_ne (h : b ≠ a) : (s.set a c).cells b = s.cells b := Function.update_of_ne h ..

@[simp] theorem set_root : (s.set a c).root = s.root := rfl

@[simp] theorem set_next : (s.set a c).next = s.next := rfl

theorem deref_eq (h : s.cells a = some c) : deref a s = (some c, s) := by
  unfold deref
  rw [h]

theorem modifyCell_eq {f : Cell L → Cell L} (h : s.cells a = some c) : modifyCell a f s = (some ⟨⟩, s.set a (f c)) :=
  Prog.bind_of_result (deref_eq h)

end LinkedHeap

/-- A binary tree whose nodes have addresses and labels. -/
inductive LinkedTree (L : Type) where
  | nil
  | node (addr : ℕ) (label : L) (left right : LinkedTree L)

namespace LinkedTree

variable {L : Type}

/-- The link to a tree. -/
def link : LinkedTree L → Option ℕ
  | nil => none
  | node a _ _ _ => some a

/-- The addresses of the nodes. -/
def addrs : LinkedTree L → Multiset ℕ
  | nil => 0
  | node a _ l r => a ::ₘ (l.addrs + r.addrs)

/-- The number of nodes. -/
def size : LinkedTree L → ℕ
  | nil => 0
  | node _ _ l r => l.size + r.size + 1

theorem card_addrs (t : LinkedTree L) : t.addrs.card = t.size := by
  induction t with
  | nil => rfl
  | node a x l r ihl ihr => rw [addrs, Multiset.card_cons, Multiset.card_add, ihl, ihr, size]

theorem mem_addrs_of_link {t : LinkedTree L} {a : ℕ} (h : t.link = some a) : a ∈ t.addrs := by
  cases t with
  | nil => cases h
  | node b x l r =>
    obtain rfl := Option.some.inj h
    exact Multiset.mem_cons_self _ _

/-- The cells of the tree, below a parent. -/
def Rep (cells : ℕ → Option (Cell L)) : Option ℕ → LinkedTree L → Prop
  | _, nil => True
  | parent, node a x l r =>
    cells a = some ⟨x, parent, l.link, r.link⟩ ∧ Rep cells (some a) l ∧ Rep cells (some a) r

theorem Rep.congr {cells cells' : ℕ → Option (Cell L)} {parent : Option ℕ} {t : LinkedTree L} (h : Rep cells parent t)
    (heq : ∀ a ∈ t.addrs, cells' a = cells a) : Rep cells' parent t := by
  induction t generalizing parent with
  | nil => trivial
  | node a x l r ihl ihr =>
    obtain ⟨hcell, hl, hr⟩ := h
    refine ⟨(heq a (Multiset.mem_cons_self _ _)).trans hcell, ihl hl fun b hb => ?_, ihr hr fun b hb => ?_⟩
    · exact heq b (Multiset.mem_cons_of_mem (Multiset.mem_add.2 (.inl hb)))
    · exact heq b (Multiset.mem_cons_of_mem (Multiset.mem_add.2 (.inr hb)))

/-- The cell of the root. -/
theorem Rep.root {cells : ℕ → Option (Cell L)} {parent : Option ℕ} {t : LinkedTree L} {a : ℕ} (h : Rep cells parent t)
    (ha : t.link = some a) : ∃ c, cells a = some c := by
  cases t with
  | nil => cases ha
  | node b x l r =>
    obtain rfl := Option.some.inj ha
    exact ⟨_, h.1⟩

/-- The root gets another parent. -/
theorem Rep.reparent {cells cells' : ℕ → Option (Cell L)} {parent parent' : Option ℕ} {t : LinkedTree L} (h : Rep cells parent t)
    (hnodup : t.addrs.Nodup)
    (hroot : ∀ a, t.link = some a → cells' a = (cells a).map fun c => { c with parent := parent' })
    (hother : ∀ a ∈ t.addrs, t.link ≠ some a → cells' a = cells a) : Rep cells' parent' t := by
  cases t with
  | nil => trivial
  | node a x l r =>
    obtain ⟨hcell, hl, hr⟩ := h
    have ha : a ∉ l.addrs + r.addrs := (Multiset.nodup_cons.1 hnodup).1
    have hsame : ∀ b ∈ l.addrs + r.addrs, cells' b = cells b := fun b hb =>
      hother b (Multiset.mem_cons_of_mem hb) fun heq => ha (Option.some.inj heq ▸ hb)
    refine ⟨?_, hl.congr fun b hb => hsame b (Multiset.mem_add.2 (.inl hb)),
      hr.congr fun b hb => hsame b (Multiset.mem_add.2 (.inr hb))⟩
    rw [hroot a rfl, hcell]
    rfl

end LinkedTree

/-- An edge of a path: its upper end, the side on which it goes down, and the tree on the other side. -/
structure Frame (L : Type) where
  addr : ℕ
  label : L
  isLeft : Bool
  other : LinkedTree L

namespace Frame

variable {L : Type}

/-- The tree at the upper end. -/
def fill (f : Frame L) (t : LinkedTree L) : LinkedTree L :=
  match f.isLeft with
  | true => .node f.addr f.label t f.other
  | false => .node f.addr f.label f.other t

theorem fill_link (f : Frame L) (t : LinkedTree L) : (f.fill t).link = some f.addr := by
  obtain ⟨a, x, side, other⟩ := f
  cases side with
  | true => rfl
  | false => rfl

theorem fill_addrs (f : Frame L) (t : LinkedTree L) : (f.fill t).addrs = f.addr ::ₘ (f.other.addrs + t.addrs) := by
  obtain ⟨a, x, side, other⟩ := f
  cases side with
  | true => rw [fill, LinkedTree.addrs, add_comm]
  | false => rfl

/-- The tree after a rotation at the lower end, where `a` is. -/
def rotate (f : Frame L) (a : ℕ) (lower upper : L) (l r : LinkedTree L) : LinkedTree L :=
  match f.isLeft with
  | true => .node a lower l (.node f.addr upper r f.other)
  | false => .node a lower (.node f.addr upper f.other l) r

/-- The tree that gets another parent by the rotation. -/
def inner (f : Frame L) (l r : LinkedTree L) : LinkedTree L :=
  match f.isLeft with
  | true => r
  | false => l

/-- The cell of `a` after the rotation. -/
def lowerCell (f : Frame L) (lower : L) (parent : Option ℕ) (l r : LinkedTree L) : Cell L :=
  match f.isLeft with
  | true => ⟨lower, parent, l.link, some f.addr⟩
  | false => ⟨lower, parent, some f.addr, r.link⟩

theorem rotate_link (f : Frame L) (a : ℕ) (lower upper : L) (l r : LinkedTree L) :
    (f.rotate a lower upper l r).link = some a := by
  obtain ⟨b, x, side, other⟩ := f
  cases side with
  | true => rfl
  | false => rfl

theorem rotate_addrs (f : Frame L) (a : ℕ) (x lower upper : L) (l r : LinkedTree L) :
    (f.rotate a lower upper l r).addrs = (f.fill (.node a x l r)).addrs := by
  obtain ⟨b, y, side, other⟩ := f
  cases side with
  | true =>
    simp only [rotate, fill, LinkedTree.addrs, Multiset.add_cons, Multiset.cons_add]
    rw [Multiset.cons_swap, add_assoc]
  | false =>
    simp only [rotate, fill, LinkedTree.addrs, Multiset.add_cons, Multiset.cons_add]
    rw [Multiset.cons_swap, add_assoc]

/-- The place of the link at the lower end. -/
def place (f : Frame L) : LinkPlace :=
  match f.isLeft with
  | true => .left f.addr
  | false => .right f.addr

/-- The cell at the upper end. -/
def cell (f : Frame L) (parent link : Option ℕ) : Cell L :=
  match f.isLeft with
  | true => ⟨f.label, parent, link, f.other.link⟩
  | false => ⟨f.label, parent, f.other.link, link⟩

end Frame

/-- A way up, from a place to the root. -/
abbrev Path (L : Type) := List (Frame L)

namespace Path

variable {L : Type}

/-- The parent of what is at the place. -/
def parent : Path L → Option ℕ
  | [] => none
  | f :: _ => some f.addr

/-- The place. -/
def place : Path L → LinkPlace
  | [] => .root
  | f :: _ => f.place

/-- The addresses on the path and in the trees beside it. -/
def addrs : Path L → Multiset ℕ
  | [] => 0
  | f :: path => f.addr ::ₘ (f.other.addrs + addrs path)

/-- The whole tree. -/
def plug : Path L → LinkedTree L → LinkedTree L
  | [], t => t
  | f :: path, t => plug path (f.fill t)

/-- The cells on the path and beside it, and the link to the root. -/
def Rep (cells : ℕ → Option (Cell L)) (root : Option ℕ) : Path L → Option ℕ → Prop
  | [], link => root = link
  | f :: path, link =>
    cells f.addr = some (f.cell (parent path) link) ∧ f.other.Rep cells (some f.addr) ∧ Rep cells root path (some f.addr)

theorem plug_append (path path' : Path L) (t : LinkedTree L) : plug (path ++ path') t = plug path' (plug path t) := by
  induction path generalizing t with
  | nil => rfl
  | cons f path ih => exact ih _

theorem Rep.congr {cells cells' : ℕ → Option (Cell L)} {root link : Option ℕ} {path : Path L} (h : Rep cells root path link)
    (heq : ∀ a ∈ addrs path, cells' a = cells a) : Rep cells' root path link := by
  induction path generalizing link with
  | nil => exact h
  | cons f path ih =>
    obtain ⟨hcell, hother, hpath⟩ := h
    refine ⟨(heq _ (Multiset.mem_cons_self _ _)).trans hcell, hother.congr fun a ha => ?_, ih hpath fun a ha => ?_⟩
    · exact heq a (Multiset.mem_cons_of_mem (Multiset.mem_add.2 (.inl ha)))
    · exact heq a (Multiset.mem_cons_of_mem (Multiset.mem_add.2 (.inr ha)))

/-- **A new link** at the place. -/
theorem Rep.wp_setLink {s : LinkedHeap L} {path : Path L} {link : Option ℕ} {E : LinkedHeap L → Prop}
    (h : Rep s.cells s.root path link) (link' : Option ℕ) (hnodup : (addrs path).Nodup) :
    Prog.wp (LinkedHeap.setLink link' (place path)) (fun _ s' => Rep s'.cells s'.root path link' ∧ s'.next = s.next ∧
      ∀ b, parent path ≠ some b → s'.cells b = s.cells b) E s := by
  cases path with
  | nil => exact ⟨rfl, rfl, fun _ _ => rfl⟩
  | cons f path =>
    obtain ⟨hcell, hother, hpath⟩ := h
    have hf := (Multiset.nodup_cons.1 hnodup).1
    have hsame : ∀ c : Cell L, ∀ b, b ≠ f.addr → (s.set f.addr c).cells b = s.cells b := fun c b hb =>
      LinkedHeap.set_cells_of_ne hb
    have hwrite : ∀ c : Cell L, c = f.cell (parent path) link' → Rep (s.set f.addr c).cells (s.set f.addr c).root (f :: path) link' ∧
        (s.set f.addr c).next = s.next ∧ ∀ b, some f.addr ≠ some b → (s.set f.addr c).cells b = s.cells b := by
      intro c hc
      refine ⟨⟨hc ▸ LinkedHeap.set_cells_self, hother.congr fun b hb => hsame c b ?_, hpath.congr fun b hb => hsame c b ?_⟩, rfl,
        fun b hb => hsame c b fun heq => hb (heq ▸ rfl)⟩
      · exact fun heq => hf (heq ▸ Multiset.mem_add.2 (.inl hb))
      · exact fun heq => hf (heq ▸ Multiset.mem_add.2 (.inr hb))
    obtain ⟨a, x, side, other⟩ := f
    cases side with
    | true => exact Prog.wp.of_result (LinkedHeap.modifyCell_eq hcell) (hwrite _ rfl)
    | false => exact Prog.wp.of_result (LinkedHeap.modifyCell_eq hcell) (hwrite _ rfl)

end Path

/-- The cells of `s` are the tree that `path` and `t` make up, and outside of it those of `H`. -/
structure Shows {L : Type} (H : ℕ → Option (Cell L)) (s : LinkedHeap L) (path : Path L) (t : LinkedTree L) : Prop where
  tree : t.Rep s.cells (Path.parent path)
  rest : Path.Rep s.cells s.root path t.link
  nodup : (Path.addrs path + t.addrs).Nodup
  lt_next : ∀ a ∈ Path.addrs path + t.addrs, a < s.next
  frame : ∀ a, a ∉ Path.addrs path + t.addrs → s.cells a = H a
  own : ∀ a ∈ Path.addrs path + t.addrs, H a = none
  fresh : ∀ a, s.next ≤ a → H a = none

namespace Shows

open LinkedTree

variable {L : Type} {H : ℕ → Option (Cell L)} {s : LinkedHeap L} {f : Frame L} {path : Path L} {t l r : LinkedTree L} {a : ℕ} {x : L}

/-- **The place is moved by an edge.** -/
theorem up_iff : Shows H s (f :: path) t ↔ Shows H s path (f.fill t) := by
  have haddrs : Path.addrs (f :: path) + t.addrs = Path.addrs path + (f.fill t).addrs := by
    rw [Path.addrs, Frame.fill_addrs, Multiset.cons_add, Multiset.add_cons, add_assoc, add_left_comm]
  have hcells : (t.Rep s.cells (some f.addr) ∧ Path.Rep s.cells s.root (f :: path) t.link) ↔
      ((f.fill t).Rep s.cells (Path.parent path) ∧ Path.Rep s.cells s.root path (f.fill t).link) := by
    rw [Frame.fill_link]
    obtain ⟨a, x, side, other⟩ := f
    cases side with
    | true => exact ⟨fun h => ⟨⟨h.2.1, h.1, h.2.2.1⟩, h.2.2.2⟩, fun h => ⟨h.1.2.1, h.1.1, h.1.2.2, h.2⟩⟩
    | false => exact ⟨fun h => ⟨⟨h.2.1, h.2.2.1, h.1⟩, h.2.2.2⟩, fun h => ⟨h.1.2.2, h.1.1, h.1.2.1, h.2⟩⟩
  constructor
  · intro h
    obtain ⟨htree, hrest⟩ := hcells.1 ⟨h.tree, h.rest⟩
    exact ⟨htree, hrest, haddrs ▸ h.nodup, haddrs ▸ h.lt_next, haddrs ▸ h.frame, haddrs ▸ h.own, h.fresh⟩
  · intro h
    obtain ⟨htree, hrest⟩ := hcells.2 ⟨h.tree, h.rest⟩
    exact ⟨htree, hrest, haddrs ▸ h.nodup, haddrs ▸ h.lt_next, haddrs ▸ h.frame, haddrs ▸ h.own, h.fresh⟩

/-- **The place on the other side of an edge.** -/
theorem beside (h : Shows H s (f :: path) t) : Shows H s (⟨f.addr, f.label, !f.isLeft, t⟩ :: path) f.other := by
  have hup := up_iff.1 h
  obtain ⟨b, y, side, other⟩ := f
  cases side with
  | true => exact up_iff.2 hup
  | false => exact up_iff.2 hup

/-- The cell at the place. -/
theorem cell (h : Shows H s path (.node a x l r)) : s.cells a = some ⟨x, Path.parent path, l.link, r.link⟩ := h.tree.1

/-- The addresses above, at and below the place are different. -/
theorem apart (h : Shows H s path (.node a x l r)) : a ∉ Path.addrs path ∧ a ∉ l.addrs + r.addrs ∧
    (∀ b ∈ l.addrs + r.addrs, b ∉ Path.addrs path) ∧ (l.addrs + r.addrs).Nodup := by
  have hnodup := h.nodup
  rw [LinkedTree.addrs, Multiset.add_cons, Multiset.nodup_cons, Multiset.mem_add, not_or, Multiset.nodup_add] at hnodup
  exact ⟨hnodup.1.1, hnodup.1.2, fun b hb hpath => Multiset.disjoint_left.1 hnodup.2.2.2 hpath hb, hnodup.2.2.1⟩

/-- The addresses at the upper end of an edge, beside it, above and below it are different. -/
theorem apart_edge (h : Shows H s (f :: path) t) : (f.addr ∉ f.other.addrs ∧ f.addr ∉ Path.addrs path ∧ f.addr ∉ t.addrs) ∧
    (∀ b ∈ f.other.addrs, b ∉ Path.addrs path ∧ b ∉ t.addrs) ∧ (∀ b ∈ Path.addrs path, b ∉ t.addrs) := by
  have hnodup := h.nodup
  rw [Path.addrs, Multiset.cons_add, Multiset.nodup_cons, Multiset.nodup_add, Multiset.nodup_add] at hnodup
  obtain ⟨hf, ⟨-, -, hothers⟩, -, hbelow⟩ := hnodup
  simp only [Multiset.mem_add, not_or] at hf
  have hbelow' : ∀ b ∈ f.other.addrs + Path.addrs path, b ∉ t.addrs := fun b hb => Multiset.disjoint_left.1 hbelow hb
  refine ⟨⟨hf.1.1, hf.1.2, hf.2⟩, fun b hb => ⟨Multiset.disjoint_left.1 hothers hb, ?_⟩, fun b hb => ?_⟩
  · exact hbelow' b (Multiset.mem_add.2 (.inl hb))
  · exact hbelow' b (Multiset.mem_add.2 (.inr hb))

/-- There are no more nodes than were ever made. -/
theorem card_le (h : Shows H s path t) : path.length + t.size ≤ s.next := by
  have hlength : path.length ≤ (Path.addrs path).card := by
    clear h
    induction path with
    | nil => exact le_rfl
    | cons f path ih =>
      rw [Path.addrs, Multiset.card_cons, Multiset.card_add, List.length_cons]
      omega
  have hcard : (Path.addrs path + t.addrs).card ≤ s.next := by
    rw [← Multiset.toFinset_card_of_nodup h.nodup]
    refine (Finset.card_le_card fun b hb => ?_).trans_eq (Finset.card_range s.next)
    exact Finset.mem_range.2 (h.lt_next b (Multiset.mem_toFinset.1 hb))
  rw [Multiset.card_add, card_addrs] at hcard
  omega

/-- **A new label.** -/
theorem relabel (h : Shows H s path (.node a x l r)) (y : L) :
    Shows H (s.set a ⟨y, Path.parent path, l.link, r.link⟩) path (.node a y l r) := by
  obtain ⟨hpath, hkids, -, -⟩ := h.apart
  have hother : ∀ b, b ≠ a → (s.set a ⟨y, Path.parent path, l.link, r.link⟩).cells b = s.cells b := fun b hb =>
    LinkedHeap.set_cells_of_ne hb
  refine ⟨⟨LinkedHeap.set_cells_self, h.tree.2.1.congr fun b hb => hother b ?_, h.tree.2.2.congr fun b hb => hother b ?_⟩,
    h.rest.congr fun b hb => hother b ?_, h.nodup, h.lt_next, fun b hb => (hother b ?_).trans (h.frame b hb), h.own, h.fresh⟩
  · exact fun heq => hkids (heq ▸ Multiset.mem_add.2 (.inl hb))
  · exact fun heq => hkids (heq ▸ Multiset.mem_add.2 (.inr hb))
  · exact fun heq => hpath (heq ▸ hb)
  · exact fun heq => hb (heq ▸ Multiset.mem_add.2 (.inr (Multiset.mem_cons_self _ _)))

/-- What the writes of a rotation come to, before the link from above is changed. -/
structure Turned (s s' : LinkedHeap L) (f : Frame L) (path : Path L) (a : ℕ) (lower upper : L) (l r : LinkedTree L) : Prop where
  lower : s'.cells a = some (f.lowerCell lower (Path.parent path) l r)
  upper : s'.cells f.addr = some (Frame.cell { f with label := upper } (some a) (f.inner l r).link)
  inner : ∀ c, (f.inner l r).link = some c → s'.cells c = (s.cells c).map fun c => { c with parent := some f.addr }
  others : ∀ b, b ≠ a → b ≠ f.addr → (f.inner l r).link ≠ some b → s'.cells b = s.cells b
  root : s'.root = s.root
  next : s'.next = s.next

theorem inner_mem {b : ℕ} (hb : (f.inner l r).link = some b) : b ∈ l.addrs + r.addrs := by
  unfold Frame.inner at hb
  cases hside : f.isLeft with
  | true =>
    rw [hside] at hb
    exact Multiset.mem_add.2 (.inr (mem_addrs_of_link hb))
  | false =>
    rw [hside] at hb
    exact Multiset.mem_add.2 (.inl (mem_addrs_of_link hb))

/-- Above nothing has changed yet. -/
theorem Turned.rest {s' : LinkedHeap L} {lower upper : L} (hr : Turned s s' f path a lower upper l r)
    (h : Shows H s (f :: path) (.node a x l r)) : Path.Rep s'.cells s'.root path (some f.addr) := by
  obtain ⟨hpath, -, hkidsPath, -⟩ := h.apart
  obtain ⟨⟨-, hfp, -⟩, -, -⟩ := h.apart_edge
  rw [Path.addrs, Multiset.mem_cons, Multiset.mem_add, not_or, not_or] at hpath
  rw [hr.root]
  refine h.rest.2.2.congr fun b hb => hr.others b (fun heq => hpath.2.2 (heq ▸ hb)) (fun heq => hfp (heq ▸ hb)) fun hlink => ?_
  exact hkidsPath b (inner_mem hlink) (Multiset.mem_cons_of_mem (Multiset.mem_add.2 (.inr hb)))

theorem mem_addrs_of_parent {b : ℕ} (h : Path.parent path = some b) : b ∈ Path.addrs path := by
  cases path with
  | nil => cases h
  | cons f path =>
    obtain rfl := Option.some.inj h
    exact Multiset.mem_cons_self _ _

/-- **A rotation.** -/
theorem rotated {s₁ s' : LinkedHeap L} {lower upper : L} (h : Shows H s (f :: path) (.node a x l r))
    (hr : Turned s s₁ f path a lower upper l r) (hrest : Path.Rep s'.cells s'.root path (some a))
    (habove : ∀ b, Path.parent path ≠ some b → s'.cells b = s₁.cells b) (hnext : s'.next = s₁.next) :
    Shows H s' path (f.rotate a lower upper l r) := by
  have hup := up_iff.1 h
  have haddrs := f.rotate_addrs a x lower upper l r
  obtain ⟨hpath, hkids, hkidsPath, hkidsNodup⟩ := h.apart
  obtain ⟨⟨hfo, hfp, hft⟩, hother, -⟩ := h.apart_edge
  rw [Path.addrs, Multiset.mem_cons, Multiset.mem_add, not_or, not_or] at hpath
  have hpath' : ∀ b ∈ l.addrs + r.addrs, b ∉ Path.addrs path := fun b hb habove =>
    hkidsPath b hb (Multiset.mem_cons_of_mem (Multiset.mem_add.2 (.inr habove)))
  have hfar : ∀ b, b ∉ Path.addrs path → s'.cells b = s₁.cells b := fun b hb =>
    habove b fun hparent => hb (mem_addrs_of_parent hparent)
  have hothers : ∀ b, b ≠ a → b ≠ f.addr → (f.inner l r).link ≠ some b → b ∉ Path.addrs path → s'.cells b = s.cells b :=
    fun b hba hbf hlink hb => (hfar b hb).trans (hr.others b hba hbf hlink)
  -- what is neither written nor above has not changed
  have hsame : ∀ b, b ∈ l.addrs + r.addrs → (f.inner l r).link ≠ some b → s'.cells b = s.cells b := fun b hb hlink =>
    hothers b (fun heq => hkids (heq ▸ hb)) (fun heq => hft (heq ▸ Multiset.mem_cons_of_mem hb)) hlink (hpath' b hb)
  have hbeside : ∀ b ∈ f.other.addrs, s'.cells b = s.cells b := by
    intro b hb
    refine hothers b (fun heq => hpath.2.1 (heq ▸ hb)) (fun heq => hfo (heq ▸ hb)) (fun hlink => ?_) (hother b hb).1
    exact (hother b hb).2 (Multiset.mem_cons_of_mem (inner_mem hlink))
  obtain ⟨-, hl, hr'⟩ := h.tree
  refine ⟨?_, f.rotate_link a lower upper l r ▸ hrest, haddrs ▸ hup.nodup, ?_, fun b hb => ?_, haddrs ▸ hup.own, ?_⟩
  · have hlower := (hfar a hpath.2.2).trans hr.lower
    have hupper := (hfar f.addr hfp).trans hr.upper
    have hmoved : ∀ c, (f.inner l r).link = some c → s'.cells c = (s.cells c).map fun c => { c with parent := some f.addr } :=
      fun c hc => (hfar c (hpath' c (inner_mem hc))).trans (hr.inner c hc)
    have hotherRep := h.rest.2.1.congr hbeside
    unfold Frame.rotate
    unfold Frame.lowerCell at hlower
    unfold Frame.cell at hupper
    unfold Frame.inner at hupper hmoved hsame
    rw [Multiset.nodup_add] at hkidsNodup
    cases hside : f.isLeft with
    | true =>
      simp only [hside] at hlower hupper hmoved hsame
      refine ⟨hlower, hl.congr fun b hb => hsame b (Multiset.mem_add.2 (.inl hb)) fun hlink => ?_, hupper,
        hr'.reparent hkidsNodup.2.1 hmoved fun b hb hne => hsame b (Multiset.mem_add.2 (.inr hb)) hne, hotherRep⟩
      exact Multiset.disjoint_left.1 hkidsNodup.2.2 hb (mem_addrs_of_link hlink)
    | false =>
      simp only [hside] at hlower hupper hmoved hsame
      refine ⟨hlower, ⟨hupper, hotherRep, hl.reparent hkidsNodup.1 hmoved fun b hb hne =>
        hsame b (Multiset.mem_add.2 (.inl hb)) hne⟩, hr'.congr fun b hb => hsame b (Multiset.mem_add.2 (.inr hb)) fun hlink => ?_⟩
      exact Multiset.disjoint_left.1 hkidsNodup.2.2 (mem_addrs_of_link hlink) hb
  · rw [haddrs, hnext, hr.next]
    exact hup.lt_next
  · have hb' : b ∉ Path.addrs path + (f.fill (.node a x l r)).addrs := haddrs ▸ hb
    simp only [Frame.fill_addrs, LinkedTree.addrs, Multiset.mem_add, Multiset.mem_cons, not_or] at hb'
    refine (hothers b hb'.2.2.2.1 hb'.2.1 (fun hlink => ?_) hb'.1).trans (hup.frame b (haddrs ▸ hb))
    obtain hmem | hmem := Multiset.mem_add.1 (inner_mem hlink)
    · exact hb'.2.2.2.2.1 hmem
    · exact hb'.2.2.2.2.2 hmem
  · rw [hnext, hr.next]
    exact hup.fresh

/-- **A leaf** at an empty place. -/
theorem attached {s' : LinkedHeap L} (h : Shows H s path .nil) (hcell : s'.cells s.next = some ⟨x, Path.parent path, none, none⟩)
    (hrest : Path.Rep s'.cells s'.root path (some s.next))
    (hothers : ∀ b, b ≠ s.next → b ∉ Path.addrs path → s'.cells b = s.cells b) (hnext : s'.next = s.next + 1) :
    Shows H s' path (.node s.next x .nil .nil) := by
  have haddrs : (LinkedTree.node s.next x .nil .nil).addrs = {s.next} := rfl
  have hlt : ∀ b ∈ Path.addrs path, b < s.next := fun b hb => h.lt_next b (Multiset.mem_add.2 (.inl hb))
  refine ⟨⟨hcell, trivial, trivial⟩, hrest, ?_, fun b hb => ?_, fun b hb => ?_, fun b hb => ?_, fun b hb => h.fresh b ?_⟩
  · rw [haddrs, Multiset.nodup_add]
    refine ⟨(Multiset.nodup_add.1 h.nodup).1, Multiset.nodup_singleton _, ?_⟩
    rw [Multiset.disjoint_singleton]
    exact fun hmem => (hlt _ hmem).ne rfl
  · rw [hnext]
    rw [haddrs] at hb
    obtain hb | hb := Multiset.mem_add.1 hb
    · have := hlt b hb
      omega
    · rw [Multiset.mem_singleton.1 hb]
      omega
  · rw [haddrs, Multiset.mem_add, Multiset.mem_singleton, not_or] at hb
    exact (hothers b hb.2 hb.1).trans (h.frame b fun hmem => (Multiset.mem_add.1 hmem).elim hb.1 fun hnil => by cases hnil)
  · rw [haddrs] at hb
    obtain hb | hb := Multiset.mem_add.1 hb
    · exact h.own b (Multiset.mem_add.2 (.inl hb))
    · exact h.fresh b (Multiset.mem_singleton.1 hb).ge
  · omega

/-- A new leaf is linked to. -/
theorem attach (h : Shows H s path .nil) (x : L) : ∃ s₂ s₃, LinkedHeap.alloc ⟨x, Path.parent path, none, none⟩ s = (some s.next, s₂) ∧
    (∀ b, b ≠ s.next → s₂.cells b = s.cells b) ∧
    LinkedHeap.setLink (some s.next) (Path.place path) s₂ = (some ⟨⟩, s₃) ∧ Shows H s₃ path (.node s.next x .nil .nil) := by
  have hlt : ∀ b ∈ Path.addrs path, b ≠ s.next := fun b hb => (h.lt_next b (Multiset.mem_add.2 (.inl hb))).ne
  let s₂ : LinkedHeap L := { s.set s.next ⟨x, Path.parent path, none, none⟩ with next := s.next + 1 }
  have hsame : ∀ b, b ≠ s.next → s₂.cells b = s.cells b := fun b hb => LinkedHeap.set_cells_of_ne hb
  have hrest : Path.Rep s₂.cells s₂.root path none := h.rest.congr fun b hb => hsame b (hlt b hb)
  obtain ⟨⟨⟩, s₃, hs₃, hrest₃, hnext₃, habove⟩ := (hrest.wp_setLink (some s.next) (E := fun _ => False)
    (Multiset.nodup_add.1 h.nodup).1).exists_result
  have hleaf : s₃.cells s.next = s₂.cells s.next := habove _ fun hparent => hlt _ (mem_addrs_of_parent hparent) rfl
  refine ⟨s₂, s₃, rfl, hsame, hs₃, h.attached (hleaf.trans LinkedHeap.set_cells_self) hrest₃ (fun b hb hpath => ?_) hnext₃⟩
  exact (habove b fun hparent => hpath (mem_addrs_of_parent hparent)).trans (hsame b hb)

/-- **A node with at most one child** is replaced by it. -/
theorem spliced {s' : LinkedHeap L} {c : LinkedTree L} (h : Shows H s path (.node a x l r))
    (hc : l = .nil ∧ c = r ∨ r = .nil ∧ c = l) (hrest : Path.Rep s'.cells s'.root path c.link)
    (hroot : ∀ b, c.link = some b → s'.cells b = (s.cells b).map fun c => { c with parent := Path.parent path })
    (hothers : ∀ b, c.link ≠ some b → b ∉ Path.addrs path → s'.cells b = s.cells b) (hnext : s'.next = s.next) :
    Shows (Function.update H a (s.cells a)) s' path c := by
  obtain ⟨hpath, hkids, hkidsPath, hkidsNodup⟩ := h.apart
  have hrep : c.Rep s.cells (some a) := by
    rcases hc with ⟨-, rfl⟩ | ⟨-, rfl⟩
    · exact h.tree.2.2
    · exact h.tree.2.1
  have hsum : l.addrs + r.addrs = c.addrs := by
    rcases hc with ⟨rfl, rfl⟩ | ⟨rfl, rfl⟩
    · exact zero_add _
    · exact add_zero _
  have haddrs : Path.addrs path + (LinkedTree.node a x l r).addrs = a ::ₘ (Path.addrs path + c.addrs) := by
    rw [LinkedTree.addrs, hsum, Multiset.add_cons]
  rw [hsum] at hkids hkidsPath hkidsNodup
  have hnodup := h.nodup
  rw [haddrs] at hnodup
  refine ⟨hrep.reparent hkidsNodup hroot fun b hb hne => hothers b hne (hkidsPath b hb), hrest,
    (Multiset.nodup_cons.1 hnodup).2, fun b hb => ?_, fun b hb => ?_, fun b hb => ?_, fun b hb => ?_⟩
  · rw [hnext]
    exact h.lt_next b (haddrs ▸ Multiset.mem_cons_of_mem hb)
  · rw [hothers b (fun hlink => hb (Multiset.mem_add.2 (.inr (mem_addrs_of_link hlink))))
      fun hmem => hb (Multiset.mem_add.2 (.inl hmem))]
    by_cases hba : b = a
    · subst hba
      rw [Function.update_self]
    · rw [Function.update_of_ne hba]
      refine h.frame b ?_
      rw [haddrs, Multiset.mem_cons, not_or]
      exact ⟨hba, hb⟩
  · rw [Function.update_of_ne fun heq : b = a => (Multiset.nodup_cons.1 hnodup).1 (heq ▸ hb)]
    exact h.own b (haddrs ▸ Multiset.mem_cons_of_mem hb)
  · rw [hnext] at hb
    have ha : a < s.next := h.lt_next a (haddrs ▸ Multiset.mem_cons_self _ _)
    rw [Function.update_of_ne (by omega)]
    exact h.fresh b hb

/-- The link at the place. -/
theorem follow_eq (h : Shows H s path t) : LinkedHeap.follow (Path.place path) s = (some t.link, s) := by
  cases path with
  | nil =>
    show (some s.root, s) = _
    rw [show s.root = t.link from h.rest]
  | cons f path =>
    have hcell := h.rest.1
    obtain ⟨b, y, side, other⟩ := f
    cases side with
    | true => exact Prog.bind_of_result (LinkedHeap.deref_eq hcell)
    | false => exact Prog.bind_of_result (LinkedHeap.deref_eq hcell)

/-- The place is moved by many edges. -/
theorem append_iff {inner : Path L} : Shows H s (inner ++ path) t ↔ Shows H s path (Path.plug inner t) := by
  induction inner generalizing t with
  | nil => exact Iff.rfl
  | cons f inner ih => exact up_iff.trans ih

theorem ne_of_mem {b : ℕ} {c : Cell L} (h : Shows (Function.update H a (some c)) s path t) (hb : b ∈ Path.addrs path + t.addrs) :
    b ≠ a := by
  intro heq
  have hown := h.own b hb
  rw [heq, Function.update_self] at hown
  cases hown

/-- The cell outside of the tree is as it was. -/
theorem kept {c : Cell L} (h : Shows (Function.update H a (some c)) s path t) : s.cells a = some c := by
  rw [h.frame a fun ha => h.ne_of_mem ha rfl, Function.update_self]

/-- A cell outside of the tree is freed. -/
theorem freed {c : Cell L} (h : Shows (Function.update H a (some c)) s path t) (ha : H a = none) :
    Shows H { s with cells := Function.update s.cells a none } path t := by
  have hout : ∀ b ∈ Path.addrs path + t.addrs, b ≠ a := fun b hb => h.ne_of_mem hb
  have hsame : ∀ b ∈ Path.addrs path + t.addrs, Function.update s.cells a none b = s.cells b := fun b hb =>
    Function.update_of_ne (hout b hb) ..
  refine ⟨h.tree.congr fun b hb => hsame b (Multiset.mem_add.2 (.inr hb)), h.rest.congr fun b hb =>
    hsame b (Multiset.mem_add.2 (.inl hb)), h.nodup, h.lt_next, fun b hb => ?_, fun b hb => ?_, fun b hb => ?_⟩
  · by_cases hba : b = a
    · subst hba
      exact (Function.update_self ..).trans ha.symm
    · have hframe := h.frame b hb
      rw [Function.update_of_ne hba] at hframe
      exact (Function.update_of_ne hba ..).trans hframe
  · have hown := h.own b hb
    rwa [Function.update_of_ne (hout b hb)] at hown
  · by_cases hba : b = a
    · exact hba ▸ ha
    · have hfresh := h.fresh b hb
      rwa [Function.update_of_ne hba] at hfresh

end Shows

end SymBisect.Lib
