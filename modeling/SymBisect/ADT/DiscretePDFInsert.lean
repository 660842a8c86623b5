import SymBisect.ADT.DiscretePDFBalance

/-!
# Inserting into the weighted tree

* `Located`: the place is where the item belongs, the colours are right everywhere and the sums off the path.
* `Ready`: where the next `split` may rotate, there is no red uncle.
* `descend_spec`: the loop of `insert` keeps both and ends at an empty place.
* `insert_spec`: the new item is in the tree.
-/

namespace SymBisect.DiscretePDF

open Lib LinkedHeap LinkedTree

variable {T W : Type}

/-! ### Colours, sums and items -/

/-- No red node has a red child. -/
def NoRedRed : Tree T W → Prop
  | .nil => True
  | .node _ x l r => (x.m_mark = true → isRed l = false ∧ isRed r = false) ∧ NoRedRed l ∧ NoRedRed r

/-- The same of a path, around a tree whose root is red or black; the root of all is black. -/
def Coloured : Path (Node T W) → Bool → Prop
  | [], red => red = false
  | f :: path, red =>
    (f.label.m_mark = true → red = false ∧ isRed f.other = false) ∧ NoRedRed f.other ∧ Coloured path f.label.m_mark

/-- The items with their weights, in order. -/
def items : Tree T W → List (T × W)
  | .nil => []
  | .node _ x l r => items l ++ (x.key, x.weight) :: items r

/-- The items to the left of a path. -/
def before : Path (Node T W) → List (T × W)
  | [] => []
  | f :: path =>
    match f.isLeft with
    | true => before path
    | false => before path ++ (items f.other ++ [(f.label.key, f.label.weight)])

/-- The items to the right of a path. -/
def after : Path (Node T W) → List (T × W)
  | [] => []
  | f :: path =>
    match f.isLeft with
    | true => (f.label.key, f.label.weight) :: items f.other ++ after path
    | false => after path

/-- The items of the whole tree. -/
theorem items_fill (f : Frame (Node T W)) (path : Path (Node T W)) (t : Tree T W) :
    before path ++ items (f.fill t) ++ after path = before (f :: path) ++ items t ++ after (f :: path) := by
  obtain ⟨b, y, side, other⟩ := f
  cases side with
  | true => simp [Frame.fill, items, before, after]
  | false => simp [Frame.fill, items, before, after]

theorem isRed_paint (t : Tree T W) : isRed (paint false t) = false := by
  cases t with
  | nil => rfl
  | node a x l r => rfl

theorem NoRedRed.paint {t : Tree T W} (h : NoRedRed t) : NoRedRed (paint false t) := by
  cases t with
  | nil => trivial
  | node a x l r => exact ⟨fun hred => absurd hred Bool.false_ne_true, h.2⟩

theorem items_paint (mark : Bool) (t : Tree T W) : items (paint mark t) = items t := by
  cases t with
  | nil => rfl
  | node a x l r => rfl

theorem size_paint (mark : Bool) (t : Tree T W) : (paint mark t).size = t.size := by
  cases t with
  | nil => rfl
  | node a x l r => rfl

/-- The colours of the whole tree. -/
theorem coloured_fill {f : Frame (Node T W)} {path : Path (Node T W)} {t : Tree T W} :
    Coloured (f :: path) (isRed t) ∧ NoRedRed t ↔ Coloured path (isRed (f.fill t)) ∧ NoRedRed (f.fill t) := by
  obtain ⟨b, y, side, other⟩ := f
  cases side with
  | true => exact ⟨fun h => ⟨h.1.2.2, h.1.1, h.2, h.1.2.1⟩, fun h => ⟨⟨h.2.1, h.2.2.2, h.1⟩, h.2.2.1⟩⟩
  | false =>
    exact ⟨fun h => ⟨h.1.2.2, fun hy => (h.1.1 hy).symm, h.1.2.1, h.2⟩,
      fun h => ⟨⟨fun hy => (h.2.1 hy).symm, h.2.2.1, h.1⟩, h.2.2.2⟩⟩

section

variable [AddCommMonoid W]

/-- Every node keeps the sum of the weights below it. -/
def SumsRight : Tree T W → Prop
  | .nil => True
  | .node _ x l r => x.sumWeights = x.weight + sumOf l + sumOf r ∧ SumsRight l ∧ SumsRight r

theorem SumsRight.paint {mark : Bool} {t : Tree T W} (h : SumsRight t) : SumsRight (paint mark t) := by
  cases t with
  | nil => trivial
  | node a x l r => exact h

/-- The sums below the root. -/
def KidsRight : Tree T W → Prop
  | .nil => True
  | .node _ _ l r => SumsRight l ∧ SumsRight r

theorem SumsRight.kids {t : Tree T W} (h : SumsRight t) : KidsRight t := by
  cases t with
  | nil => trivial
  | node a x l r => exact h.2

/-- The sum that is kept is the sum of the weights. -/
theorem SumsRight.sumOf_eq {t : Tree T W} (h : SumsRight t) : sumOf t = ((items t).map Prod.snd).sum := by
  induction t with
  | nil => rfl
  | node a x l r ihl ihr =>
    rw [items, List.map_append, List.sum_append, List.map_cons, List.sum_cons, ← ihl h.2.1, ← ihr h.2.2]
    show x.sumWeights = _
    rw [h.1, add_left_comm, add_assoc]

/-! ### The place of an item -/

variable [LinearOrder T] {H : ℕ → Option (Cell (Node T W))} {s : DiscretePDF T W} {f g : Frame (Node T W)}
  {path : Path (Node T W)} {t l r : Tree T W} {a : ℕ} {x : Node T W} {item : T} {all : List (T × W)}

/-- The item belongs to the place; the colours are right, and the sums beside the path and below the place. -/
structure Located (item : T) (all : List (T × W)) (H : ℕ → Option (Cell (Node T W))) (s : DiscretePDF T W)
    (path : Path (Node T W)) (t : Tree T W) : Prop where
  shows : Shows H s path t
  coloured : Coloured path (isRed t)
  noRedRed : NoRedRed t
  beside : ∀ f ∈ path, SumsRight f.other
  kids : KidsRight t
  items : before path ++ items t ++ after path = all
  before : ∀ e ∈ before path, e.1 < item
  after : ∀ e ∈ after path, item < e.1

/-- The edge that leads on to the item. -/
def downEdge (item : T) (a : ℕ) (x : Node T W) (l r : Tree T W) : Frame (Node T W) :=
  if item < x.key then ⟨a, x, true, r⟩ else ⟨a, x, false, l⟩

/-- The child on that edge. -/
def toward (item : T) : Tree T W → Tree T W
  | .nil => .nil
  | .node _ x l r => if item < x.key then l else r

omit [AddCommMonoid W] in
theorem toward_node (item : T) (a : ℕ) (x : Node T W) (l r : Tree T W) :
    toward item (.node a x l r) = if item < x.key then l else r := rfl

omit [AddCommMonoid W] in
theorem downEdge_fill (item : T) (a : ℕ) (x : Node T W) (l r : Tree T W) :
    (downEdge item a x l r).fill (toward item (.node a x l r)) = .node a x l r := by
  unfold downEdge
  rw [toward]
  by_cases h : item < x.key
  · rw [if_pos h, if_pos h]
    rfl
  · rw [if_neg h, if_neg h]
    rfl

/-- **One step towards the item.** -/
theorem Located.child (h : Located item all H s path (.node a x l r)) (hsorted : all.Pairwise fun e e' => e.1 < e'.1)
    (hne : x.key ≠ item) : Located item all H s (downEdge item a x l r :: path) (toward item (.node a x l r)) := by
  have hfill := downEdge_fill item a x l r
  have hshows := h.shows
  have hcolours := And.intro h.coloured h.noRedRed
  have hitems := (items_fill (downEdge item a x l r) path (toward item (.node a x l r))).symm
  rw [hfill, h.items] at hitems
  rw [← hfill] at hshows hcolours
  obtain ⟨hcol, hred⟩ := coloured_fill.2 hcolours
  rw [← hitems] at hsorted
  unfold downEdge toward at *
  by_cases hlt : item < x.key
  · simp only [if_pos hlt] at *
    refine ⟨Shows.up_iff.2 hshows, hcol, hred, List.forall_mem_cons.2 ⟨h.kids.2, h.beside⟩, h.kids.1.kids, hitems, h.before, ?_⟩
    intro e he
    obtain rfl | he := List.mem_cons.1 he
    · exact hlt
    · exact hlt.trans ((List.pairwise_cons.1 (List.pairwise_append.1 hsorted).2.1).1 e he)
  · simp only [if_neg hlt] at *
    refine ⟨Shows.up_iff.2 hshows, hcol, hred, List.forall_mem_cons.2 ⟨h.kids.1, h.beside⟩, h.kids.2.kids, hitems, ?_, h.after⟩
    have hgt : x.key < item := lt_of_le_of_ne (not_lt.1 hlt) hne
    have hleft := (List.pairwise_append.1 (List.pairwise_append.1 (List.pairwise_append.1 hsorted).1).1).2.1
    intro e he
    obtain he | he := List.mem_append.1 he
    · exact h.before e he
    · obtain he | he := List.mem_append.1 he
      · exact ((List.pairwise_append.1 hleft).2.2 e he _ (List.mem_singleton_self _)).trans hgt
      · rw [List.mem_singleton.1 he]
        exact hgt

/-- The tree at a place is black, and so are its children. -/
def Settled : Tree T W → Prop
  | .nil => False
  | .node _ x l r => x.m_mark = false ∧ isRed l = false ∧ isRed r = false

/-- **No red uncle** where a rotation may come: below a red node with a red sibling, and two edges below a red node with a red
sibling, the tree is settled. -/
structure Ready (item : T) (path : Path (Node T W)) (t : Tree T W) : Prop where
  here : ∀ f g path', path = f :: g :: path' → f.label.m_mark = true → isRed g.other = true → Settled t
  next : ∀ f path', path = f :: path' → isRed t = true → isRed f.other = true → Settled (toward item t)

/-- How many turns of the loop may follow. -/
def rank (item : T) (path : Path (Node T W)) (t : Tree T W) : ℕ :=
  match path with
  | [] => 2 * t.size + 1
  | f :: _ => if isRed t = true ∧ isRed f.other = true then 2 * (toward item t).size + 2 else 2 * t.size + 1

omit [AddCommMonoid W] in
theorem toward_size (item : T) (t : Tree T W) : (toward item t).size ≤ t.size - 1 := by
  cases t with
  | nil => exact le_rfl
  | node a x l r =>
    rw [toward]
    split
    · simp only [LinkedTree.size]
      omega
    · simp only [LinkedTree.size]
      omega

/-- What a turn of the loop achieves. -/
def Turn (item : T) (all : List (T × W)) (H : ℕ → Option (Cell (Node T W))) (fuel n bound : ℕ) (s : DiscretePDF T W) : Prop :=
  ∃ s' path t, (∀ p, descend item (fuel + 1) p (some n) s = descend item fuel (Path.parent path) t.link s') ∧
    Located item all H s' path t ∧ Ready item path t ∧ rank item path t < bound

theorem Located.mem (h : Located item all H s path (.node a x l r)) : (x.key, x.weight) ∈ all := by
  rw [← h.items]
  simp [DiscretePDF.items]

/-- The end of a turn: the loop goes on at a child. -/
theorem Located.turn_end {u : DiscretePDF T W} {fuel n bound : ℕ} (h : Located item all H s path (.node a x l r))
    (hsorted : all.Pairwise fun e e' => e.1 < e'.1) (hnew : ∀ e ∈ all, e.1 ≠ item)
    (hrun : ∀ p, descend item (fuel + 1) p (some n) u = (deref a >>= fun c => if c.label.key = item then Prog.abort
      else descend item fuel (some a) (if item < c.label.key then c.left else c.right)) s)
    (hready : Ready item (downEdge item a x l r :: path) (toward item (.node a x l r)))
    (hrank : rank item (downEdge item a x l r :: path) (toward item (.node a x l r)) < bound) :
    Turn item all H fuel n bound u := by
  have hne := hnew _ h.mem
  refine ⟨s, downEdge item a x l r :: path, toward item (.node a x l r), fun p => ?_, h.child hsorted hne, hready, hrank⟩
  rw [hrun p, Prog.bind_of_result (deref_eq h.shows.cell), if_neg hne]
  unfold downEdge
  rw [toward]
  by_cases hlt : item < x.key
  · simp only [if_pos hlt]
    rfl
  · simp only [if_neg hlt]
    rfl

omit [AddCommMonoid W] in
theorem rank_of_black (hblack : isRed t = false ∨ isRed f.other = false) : rank item (f :: path) t = 2 * t.size + 1 := by
  rw [rank, if_neg]
  rintro ⟨ht, hf⟩
  rcases hblack with hblack | hblack
  · rw [hblack] at ht
    cases ht
  · rw [hblack] at hf
    cases hf

/-- **A turn without a split.** -/
theorem Located.turn_quiet (h : Located item all H s path (.node a x l r)) (hready : Ready item path (.node a x l r))
    (hsorted : all.Pairwise fun e e' => e.1 < e'.1) (hnew : ∀ e ∈ all, e.1 ≠ item) {fuel : ℕ}
    (hkids : isRed l = false ∨ isRed r = false) : Turn item all H fuel a (rank item path (.node a x l r)) s := by
  have hwhen : ¬(!(!isRed l) && !(!isRed r)) = true := by
    rcases hkids with hl | hr
    · rw [hl]
      simp
    · rw [hr]
      simp
  have hother : isRed (toward item (.node a x l r)) = false ∨ isRed (downEdge item a x l r).other = false := by
    unfold downEdge
    rw [toward]
    by_cases hlt : item < x.key
    · simp only [if_pos hlt]
      exact hkids
    · simp only [if_neg hlt]
      exact hkids.symm
  have hlabel : (downEdge item a x l r).label = x := by
    unfold downEdge
    split
    · rfl
    · rfl
  refine h.turn_end hsorted hnew (fun p => ?_) ⟨?_, ?_⟩ ?_
  · rw [descend, Prog.bind_of_result (leftIsBlack_eq h.shows), Prog.bind_of_result (rightIsBlack_eq h.shows), Prog.when, if_neg hwhen]
    rfl
  · intro f g path' heq hf hg
    obtain ⟨rfl, rfl⟩ := List.cons.inj heq
    rw [hlabel] at hf
    exact hready.next g path' rfl hf hg
  · intro f path' heq ht hf
    obtain ⟨rfl, rfl⟩ := List.cons.inj heq
    rcases hother with hblack | hblack
    · rw [hblack] at ht
      cases ht
    · rw [hblack] at hf
      cases hf
  · rw [rank_of_black hother]
    have hsize := toward_size item (.node a x l r)
    have hpos : 0 < (LinkedTree.node a x l r).size := Nat.succ_pos _
    cases path with
    | nil =>
      rw [rank]
      omega
    | cons f path =>
      rw [rank]
      split
      · omega
      · omega

/-! ### A turn with a split -/

omit [AddCommMonoid W] [LinearOrder T] in
/-- A red child is settled when it is black. -/
theorem settled_paint (hred : isRed t = true) (h : NoRedRed t) : Settled (paint false t) := by
  cases t with
  | nil => cases hred
  | node b y l r => exact ⟨rfl, h.1 hred⟩

/-- Where the tree is after a split without rotations. -/
theorem Located.of_same_place {s' : DiscretePDF T W} {y : Node T W} (h : Located item all H s path (.node a x l r))
    (hshows : Shows H s' path (.node a y (paint false l) (paint false r))) (hkey : y.key = x.key) (hweight : y.weight = x.weight)
    (hcol : Coloured path y.m_mark) : Located item all H s' path (.node a y (paint false l) (paint false r)) := by
  refine ⟨hshows, hcol, ⟨fun _ => ⟨isRed_paint l, isRed_paint r⟩, h.noRedRed.2.1.paint, h.noRedRed.2.2.paint⟩, h.beside,
    ⟨h.kids.1.paint, h.kids.2.paint⟩, ?_, h.before, h.after⟩
  have hitems := h.items
  rw [DiscretePDF.items] at hitems ⊢
  rw [items_paint, items_paint, hkey, hweight]
  exact hitems

omit [AddCommMonoid W] in
/-- The next child after a split without rotations over the node. -/
theorem settled_toward (item : T) (y : Node T W) (hl : Settled (paint false l)) (hr : Settled (paint false r)) :
    Settled (toward item (.node a y (paint false l) (paint false r))) := by
  rw [toward]
  split
  · exact hl
  · exact hr

omit [AddCommMonoid W] [LinearOrder T] in
theorem Settled.not_red (h : Settled t) : isRed t = false := by
  cases t with
  | nil => rfl
  | node b y l r => exact h.1

omit [AddCommMonoid W] in
theorem Ready.of_settled (h : Settled t) : Ready item path t := by
  refine ⟨fun _ _ _ _ _ _ => h, fun _ _ _ ht _ => ?_⟩
  rw [h.not_red] at ht
  cases ht

/-- What a split does to the rest of the turn. -/
theorem descend_split {s' : DiscretePDF T W} {fuel : ℕ} (h : Shows H s path (.node a x l r)) (hl : isRed l = true)
    (hr : isRed r = true) (hsplit : split a s = (some ⟨⟩, s')) (p : Option ℕ) :
    descend item (fuel + 1) p (some a) s = (deref a >>= fun c => if c.label.key = item then Prog.abort
      else descend item fuel (some a) (if item < c.label.key then c.left else c.right)) s' := by
  rw [descend, Prog.bind_of_result (leftIsBlack_eq h), Prog.bind_of_result (rightIsBlack_eq h), Prog.when, if_pos (by rw [hl, hr]; rfl),
    Prog.bind_of_result hsplit]

omit [AddCommMonoid W] in
/-- The rank of a settled child. -/
theorem rank_settled {y : Node T W} {f : Frame (Node T W)} (h : Settled (toward item (.node a y (paint false l) (paint false r)))) :
    rank item (f :: path) (toward item (.node a y (paint false l) (paint false r))) <
      2 * (LinkedTree.node a x l r).size + 1 := by
  have hsize := toward_size item (.node a y (paint false l) (paint false r))
  rw [rank_of_black (.inl h.not_red)]
  simp only [LinkedTree.size, size_paint] at hsize ⊢
  omega

omit [LinearOrder T] in
/-- Below a red node with a black sibling. -/
theorem before_uncle (path : Path (Node T W)) (hside : f.isLeft = g.isLeft) (y : Node T W) (hkey : y.key = f.label.key) (hweight : y.weight = f.label.weight) :
    before (⟨f.addr, y, f.isLeft, uncle f g⟩ :: path) = before (f :: g :: path) ∧
      after (⟨f.addr, y, f.isLeft, uncle f g⟩ :: path) = after (f :: g :: path) := by
  obtain ⟨p, yf, side, other⟩ := f
  obtain ⟨q, yg, gside, gother⟩ := g
  obtain rfl : side = gside := hside
  cases side with
  | true => simp [before, after, uncle, items, hkey, hweight, Node.withSum, Node.red]
  | false => simp [before, after, uncle, items, hkey, hweight, Node.withSum, Node.red]

omit [LinearOrder T] in
theorem items_turned (hside : f.isLeft ≠ g.isLeft) (y : Node T W) (hkey : y.key = x.key) (hweight : y.weight = x.weight) :
    before path ++ items (.node a y (turnedLeft f g (paint false l)) (turnedRight f g (paint false r))) ++ after path =
      before (f :: g :: path) ++ items (.node a x l r) ++ after (f :: g :: path) := by
  obtain ⟨p, yf, side, other⟩ := f
  obtain ⟨q, yg, gside, gother⟩ := g
  cases side with
  | true =>
    obtain rfl : gside = false := by simpa using hside
    simp [before, after, turnedLeft, turnedRight, items, hkey, hweight, items_paint, Node.withSum, Node.red]
  | false =>
    obtain rfl : gside = true := by simpa using hside
    simp [before, after, turnedLeft, turnedRight, items, hkey, hweight, items_paint, Node.withSum, Node.red]

/-- The node is still where the item belongs, with black children. -/
def Stays (item : T) (all : List (T × W)) (H : ℕ → Option (Cell (Node T W))) (s : DiscretePDF T W) (a : ℕ) (x : Node T W)
    (l r : Tree T W) : Prop :=
  ∃ path y, y.key = x.key ∧ Located item all H s path (.node a y (paint false l) (paint false r))

/-- The node was rotated over both nodes above, between which the item belongs. -/
def TurnsOver (item : T) (all : List (T × W)) (H : ℕ → Option (Cell (Node T W))) (s : DiscretePDF T W) (a : ℕ) (x : Node T W)
    (l r : Tree T W) : Prop :=
  ∃ f g path y, y.key = x.key ∧ y.m_mark = false ∧ f.label.m_mark = true ∧ f.isLeft ≠ g.isLeft ∧
    (f.isLeft = true → item < f.label.key ∧ g.label.key < item) ∧ (f.isLeft = false → f.label.key < item ∧ item < g.label.key) ∧
    Located item all H s path (.node a y (turnedLeft f g (paint false l)) (turnedRight f g (paint false r)))

omit [AddCommMonoid W] in
/-- The node above is on the other side of the item. -/
theorem edge_lt (hbefore : ∀ e ∈ before (f :: path), e.1 < item) (hafter : ∀ e ∈ after (f :: path), item < e.1) :
    (f.isLeft = true → item < f.label.key) ∧ (f.isLeft = false → f.label.key < item) := by
  obtain ⟨p, y, side, other⟩ := f
  cases side with
  | true => exact ⟨fun _ => hafter _ List.mem_cons_self, fun hf => absurd hf Bool.true_eq_false_eq_False⟩
  | false =>
    refine ⟨fun hf => absurd hf Bool.false_ne_true, fun _ => hbefore (y.key, y.weight) ?_⟩
    simp [before]

omit [LinearOrder T] in
theorem uncle_spec (hf : isRed f.other = false ∧ NoRedRed f.other ∧ SumsRight f.other)
    (hg : isRed g.other = false ∧ NoRedRed g.other ∧ SumsRight g.other) : NoRedRed (uncle f g) ∧ SumsRight (uncle f g) := by
  unfold uncle
  cases f.isLeft with
  | true => exact ⟨⟨fun _ => ⟨hf.1, hg.1⟩, hf.2.1, hg.2.1⟩, rfl, hf.2.2, hg.2.2⟩
  | false => exact ⟨⟨fun _ => ⟨hg.1, hf.1⟩, hg.2.1, hf.2.1⟩, rfl, hg.2.2, hf.2.2⟩

omit [LinearOrder T] in
theorem turned_spec (hf : isRed f.other = false ∧ NoRedRed f.other ∧ SumsRight f.other)
    (hg : isRed g.other = false ∧ NoRedRed g.other ∧ SumsRight g.other) (hl : isRed l = false ∧ NoRedRed l ∧ SumsRight l)
    (hr : isRed r = false ∧ NoRedRed r ∧ SumsRight r) : (NoRedRed (turnedLeft f g l) ∧ SumsRight (turnedLeft f g l)) ∧
      NoRedRed (turnedRight f g r) ∧ SumsRight (turnedRight f g r) := by
  unfold turnedLeft turnedRight
  cases f.isLeft with
  | true =>
    exact ⟨⟨⟨fun _ => ⟨hg.1, hl.1⟩, hg.2.1, hl.2.1⟩, rfl, hg.2.2, hl.2.2⟩,
      ⟨fun _ => ⟨hr.1, hf.1⟩, hr.2.1, hf.2.1⟩, rfl, hr.2.2, hf.2.2⟩
  | false =>
    exact ⟨⟨⟨fun _ => ⟨hf.1, hl.1⟩, hf.2.1, hl.2.1⟩, rfl, hf.2.2, hl.2.2⟩,
      ⟨fun _ => ⟨hr.1, hg.1⟩, hr.2.1, hg.2.1⟩, rfl, hr.2.2, hg.2.2⟩

omit [AddCommMonoid W] [LinearOrder T] in
/-- The items beside the path above two edges are among those beside all of it. -/
theorem mem_before_cons {e : T × W} (h : e ∈ before path) : e ∈ before (f :: path) := by
  obtain ⟨p, y, side, other⟩ := f
  cases side with
  | true => exact h
  | false => exact List.mem_append_left _ h

omit [AddCommMonoid W] [LinearOrder T] in
theorem mem_after_cons {e : T × W} (h : e ∈ after path) : e ∈ after (f :: path) := by
  obtain ⟨p, y, side, other⟩ := f
  cases side with
  | true => exact List.mem_append_right _ h
  | false => exact h

/-- **A split** keeps the item's place, the colours and the sums. -/
theorem Located.split (h : Located item all H s path (.node a x l r))
    (huncle : ∀ f g path', path = f :: g :: path' → f.label.m_mark = true → isRed g.other = false) :
    ∃ s', split a s = (some ⟨⟩, s') ∧ (Stays item all H s' a x l r ∨ TurnsOver item all H s' a x l r) := by
  cases path with
  | nil =>
    obtain ⟨s', hs', h'⟩ := split_root h.shows
    exact ⟨s', hs', .inl ⟨[], x, rfl, h.of_same_place h' rfl rfl h.coloured⟩⟩
  | cons f path =>
    obtain ⟨hf, hother, hcol⟩ := h.coloured
    cases hred : f.label.m_mark with
    | false =>
      obtain ⟨s', hs', h'⟩ := split_black h.shows hred
      refine ⟨s', hs', .inl ⟨f :: path, x.red, rfl, h.of_same_place h' rfl rfl ⟨fun hf => ?_, hother, hcol⟩⟩⟩
      rw [hred] at hf
      cases hf
    | true =>
      rw [hred] at hcol
      cases path with
      | nil => cases hcol
      | cons g path =>
        obtain ⟨hg, hgother, hgcol⟩ := hcol
        have hgblack : g.label.m_mark = false := by
          by_contra hne
          exact absurd (hg (by simpa using hne)).1 Bool.true_eq_false_eq_False
        have hgRed := huncle f g path rfl hred
        rw [hgblack] at hgcol
        have hfSpec := And.intro (hf hred).2 (And.intro hother (h.beside f List.mem_cons_self))
        have hgSpec := And.intro hgRed (And.intro hgother (h.beside g (List.mem_cons_of_mem _ List.mem_cons_self)))
        have hbeside : ∀ e ∈ path, SumsRight e.other := fun e he =>
          h.beside e (List.mem_cons_of_mem _ (List.mem_cons_of_mem _ he))
        have hl : isRed (paint false l) = false ∧ NoRedRed (paint false l) ∧ SumsRight (paint false l) :=
          ⟨isRed_paint l, h.noRedRed.2.1.paint, h.kids.1.paint⟩
        have hr : isRed (paint false r) = false ∧ NoRedRed (paint false r) ∧ SumsRight (paint false r) :=
          ⟨isRed_paint r, h.noRedRed.2.2.paint, h.kids.2.paint⟩
        by_cases hside : f.isLeft = g.isLeft
        · obtain ⟨s', sum, hs', h'⟩ := split_same h.shows hred hside
          obtain ⟨hbefore, hafter⟩ := before_uncle path hside { f.label.black with sumWeights := sum } rfl rfl
          refine ⟨s', hs', .inl ⟨_, x.red, rfl, h', ?_, ?_, ?_, ⟨hl.2.2, hr.2.2⟩, ?_, ?_, ?_⟩⟩
          · exact ⟨fun hf => absurd hf Bool.false_ne_true, (uncle_spec hfSpec hgSpec).1, hgcol⟩
          · exact ⟨fun _ => ⟨hl.1, hr.1⟩, hl.2.1, hr.2.1⟩
          · exact List.forall_mem_cons.2 ⟨(uncle_spec hfSpec hgSpec).2, hbeside⟩
          · have hitems := h.items
            rw [DiscretePDF.items] at hitems ⊢
            rw [hbefore, hafter, items_paint, items_paint]
            exact hitems
          · rw [hbefore]
            exact h.before
          · rw [hafter]
            exact h.after
        · obtain ⟨s', sum, hs', h'⟩ := split_turn h.shows hred hside
          have hturned := turned_spec hfSpec hgSpec hl hr
          have hflt := edge_lt h.before h.after
          have hbeforeG : ∀ e ∈ DiscretePDF.before (g :: path), e.1 < item := fun e he => h.before e (mem_before_cons he)
          have hafterG : ∀ e ∈ DiscretePDF.after (g :: path), item < e.1 := fun e he => h.after e (mem_after_cons he)
          have hglt := edge_lt hbeforeG hafterG
          refine ⟨s', hs', .inr ⟨f, g, path, { x.black with sumWeights := sum }, rfl, rfl, hred, hside,
            fun hf => ⟨hflt.1 hf, hglt.2 ?_⟩, fun hf => ⟨hflt.2 hf, hglt.1 ?_⟩, h', hgcol, ?_, hbeside,
            ⟨hturned.1.2, hturned.2.2⟩, ?_, ?_, ?_⟩⟩
          · simpa [hf] using Ne.symm hside
          · simpa [hf] using Ne.symm hside
          · exact ⟨fun hf => absurd hf Bool.false_ne_true, hturned.1.1, hturned.2.1⟩
          · rw [items_turned hside _ rfl rfl]
            exact h.items
          · exact fun e he => h.before e (mem_before_cons (mem_before_cons he))
          · exact fun e he => h.after e (mem_after_cons (mem_after_cons he))

omit [AddCommMonoid W] in
theorem rank_of_not_red (h : isRed t = false) : rank item path t = 2 * t.size + 1 := by
  cases path with
  | nil => rfl
  | cons f path => exact rank_of_black (.inl h)

/-- The way down from the children of a node that was rotated over both nodes above. -/
theorem toward_turned (hfLeft : f.isLeft = true → item < f.label.key ∧ g.label.key < item)
    (hfRight : f.isLeft = false → f.label.key < item ∧ item < g.label.key) :
    toward item (turnedLeft f g l) = l ∧ toward item (turnedRight f g r) = r := by
  unfold turnedLeft turnedRight
  cases hside : f.isLeft with
  | true =>
    obtain ⟨hf, hg⟩ := hfLeft hside
    exact ⟨if_neg (not_lt.2 hg.le), if_pos hf⟩
  | false =>
    obtain ⟨hf, hg⟩ := hfRight hside
    exact ⟨if_neg (not_lt.2 hf.le), if_pos hg⟩

omit [LinearOrder T] in
theorem turned_red (hf : f.label.m_mark = true) : isRed (turnedLeft f g l) = true ∧ isRed (turnedRight f g r) = true := by
  unfold turnedLeft turnedRight
  cases f.isLeft with
  | true => exact ⟨rfl, hf⟩
  | false => exact ⟨hf, rfl⟩

/-- **A turn with a split.** -/
theorem Located.turn_split (h : Located item all H s path (.node a x l r)) (hready : Ready item path (.node a x l r))
    (hsorted : all.Pairwise fun e e' => e.1 < e'.1) (hnew : ∀ e ∈ all, e.1 ≠ item) {fuel : ℕ}
    (hl : isRed l = true) (hr : isRed r = true) : Turn item all H fuel a (rank item path (.node a x l r)) s := by
  have hblack : x.m_mark = false := by
    by_contra hne
    have hkids := h.noRedRed.1 (by simpa using hne)
    rw [hl] at hkids
    exact absurd hkids.1 Bool.true_eq_false_eq_False
  have hl' := settled_paint hl h.noRedRed.2.1
  have hr' := settled_paint hr h.noRedRed.2.2
  have hrank : rank item path (.node a x l r) = 2 * (LinkedTree.node a x l r).size + 1 :=
    rank_of_not_red (t := .node a x l r) hblack
  rw [hrank]
  obtain ⟨s', hs', hstays | hturns⟩ := h.split fun f g path' hpath hf => by
    by_contra hne
    have hsettled := hready.here f g path' hpath hf (by simpa using hne)
    rw [hsettled.2.1] at hl
    cases hl
  · obtain ⟨path', y, hkey, h'⟩ := hstays
    have hc := settled_toward (a := a) item y hl' hr'
    exact h'.turn_end hsorted hnew (descend_split h.shows hl hr hs') (.of_settled hc) (rank_settled hc)
  · obtain ⟨f, g, path', y, hkey, hy, hf, hside, hfLeft, hfRight, h'⟩ := hturns
    obtain ⟨hleft, hright⟩ := toward_turned (l := paint false l) (r := paint false r) hfLeft hfRight
    obtain ⟨hredLeft, hredRight⟩ := turned_red (g := g) (l := paint false l) (r := paint false r) hf
    -- the next child is red, and so is its sibling; after it comes a settled one
    have hnext : ∃ f' c, downEdge item a y (turnedLeft f g (paint false l)) (turnedRight f g (paint false r)) = f' ∧
        toward item (.node a y (turnedLeft f g (paint false l)) (turnedRight f g (paint false r))) = c ∧ f'.label = y ∧
        isRed c = true ∧ isRed f'.other = true ∧ Settled (toward item c) ∧
        (toward item c).size < (LinkedTree.node a x l r).size := by
      unfold downEdge
      simp only [toward_node]
      by_cases hlt : item < y.key
      · simp only [if_pos hlt]
        refine ⟨_, _, rfl, rfl, rfl, hredLeft, hredRight, ?_, ?_⟩
        · rw [hleft]
          exact hl'
        · rw [hleft, size_paint, LinkedTree.size]
          omega
      · simp only [if_neg hlt]
        refine ⟨_, _, rfl, rfl, rfl, hredRight, hredLeft, ?_, ?_⟩
        · rw [hright]
          exact hr'
        · rw [hright, size_paint, LinkedTree.size]
          omega
    obtain ⟨f', c, hdown, htoward, hlabel, hc, hother, hsettled, hsize⟩ := hnext
    refine h'.turn_end hsorted hnew (descend_split h.shows hl hr hs') ?_ ?_
    · rw [hdown, htoward]
      refine ⟨fun f₁ g₁ path₁ heq hf₁ _ => ?_, fun _ _ _ _ _ => hsettled⟩
      obtain ⟨rfl, -⟩ := List.cons.inj heq
      rw [hlabel, hy] at hf₁
      cases hf₁
    · rw [hdown, htoward, rank, if_pos ⟨hc, hother⟩]
      omega

/-- **The loop of `insert`** ends at the empty place of the item. -/
theorem descend_spec (hsorted : all.Pairwise fun e e' => e.1 < e'.1) (hnew : ∀ e ∈ all, e.1 ≠ item) :
    ∀ (fuel : ℕ) (s : DiscretePDF T W) (path : Path (Node T W)) (t : Tree T W), Located item all H s path t →
      Ready item path t → rank item path t ≤ fuel → ∃ s' path', descend item fuel (Path.parent path) t.link s =
        (some (Path.parent path'), s') ∧ Located item all H s' path' .nil ∧ Ready item path' .nil := by
  intro fuel
  induction fuel with
  | zero =>
    intro s path t h hready hrank
    exfalso
    cases path with
    | nil =>
      rw [rank] at hrank
      omega
    | cons f path =>
      rw [rank] at hrank
      split at hrank
      · omega
      · omega
  | succ fuel ih =>
    intro s path t h hready hrank
    cases t with
    | nil => exact ⟨s, path, rfl, h, hready⟩
    | node a x l r =>
      have hturn : Turn item all H fuel a (rank item path (.node a x l r)) s := by
        cases hl : isRed l with
        | false => exact h.turn_quiet hready hsorted hnew (.inl hl)
        | true =>
          cases hr : isRed r with
          | false => exact h.turn_quiet hready hsorted hnew (.inr hr)
          | true => exact h.turn_split hready hsorted hnew hl hr
      obtain ⟨s₁, path₁, t₁, hrun, h₁, hready₁, hrank₁⟩ := hturn
      obtain ⟨s', path', hend, h', hready'⟩ := ih s₁ path₁ t₁ h₁ hready₁ (by omega)
      exact ⟨s', path', (hrun _).trans hend, h', hready'⟩

/-! ### The new item -/

omit [LinearOrder T] in
/-- **The tree is right**: the cells are a search tree over the items with right parent links, its colours and sums are right. -/
def Right (H : ℕ → Option (Cell (Node T W))) (s : DiscretePDF T W) (all : List (T × W)) : Prop :=
  ∃ t, Shows H s [] t ∧ NoRedRed t ∧ isRed t = false ∧ SumsRight t ∧ items t = all

omit [LinearOrder T] in
/-- **`propagateSumsUp`** sets the sums of the node and of all above it. -/
theorem propagateLoop_spec (path : Path (Node T W)) : ∀ {fuel : ℕ} {s : DiscretePDF T W} {a : ℕ} {x : Node T W} {l r : Tree T W},
    Shows H s path (.node a x l r) → Coloured path x.m_mark → NoRedRed (.node a x l r) → (∀ f ∈ path, SumsRight f.other) →
    SumsRight l → SumsRight r → path.length + 2 ≤ fuel →
    ∃ s', propagateLoop fuel (some a) s = (some ⟨⟩, s') ∧ Right H s' (before path ++ items (.node a x l r) ++ after path) := by
  induction path with
  | nil =>
    intro fuel s a x l r h hcol hred hbeside hl hr hfuel
    obtain ⟨fuel, rfl⟩ := Nat.exists_eq_add_of_le hfuel
    obtain ⟨s', hs', h'⟩ := setSum_spec h
    refine ⟨s', ?_, _, h', hred, hcol, ⟨rfl, hl, hr⟩, ?_⟩
    · rw [show ([] : Path (Node T W)).length + 2 + fuel = fuel + 1 + 1 by simp; omega, propagateLoop, Prog.bind_of_result hs',
        Prog.bind_of_result (deref_eq h'.cell)]
      rfl
    · simp [before, after, items, Node.withSum]
  | cons f path ih =>
    intro fuel s a x l r h hcol hred hbeside hl hr hfuel
    obtain ⟨fuel, rfl⟩ : ∃ k, fuel = k + 1 := ⟨fuel - 1, by omega⟩
    obtain ⟨s₁, hs₁, h₁⟩ := setSum_spec h
    have hup := Shows.up_iff.1 h₁
    have hitems := items_fill f path (.node a (x.withSum (sumOf l) (sumOf r)) l r)
    have hcolours := coloured_fill (t := .node a (x.withSum (sumOf l) (sumOf r)) l r).1 ⟨hcol, hred⟩
    have hbesidePath : ∀ e ∈ path, SumsRight e.other := fun e he => hbeside e (List.mem_cons_of_mem _ he)
    have hother := hbeside f List.mem_cons_self
    have hself : SumsRight (.node a (x.withSum (sumOf l) (sumOf r)) l r) := ⟨rfl, hl, hr⟩
    have hrun : propagateLoop (fuel + 1) (some a) s = propagateLoop fuel (some f.addr) s₁ := by
      rw [propagateLoop, Prog.bind_of_result hs₁, Prog.bind_of_result (deref_eq h₁.cell)]
      rfl
    have hlen : path.length + 2 ≤ fuel := by
      rw [List.length_cons] at hfuel
      omega
    rw [hrun]
    have hgoal : ∃ s', propagateLoop fuel (some f.addr) s₁ = (some ⟨⟩, s') ∧
        Right H s' (before path ++ items (f.fill (.node a (x.withSum (sumOf l) (sumOf r)) l r)) ++ after path) := by
      clear hitems hrun
      obtain ⟨p, y, side, other⟩ := f
      cases side with
      | true => exact ih hup hcolours.1 hcolours.2 hbesidePath hself hother hlen
      | false => exact ih hup hcolours.1 hcolours.2 hbesidePath hother hself hlen
    rw [hitems] at hgoal
    exact hgoal

omit [LinearOrder T] in
theorem propagateSumsUp_spec (h : Shows H s path (.node a x l r)) (hcol : Coloured path x.m_mark) (hred : NoRedRed (.node a x l r))
    (hbeside : ∀ f ∈ path, SumsRight f.other) (hl : SumsRight l) (hr : SumsRight r) :
    ∃ s', propagateSumsUp (some a) s = (some ⟨⟩, s') ∧ Right H s' (before path ++ items (.node a x l r) ++ after path) := by
  have hcard := h.card_le
  rw [LinkedTree.size] at hcard
  refine propagateLoop_spec path h hcol hred hbeside hl hr ?_
  unfold turns
  omega

omit [AddCommMonoid W] in
theorem place_eq (hlt : (f.isLeft = true → item < f.label.key) ∧ (f.isLeft = false → f.label.key < item)) :
    (if item < f.label.key then LinkPlace.left f.addr else .right f.addr) = f.place := by
  obtain ⟨p, y, side, other⟩ := f
  cases side with
  | true => exact if_pos (hlt.1 rfl)
  | false => exact if_neg (not_lt.2 (hlt.2 rfl).le)

/-- The items with a new one among them. -/
def inserted (item : T) (weight : W) (all : List (T × W)) : List (T × W) :=
  all.filter (fun e => e.1 < item) ++ (item, weight) :: all.filter (fun e => item < e.1)

omit [AddCommMonoid W] in
theorem inserted_eq {l r : List (T × W)} {weight : W} (hl : ∀ e ∈ l, e.1 < item) (hr : ∀ e ∈ r, item < e.1) :
    inserted item weight (l ++ r) = l ++ (item, weight) :: r := by
  have hll : l.filter (fun e => e.1 < item) = l := List.filter_eq_self.2 fun e he => decide_eq_true (hl e he)
  have hlr : l.filter (fun e => item < e.1) = [] := List.filter_eq_nil_iff.2 fun e he => by
    simpa using (hl e he).le
  have hrl : r.filter (fun e => e.1 < item) = [] := List.filter_eq_nil_iff.2 fun e he => by
    simpa using (hr e he).le
  have hrr : r.filter (fun e => item < e.1) = r := List.filter_eq_self.2 fun e he => decide_eq_true (hr e he)
  rw [inserted, List.filter_append, List.filter_append, hll, hlr, hrl, hrr, List.append_nil, List.nil_append]

/-- The new leaf is linked and `split`. -/
theorem linkLeaf_spec (weight : W) (h : Located item all H s path .nil) (hready : Ready item path .nil) :
    ∃ s₂ s', alloc ⟨⟨false, item, weight, 0⟩, Path.parent path, none, none⟩ s = (some s.next, s₂) ∧
      linkLeaf item s.next (Path.parent path) s₂ = (some ⟨⟩, s') ∧
      ∃ path' y l r, Located item (inserted item weight all) H s' path' (.node s.next y l r) := by
  obtain ⟨s₂, s₃, hs₂, hsame, hs₃, h₃⟩ := h.shows.attach ⟨false, item, weight, 0⟩
  have hall : all = before path ++ after path := by
    rw [← h.items, DiscretePDF.items, List.append_nil]
  have hleaf : Located item (inserted item weight all) H s₃ path (.node s.next ⟨false, item, weight, 0⟩ .nil .nil) := by
    refine ⟨h₃, h.coloured, ⟨fun hf => absurd hf Bool.false_ne_true, trivial, trivial⟩, h.beside, ⟨trivial, trivial⟩, ?_, h.before,
      h.after⟩
    rw [hall, inserted_eq h.before h.after]
    simp [DiscretePDF.items]
  cases path with
  | nil => exact ⟨s₂, s₃, hs₂, hs₃, [], _, _, _, hleaf⟩
  | cons f path =>
    rw [Path.place] at hs₃
    have hcell := cell_above h.shows
    have hf : f.addr ≠ s.next := (h.shows.lt_next f.addr (Multiset.mem_add.2 (.inl (Multiset.mem_cons_self _ _)))).ne
    have hkey : (f.cell (Path.parent path) none).label.key = f.label.key := by
      obtain ⟨p, y, side, other⟩ := f
      cases side with
      | true => rfl
      | false => rfl
    obtain ⟨s', hs', hsplit⟩ := hleaf.split fun f' g path' heq hf' => by
      by_contra hne
      exact hready.here f' g path' heq hf' (by simpa using hne)
    refine ⟨s₂, s', hs₂, ?_, ?_⟩
    · show (deref f.addr >>= _) s₂ = _
      rw [Prog.bind_of_result (deref_eq ((hsame _ hf).trans hcell)), LinkedTree.link, hkey, place_eq (edge_lt h.before h.after),
        Prog.bind_of_result hs₃, hs']
    · rcases hsplit with ⟨path', y, -, h'⟩ | ⟨f', g, path', y, -, -, -, -, -, -, h'⟩
      · exact ⟨path', y, _, _, h'⟩
      · exact ⟨path', y, _, _, h'⟩

/-- **`insert`.** -/
theorem insert_spec (weight : W) (h : Right H s all) (hsorted : all.Pairwise fun e e' => e.1 < e'.1) (hnew : ∀ e ∈ all, e.1 ≠ item) :
    ∃ s', insert item weight s = (some ⟨⟩, s') ∧ Right H s' (inserted item weight all) := by
  obtain ⟨t, hshows, hred, hblack, hsums, hitems⟩ := h
  have hcard := hshows.card_le
  have hlocated : Located item all H s [] t := ⟨hshows, hblack, hred, fun f hf => absurd hf List.not_mem_nil, hsums.kids,
    by simpa [before, after] using hitems, fun e he => absurd he List.not_mem_nil, fun e he => absurd he List.not_mem_nil⟩
  have hready : Ready item [] t := ⟨fun _ _ _ heq => by simp at heq, fun _ _ heq => by simp at heq⟩
  obtain ⟨s₁, path, hs₁, h₁, hready₁⟩ := descend_spec hsorted hnew (turns s) s [] t hlocated hready (by
    rw [rank, turns]
    simp only [List.length_nil] at hcard
    omega)
  obtain ⟨s₂, s₃, hs₂, hs₃, path', y, l, r, h₃⟩ := linkLeaf_spec weight h₁ hready₁
  obtain ⟨s', hs', hright⟩ := propagateSumsUp_spec h₃.shows h₃.coloured h₃.noRedRed h₃.beside h₃.kids.1 h₃.kids.2
  rw [h₃.items] at hright
  refine ⟨s', ?_, hright⟩
  unfold insert
  show (descend item (turns s) none s.root >>= _) s = _
  have hroot : s.root = t.link := hshows.rest
  rw [Path.parent] at hs₁
  rw [hroot, Prog.bind_of_result hs₁, Prog.bind_of_result hs₂, Prog.bind_of_result hs₃, hs']

end

end SymBisect.DiscretePDF
