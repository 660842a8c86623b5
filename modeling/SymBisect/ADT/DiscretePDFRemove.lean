import SymBisect.ADT.DiscretePDFLengthen

/-!
# Removing from the weighted tree

* `Placed`: colours and items of the whole tree are right, and the sums away from the path.
* `lookup_spec`, `leftMax_spec`: the places that the loops end at.
* `unlink_spec`: a node with at most one child goes.
* `remove_spec`, `update_spec`: the operations.
-/

namespace SymBisect.DiscretePDF

open Lib LinkedHeap LinkedTree

variable {T W : Type} [AddCommMonoid W] {H : ℕ → Option (Cell (Node T W))} {s : DiscretePDF T W} {f : Frame (Node T W)}
  {path : Path (Node T W)} {t l r : Tree T W} {a : ℕ} {x : Node T W} {item : T} {all : List (T × W)}

/-- A place in a tree over the items, whose colours are right; so are the sums beside the path and below the place. -/
structure Placed (all : List (T × W)) (H : ℕ → Option (Cell (Node T W))) (s : DiscretePDF T W) (path : Path (Node T W))
    (t : Tree T W) : Prop where
  shows : Shows H s path t
  coloured : Coloured path (isRed t)
  noRedRed : NoRedRed t
  beside : ∀ f ∈ path, SumsRight f.other
  kids : KidsRight t
  items : before path ++ items t ++ after path = all

theorem Placed.child (h : Placed all H s path (f.fill t)) : Placed all H s (f :: path) t := by
  obtain ⟨hcol, hred⟩ := coloured_fill.2 ⟨h.coloured, h.noRedRed⟩
  have hsums : SumsRight f.other ∧ SumsRight t := by
    have hkids := h.kids
    obtain ⟨b, y, side, other⟩ := f
    cases side with
    | true => exact hkids.symm
    | false => exact hkids
  exact ⟨Shows.up_iff.2 h.shows, hcol, hred, List.forall_mem_cons.2 ⟨hsums.1, h.beside⟩, hsums.2.kids,
    (items_fill f path t).symm.trans h.items⟩

theorem Placed.inner {inner : Path (Node T W)} (h : Placed all H s path (Path.plug inner t)) : Placed all H s (inner ++ path) t := by
  induction inner generalizing t with
  | nil => exact h
  | cons f inner ih => exact (ih h).child

theorem Right.placed (h : Right H s all) : ∃ t, Placed all H s [] t := by
  obtain ⟨t, hshows, hred, hblack, hsums, hitems⟩ := h
  exact ⟨t, hshows, hblack, hred, fun f hf => absurd hf List.not_mem_nil, hsums.kids, by simpa [before, after] using hitems⟩

section

variable [LinearOrder T]

/-! ### `lookup` -/

/-- **The loop of `lookup`** ends at the item. -/
theorem lookupLoop_spec (t : Tree T W) : ∀ {fuel : ℕ} {path : Path (Node T W)}, Placed all H s path t →
    (items t).Pairwise (fun e e' => e.1 < e'.1) → item ∈ (items t).map Prod.fst → t.size < fuel →
    ∃ path' a x l r, lookupLoop item fuel (Path.place path) s = (some (Path.place path'), s) ∧
      Placed all H s path' (.node a x l r) ∧ x.key = item := by
  induction t with
  | nil =>
    intro fuel path h hsorted hmem hfuel
    cases hmem
  | node a x l r ihl ihr =>
    intro fuel path h hsorted hmem hfuel
    obtain ⟨fuel, rfl⟩ : ∃ k, fuel = k + 1 := ⟨fuel - 1, by omega⟩
    rw [LinkedTree.size] at hfuel
    rw [lookupLoop, Prog.bind_of_result h.shows.follow_eq]
    show ∃ path' a' x' l' r', (deref a >>= _) s = _ ∧ _
    rw [Prog.bind_of_result (deref_eq h.shows.cell)]
    rw [items, List.pairwise_append, List.pairwise_cons] at hsorted
    obtain ⟨hl, ⟨hgt, hr⟩, hlt⟩ := hsorted
    rw [items, List.map_append, List.mem_append, List.map_cons, List.mem_cons] at hmem
    by_cases heq : x.key = item
    · simp only [if_pos heq]
      exact ⟨path, a, x, l, r, rfl, h, heq⟩
    · simp only [if_neg heq]
      rcases hmem with hmem | hmem | hmem
      · obtain ⟨e, he, rfl⟩ := List.mem_map.1 hmem
        have hless : e.1 < x.key := hlt e he _ List.mem_cons_self
        rw [if_pos hless]
        exact ihl (Placed.child (f := ⟨a, x, true, r⟩) h) hl hmem (by omega)
      · exact absurd hmem.symm heq
      · obtain ⟨e, he, rfl⟩ := List.mem_map.1 hmem
        have hless : x.key < e.1 := hgt e he
        rw [if_neg (not_lt.2 hless.le)]
        exact ihr (Placed.child (f := ⟨a, x, false, l⟩) h) hr hmem (by omega)

theorem lookup_spec (h : Right H s all) (hsorted : all.Pairwise fun e e' => e.1 < e'.1) (hmem : item ∈ all.map Prod.fst) :
    ∃ path a x l r, lookup item s = (some (Path.place path), s) ∧ Placed all H s path (.node a x l r) ∧ x.key = item := by
  obtain ⟨t, h⟩ := h.placed
  have hitems : items t = all := by simpa [before, after] using h.items
  have hcard := h.shows.card_le
  refine lookupLoop_spec t h (hitems ▸ hsorted) (hitems ▸ hmem) ?_
  unfold turns
  omega

/-! ### `update` -/

/-- The items with another weight at one of them. -/
def updated (item : T) (weight : W) (all : List (T × W)) : List (T × W) :=
  all.map fun e => if e.1 = item then (e.1, weight) else e

omit [AddCommMonoid W] in
theorem updated_eq {l r : List (T × W)} {weight weight' : W} (hl : ∀ e ∈ l, e.1 < item) (hr : ∀ e ∈ r, item < e.1) :
    updated item weight (l ++ (item, weight') :: r) = l ++ (item, weight) :: r := by
  unfold updated
  rw [List.map_append, List.map_cons, if_pos rfl, List.map_congr_left (g := id), List.map_id,
    List.map_congr_left (f := fun e : T × W => if e.1 = item then (e.1, weight) else e) (g := id), List.map_id]
  · exact fun e he => if_neg (hr e he).ne'
  · exact fun e he => if_neg (hl e he).ne

/-- The items on both sides of a node. -/
theorem Placed.split (h : Placed all H s path (.node a x l r)) (hsorted : all.Pairwise fun e e' => e.1 < e'.1) :
    all = (before path ++ DiscretePDF.items l) ++ (x.key, x.weight) :: (DiscretePDF.items r ++ after path) ∧
      (∀ e ∈ before path ++ DiscretePDF.items l, e.1 < x.key) ∧ ∀ e ∈ DiscretePDF.items r ++ after path, x.key < e.1 := by
  have hall : all = (before path ++ DiscretePDF.items l) ++ (x.key, x.weight) :: (DiscretePDF.items r ++ after path) := by
    rw [← h.items, DiscretePDF.items]
    simp
  rw [hall, List.pairwise_append, List.pairwise_cons] at hsorted
  exact ⟨hall, fun e he => hsorted.2.2 e he _ List.mem_cons_self, fun e he => hsorted.2.1.1 e he⟩

/-- **`update`.** -/
theorem update_spec (weight : W) (h : Right H s all) (hsorted : all.Pairwise fun e e' => e.1 < e'.1)
    (hmem : item ∈ all.map Prod.fst) : ∃ s', update item weight s = (some ⟨⟩, s') ∧ Right H s' (updated item weight all) := by
  obtain ⟨path, a, x, l, r, hs, h, rfl⟩ := lookup_spec h hsorted hmem
  obtain ⟨hall, hl, hr⟩ := h.split hsorted
  have hshows := h.shows.relabel { x with weight := weight }
  obtain ⟨s', hs', hright⟩ := propagateSumsUp_spec hshows h.coloured h.noRedRed h.beside h.kids.1 h.kids.2
  refine ⟨s', ?_, ?_⟩
  · unfold update
    rw [Prog.bind_of_result hs, Prog.bind_of_result h.shows.follow_eq]
    show (modifyCell a _ >>= _) s = _
    rw [Prog.bind_of_result (modifyCell_eq h.shows.cell), hs']
  · rw [hall, updated_eq hl hr]
    rw [DiscretePDF.items] at hright
    simpa using hright

end

/-! ### The node that goes -/

omit [AddCommMonoid W] in
theorem items_plug (inner : Path (Node T W)) (t : Tree T W) : items (Path.plug inner t) = before inner ++ items t ++ after inner := by
  induction inner generalizing t with
  | nil => simp [Path.plug, before, after]
  | cons f inner ih => rw [Path.plug, ih, items_fill]

omit [AddCommMonoid W] in
theorem before_append (inner path : Path (Node T W)) : before (inner ++ path) = before path ++ before inner := by
  induction inner with
  | nil => simp [before]
  | cons f inner ih =>
    rw [List.cons_append, before, before]
    cases f.isLeft with
    | true => exact ih
    | false => simp [ih]

omit [AddCommMonoid W] in
theorem after_append (inner path : Path (Node T W)) : after (inner ++ path) = after inner ++ after path := by
  induction inner with
  | nil => rfl
  | cons f inner ih =>
    rw [List.cons_append, after, after]
    cases f.isLeft with
    | true => simp [ih]
    | false => exact ih

omit [AddCommMonoid W] in
/-- Nothing is right of a path that goes right. -/
theorem after_of_right {inner : Path (Node T W)} (h : ∀ f ∈ inner, f.isLeft = false) : after inner = [] := by
  induction inner with
  | nil => rfl
  | cons f inner ih =>
    rw [after, h f List.mem_cons_self]
    exact ih fun e he => h e (List.mem_cons_of_mem _ he)

omit [AddCommMonoid W] in
/-- **The loop of `remove`** ends at the last node of the tree. -/
theorem leftMax_spec (t : Tree T W) : ∀ {fuel : ℕ} {path : Path (Node T W)}, Shows H s path t → t.link ≠ none → t.size ≤ fuel →
    ∃ inner m z ml, leftMax fuel (Path.place path) s = (some (Path.place (inner ++ path)), s) ∧
      t = Path.plug inner (.node m z ml .nil) ∧ ∀ f ∈ inner, f.isLeft = false := by
  induction t with
  | nil =>
    intro fuel path h hne hfuel
    exact absurd rfl hne
  | node a x l r _ ihr =>
    intro fuel path h hne hfuel
    rw [LinkedTree.size] at hfuel
    obtain ⟨fuel, rfl⟩ : ∃ k, fuel = k + 1 := ⟨fuel - 1, by omega⟩
    rw [leftMax, Prog.bind_of_result h.follow_eq]
    show ∃ inner m z ml, (deref a >>= _) s = _ ∧ _
    rw [Prog.bind_of_result (deref_eq h.cell)]
    cases r with
    | nil => exact ⟨[], a, x, l, rfl, rfl, fun f hf => absurd hf List.not_mem_nil⟩
    | node b y rl rr =>
      have hsize : (LinkedTree.node b y rl rr).size ≤ fuel := by omega
      obtain ⟨inner, m, z, ml, hs, hplug, hright⟩ := ihr (downRight h) (fun hnone => by cases hnone) hsize
      refine ⟨inner ++ [⟨a, x, false, l⟩], m, z, ml, ?_, ?_, ?_⟩
      · rw [List.append_assoc]
        exact hs
      · rw [Path.plug_append, ← hplug]
        rfl
      · intro f hf
        obtain hf | hf := List.mem_append.1 hf
        · exact hright f hf
        · rw [List.mem_singleton.1 hf]

/-- **The node that goes** has at most one child, and the other items are beside it and below. -/
theorem moveMax_spec (h : Placed all H s path (.node a x l r)) : ∃ s' path' n z l' r' all',
    moveMax (Path.place path) a s = (some (Path.place path', n), s') ∧ Placed all' H s' path' (.node n z l' r') ∧
      (l' = .nil ∨ r' = .nil) ∧
      before path' ++ (items l' ++ items r') ++ after path' = before path ++ (items l ++ items r) ++ after path := by
  have hrun : moveMax (Path.place path) a s = moveMaxFrom (Path.place path) a l.link s := Prog.bind_of_result (deref_eq h.shows.cell)
  cases l with
  | nil => exact ⟨s, path, a, x, .nil, r, all, hrun, h, .inl rfl, rfl⟩
  | node b y ll lr =>
    have hsize : (LinkedTree.node b y ll lr).size ≤ turns s := by
      have hcard := (downLeft h.shows).card_le
      unfold turns
      omega
    obtain ⟨inner, m, z, ml, hs, hplug, hright⟩ := leftMax_spec (.node b y ll lr) (downLeft h.shows)
      (fun hnone => by cases hnone) hsize
    have hlast : Shows H s (inner ++ ⟨a, x, true, r⟩ :: path) (.node m z ml .nil) := Shows.append_iff.2 (hplug ▸ downLeft h.shows)
    obtain ⟨s', hs', hshows⟩ := relabel_spec (m := modifyCell a fun c => { c with label :=
      { c.label with key := z.key, weight := z.weight } }) h.shows { x with key := z.key, weight := z.weight }
      (modifyCell_eq h.shows.cell)
    have hplaced : Placed (before path ++ items (.node a { x with key := z.key, weight := z.weight } (.node b y ll lr) r) ++
        after path) H s' path (.node a { x with key := z.key, weight := z.weight } (.node b y ll lr) r) :=
      ⟨hshows, h.coloured, h.noRedRed, h.beside, h.kids, rfl⟩
    have hchild := Placed.child (f := ⟨a, { x with key := z.key, weight := z.weight }, true, r⟩) hplaced
    rw [hplug] at hchild
    refine ⟨s', inner ++ ⟨a, { x with key := z.key, weight := z.weight }, true, r⟩ :: path, m, z, ml, .nil, _, ?_, hchild.inner,
      .inr rfl, ?_⟩
    · rw [hrun]
      show (leftMax (turns s) (Path.place (⟨a, x, true, r⟩ :: path)) >>= _) s = _
      rw [Prog.bind_of_result hs, Prog.bind_of_result hlast.follow_eq]
      show (deref m >>= _) s = _
      rw [Prog.bind_of_result (deref_eq hlast.cell), Prog.bind_of_result hs']
      cases inner with
      | nil => rfl
      | cons f inner => rfl
    · have hitems := congrArg items hplug
      rw [items_plug, after_of_right hright] at hitems
      rw [hitems, before_append, after_append, after_of_right hright]
      simp [before, after, items]

/-! ### `remove` -/

/-- What `adoptChild` achieves: the node is out of the tree, its child is there instead and black, and the sums below are right. -/
def Adopted (H : ℕ → Option (Cell (Node T W))) (s : DiscretePDF T W) (path : Path (Node T W)) (c : Tree T W) : Prop :=
  ∃ path' c', Shows H s path' c' ∧ Coloured path' false ∧ isRed c' = false ∧ NoRedRed c' ∧ (∀ f ∈ path', SumsRight f.other) ∧
    SumsRight c' ∧ Path.parent path' = Path.parent path ∧ before path' ++ items c' ++ after path' = before path ++ items c ++ after path

omit [AddCommMonoid W] in
/-- The child in the place of the node. -/
theorem adoptChild_shows {s₁ : DiscretePDF T W} {n b : ℕ} {y z : Node T W} {cl cr : Tree T W} (h : Shows H s path (.node n z l r))
    (hc : l = .nil ∧ .node b y cl cr = r ∨ r = .nil ∧ .node b y cl cr = l) (hrest : Path.Rep s₁.cells s₁.root path (some b))
    (hnext : s₁.next = s.next) (hothers : ∀ e, Path.parent path ≠ some e → s₁.cells e = s.cells e) :
    ∃ s₂, modifyCell b (fun cc => { cc with parent := Path.parent path }) s₁ = (some ⟨⟩, s₂) ∧
      Shows (Function.update H n (s.cells n)) s₂ path (.node b y cl cr) := by
  obtain ⟨hpath, -, hkidsPath, -⟩ := h.apart
  have hmem : b ∈ l.addrs + r.addrs := by
    rcases hc with ⟨-, rfl⟩ | ⟨-, rfl⟩
    · exact Multiset.mem_add.2 (.inr (Multiset.mem_cons_self _ _))
    · exact Multiset.mem_add.2 (.inl (Multiset.mem_cons_self _ _))
  have hcell : s.cells b = some ⟨y, some n, cl.link, cr.link⟩ := by
    rcases hc with ⟨-, rfl⟩ | ⟨-, rfl⟩
    · exact h.tree.2.2.1
    · exact h.tree.2.1.1
  have hfar : ∀ e, e ∉ Path.addrs path → s₁.cells e = s.cells e := fun e he =>
    hothers e fun hparent => he (Shows.mem_addrs_of_parent hparent)
  have hb : s₁.cells b = some ⟨y, some n, cl.link, cr.link⟩ := (hfar b (hkidsPath b hmem)).trans hcell
  refine ⟨_, modifyCell_eq hb, h.spliced hc (hrest.congr fun e he => set_cells_of_ne fun heq : e = b => hkidsPath b hmem (heq ▸ he))
    (fun e he => ?_) (fun e he hpath => ?_) hnext⟩
  · obtain rfl := Option.some.inj he
    rw [set_cells_self, hcell]
    rfl
  · rw [set_cells_of_ne fun heq : e = b => he (heq ▸ rfl)]
    exact hfar e hpath

/-- **`adoptChild`.** -/
theorem adoptChild_spec {s₁ : DiscretePDF T W} {n : ℕ} {z : Node T W} {c : Tree T W} (h : Placed all H s path (.node n z l r))
    (hc : l = .nil ∧ c = r ∨ r = .nil ∧ c = l) (hrest : Path.Rep s₁.cells s₁.root path c.link) (hnext : s₁.next = s.next)
    (hothers : ∀ e, Path.parent path ≠ some e → s₁.cells e = s.cells e) :
    ∃ s₂, adoptChild n (Path.parent path) c.link s₁ = (some ⟨⟩, s₂) ∧ Adopted (Function.update H n (s.cells n)) s₂ path c := by
  have hcol : Coloured path false := h.coloured.black_of
  have hkid : NoRedRed c ∧ SumsRight c ∧ (z.m_mark = true → isRed c = false) := by
    have hred := h.noRedRed
    rcases hc with ⟨-, rfl⟩ | ⟨-, rfl⟩
    · exact ⟨hred.2.2, h.kids.2, fun hz => (hred.1 hz).2⟩
    · exact ⟨hred.2.1, h.kids.1, fun hz => (hred.1 hz).1⟩
  obtain ⟨hred, hsums, hblack⟩ := hkid
  cases c with
  | nil =>
    refine ⟨s₁, rfl, path, .nil, ?_, hcol, rfl, trivial, h.beside, trivial, rfl, rfl⟩
    exact h.shows.spliced hc hrest (fun b hb => by cases hb) (fun b _ hb => hothers b fun hparent =>
      hb (Shows.mem_addrs_of_parent hparent)) hnext
  | node b y cl cr =>
    obtain ⟨s₂, hs₂, h₂⟩ := adoptChild_shows h.shows hc hrest hnext hothers
    have hn : s₂.cells n = some ⟨z, Path.parent path, l.link, r.link⟩ := by
      rw [h.shows.cell] at h₂
      exact h₂.kept
    have hrun : adoptChild n (Path.parent path) (some b) s₁ = (if (!z.m_mark) = true then lengthen b else pure ⟨⟩) s₂ := by
      have hisBlack : isBlack n s₂ = (some (!z.m_mark), s₂) := Prog.bind_of_result (deref_eq hn)
      show (modifyCell b (fun cc => { cc with parent := Path.parent path }) >>= _) s₁ = _
      rw [Prog.bind_of_result hs₂, Prog.bind_of_result hisBlack]
    cases hz : z.m_mark with
    | true =>
      refine ⟨s₂, ?_, path, .node b y cl cr, h₂, hcol, hblack hz, hred, h.beside, hsums, rfl, rfl⟩
      rw [LinkedTree.link, hrun, hz]
      rfl
    | false =>
      obtain ⟨s₃, hs₃, path', h₃, hcol', hbeside', hparent, hbefore, hafter⟩ := lengthen_spec h₂ hcol h.beside
      refine ⟨s₃, ?_, path', _, h₃, hcol', isRed_paint _, hred.paint, hbeside', hsums.paint, hparent, ?_⟩
      · rw [LinkedTree.link, hrun, hz]
        exact hs₃
      · rw [hbefore, hafter, items_paint]

/-- `propagateSumsUp` from the parent. -/
theorem propagateSumsUp_above (h : Shows H s path t) (hcol : Coloured path (isRed t)) (hred : NoRedRed t)
    (hbeside : ∀ f ∈ path, SumsRight f.other) (hsums : SumsRight t) :
    ∃ s', propagateSumsUp (Path.parent path) s = (some ⟨⟩, s') ∧ Right H s' (before path ++ items t ++ after path) := by
  cases path with
  | nil =>
    refine ⟨s, ?_, t, h, hred, hcol, hsums, by simp [before, after]⟩
    show propagateLoop (turns s) none s = _
    obtain ⟨k, hk⟩ : ∃ k, turns s = k + 1 := ⟨2 * s.next + 1, rfl⟩
    rw [hk]
    rfl
  | cons f path =>
    have hup := Shows.up_iff.1 h
    have hcolours := coloured_fill.1 ⟨hcol, hred⟩
    have hpath : ∀ e ∈ path, SumsRight e.other := fun e he => hbeside e (List.mem_cons_of_mem _ he)
    have hother := hbeside f List.mem_cons_self
    have hitems := items_fill f path t
    have hgoal : ∃ s', propagateSumsUp (some f.addr) s = (some ⟨⟩, s') ∧
        Right H s' (before path ++ items (f.fill t) ++ after path) := by
      clear hitems
      obtain ⟨b, y, side, other⟩ := f
      cases side with
      | true => exact propagateSumsUp_spec hup hcolours.1 hcolours.2 hpath hsums hother
      | false => exact propagateSumsUp_spec hup hcolours.1 hcolours.2 hpath hother hsums
    rw [hitems] at hgoal
    exact hgoal

/-- **`unlink`.** -/
theorem unlink_spec {n : ℕ} {z : Node T W} (h : Placed all H s path (.node n z l r)) (hlr : l = .nil ∨ r = .nil) :
    ∃ s', unlink (Path.place path) n s = (some ⟨⟩, s') ∧
      Right H s' (before path ++ (items l ++ items r) ++ after path) := by
  obtain ⟨c, hc, hlink, hitems⟩ : ∃ c, (l = .nil ∧ c = r ∨ r = .nil ∧ c = l) ∧
      (if l.link.isSome then l.link else r.link) = c.link ∧ items l ++ items r = items c := by
    rcases hlr with rfl | rfl
    · exact ⟨r, .inl ⟨rfl, rfl⟩, rfl, rfl⟩
    · refine ⟨l, .inr ⟨rfl, rfl⟩, ?_, List.append_nil _⟩
      cases l with
      | nil => rfl
      | node b y ll lr => rfl
  have hnodup : (Path.addrs path).Nodup := (Multiset.nodup_add.1 h.shows.nodup).1
  obtain ⟨⟨⟩, s₁, hs₁, hrest, hnext, hothers⟩ := (h.shows.rest.wp_setLink c.link (E := fun _ => False) hnodup).exists_result
  obtain ⟨s₂, hs₂, path', c', h₂, hcol, hblack, hred, hbeside, hsums, hparent, hall⟩ := adoptChild_spec h hc hrest hnext hothers
  obtain ⟨s₃, hs₃, t, h₃, hred', hblack', hsums', hitems'⟩ := propagateSumsUp_above h₂ (by rw [hblack]; exact hcol) hred hbeside hsums
  rw [h.shows.cell] at h₂ h₃
  have hn : H n = none := h.shows.own n (Multiset.mem_add.2 (.inr (Multiset.mem_cons_self _ _)))
  refine ⟨_, ?_, t, h₃.freed hn, hred', hblack', hsums', ?_⟩
  · unfold unlink
    rw [Prog.bind_of_result (deref_eq h.shows.cell)]
    show (setLink (if l.link.isSome then l.link else r.link) (Path.place path) >>= _) s = _
    rw [hlink, Prog.bind_of_result hs₁, Prog.bind_of_result hs₂, Prog.bind_of_result (deref_eq h₂.kept)]
    show (propagateSumsUp (Path.parent path) >>= _) s₂ = _
    rw [← hparent, Prog.bind_of_result hs₃]
    rfl
  · rw [hitems', hall, hitems]

variable [LinearOrder T]

/-- **`remove`.** -/
theorem remove_spec (h : Right H s all) (hsorted : all.Pairwise fun e e' => e.1 < e'.1) (hmem : item ∈ all.map Prod.fst) :
    ∃ s', remove item s = (some ⟨⟩, s') ∧ Right H s' (all.filter fun e => e.1 ≠ item) := by
  obtain ⟨path, a, x, l, r, hs, h, rfl⟩ := lookup_spec h hsorted hmem
  obtain ⟨hall, hl, hr⟩ := h.split hsorted
  obtain ⟨s₁, path', n, z, l', r', all', hs₁, h₁, hlr, hrest⟩ := moveMax_spec h
  obtain ⟨s', hs', hright⟩ := unlink_spec h₁ hlr
  refine ⟨s', ?_, ?_⟩
  · unfold remove
    rw [Prog.bind_of_result hs, Prog.bind_of_result h.shows.follow_eq]
    show (moveMax (Path.place path) a >>= _) s = _
    rw [Prog.bind_of_result hs₁, hs']
  · rw [hrest] at hright
    rw [hall, List.filter_append, List.filter_cons_of_neg (by simp), List.filter_eq_self.2 fun e he => by simpa using (hl e he).ne,
      List.filter_eq_self.2 fun e he => by simpa using (hr e he).ne']
    simpa using hright

end SymBisect.DiscretePDF
