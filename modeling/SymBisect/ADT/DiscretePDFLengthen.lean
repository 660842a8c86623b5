import SymBisect.ADT.DiscretePDFInsert

/-!
# `lengthen` on the weighted tree

* `blackSibling_spec`, `farRed_spec`, `lengthenRed_spec`: the parts of `lengthen`, seen from the node it starts at.
* `lengthen_spec`: the node ends black with right colours above, and the items beside it are as before.
-/

namespace SymBisect.DiscretePDF

open Lib LinkedHeap LinkedTree

variable {T W : Type} {H : ℕ → Option (Cell (Node T W))} {s : DiscretePDF T W} {f g : Frame (Node T W)}
  {path : Path (Node T W)} {t l r : Tree T W} {a : ℕ} {x : Node T W}

/-! ### The sibling -/

theorem sibling_eq (h : Shows H s (f :: path) (.node a x l r)) : sibling a s = (some f.other.link, s) := by
  have hleft := cell_left_iff h rfl (Path.parent path)
  unfold sibling
  rw [Prog.bind_of_result (deref_eq h.cell)]
  show (deref f.addr >>= _) s = _
  rw [Prog.bind_of_result (deref_eq (cell_above h)), LinkedTree.link]
  obtain ⟨p, y, side, other⟩ := f
  cases side with
  | true => rw [if_pos (hleft.2 rfl)]; rfl
  | false => rw [if_neg fun heq => Bool.false_ne_true (hleft.1 heq)]; rfl

theorem parent_eq (h : Shows H s (f :: path) (.node a x l r)) : parent a s = (some f.addr, s) :=
  Prog.bind_of_result (deref_eq h.cell)

/-- A place where a red node may be can be black. -/
theorem Coloured.black_of {b : Bool} (h : Coloured path b) : Coloured path false := by
  cases path with
  | nil => rfl
  | cons f path => exact ⟨fun hf => ⟨rfl, (h.1 hf).2⟩, h.2⟩

section

variable [AddCommMonoid W]

/-- **A red sibling** is rotated up. -/
theorem blackSibling_spec (h : Shows H s (f :: path) (.node a x l r)) (hcol : Coloured (f :: path) false)
    (hbeside : ∀ e ∈ f :: path, SumsRight e.other) :
    ∃ s' f' path', blackSibling a f.addr f.other.link s = (some f'.other.link, s') ∧ Shows H s' (f' :: path') (.node a x l r) ∧
      Coloured (f' :: path') false ∧ (∀ e ∈ f' :: path', SumsRight e.other) ∧ f'.addr = f.addr ∧ isRed f'.other = false ∧
      before (f' :: path') = before (f :: path) ∧ after (f' :: path') = after (f :: path) ∧
      (f'.label.m_mark = true ∨ path'.length = path.length) := by
  cases hother : f.other with
  | nil => exact ⟨s, f, path, by rw [hother]; rfl, h, hcol, hbeside, rfl, by rw [hother]; rfl, rfl, rfl, .inr rfl⟩
  | node b y sl sr =>
    have hred := hcol.2.1
    have hsums := hbeside f List.mem_cons_self
    have hpath : ∀ e ∈ path, SumsRight e.other := fun e he => hbeside e (List.mem_cons_of_mem _ he)
    have hsib := h.beside
    rw [hother] at hred hsums hsib
    cases hy : y.m_mark with
    | false =>
      refine ⟨s, f, path, ?_, h, hcol, hbeside, rfl, by rw [hother]; exact hy, rfl, rfl, .inr rfl⟩
      show (isBlack b >>= _) s = _
      rw [Prog.bind_of_result (isBlack_eq hsib), hy, hother]
      rfl
    | true =>
      have hf : f.label.m_mark = false := by
        by_contra hne
        have hblack := (hcol.1 (by simpa using hne)).2
        rw [hother] at hblack
        exact Bool.true_eq_false_eq_False (hy.symm.trans hblack)
      have hcolPath := hcol.2.2
      rw [hf] at hcolPath
      obtain ⟨s₁, hs₁, h₁⟩ := markRed_above h
      have hsib₁ := h₁.beside
      rw [show (reframe f f.label.red).other = f.other from rfl, hother] at hsib₁
      obtain ⟨s₂, hs₂, h₂⟩ := markBlack_spec hsib₁
      obtain ⟨s₃, hs₃, h₃⟩ := rotate_spec h₂
      have hrun : ∀ q, sibling a s₃ = (some q, s₃) → blackSibling a f.addr (some b) s = (some q, s₃) := by
        intro q hq
        rw [blackSibling, Prog.bind_of_result (isBlack_eq hsib), hy]
        show (markRed f.addr >>= _) s = _
        rw [Prog.bind_of_result hs₁, Prog.bind_of_result hs₂, Prog.bind_of_result hs₃, hq]
      obtain ⟨hkids, hsl, hsr⟩ := hred
      obtain ⟨-, hsumL, hsumR⟩ := hsums
      obtain ⟨p, z, side, other⟩ := f
      obtain rfl : other = .node b y sl sr := hother
      cases side with
      | true =>
        have h₄ : Shows H s₃ (⟨p, upperLabel ⟨p, z.red, false, .node a x l r⟩ sl sr, true, sl⟩ ::
            ⟨b, lowerLabel ⟨p, z.red, false, .node a x l r⟩ y.black sl sr, true, sr⟩ :: path) (.node a x l r) :=
          Shows.up_iff.2 (Shows.up_iff.2 h₃)
        refine ⟨s₃, _, _, hrun _ (sibling_eq h₄), h₄, ⟨fun _ => ⟨rfl, (hkids hy).1⟩, hsl,
          fun hm => absurd hm Bool.false_ne_true, hsr, hcolPath⟩, ?_, rfl, (hkids hy).1, ?_, ?_, .inl rfl⟩
        · exact List.forall_mem_cons.2 ⟨hsumL, List.forall_mem_cons.2 ⟨hsumR, hpath⟩⟩
        · simp [before]
        · simp [after, items, upperLabel, lowerLabel, Node.withSum, Node.red, Node.black]
      | false =>
        have h₄ : Shows H s₃ (⟨p, upperLabel ⟨p, z.red, true, .node a x l r⟩ sl sr, false, sr⟩ ::
            ⟨b, lowerLabel ⟨p, z.red, true, .node a x l r⟩ y.black sl sr, false, sl⟩ :: path) (.node a x l r) :=
          Shows.up_iff.2 (Shows.up_iff.2 h₃)
        refine ⟨s₃, _, _, hrun _ (sibling_eq h₄), h₄, ⟨fun _ => ⟨rfl, (hkids hy).2⟩, hsr,
          fun hm => absurd hm Bool.false_ne_true, hsl, hcolPath⟩, ?_, rfl, (hkids hy).2, ?_, ?_, .inl rfl⟩
        · exact List.forall_mem_cons.2 ⟨hsumR, List.forall_mem_cons.2 ⟨hsumL, hpath⟩⟩
        · simp [before, items, upperLabel, lowerLabel, Node.withSum, Node.red, Node.black]
        · simp [after]

/-- The near child of the sibling is rotated up, seen from the sibling; on the left it is the near one. -/
theorem rotateNear_left {b m : ℕ} {y z : Node T W} {ml mr sr : Tree T W} (h : Shows H s path (.node b y (.node m z ml mr) sr)) :
    ∃ s' sum, rotateNear b (some m) s = (some m, s') ∧ Shows H s' path (.node m { z.black with sumWeights := sum } ml
      (.node b (y.red.withSum (sumOf mr) (sumOf sr)) mr sr)) := by
  obtain ⟨s₁, hs₁, h₁⟩ := rotate_spec (downLeft h)
  obtain ⟨s₂, hs₂, h₂⟩ := markRed_spec (downRight h₁)
  obtain ⟨s₃, hs₃, h₃⟩ := markBlack_above h₂
  refine ⟨s₃, _, ?_, Shows.up_iff.1 h₃⟩
  unfold rotateNear
  show (rotate m >>= _) s = _
  rw [Prog.bind_of_result hs₁, Prog.bind_of_result hs₂, Prog.bind_of_result (parent_eq h₂), Prog.bind_of_result hs₃]
  rfl

theorem rotateNear_right {b m : ℕ} {y z : Node T W} {ml mr sl : Tree T W} (h : Shows H s path (.node b y sl (.node m z ml mr))) :
    ∃ s' sum, rotateNear b (some m) s = (some m, s') ∧ Shows H s' path (.node m { z.black with sumWeights := sum }
      (.node b (y.red.withSum (sumOf sl) (sumOf ml)) sl ml) mr) := by
  obtain ⟨s₁, hs₁, h₁⟩ := rotate_spec (downRight h)
  obtain ⟨s₂, hs₂, h₂⟩ := markRed_spec (downLeft h₁)
  obtain ⟨s₃, hs₃, h₃⟩ := markBlack_above h₂
  refine ⟨s₃, _, ?_, Shows.up_iff.1 h₃⟩
  unfold rotateNear
  show (rotate m >>= _) s = _
  rw [Prog.bind_of_result hs₁, Prog.bind_of_result hs₂, Prog.bind_of_result (parent_eq h₂), Prog.bind_of_result hs₃]
  rfl

/-- A black sibling whose far child is red; its own sum may be wrong. -/
structure FarRed (f : Frame (Node T W)) (z : Node T W) (ml mr : Tree T W) : Prop where
  black : z.m_mark = false
  noRedRed : NoRedRed ml ∧ NoRedRed mr
  sums : SumsRight ml ∧ SumsRight mr
  items : items ml ++ (z.key, z.weight) :: items mr = items f.other
  left : f.isLeft = true → isRed mr = true
  right : f.isLeft = false → isRed ml = true

/-- **The far child of the sibling is made red.** -/
theorem farRed_spec {b : ℕ} {y : Node T W} {sl sr : Tree T W} (h : Shows H s (f :: path) (.node a x l r))
    (hother : f.other = .node b y sl sr) (hy : y.m_mark = false) (hred : NoRedRed f.other) (hsums : SumsRight f.other)
    (hkid : isRed sl = true ∨ isRed sr = true) : ∃ s' m z ml mr, farRed a b s = (some m, s') ∧
      Shows H s' (⟨f.addr, f.label, f.isLeft, .node m z ml mr⟩ :: path) (.node a x l r) ∧ FarRed f z ml mr := by
  have hsib := h.beside
  rw [hother] at hsib hred hsums
  have hleft := cell_left_iff h rfl (Path.parent path)
  have hright := cell_right_iff h rfl (Path.parent path)
  have hrun : farRed a b s = (if (f.cell (Path.parent path) (some a)).left = some a ∧ (!isRed sr) = true then rotateNear b sl.link
      else if (f.cell (Path.parent path) (some a)).right = some a ∧ (!isRed sl) = true then rotateNear b sr.link else pure b) s := by
    unfold farRed
    rw [Prog.bind_of_result (parent_eq h), Prog.bind_of_result (deref_eq (cell_above h)), Prog.bind_of_result (leftIsBlack_eq hsib),
      Prog.bind_of_result (rightIsBlack_eq hsib), Prog.bind_of_result (deref_eq hsib.cell)]
    rfl
  have hblack : ∀ {t : Tree T W}, isRed t = true → (!isRed t) ≠ true := fun ht hf => by
    rw [ht] at hf
    cases hf
  obtain ⟨p, v, side, other⟩ := f
  obtain rfl : other = .node b y sl sr := hother
  cases side with
  | true =>
    cases hfar : isRed sr with
    | true =>
      refine ⟨s, b, y, sl, sr, ?_, h, hy, hred.2, hsums.2, rfl, fun _ => hfar, fun hf => absurd hf Bool.true_eq_false_eq_False⟩
      rw [hrun, if_neg fun hc => hblack hfar hc.2, if_neg fun hc => Bool.true_eq_false_eq_False (hright.1 hc.1)]
      rfl
    | false =>
      have hnear := hkid.resolve_right fun hf => Bool.false_ne_true (hfar.symm.trans hf)
      cases hn : sl with
      | nil => rw [hn] at hnear; cases hnear
      | node m z ml mr =>
        subst hn
        have hm : z.m_mark = true := hnear
        obtain ⟨s', sum, hs', h'⟩ := rotateNear_left hsib
        have hrun' : farRed a b s = (some m, s') := by
          rw [hrun, if_pos ⟨hleft.2 rfl, by rw [hfar]; rfl⟩]
          exact hs'
        refine ⟨s', m, { z.black with sumWeights := sum }, _, _, hrun', h'.beside, rfl, ?_, ?_, ?_,
          fun _ => rfl, fun hf => absurd hf Bool.true_eq_false_eq_False⟩
        · exact ⟨hred.2.1.2.1, fun _ => ⟨(hred.2.1.1 hm).2, hfar⟩, hred.2.1.2.2, hred.2.2⟩
        · exact ⟨hsums.2.1.2.1, rfl, hsums.2.1.2.2, hsums.2.2⟩
        · simp [items, Node.withSum, Node.red, Node.black]
  | false =>
    cases hfar : isRed sl with
    | true =>
      refine ⟨s, b, y, sl, sr, ?_, h, hy, hred.2, hsums.2, rfl, fun hf => absurd hf Bool.false_ne_true, fun _ => hfar⟩
      rw [hrun, if_neg fun hc => Bool.false_ne_true (hleft.1 hc.1), if_neg fun hc => hblack hfar hc.2]
      rfl
    | false =>
      have hnear := hkid.resolve_left fun hf => Bool.false_ne_true (hfar.symm.trans hf)
      cases hn : sr with
      | nil => rw [hn] at hnear; cases hnear
      | node m z ml mr =>
        subst hn
        have hm : z.m_mark = true := hnear
        obtain ⟨s', sum, hs', h'⟩ := rotateNear_right hsib
        have hrun' : farRed a b s = (some m, s') := by
          rw [hrun, if_neg fun hc => Bool.false_ne_true (hleft.1 hc.1), if_pos ⟨hright.2 rfl, by rw [hfar]; rfl⟩]
          exact hs'
        refine ⟨s', m, { z.black with sumWeights := sum }, _, _, hrun', h'.beside, rfl, ?_, ?_, ?_,
          fun hf => absurd hf Bool.false_ne_true, fun _ => rfl⟩
        · exact ⟨⟨fun _ => ⟨hfar, (hred.2.2.1 hm).1⟩, hred.2.1, hred.2.2.2.1⟩, hred.2.2.2.2⟩
        · exact ⟨⟨rfl, hsums.2.1, hsums.2.2.2.1⟩, hsums.2.2.2.2⟩
        · simp [items, Node.withSum, Node.red, Node.black]

/-- The child of a sibling on the side of the edge, and the other one. -/
def nearChild (side : Bool) (l r : Tree T W) : Tree T W :=
  match side with
  | true => l
  | false => r

def farChild (side : Bool) (l r : Tree T W) : Tree T W :=
  match side with
  | true => r
  | false => l

/-- The sibling is rotated up: it is on the path then. -/
theorem rotate_beside {m : ℕ} {z : Node T W} {ml mr : Tree T W} (h : Shows H s (f :: path) t) (hother : f.other = .node m z ml mr) :
    ∃ s' upper lower, rotate m s = (some ⟨⟩, s') ∧
      Shows H s' (⟨f.addr, { f.label with sumWeights := upper }, f.isLeft, nearChild f.isLeft ml mr⟩ ::
        ⟨m, { z with sumWeights := lower }, f.isLeft, farChild f.isLeft ml mr⟩ :: path) t := by
  have hsib := h.beside
  rw [hother] at hsib
  obtain ⟨s', hs', h'⟩ := rotate_spec hsib
  obtain ⟨p, y, side, other⟩ := f
  cases side with
  | true => exact ⟨s', _, _, hs', Shows.up_iff.2 (Shows.up_iff.2 h')⟩
  | false => exact ⟨s', _, _, hs', Shows.up_iff.2 (Shows.up_iff.2 h')⟩

omit [AddCommMonoid W] in
theorem markBlack_beside {b : ℕ} (h : Shows H s (f :: path) t) (hb : f.other.link = some b) :
    ∃ s', markBlack b s = (some ⟨⟩, s') ∧ Shows H s' (⟨f.addr, f.label, f.isLeft, paint false f.other⟩ :: path) t := by
  have hsib := h.beside
  cases hother : f.other with
  | nil =>
    rw [hother] at hb
    cases hb
  | node c y l r =>
    rw [hother] at hsib hb
    obtain rfl := Option.some.inj hb
    obtain ⟨s', hs', h'⟩ := markBlack_spec hsib
    have hback := h'.beside
    rw [Bool.not_not] at hback
    exact ⟨s', hs', hback⟩

/-- The end of `lengthen` where a child of the sibling is red: both children of the rotated sibling are marked. -/
def markKids (m : ℕ) : Prog (DiscretePDF T W) PUnit := do
  let c ← deref m
  let l ← Prog.unwrap c.left
  markBlack l
  let r ← Prog.unwrap c.right
  markBlack r

omit [AddCommMonoid W] in
theorem markKids_spec (h : Shows H s (f :: g :: path) t) (hred : isRed g.other = true) :
    ∃ s', markKids g.addr s = (some ⟨⟩, s') ∧
      Shows H s' (reframe f f.label.black :: ⟨g.addr, g.label, g.isLeft, paint false g.other⟩ :: path) t := by
  have hcell := cell_above (Shows.up_iff.1 h)
  rw [Frame.fill_link] at hcell
  obtain ⟨b, hb⟩ : ∃ b, g.other.link = some b := by
    cases hother : g.other with
    | nil =>
      rw [hother] at hred
      cases hred
    | node b y l r => exact ⟨b, rfl⟩
  unfold markKids
  rw [Prog.bind_of_result (deref_eq hcell)]
  cases hside : g.isLeft with
  | true =>
    obtain ⟨s₁, hs₁, h₁⟩ := markBlack_above h
    obtain ⟨s₂, hs₂, h₂⟩ := markBlack_beside (Shows.up_iff.1 h₁) hb
    refine ⟨s₂, ?_, Shows.up_iff.2 (hside ▸ h₂)⟩
    obtain ⟨q, z, side, other⟩ := g
    obtain rfl : side = true := hside
    obtain ⟨c, hc⟩ : ∃ c, Frame.cell ⟨q, z, true, other⟩ (Path.parent path) (some f.addr) = c := ⟨_, rfl⟩
    have hl : c.left = some f.addr := hc ▸ rfl
    have hr : c.right = some b := hc ▸ hb
    rw [hc, hl, hr]
    show (markBlack f.addr >>= fun _ => markBlack b) s = _
    rw [Prog.bind_of_result hs₁, hs₂]
  | false =>
    obtain ⟨s₁, hs₁, h₁⟩ := markBlack_beside (Shows.up_iff.1 h) hb
    obtain ⟨s₂, hs₂, h₂⟩ := markBlack_above (Shows.up_iff.2 h₁)
    refine ⟨s₂, ?_, hside ▸ h₂⟩
    obtain ⟨q, z, side, other⟩ := g
    obtain rfl : side = false := hside
    obtain ⟨c, hc⟩ : ∃ c, Frame.cell ⟨q, z, false, other⟩ (Path.parent path) (some f.addr) = c := ⟨_, rfl⟩
    have hl : c.left = some b := hc ▸ hb
    have hr : c.right = some f.addr := hc ▸ rfl
    rw [hc, hl, hr]
    show (markBlack b >>= fun _ => markBlack f.addr) s = _
    rw [Prog.bind_of_result hs₁, hs₂]

omit [AddCommMonoid W] in
/-- The items beside the path when the sibling was rotated up. -/
theorem before_rotated {m p : ℕ} {y z : Node T W} {ml mr : Tree T W} {side : Bool} {path : Path (Node T W)} :
    before (⟨p, y, side, nearChild side ml mr⟩ :: ⟨m, z, side, farChild side ml mr⟩ :: path) =
      before (⟨p, y, side, .node m z ml mr⟩ :: path) := by
  cases side with
  | true => rfl
  | false => simp [before, items, nearChild, farChild]

omit [AddCommMonoid W] in
theorem after_rotated {m p : ℕ} {y z : Node T W} {ml mr : Tree T W} {side : Bool} {path : Path (Node T W)} :
    after (⟨p, y, side, nearChild side ml mr⟩ :: ⟨m, z, side, farChild side ml mr⟩ :: path) =
      after (⟨p, y, side, .node m z ml mr⟩ :: path) := by
  cases side with
  | true => simp [after, items, nearChild, farChild]
  | false => rfl

omit [AddCommMonoid W] in
/-- What is beside a path, as far as the items go. -/
theorem beside_congr {path' : Path (Node T W)} (hside : g.isLeft = f.isLeft) (hkey : g.label.key = f.label.key)
    (hweight : g.label.weight = f.label.weight) (hother : items g.other = items f.other)
    (hpath : before path' = before path ∧ after path' = after path) :
    before (g :: path') = before (f :: path) ∧ after (g :: path') = after (f :: path) := by
  rw [before, before, after, after, hside, hkey, hweight, hother, hpath.1, hpath.2]
  exact ⟨rfl, rfl⟩

omit [AddCommMonoid W] in
/-- The colour of the parent goes to the sibling. -/
theorem markRed_sibling {b : Bool} (h : Shows H s (f :: g :: path) t) (hg : g.label.m_mark = false) :
    ∃ s', Prog.when ((!b) = false) (markRed g.addr) s = (some ⟨⟩, s') ∧
      Shows H s' (f :: reframe g { g.label with m_mark := b } :: path) t := by
  cases b with
  | true =>
    obtain ⟨s', hs', h'⟩ := markRed_above_twice h
    exact ⟨s', hs', h'⟩
  | false =>
    refine ⟨s, rfl, ?_⟩
    obtain ⟨q, ⟨mark, key, weight, sum⟩, side, other⟩ := g
    obtain rfl : mark = false := hg
    exact h

/-- **The red child of the sibling** is rotated into the path. -/
theorem lengthenRed_spec {b : ℕ} {y : Node T W} {sl sr : Tree T W} (h : Shows H s (f :: path) (.node a x l r))
    (hother : f.other = .node b y sl sr) (hy : y.m_mark = false) (hcol : Coloured (f :: path) false)
    (hbeside : ∀ e ∈ f :: path, SumsRight e.other) (hkid : isRed sl = true ∨ isRed sr = true) :
    ∃ s' path', lengthenRed a b s = (some ⟨⟩, s') ∧ Shows H s' path' (.node a x l r) ∧ Coloured path' false ∧
      (∀ e ∈ path', SumsRight e.other) ∧ Path.parent path' = Path.parent (f :: path) ∧ before path' = before (f :: path) ∧
      after path' = after (f :: path) := by
  obtain ⟨s₁, m, z, ml, mr, hs₁, h₁, hfar⟩ := farRed_spec h hother hy hcol.2.1 (hbeside f List.mem_cons_self) hkid
  obtain ⟨s₂, upper, lower, hs₂, h₂⟩ := rotate_beside h₁ rfl
  obtain ⟨s₃, hs₃, h₃⟩ := markRed_sibling (b := f.label.m_mark) h₂ hfar.black
  have hred : isRed (farChild f.isLeft ml mr) = true := by
    cases hside : f.isLeft with
    | true => exact hfar.left hside
    | false => exact hfar.right hside
  obtain ⟨s₄, hs₄, h₄⟩ := markKids_spec h₃ hred
  have hkids : (NoRedRed (nearChild f.isLeft ml mr) ∧ NoRedRed (farChild f.isLeft ml mr)) ∧
      SumsRight (nearChild f.isLeft ml mr) ∧ SumsRight (farChild f.isLeft ml mr) := by
    cases f.isLeft with
    | true => exact ⟨hfar.noRedRed, hfar.sums⟩
    | false => exact ⟨hfar.noRedRed.symm, hfar.sums.symm⟩
  refine ⟨s₄, _, ?_, h₄, ⟨fun hf => absurd hf Bool.false_ne_true, hkids.1.1, fun _ => ⟨rfl, isRed_paint _⟩, hkids.1.2.paint,
    hcol.2.2⟩, ?_, rfl, ?_⟩
  · unfold lengthenRed
    rw [Prog.bind_of_result hs₁, Prog.bind_of_result hs₂, Prog.bind_of_result (parent_eq h₂)]
    show (isBlack f.addr >>= _) s₂ = _
    rw [Prog.bind_of_result (isBlack_above h₂)]
    show (Prog.when ((!f.label.m_mark) = false) (markRed m) >>= fun _ => markKids m) s₂ = _
    rw [Prog.bind_of_result hs₃]
    exact hs₄
  · exact List.forall_mem_cons.2 ⟨hkids.2.1, List.forall_mem_cons.2 ⟨hkids.2.2.paint, fun e he =>
      hbeside e (List.mem_cons_of_mem _ he)⟩⟩
  · have hrotated : before (⟨f.addr, f.label, f.isLeft, .node m z ml mr⟩ :: path) = before (f :: path) ∧
        after (⟨f.addr, f.label, f.isLeft, .node m z ml mr⟩ :: path) = after (f :: path) :=
      beside_congr rfl rfl rfl hfar.items ⟨rfl, rfl⟩
    rw [← hrotated.1, ← hrotated.2, ← before_rotated, ← after_rotated]
    refine beside_congr rfl rfl rfl rfl ?_
    exact beside_congr rfl rfl rfl (items_paint _ _) ⟨rfl, rfl⟩

/-! ### `lengthen` -/

/-- What `lengthen` achieves: the node is black and the colours are right, and beside it are the items that were there. -/
def Lengthened (H : ℕ → Option (Cell (Node T W))) (s : DiscretePDF T W) (path : Path (Node T W)) (t : Tree T W) : Prop :=
  ∃ path', Shows H s path' (paint false t) ∧ Coloured path' false ∧ (∀ f ∈ path', SumsRight f.other) ∧
    Path.parent path' = Path.parent path ∧ before path' = before path ∧ after path' = after path

omit [AddCommMonoid W] in
theorem markRed_beside {b : ℕ} (h : Shows H s (f :: path) t) (hb : f.other.link = some b) :
    ∃ s', markRed b s = (some ⟨⟩, s') ∧ Shows H s' (⟨f.addr, f.label, f.isLeft, paint true f.other⟩ :: path) t := by
  have hsib := h.beside
  cases hother : f.other with
  | nil =>
    rw [hother] at hb
    cases hb
  | node c y l r =>
    rw [hother] at hsib hb
    obtain rfl := Option.some.inj hb
    obtain ⟨s', hs', h'⟩ := markRed_spec hsib
    have hback := h'.beside
    rw [Bool.not_not] at hback
    exact ⟨s', hs', hback⟩

omit [AddCommMonoid W] in
theorem paint_of_black (h : isRed t = false) : paint false t = t := by
  cases t with
  | nil => rfl
  | node b y l r =>
    obtain ⟨mark, key, weight, sum⟩ := y
    obtain rfl : mark = false := h
    rfl

theorem Lengthened.congr {path' : Path (Node T W)} (h : Lengthened H s path' t) (hparent : Path.parent path' = Path.parent path)
    (hbefore : before path' = before path) (hafter : after path' = after path) : Lengthened H s path t := by
  obtain ⟨path₁, h₁, hcol, hbeside, hp, hb, ha⟩ := h
  exact ⟨path₁, h₁, hcol, hbeside, hp.trans hparent, hb.trans hbefore, ha.trans hafter⟩

omit [AddCommMonoid W] in
theorem paint_fill (f : Frame (Node T W)) (t : Tree T W) : paint false (f.fill t) = (reframe f f.label.black).fill t := by
  obtain ⟨b, y, side, other⟩ := f
  cases side with
  | true => rfl
  | false => rfl

/-- **One node up**: when the parent is lengthened, so is the node. -/
theorem Lengthened.down (h : Lengthened H s path (f.fill t)) (ht : isRed t = false) (hred : NoRedRed f.other)
    (hsums : SumsRight f.other) : Lengthened H s (f :: path) t := by
  obtain ⟨path₁, h₁, hcol, hbeside, -, hb, ha⟩ := h
  rw [paint_fill] at h₁
  refine ⟨reframe f f.label.black :: path₁, ?_, ⟨fun hf => absurd hf Bool.false_ne_true, hred, hcol⟩,
    List.forall_mem_cons.2 ⟨hsums, hbeside⟩, rfl, beside_congr rfl rfl rfl rfl ⟨hb, ha⟩⟩
  rw [paint_of_black ht]
  exact Shows.up_iff.2 h₁

omit [AddCommMonoid W] in
/-- The sibling may be red when its children are not. -/
theorem NoRedRed.paint_red {b : ℕ} {y : Node T W} (h : NoRedRed (.node b y l r)) (hl : isRed l = false) (hr : isRed r = false) :
    NoRedRed (DiscretePDF.paint true (.node b y l r)) := ⟨fun _ => ⟨hl, hr⟩, h.2⟩

/-- The turn of `lengthen` once the sibling is black. -/
def lengthenBlack (fuel n : ℕ) : Option ℕ → Prog (DiscretePDF T W) PUnit
  | none => do
    let p ← parent n
    lengthenUp fuel p
  | some s => do
    let leftBlack ← leftIsBlack s
    let rightBlack ← rightIsBlack s
    if leftBlack && rightBlack then do
      let p ← parent n
      let black ← isBlack p
      markRed s
      if black then lengthenUp fuel p else markBlack p
    else lengthenRed n s

/-- **A turn of `lengthen`** below a black sibling, given what the turns above do. -/
theorem lengthenBlack_spec (fuel : ℕ) (h : Shows H s (f :: path) (.node a x l r)) (hx : x.m_mark = false)
    (hcol : Coloured (f :: path) false) (hbeside : ∀ e ∈ f :: path, SumsRight e.other) (hother : isRed f.other = false)
    (ih : ∀ {s : DiscretePDF T W} (f' : Frame (Node T W)), Shows H s path (f'.fill (.node a x l r)) → f'.label = f.label →
      ∃ s', lengthenUp fuel f'.addr s = (some ⟨⟩, s') ∧ Lengthened H s' path (f'.fill (.node a x l r))) :
    ∃ s', lengthenBlack fuel a f.other.link s = (some ⟨⟩, s') ∧ Lengthened H s' (f :: path) (.node a x l r) := by
  have hpath : ∀ e ∈ path, SumsRight e.other := fun e he => hbeside e (List.mem_cons_of_mem _ he)
  cases hsib : f.other with
  | nil =>
    obtain ⟨s', hs', h'⟩ := ih f (Shows.up_iff.1 h) rfl
    refine ⟨s', ?_, h'.down hx hcol.2.1 (hbeside f List.mem_cons_self)⟩
    show (parent a >>= fun p => lengthenUp fuel p) s = _
    rw [Prog.bind_of_result (parent_eq h), hs']
  | node b y sl sr =>
    have hshows := h.beside
    have hred := hcol.2.1
    rw [hsib] at hshows hother hred
    have hrun : lengthenBlack fuel a (LinkedTree.node b y sl sr).link s = (if (!isRed sl && !isRed sr) = true then do
        let p ← parent a
        let black ← isBlack p
        markRed b
        if black then lengthenUp fuel p else markBlack p
      else lengthenRed a b) s := by
      show (leftIsBlack b >>= _) s = _
      rw [Prog.bind_of_result (leftIsBlack_eq hshows), Prog.bind_of_result (rightIsBlack_eq hshows)]
    by_cases hkids : (!isRed sl && !isRed sr) = true
    · rw [hrun, if_pos hkids, Prog.bind_of_result (parent_eq h)]
      show ∃ s', (isBlack f.addr >>= _) s = _ ∧ _
      rw [Prog.bind_of_result (isBlack_above h)]
      obtain ⟨s₁, hs₁, h₁⟩ := markRed_beside (b := b) h (by rw [hsib]; rfl)
      have hkids' : isRed sl = false ∧ isRed sr = false := by simpa using hkids
      have hred' : NoRedRed (paint true f.other) := by
        rw [hsib]
        exact hred.paint_red hkids'.1 hkids'.2
      have hsums' : SumsRight (paint true f.other) := (hbeside f List.mem_cons_self).paint
      have hitems : before (⟨f.addr, f.label, f.isLeft, paint true f.other⟩ :: path) = before (f :: path) ∧
          after (⟨f.addr, f.label, f.isLeft, paint true f.other⟩ :: path) = after (f :: path) :=
        beside_congr rfl rfl rfl (items_paint _ _) ⟨rfl, rfl⟩
      rw [Prog.bind_of_result hs₁]
      cases hf : f.label.m_mark with
      | false =>
        obtain ⟨s', hs', h'⟩ := ih _ (Shows.up_iff.1 h₁) rfl
        exact ⟨s', hs', (h'.down hx hred' hsums').congr rfl hitems.1 hitems.2⟩
      | true =>
        obtain ⟨s', hs', h'⟩ := markBlack_above h₁
        refine ⟨s', hs', reframe ⟨f.addr, f.label, f.isLeft, paint true f.other⟩ f.label.black :: path, ?_,
          ⟨fun hm => absurd hm Bool.false_ne_true, hred', hcol.2.2.black_of⟩, List.forall_mem_cons.2 ⟨hsums', hpath⟩, rfl, ?_⟩
        · rw [paint_of_black (t := .node a x l r) hx]
          exact h'
        · exact beside_congr rfl rfl rfl (items_paint _ _) ⟨rfl, rfl⟩
    · rw [hrun, if_neg hkids]
      have hkid : isRed sl = true ∨ isRed sr = true := by
        by_contra hne
        rw [not_or] at hne
        exact hkids (by simpa using hne)
      obtain ⟨s', path', hs', h', hcol', hbeside', hp, hb, ha⟩ := lengthenRed_spec h hsib hother hcol hbeside hkid
      refine ⟨s', hs', path', ?_, hcol', hbeside', hp, hb, ha⟩
      rw [paint_of_black (t := .node a x l r) hx]
      exact h'

/-- **The loop of `lengthen`.** -/
theorem lengthenUp_spec : ∀ (fuel : ℕ) {s : DiscretePDF T W} {path : Path (Node T W)} {a : ℕ} {x : Node T W} {l r : Tree T W},
    Shows H s path (.node a x l r) → Coloured path false → (∀ e ∈ path, SumsRight e.other) →
    (x.m_mark = true ∧ 1 ≤ fuel ∨ path.length < fuel) →
    ∃ s', lengthenUp fuel a s = (some ⟨⟩, s') ∧ Lengthened H s' path (.node a x l r) := by
  intro fuel
  induction fuel with
  | zero =>
    intro s path a x l r h hcol hbeside hfuel
    omega
  | succ fuel ih =>
    intro s path a x l r h hcol hbeside hfuel
    rw [lengthenUp, Prog.bind_of_result (isBlack_eq h)]
    cases hx : x.m_mark with
    | true =>
      obtain ⟨s', hs', h'⟩ := markBlack_spec h
      exact ⟨s', hs', path, h', hcol, hbeside, rfl, rfl, rfl⟩
    | false =>
      show ∃ s', (deref a >>= _) s = _ ∧ _
      rw [Prog.bind_of_result (deref_eq h.cell)]
      have hblack : paint false (.node a x l r) = .node a x l r := paint_of_black hx
      cases path with
      | nil => exact ⟨s, rfl, [], hblack ▸ h, hcol, hbeside, rfl, rfl, rfl⟩
      | cons f path =>
        obtain ⟨s₁, f', path', hs₁, h₁, hcol₁, hbeside₁, haddr, hother, hb, ha, hlen⟩ := blackSibling_spec h hcol hbeside
        obtain ⟨s', hs', h'⟩ := lengthenBlack_spec fuel h₁ hx hcol₁ hbeside₁ hother fun {u} e hu he => by
          have hfuel' : f'.label.m_mark = true ∧ 1 ≤ fuel ∨ path'.length < fuel := by
            have hlt : path.length + 1 < fuel + 1 := by simpa [hx] using hfuel
            rcases hlen with hlen | hlen
            · exact .inl ⟨hlen, by omega⟩
            · exact .inr (by omega)
          have hcolPath : Coloured path' false := hcol₁.2.2.black_of
          have hbesidePath : ∀ e ∈ path', SumsRight e.other := fun e he => hbeside₁ e (List.mem_cons_of_mem _ he)
          rw [← he] at hfuel'
          clear hs₁ h₁ hcol₁ hbeside₁ haddr hother hb ha hlen he
          obtain ⟨p, y, side, other⟩ := e
          cases side with
          | true => exact ih hu hcolPath hbesidePath hfuel'
          | false => exact ih hu hcolPath hbesidePath hfuel'
        refine ⟨s', ?_, h'.congr (congrArg some haddr) hb ha⟩
        show (sibling a >>= fun s => blackSibling a f.addr s >>= fun s => lengthenBlack fuel a s) s = _
        rw [Prog.bind_of_result (sibling_eq h), Prog.bind_of_result hs₁, hs']

theorem lengthen_spec (h : Shows H s path (.node a x l r)) (hcol : Coloured path false) (hbeside : ∀ e ∈ path, SumsRight e.other) :
    ∃ s', lengthen a s = (some ⟨⟩, s') ∧ Lengthened H s' path (.node a x l r) := by
  have hcard := h.card_le
  refine lengthenUp_spec (turns s) h hcol hbeside (.inr ?_)
  unfold turns
  omega

end

end SymBisect.DiscretePDF
