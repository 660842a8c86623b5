import Mathlib
import SymBisect.Lib.AssocList

/-!
# Search trees balanced up to two

A binary search tree in which the heights of the subtrees of a node differ by at most two.  `balance` joins two trees whose heights
differ by at most three, with one of four rotations.

* `balance_toList`, `balance_balanced`: the entries stay in order and the slack is restored, at the cost of at most one level.
* `insert_toList`, `replace_toList`, `remove_toList`, `popMin_toList`, `popMax_toList`: the operations on the sorted entries.
* `insert_near` and the like: each keeps the tree balanced and changes the height by at most one.
-/

namespace SymBisect.Lib

/-- A binary tree; `nil` ends every branch. -/
inductive SlackTree (V : Type*) where
  | nil
  | node (left : SlackTree V) (value : V) (right : SlackTree V)

namespace SlackTree

variable {K V : Type*}

def height : SlackTree V → ℕ
  | nil => 0
  | node l _ r => max l.height r.height + 1

/-- The entries, in order. -/
def toList : SlackTree V → List V
  | nil => []
  | node l v r => l.toList ++ v :: r.toList

def size : SlackTree V → ℕ
  | nil => 0
  | node l _ r => l.size + 1 + r.size

/-- At every node the heights of the subtrees differ by at most two. -/
def Balanced : SlackTree V → Prop
  | nil => True
  | node l _ r => l.Balanced ∧ r.Balanced ∧ l.height ≤ r.height + 2 ∧ r.height ≤ l.height + 2

def isNil : SlackTree V → Bool
  | nil => true
  | node _ _ _ => false

theorem size_eq (t : SlackTree V) : t.size = t.toList.length := by
  induction t with
  | nil => rfl
  | node l v r ihl ihr =>
    rw [size, toList, List.length_append, List.length_cons, ihl, ihr]
    omega

theorem isNil_iff {t : SlackTree V} : t.isNil = true ↔ t = nil := by
  cases t with
  | nil => exact ⟨fun _ => rfl, fun _ => rfl⟩
  | node l v r =>
    constructor
    · intro h
      cases h
    · intro h
      cases h

theorem toList_eq_nil {t : SlackTree V} : t.toList = [] ↔ t = nil := by
  cases t with
  | nil => exact ⟨fun _ => rfl, fun _ => rfl⟩
  | node l v r =>
    constructor
    · intro h
      exact absurd h (List.append_ne_nil_of_right_ne_nil _ (List.cons_ne_nil _ _))
    · intro h
      cases h

/-! ### Rotations -/

/-- The left subtree is too high. -/
def rotateRight : SlackTree V → V → SlackTree V → SlackTree V
  | node ll lv (node lrl lrv lrr), v, r =>
    if (node lrl lrv lrr).height ≤ ll.height then node ll lv (node (node lrl lrv lrr) v r)
    else node (node ll lv lrl) lrv (node lrr v r)
  | node ll lv nil, v, r => node ll lv (node nil v r)
  | nil, v, r => node nil v r

/-- The right subtree is too high. -/
def rotateLeft : SlackTree V → V → SlackTree V → SlackTree V
  | l, v, node (node rll rlv rlr) rv rr =>
    if (node rll rlv rlr).height ≤ rr.height then node (node l v (node rll rlv rlr)) rv rr
    else node (node l v rll) rlv (node rlr rv rr)
  | l, v, node nil rv rr => node (node l v nil) rv rr
  | l, v, nil => node l v nil

/-- A tree of two trees and a value between them. -/
def balance (l : SlackTree V) (v : V) (r : SlackTree V) : SlackTree V :=
  if r.height + 2 < l.height then rotateRight l v r
  else if l.height + 2 < r.height then rotateLeft l v r
  else node l v r

theorem rotateRight_of_le {ll lr : SlackTree V} (h : lr.height ≤ ll.height) (lv v : V) (r : SlackTree V) :
    rotateRight (node ll lv lr) v r = node ll lv (node lr v r) := by
  cases lr with
  | nil => rfl
  | node lrl lrv lrr => rw [rotateRight, if_pos h]

theorem rotateLeft_of_le {rl rr : SlackTree V} (h : rl.height ≤ rr.height) (l : SlackTree V) (v rv : V) :
    rotateLeft l v (node rl rv rr) = node (node l v rl) rv rr := by
  cases rl with
  | nil => rfl
  | node rll rlv rlr => rw [rotateLeft, if_pos h]

theorem rotateRight_toList (l : SlackTree V) (v : V) (r : SlackTree V) :
    (rotateRight l v r).toList = l.toList ++ v :: r.toList := by
  cases l with
  | nil => rfl
  | node ll lv lr =>
    cases lr with
    | nil => simp only [rotateRight, toList, List.append_assoc, List.cons_append]
    | node lrl lrv lrr =>
      rw [rotateRight]
      by_cases h : (node lrl lrv lrr).height ≤ ll.height
      · simp only [h, if_true, toList, List.append_assoc, List.cons_append]
      · simp only [h, if_false, toList, List.append_assoc, List.cons_append]

theorem rotateLeft_toList (l : SlackTree V) (v : V) (r : SlackTree V) :
    (rotateLeft l v r).toList = l.toList ++ v :: r.toList := by
  cases r with
  | nil => rfl
  | node rl rv rr =>
    cases rl with
    | nil => simp only [rotateLeft, toList, List.append_assoc, List.cons_append]
    | node rll rlv rlr =>
      rw [rotateLeft]
      by_cases h : (node rll rlv rlr).height ≤ rr.height
      · simp only [h, if_true, toList, List.append_assoc, List.cons_append]
      · simp only [h, if_false, toList, List.append_assoc, List.cons_append]

/-- **The entries stay in order.** -/
theorem balance_toList (l : SlackTree V) (v : V) (r : SlackTree V) : (balance l v r).toList = l.toList ++ v :: r.toList := by
  unfold balance
  split
  · exact rotateRight_toList l v r
  · split
    · exact rotateLeft_toList l v r
    · rfl

theorem rotateRight_balanced {l r : SlackTree V} (v : V) (hl : l.Balanced) (hr : r.Balanced) (h : l.height = r.height + 3) :
    (rotateRight l v r).Balanced ∧ l.height ≤ (rotateRight l v r).height ∧ (rotateRight l v r).height ≤ l.height + 1 := by
  cases l with
  | nil => cases h
  | node ll lv lr =>
    obtain ⟨hll, hlr, hle, hge⟩ := hl
    cases lr with
    | nil =>
      simp only [rotateRight, Balanced, height] at *
      exact ⟨⟨hll, ⟨trivial, hr, by omega, by omega⟩, by omega, by omega⟩, by omega, by omega⟩
    | node lrl lrv lrr =>
      rw [rotateRight]
      by_cases hcase : (node lrl lrv lrr).height ≤ ll.height
      · rw [if_pos hcase]
        rw [height] at h
        refine ⟨⟨hll, ⟨hlr, hr, by omega, by omega⟩, ?_, ?_⟩, ?_, ?_⟩
        all_goals
          simp only [height] at *
          omega
      · obtain ⟨hlrl, hlrr, hle', hge'⟩ := hlr
        rw [if_neg hcase]
        simp only [height] at h hcase hle hge
        refine ⟨⟨⟨hll, hlrl, by omega, by omega⟩, ⟨hlrr, hr, by omega, by omega⟩, ?_, ?_⟩, ?_, ?_⟩
        all_goals
          simp only [height]
          omega

theorem rotateLeft_balanced {l r : SlackTree V} (v : V) (hl : l.Balanced) (hr : r.Balanced) (h : r.height = l.height + 3) :
    (rotateLeft l v r).Balanced ∧ r.height ≤ (rotateLeft l v r).height ∧ (rotateLeft l v r).height ≤ r.height + 1 := by
  cases r with
  | nil => cases h
  | node rl rv rr =>
    obtain ⟨hrl, hrr, hle, hge⟩ := hr
    cases rl with
    | nil =>
      simp only [rotateLeft, Balanced, height] at *
      exact ⟨⟨⟨hl, trivial, by omega, by omega⟩, hrr, by omega, by omega⟩, by omega, by omega⟩
    | node rll rlv rlr =>
      rw [rotateLeft]
      by_cases hcase : (node rll rlv rlr).height ≤ rr.height
      · rw [if_pos hcase]
        rw [height] at h
        refine ⟨⟨⟨hl, hrl, by omega, by omega⟩, hrr, ?_, ?_⟩, ?_, ?_⟩
        all_goals
          simp only [height] at *
          omega
      · obtain ⟨hrll, hrlr, hle', hge'⟩ := hrl
        rw [if_neg hcase]
        simp only [height] at h hcase hle hge
        refine ⟨⟨⟨hl, hrll, by omega, by omega⟩, ⟨hrlr, hrr, by omega, by omega⟩, ?_, ?_⟩, ?_, ?_⟩
        all_goals
          simp only [height]
          omega

/-- **The slack is restored**: the result is as high as the join, or by one level lower when it was rotated. -/
theorem balance_balanced {l r : SlackTree V} (v : V) (hl : l.Balanced) (hr : r.Balanced) (hlr : l.height ≤ r.height + 3)
    (hrl : r.height ≤ l.height + 3) :
    (balance l v r).Balanced ∧ max l.height r.height ≤ (balance l v r).height ∧
      (balance l v r).height ≤ max l.height r.height + 1 ∧
      (l.height ≤ r.height + 2 → r.height ≤ l.height + 2 → (balance l v r).height = max l.height r.height + 1) := by
  unfold balance
  by_cases hleft : r.height + 2 < l.height
  · rw [if_pos hleft]
    obtain ⟨hbal, hlow, hhigh⟩ := rotateRight_balanced v hl hr (by omega)
    exact ⟨hbal, by omega, by omega, fun h _ => by omega⟩
  · rw [if_neg hleft]
    by_cases hright : l.height + 2 < r.height
    · rw [if_pos hright]
      obtain ⟨hbal, hlow, hhigh⟩ := rotateLeft_balanced v hl hr (by omega)
      exact ⟨hbal, by omega, by omega, fun _ h => by omega⟩
    · rw [if_neg hright]
      exact ⟨⟨hl, hr, by omega, by omega⟩, by rw [height]; omega, le_of_eq rfl, fun _ _ => rfl⟩

/-- Balanced, and by at most one level higher or lower. -/
structure Near (t t' : SlackTree V) : Prop where
  balanced : t'.Balanced
  le : t'.height ≤ t.height + 1
  ge : t.height ≤ t'.height + 1

theorem Near.refl {t : SlackTree V} (h : t.Balanced) : Near t t := ⟨h, Nat.le_succ _, Nat.le_succ _⟩

/-- **A changed left subtree** is joined again. -/
theorem Near.balance_left {l l' r : SlackTree V} {x : V} (h : (node l x r).Balanced) (hl : Near l l') (v : V) :
    Near (node l x r) (balance l' v r) := by
  obtain ⟨-, hr, hle, hge⟩ := h
  obtain ⟨hbal, hlow, hup⟩ := hl
  obtain ⟨hres, hmin, hmax, hexact⟩ := balance_balanced v hbal hr (by omega) (by omega)
  refine ⟨hres, ?_, ?_⟩
  · rw [height]
    omega
  · rw [height]
    by_cases hrot : l'.height ≤ r.height + 2 ∧ r.height ≤ l'.height + 2
    · rw [hexact hrot.1 hrot.2]
      omega
    · omega

/-- **A changed right subtree** is joined again. -/
theorem Near.balance_right {l r r' : SlackTree V} {x : V} (h : (node l x r).Balanced) (hr : Near r r') (v : V) :
    Near (node l x r) (balance l v r') := by
  obtain ⟨hl, -, hle, hge⟩ := h
  obtain ⟨hbal, hlow, hup⟩ := hr
  obtain ⟨hres, hmin, hmax, hexact⟩ := balance_balanced v hl hbal (by omega) (by omega)
  refine ⟨hres, ?_, ?_⟩
  · rw [height]
    omega
  · rw [height]
    by_cases hrot : l.height ≤ r'.height + 2 ∧ r'.height ≤ l.height + 2
    · rw [hexact hrot.1 hrot.2]
      omega
    · omega

/-! ### The first and the last entry -/

section Pop

variable [Inhabited V]

/-- The first entry and the tree without it. -/
def popMin : SlackTree V → V × SlackTree V
  | nil => (default, nil)
  | node l v r => if l.isNil then (v, r) else ((popMin l).1, balance (popMin l).2 v r)

/-- The last entry and the tree without it. -/
def popMax : SlackTree V → V × SlackTree V
  | nil => (default, nil)
  | node l v r => if r.isNil then (v, l) else ((popMax r).1, balance l v (popMax r).2)

theorem popMin_toList {t : SlackTree V} (h : t ≠ nil) : t.toList = (popMin t).1 :: (popMin t).2.toList := by
  induction t with
  | nil => exact absurd rfl h
  | node l v r ihl ihr =>
    rw [popMin]
    by_cases hnil : l.isNil = true
    · rw [if_pos hnil, isNil_iff.1 hnil]
      rfl
    · have hl : l ≠ nil := fun heq => hnil (isNil_iff.2 heq)
      rw [if_neg hnil, toList, ihl hl, balance_toList]
      rfl

theorem popMax_toList {t : SlackTree V} (h : t ≠ nil) : t.toList = (popMax t).2.toList ++ [(popMax t).1] := by
  induction t with
  | nil => exact absurd rfl h
  | node l v r ihl ihr =>
    rw [popMax]
    by_cases hnil : r.isNil = true
    · rw [if_pos hnil, isNil_iff.1 hnil]
      rfl
    · have hr : r ≠ nil := fun heq => hnil (isNil_iff.2 heq)
      rw [if_neg hnil, toList, ihr hr, balance_toList, List.append_assoc]
      rfl

theorem popMin_near {t : SlackTree V} (h : t.Balanced) : Near t (popMin t).2 := by
  induction t with
  | nil => exact .refl h
  | node l v r ihl ihr =>
    rw [popMin]
    by_cases hnil : l.isNil = true
    · have hheight : (node l v r).height = max l.height r.height + 1 := rfl
      have hzero : l.height = 0 := by rw [isNil_iff.1 hnil]; rfl
      rw [if_pos hnil]
      exact ⟨h.2.1, show r.height ≤ _ by omega, show _ ≤ r.height + 1 by omega⟩
    · rw [if_neg hnil]
      exact Near.balance_left h (ihl h.1) v

theorem popMax_near {t : SlackTree V} (h : t.Balanced) : Near t (popMax t).2 := by
  induction t with
  | nil => exact .refl h
  | node l v r ihl ihr =>
    rw [popMax]
    by_cases hnil : r.isNil = true
    · have hheight : (node l v r).height = max l.height r.height + 1 := rfl
      have hzero : r.height = 0 := by rw [isNil_iff.1 hnil]; rfl
      rw [if_pos hnil]
      exact ⟨h.1, show l.height ≤ _ by omega, show _ ≤ l.height + 1 by omega⟩
    · rw [if_neg hnil]
      exact Near.balance_right h (ihr h.2.1) v

end Pop

/-! ### Updates -/

section Updates

variable (o : KeyOrder K V)

/-- The tree `absent` in place of no entry for `k`, and `present` of a node that holds one. -/
def updateAt (k : K) (absent : SlackTree V) (present : SlackTree V → V → SlackTree V → SlackTree V) : SlackTree V → SlackTree V
  | nil => absent
  | node l x r =>
    if o.lt k (o.key x) then balance (updateAt k absent present l) x r
    else if o.lt (o.key x) k then balance l x (updateAt k absent present r)
    else present l x r

/-- A new entry, unless there is one for its key. -/
def insert (v : V) : SlackTree V → SlackTree V := updateAt o (o.key v) (node nil v nil) fun l x r => node l x r

/-- A new entry in place of the one for its key. -/
def replace (v : V) : SlackTree V → SlackTree V := updateAt o (o.key v) (node nil v nil) fun l _ r => node l v r

/-- The subtrees of a node that is removed. -/
def join [Inhabited V] (l r : SlackTree V) : SlackTree V :=
  if l.isNil then r else if r.isNil then l else balance l (popMin r).1 (popMin r).2

/-- No entry for the key. -/
def remove [Inhabited V] (k : K) : SlackTree V → SlackTree V := updateAt o k nil fun l _ r => join l r

variable {o} {k : K} {absent : SlackTree V} {present : SlackTree V → V → SlackTree V → SlackTree V}

theorem updateAt_toList {present' : V → List V} (hpresent : ∀ l x r, (present l x r).toList = l.toList ++ (present' x ++ r.toList))
    {t : SlackTree V} (h : o.Sorted t.toList) :
    (updateAt o k absent present t).toList = o.updateAt k absent.toList present' t.toList := by
  induction t with
  | nil => rfl
  | node l x r ihl ihr =>
    rw [toList] at h
    obtain ⟨hl, hr, hlx, hxr⟩ := o.sorted_append_cons.1 h
    rw [updateAt, toList]
    by_cases hkx : o.lt k (o.key x) = true
    · rw [if_pos hkx, balance_toList, ihl hl, KeyOrder.updateAt_left hkx]
    · rw [if_neg hkx]
      by_cases hxk : o.lt (o.key x) k = true
      · rw [if_pos hxk, balance_toList, ihr hr, KeyOrder.updateAt_right hlx hxk]
      · rw [Bool.not_eq_true] at hkx
        rw [if_neg hxk, hpresent]
        rw [Bool.not_eq_true] at hxk
        rw [KeyOrder.updateAt_root hlx hkx hxk]

theorem updateAt_near (habsent : Near nil absent) (hpresent : ∀ l x r, (node l x r).Balanced → Near (node l x r) (present l x r))
    {t : SlackTree V} (h : t.Balanced) : Near t (updateAt o k absent present t) := by
  induction t with
  | nil => exact habsent
  | node l x r ihl ihr =>
    rw [updateAt]
    by_cases hkx : o.lt k (o.key x) = true
    · rw [if_pos hkx]
      exact Near.balance_left h (ihl h.1) x
    · rw [if_neg hkx]
      by_cases hxk : o.lt (o.key x) k = true
      · rw [if_pos hxk]
        exact Near.balance_right h (ihr h.2.1) x
      · rw [if_neg hxk]
        exact hpresent l x r h

/-- **Insertion** is insertion in the sorted entries. -/
theorem insert_toList {t : SlackTree V} (v : V) (h : o.Sorted t.toList) : (insert o v t).toList = o.insert v t.toList :=
  updateAt_toList (fun _ _ _ => rfl) h

theorem replace_toList {t : SlackTree V} (v : V) (h : o.Sorted t.toList) : (replace o v t).toList = o.replace v t.toList :=
  updateAt_toList (fun _ _ _ => rfl) h

theorem near_single (v : V) : Near nil (node nil v nil) := ⟨⟨trivial, trivial, Nat.zero_le _, Nat.zero_le _⟩, le_rfl, Nat.zero_le _⟩

theorem insert_near {t : SlackTree V} (v : V) (h : t.Balanced) : Near t (insert o v t) :=
  updateAt_near (near_single v) (fun _ _ _ hnode => .refl hnode) h

theorem near_value {l r : SlackTree V} {x : V} (h : (node l x r).Balanced) (v : V) : Near (node l x r) (node l v r) :=
  ⟨h, Nat.le_succ _, Nat.le_succ _⟩

theorem replace_near {t : SlackTree V} (v : V) (h : t.Balanced) : Near t (replace o v t) :=
  updateAt_near (near_single v) (fun _ _ _ hnode => near_value hnode v) h

variable [Inhabited V]

theorem join_toList (l r : SlackTree V) : (join l r).toList = l.toList ++ r.toList := by
  unfold join
  by_cases hl : l.isNil = true
  · rw [if_pos hl, isNil_iff.1 hl]
    rfl
  · rw [if_neg hl]
    by_cases hr : r.isNil = true
    · rw [if_pos hr, isNil_iff.1 hr]
      exact (List.append_nil _).symm
    · have hne : r ≠ nil := fun heq => hr (isNil_iff.2 heq)
      rw [if_neg hr, balance_toList, ← popMin_toList hne]

theorem join_near {l r : SlackTree V} {x : V} (h : (node l x r).Balanced) : Near (node l x r) (join l r) := by
  have hheight : (node l x r).height = max l.height r.height + 1 := rfl
  unfold join
  by_cases hl : l.isNil = true
  · rw [if_pos hl]
    have hzero : l.height = 0 := by rw [isNil_iff.1 hl]; rfl
    exact ⟨h.2.1, by omega, by omega⟩
  · rw [if_neg hl]
    by_cases hr : r.isNil = true
    · rw [if_pos hr]
      have hzero : r.height = 0 := by rw [isNil_iff.1 hr]; rfl
      exact ⟨h.1, by omega, by omega⟩
    · rw [if_neg hr]
      exact Near.balance_right h (popMin_near h.2.1) _

theorem remove_toList {t : SlackTree V} (k : K) (h : o.Sorted t.toList) : (remove o k t).toList = o.remove k t.toList :=
  updateAt_toList (fun l _ r => join_toList l r) h

theorem remove_near {t : SlackTree V} (k : K) (h : t.Balanced) : Near t (remove o k t) :=
  updateAt_near (.refl trivial) (fun _ _ _ hnode => join_near hnode) h

end Updates

end SlackTree

end SymBisect.Lib
