import SymBisect.ADT.DiscretePDFRemove

/-!
# Runs of the weighted tree

* `choose_spec`: an item is chosen by the sums of the weights before it.
* `Op.run_spec`, `runAll_spec`: the tree is right after every sequence of operations that insert absent items only, and update and
  remove present ones only.
-/

namespace SymBisect.DiscretePDF

open Lib LinkedHeap LinkedTree

variable {T W : Type}

/-! ### `choose` -/

section

variable [AddCommMonoid W]

/-- Every node keeps the sum of the weights of the items below it. -/
def SumsExact : Tree T W → Prop
  | .nil => True
  | .node a x l r => x.sumWeights = ((items (.node a x l r)).map Prod.snd).sum ∧ SumsExact l ∧ SumsExact r

theorem SumsRight.exact {t : Tree T W} (h : SumsRight t) : SumsExact t := by
  induction t with
  | nil => trivial
  | node a x l r ihl ihr => exact ⟨h.sumOf_eq, ihl h.2.1, ihr h.2.2⟩

/-- The weights of a list of items. -/
def total (all : List (T × W)) : W := (all.map Prod.snd).sum

/-- The weights up to the item are those up to `w`: its interval is the one that `w` is in. -/
def Interval [LE W] [LT W] (all : List (T × W)) (w : W) (k : T) : Prop :=
  ∃ pre v post, all = pre ++ (k, v) :: post ∧ total pre ≤ w ∧ w < total pre + v

end

section

variable [Field W] [LinearOrder W] [IsStrictOrderedRing W] {H : ℕ → Option (Cell (Node T W))} {s : DiscretePDF T W}
  {all : List (T × W)}

/-- The intervals of the items are apart. -/
theorem Interval.unique {w : W} {k k' : T} (hpos : ∀ e ∈ all, 0 ≤ e.2) (h : Interval all w k) (h' : Interval all w k') : k = k' := by
  obtain ⟨pre, v, post, hall, hle, hlt⟩ := h
  obtain ⟨pre', v', post', hall', hle', hlt'⟩ := h'
  -- an item further on has the whole interval of this one before it
  have hapart : ∀ {pre pre' post post' : List (T × W)} {e e' : T × W}, all = pre ++ e :: post → all = pre' ++ e' :: post' →
      pre.length < pre'.length → total pre + e.2 ≤ total pre' := by
    intro pre pre' post post' e e' hall hall' hlen
    have hprefix : (pre ++ [e]) <+: pre' := by
      refine List.prefix_of_prefix_length_le ⟨post, by simp [hall]⟩ ⟨e' :: post', hall'.symm⟩ ?_
      simpa using hlen
    obtain ⟨rest, rfl⟩ := hprefix
    have hrest : 0 ≤ total rest := by
      refine List.sum_nonneg fun u hu => ?_
      obtain ⟨d, hd, rfl⟩ := List.mem_map.1 hu
      exact hpos d (by simp [hall', hd])
    have hsum : total (pre ++ [e] ++ rest) = total pre + e.2 + total rest := by simp [total, add_assoc]
    rw [hsum]
    exact le_add_of_nonneg_right hrest
  rcases lt_trichotomy pre.length pre'.length with hlen | hlen | hlen
  · exact absurd (hlt.trans_le (hapart hall hall' hlen)) (not_lt.2 hle')
  · obtain ⟨-, heq⟩ := List.append_inj (hall.symm.trans hall') hlen
    exact congrArg Prod.fst (List.cons.inj heq).1
  · exact absurd (hlt'.trans_le (hapart hall' hall hlen)) (not_lt.2 hle)

/-- **The loop of `choose`.** -/
theorem chooseLoop_spec (t : Tree T W) : ∀ {fuel : ℕ} {w : W} {path : Path (Node T W)} {a : ℕ}, Shows H s path t → SumsRight t →
    t.link = some a → 0 ≤ w → w < total (items t) → t.size ≤ fuel →
    ∃ k, chooseLoop fuel w a s = (some k, s) ∧ Interval (items t) w k := by
  induction t with
  | nil =>
    intro fuel w path a h hsums hlink hpos hlt hfuel
    cases hlink
  | node b x l r ihl ihr =>
    intro fuel w path a h hsums hlink hpos hlt hfuel
    obtain rfl := Option.some.inj hlink
    rw [LinkedTree.size] at hfuel
    obtain ⟨fuel, rfl⟩ : ∃ k, fuel = k + 1 := ⟨fuel - 1, by omega⟩
    have hl : sumOf l = total (items l) := hsums.2.1.sumOf_eq
    have htotal : total (items (.node b x l r)) = total (items l) + x.weight + total (items r) := by
      simp [total, items, add_assoc]
    rw [htotal] at hlt
    have hend : chooseNext w (sumOf l) ⟨x, Path.parent path, l.link, r.link⟩ = none →
        chooseLoop (fuel + 1) w b s = (some x.key, s) := by
      rw [chooseLoop, Prog.bind_of_result (deref_eq h.cell), Prog.bind_of_result (linkSum_eq (downLeft h))]
      generalize chooseNext w (sumOf l) ⟨x, Path.parent path, l.link, r.link⟩ = next
      intro hnext
      subst hnext
      rfl
    have hgo : ∀ next, chooseNext w (sumOf l) ⟨x, Path.parent path, l.link, r.link⟩ = some next →
        chooseLoop (fuel + 1) w b s = chooseLoop fuel next.1 next.2 s := by
      intro next
      rw [chooseLoop, Prog.bind_of_result (deref_eq h.cell), Prog.bind_of_result (linkSum_eq (downLeft h))]
      generalize chooseNext w (sumOf l) ⟨x, Path.parent path, l.link, r.link⟩ = next'
      intro hnext
      subst hnext
      rfl
    -- the rest of the turn, once the weights on the left are taken off
    have hhere : ∀ {w' : W}, chooseNext w (sumOf l) ⟨x, Path.parent path, l.link, r.link⟩ =
        chooseHere w' ⟨x, Path.parent path, l.link, r.link⟩ → 0 ≤ w' → w = total (items l) + w' → ∃ k,
        chooseLoop (fuel + 1) w b s = (some k, s) ∧ Interval (items (.node b x l r)) w k := by
      intro w' hnext hpos' hw
      have hself : w' < x.weight → Interval (items (.node b x l r)) w x.key := fun hlt' =>
        ⟨items l, x.weight, items r, rfl, hw ▸ le_add_of_nonneg_right hpos', hw ▸ add_lt_add_right hlt' _⟩
      cases r with
      | nil =>
        refine ⟨x.key, hend hnext, hself ?_⟩
        have hnil : total (items (.nil : Tree T W)) = 0 := rfl
        rw [hnil, add_zero, hw] at hlt
        exact lt_of_add_lt_add_left hlt
      | node c y rl rr =>
        by_cases hhere : w' < x.weight
        · exact ⟨x.key, hend (hnext.trans (if_pos hhere)), hself hhere⟩
        · have hsize : (LinkedTree.node c y rl rr).size ≤ fuel := by omega
          obtain ⟨k, hk, pre, v, post, hitems, hle, hup⟩ := ihr (downRight h) hsums.2.2 rfl (sub_nonneg.2 (not_lt.1 hhere))
            (by linarith) hsize
          have hpre : total (items l ++ (x.key, x.weight) :: pre) = total (items l) + (x.weight + total pre) := by simp [total]
          refine ⟨k, (hgo _ (hnext.trans (if_neg hhere))).trans hk, items l ++ (x.key, x.weight) :: pre, v, post, ?_, ?_, ?_⟩
          · rw [items, hitems]
            simp
          · rw [hpre]
            linarith
          · rw [hpre]
            linarith
    cases l with
    | nil => exact hhere rfl hpos (by simp [total, items])
    | node c y ll lr =>
      by_cases hw : w < sumOf (LinkedTree.node c y ll lr)
      · have hsize : (LinkedTree.node c y ll lr).size ≤ fuel := by omega
        obtain ⟨k, hk, pre, v, post, hitems, hle, hup⟩ := ihl (downLeft h) hsums.2.1 rfl hpos (hl ▸ hw) hsize
        refine ⟨k, (hgo _ (if_pos hw)).trans hk, pre, v, post ++ (x.key, x.weight) :: items r, ?_, hle, hup⟩
        rw [items, hitems]
        simp
      · exact hhere (if_neg hw) (sub_nonneg.2 (not_lt.1 hw)) (by rw [← hl, add_sub_cancel])

/-- **`choose`.** -/
theorem choose_spec {p : W} (h : Right H s all) (hpos : ∀ e ∈ all, 0 ≤ e.2) (htotal : 0 < total all) (hp : 0 ≤ p) (hp' : p < 1) :
    ∃ k, choose p s = (some k, s) ∧ ∀ k', Interval all (p * total all) k' ↔ k' = k := by
  obtain ⟨t, hshows, -, -, hsums, rfl⟩ := h
  cases t with
  | nil => exact absurd htotal (lt_irrefl _)
  | node a x l r =>
    have hsize : (LinkedTree.node a x l r).size ≤ turns s := by
      have hcard := hshows.card_le
      unfold turns
      omega
    obtain ⟨k, hk, hinterval⟩ := chooseLoop_spec (w := sumOf (LinkedTree.node a x l r) * p) (.node a x l r) hshows hsums rfl
      (by rw [hsums.sumOf_eq]; exact mul_nonneg htotal.le hp)
      (by rw [hsums.sumOf_eq]; exact mul_lt_of_lt_one_right htotal hp') hsize
    rw [hsums.sumOf_eq, mul_comm] at hinterval
    refine ⟨k, ?_, fun k' => ⟨fun h' => h'.unique hpos hinterval, fun heq => heq ▸ hinterval⟩⟩
    have hroot : s.root = some a := hshows.rest
    unfold choose
    rw [Prog.bind_of_result (show Prog.assert (0 ≤ p ∧ p < 1) s = (some ⟨⟩, s) from congrFun (if_pos ⟨hp, hp'⟩) s)]
    show (Prog.unwrap s.root >>= _) s = _
    rw [hroot]
    show (deref a >>= _) s = _
    rw [Prog.bind_of_result (deref_eq hshows.cell)]
    exact hk

end

/-! ### Sequences of operations -/

/-- An operation that changes the tree. -/
inductive Op (T W : Type) where
  | insert (item : T) (weight : W)
  | update (item : T) (weight : W)
  | remove (item : T)

section

variable [LinearOrder T]

/-- What an operation does to the weights of the present items. -/
def Op.effect (m : T → Option W) : Op T W → T → Option W
  | .insert item weight => Function.update m item (some weight)
  | .update item weight => Function.update m item (some weight)
  | .remove item => Function.update m item none

/-- Its precondition: an absent item is inserted, a present one is updated or removed. -/
def Op.Allowed (m : T → Option W) : Op T W → Prop
  | .insert item _ => m item = none
  | .update item _ => m item ≠ none
  | .remove item => m item ≠ none

/-- The weights of the items that are present after a sequence. -/
def present (m : T → Option W) : List (Op T W) → T → Option W
  | [] => m
  | op :: ops => present (op.effect m) ops

/-- Every operation of a sequence is allowed when it comes. -/
def AllAllowed (m : T → Option W) : List (Op T W) → Prop
  | [] => True
  | op :: ops => op.Allowed m ∧ AllAllowed (op.effect m) ops

/-- The list of items is that of a map. -/
structure Lists (all : List (T × W)) (m : T → Option W) : Prop where
  sorted : all.Pairwise fun e e' => e.1 < e'.1
  mem_iff : ∀ k w, (k, w) ∈ all ↔ m k = some w

variable {m : T → Option W} {all : List (T × W)} {item : T}

theorem Lists.absent (h : Lists all m) (hm : m item = none) : ∀ e ∈ all, e.1 ≠ item := by
  intro e he heq
  have hmem := (h.mem_iff e.1 e.2).1 he
  rw [heq, hm] at hmem
  cases hmem

theorem Lists.present (h : Lists all m) (hm : m item ≠ none) : item ∈ all.map Prod.fst := by
  obtain ⟨w, hw⟩ := Option.ne_none_iff_exists'.1 hm
  exact List.mem_map.2 ⟨(item, w), (h.mem_iff item w).2 hw, rfl⟩

theorem Lists.inserted (h : Lists all m) (hm : m item = none) (weight : W) :
    Lists (inserted item weight all) (Function.update m item (some weight)) := by
  refine ⟨?_, fun k w => ?_⟩
  · refine List.pairwise_append.2 ⟨h.sorted.filter _, List.pairwise_cons.2 ⟨fun e he => ?_, h.sorted.filter _⟩, fun e he e' he' => ?_⟩
    · simpa using (List.mem_filter.1 he).2
    · have hlt : e.1 < item := by simpa using (List.mem_filter.1 he).2
      obtain rfl | he' := List.mem_cons.1 he'
      · exact hlt
      · exact hlt.trans (by simpa using (List.mem_filter.1 he').2)
  · have habsent := h.absent hm
    rw [DiscretePDF.inserted, List.mem_append, List.mem_cons, List.mem_filter, List.mem_filter, h.mem_iff]
    by_cases hk : k = item
    · subst hk
      rw [Function.update_self]
      simp [eq_comm]
    · rw [Function.update_of_ne hk]
      simp [hk, ← and_or_left]

theorem Lists.updated (h : Lists all m) (hm : m item ≠ none) (weight : W) :
    Lists (updated item weight all) (Function.update m item (some weight)) := by
  have hkey : ∀ e : T × W, (if e.1 = item then (e.1, weight) else e).1 = e.1 := fun e => by
    by_cases he : e.1 = item
    · rw [if_pos he]
    · rw [if_neg he]
  refine ⟨?_, fun k w => ?_⟩
  · refine List.pairwise_map.2 (h.sorted.imp fun {e e'} hlt => ?_)
    rw [hkey, hkey]
    exact hlt
  · rw [DiscretePDF.updated, List.mem_map]
    by_cases hk : k = item
    · subst hk
      rw [Function.update_self]
      constructor
      · rintro ⟨e, he, heq⟩
        have hek : e.1 = k := (hkey e).symm.trans (congrArg Prod.fst heq)
        rw [if_pos hek] at heq
        exact congrArg some (congrArg Prod.snd heq)
      · intro hw
        obtain ⟨e, he, hek⟩ := List.mem_map.1 (h.present hm)
        refine ⟨e, he, ?_⟩
        rw [if_pos hek, hek, Option.some.inj hw]
    · rw [Function.update_of_ne hk, ← h.mem_iff]
      constructor
      · rintro ⟨e, he, heq⟩
        have hek : e.1 = k := (hkey e).symm.trans (congrArg Prod.fst heq)
        rw [if_neg (hek ▸ hk)] at heq
        exact heq ▸ he
      · exact fun he => ⟨_, he, if_neg hk⟩

theorem Lists.removed (h : Lists all m) (item : T) : Lists (all.filter fun e => e.1 ≠ item) (Function.update m item none) := by
  refine ⟨h.sorted.filter _, fun k w => ?_⟩
  rw [List.mem_filter, h.mem_iff]
  by_cases hk : k = item
  · subst hk
    simp
  · rw [Function.update_of_ne hk]
    simp [hk]

variable [AddCommMonoid W] {H : ℕ → Option (Cell (Node T W))} {s : DiscretePDF T W}

def Op.run : Op T W → Prog (DiscretePDF T W) PUnit
  | .insert item weight => DiscretePDF.insert item weight
  | .update item weight => DiscretePDF.update item weight
  | .remove item => DiscretePDF.remove item

def runAll : List (Op T W) → Prog (DiscretePDF T W) PUnit
  | [] => pure ⟨⟩
  | op :: ops => do
    op.run
    runAll ops

/-- **One operation.** -/
theorem Op.run_spec (op : Op T W) (h : Right H s all) (hm : Lists all m) (hop : op.Allowed m) :
    ∃ s' all', op.run s = (some ⟨⟩, s') ∧ Right H s' all' ∧ Lists all' (op.effect m) := by
  cases op with
  | insert item weight =>
    obtain ⟨s', hs', h'⟩ := insert_spec weight h hm.sorted (hm.absent hop)
    exact ⟨s', _, hs', h', hm.inserted hop weight⟩
  | update item weight =>
    obtain ⟨s', hs', h'⟩ := update_spec weight h hm.sorted (hm.present hop)
    exact ⟨s', _, hs', h', hm.updated hop weight⟩
  | remove item =>
    obtain ⟨s', hs', h'⟩ := remove_spec h hm.sorted (hm.present hop)
    exact ⟨s', _, hs', h', hm.removed item⟩

/-- **A sequence of operations.** -/
theorem runAll_spec (ops : List (Op T W)) (h : Right H s all) (hm : Lists all m) (hops : AllAllowed m ops) :
    ∃ s' all', runAll ops s = (some ⟨⟩, s') ∧ Right H s' all' ∧ Lists all' (present m ops) := by
  induction ops generalizing s all m with
  | nil => exact ⟨s, all, rfl, h, hm⟩
  | cons op ops ih =>
    obtain ⟨s₁, all₁, hs₁, h₁, hm₁⟩ := op.run_spec h hm hops.1
    obtain ⟨s', all', hs', h', hm'⟩ := ih h₁ hm₁ hops.2
    exact ⟨s', all', (Prog.bind_of_result hs₁).trans hs', h', hm'⟩

omit [LinearOrder T] in
theorem right_empty : Right (fun _ => none) (LinkedHeap.empty : DiscretePDF T W) [] := by
  refine ⟨.nil, ⟨trivial, rfl, ?_, ?_, fun _ _ => rfl, fun _ _ => rfl, fun _ _ => rfl⟩, trivial, rfl, trivial, rfl⟩
  · exact Multiset.nodup_zero
  · intro a ha
    cases ha

end

/-- **The weighted tree.**  Every sequence of operations that insert absent items and update and remove present ones runs to its end,
without a missing parent or child.  Then the cells are exactly the nodes of a tree with its links, those to the parents among them;
its items in order are those that are present; no red node has a red child, and the root is black; every node keeps the sum of the
weights below it; and when no weight is negative and their sum is positive, `choose` returns the item whose interval the number is
in. -/
theorem runAll_right [LinearOrder T] [Field W] [LinearOrder W] [IsStrictOrderedRing W] (ops : List (Op T W))
    (hops : AllAllowed (fun _ => none) ops) :
    ∃ s t, runAll ops LinkedHeap.empty = (some ⟨⟩, s) ∧ Shows (fun _ => none) s [] t ∧ Lists (items t) (present (fun _ => none) ops) ∧
      NoRedRed t ∧ isRed t = false ∧ SumsExact t ∧
      ((∀ e ∈ items t, 0 ≤ e.2) → 0 < total (items t) → ∀ p : W, 0 ≤ p → p < 1 →
        ∃ k, choose p s = (some k, s) ∧ ∀ k', Interval (items t) (p * total (items t)) k' ↔ k' = k) := by
  have hempty : Lists ([] : List (T × W)) fun _ => none := ⟨.nil, fun k w => by simp⟩
  obtain ⟨s, all, hs, h, hm⟩ := runAll_spec ops right_empty hempty hops
  have hchoose := fun hpos htotal (p : W) hp hp' => choose_spec (p := p) h hpos htotal hp hp'
  obtain ⟨t, hshows, hred, hblack, hsums, rfl⟩ := h
  exact ⟨s, t, hs, hshows, hm, hred, hblack, hsums.exact, hchoose⟩

theorem runAll_right_three :
    ∃ s t, runAll [.insert 3 1, .insert 1 2, .insert 2 5, .update 1 4, .remove (3 : ℕ)] LinkedHeap.empty = (some ⟨⟩, s) ∧
      Shows (fun _ => none) s [] t ∧
      Lists (items t) (present (fun _ => none) [.insert 3 1, .insert 1 2, .insert 2 5, .update 1 4, .remove 3]) ∧
      NoRedRed t ∧ isRed t = false ∧ SumsExact t ∧
      ((∀ e ∈ items t, 0 ≤ e.2) → 0 < total (items t) → ∀ p : ℚ, 0 ≤ p → p < 1 →
        ∃ k, choose p s = (some k, s) ∧ ∀ k', Interval (items t) (p * total (items t)) k' ↔ k' = k) :=
  runAll_right _ (by simp [AllAllowed, Op.Allowed, Op.effect, Function.update])

end SymBisect.DiscretePDF
