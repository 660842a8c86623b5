import Mathlib.Logic.Relation
import Mathlib.Data.List.Basic

/-!
# Walks and dominance

A walk through a relation is the list of the places it passes.  A place dominates another one if it is on every walk
from the root to it.

* `Walk.reaches`: what a walk passes can be reached.
* `StrictlyDominates`: dominance by another place.
* `IsDominatorTree.ancestor_iff`: the ancestors in a dominator tree are the strict dominators.
-/

namespace SymBisect.Lib

variable {α : Type*} {r : α → α → Prop} {a b c d : α} {w : List α}

/-- A walk from `a` to `b` along `r`, with the places it passes. -/
inductive Walk (r : α → α → Prop) : α → α → List α → Prop
  | single (a : α) : Walk r a a [a]
  | cons {a b c : α} {w : List α} : r a b → Walk r b c w → Walk r a c (a :: w)

namespace Walk

theorem first_mem (h : Walk r a b w) : a ∈ w := by
  cases h with
  | single => exact List.mem_cons_self
  | cons _ _ => exact List.mem_cons_self

theorem last_mem (h : Walk r a b w) : b ∈ w := by
  induction h with
  | single => exact List.mem_cons_self
  | cons _ _ ih => exact List.mem_cons_of_mem _ ih

/-- What a walk passes can be reached from its start. -/
theorem reaches (h : Walk r a b w) (hc : c ∈ w) : Relation.ReflTransGen r a c := by
  induction h with
  | single a =>
    obtain rfl := List.mem_singleton.1 hc
    exact .refl
  | cons hr _ ih =>
    obtain rfl | hc := List.mem_cons.1 hc
    · exact .refl
    · exact .head hr (ih hc)

/-- A walk can be cut at any place that it passes. -/
theorem cut (h : Walk r a b w) (hc : c ∈ w) : ∃ w', Walk r a c w' ∧ w' ⊆ w := by
  induction h with
  | single a =>
    obtain rfl := List.mem_singleton.1 hc
    exact ⟨_, .single _, List.Subset.refl _⟩
  | cons hr _ ih =>
    obtain rfl | hc := List.mem_cons.1 hc
    · exact ⟨_, .single _, List.cons_subset.2 ⟨List.mem_cons_self, List.nil_subset _⟩⟩
    · obtain ⟨w', hw', hsub⟩ := ih hc
      exact ⟨_, .cons hr hw', List.cons_subset_cons _ hsub⟩

/-- Cut before its end, a walk is shorter. -/
theorem cut_lt (h : Walk r a b w) (hc : c ∈ w) (hne : c ≠ b) : ∃ w', Walk r a c w' ∧ w'.length < w.length := by
  induction h with
  | single a =>
    obtain rfl := List.mem_singleton.1 hc
    exact absurd rfl hne
  | @cons a b d w hr hw ih =>
    obtain rfl | hc := List.mem_cons.1 hc
    · refine ⟨_, .single _, ?_⟩
      have hpos := List.length_pos_of_mem hw.first_mem
      show 1 < w.length + 1
      omega
    · obtain ⟨w', hw', hlt⟩ := ih hc hne
      exact ⟨_, .cons hr hw', Nat.succ_lt_succ hlt⟩

/-- One more step. -/
theorem snoc (h : Walk r a b w) (hr : r b c) : Walk r a c (w ++ [c]) := by
  induction h with
  | single a => exact .cons hr (.single c)
  | cons hr' _ ih => exact .cons hr' (ih hr)

/-- A walk, backwards. -/
theorem reverse (h : Walk r a b w) : Walk (fun x y => r y x) b a w.reverse := by
  induction h with
  | single a => exact .single a
  | cons hr _ ih =>
    rw [List.reverse_cons]
    exact ih.snoc hr

/-- A walk along a larger relation. -/
theorem mono {r' : α → α → Prop} (h : Walk r a b w) (hr : ∀ x ∈ w, ∀ y ∈ w, r x y → r' x y) : Walk r' a b w := by
  induction h with
  | single a => exact .single a
  | cons hab hw ih =>
    refine .cons (hr _ List.mem_cons_self _ (List.mem_cons_of_mem _ hw.first_mem) hab) (ih fun x hx y hy => ?_)
    exact hr x (List.mem_cons_of_mem _ hx) y (List.mem_cons_of_mem _ hy)

end Walk

/-! ### Dominance -/

variable {root : α} {tree : α → α → Prop}

/-- `d` is another place than `b`, and on every walk from the root to it. -/
def StrictlyDominates (r : α → α → Prop) (root d b : α) : Prop := d ≠ b ∧ ∀ w, Walk r root b w → d ∈ w

/-- Two places that can be reached do not dominate one another. -/
theorem StrictlyDominates.asymm (hab : StrictlyDominates r root a b) (hba : StrictlyDominates r root b a) (w : List α) :
    ¬Walk r root a w := by
  -- the walk to one of them has a shorter walk to the other one in it
  have hnone : ∀ n (a b : α), StrictlyDominates r root a b → StrictlyDominates r root b a →
      ∀ w, w.length ≤ n → ¬Walk r root a w := by
    intro n
    induction n with
    | zero =>
      intro a b _ _ w hle hw
      have := List.length_pos_of_mem hw.first_mem
      omega
    | succ n ih =>
      intro a b hab hba w hle hw
      obtain ⟨w', hw', hlt⟩ := hw.cut_lt (hba.2 w hw) hba.1
      exact ih b a hba hab w' (by omega) hw'
  exact hnone w.length a b hab hba w (Nat.le_refl _)

theorem StrictlyDominates.trans (hab : StrictlyDominates r root a b) (hbc : StrictlyDominates r root b c)
    (hreach : ∃ w, Walk r root c w) : StrictlyDominates r root a c := by
  have hmem : ∀ w, Walk r root c w → a ∈ w := by
    intro w hw
    obtain ⟨w', hw', hsub⟩ := hw.cut (hbc.2 w hw)
    exact hsub (hab.2 w' hw')
  refine ⟨?_, hmem⟩
  rintro rfl
  obtain ⟨w, hw⟩ := hreach
  exact hab.asymm hbc w hw

/-- The edges of the tree go from the immediate dominator of a place to the place, for all places that can be reached but
the root. -/
structure IsDominatorTree (r : α → α → Prop) (root : α) (tree : α → α → Prop) : Prop where
  reachable : ∀ a b, tree a b → ∃ w, Walk r root b w
  dominates : ∀ a b, tree a b → StrictlyDominates r root a b
  closest : ∀ a b d, tree a b → StrictlyDominates r root d b → d = a ∨ StrictlyDominates r root d a
  parent : ∀ b w, Walk r root b w → b ≠ root → ∃ a, tree a b

/-- **The ancestors of a place in its dominator tree are its strict dominators.** -/
theorem IsDominatorTree.ancestor_iff (h : IsDominatorTree r root tree) (hb : Walk r root b w) :
    Relation.TransGen tree a b ↔ StrictlyDominates r root a b := by
  constructor
  · intro ht
    induction ht generalizing w with
    | single htree => exact h.dominates _ _ htree
    | tail _ htree ih =>
      obtain ⟨w', hw', -⟩ := hb.cut ((h.dominates _ _ htree).2 w hb)
      exact (ih hw').trans (h.dominates _ _ htree) ⟨w, hb⟩
  · have hall : ∀ n (b : α) (w : List α), w.length ≤ n → Walk r root b w → StrictlyDominates r root a b →
        Relation.TransGen tree a b := by
      intro n
      induction n with
      | zero =>
        intro b w hle hw _
        have := List.length_pos_of_mem hw.first_mem
        omega
      | succ n ih =>
        intro b w hle hw hdom
        have hne : b ≠ root := by
          rintro rfl
          exact hdom.1 (List.mem_singleton.1 (hdom.2 _ (.single b)))
        obtain ⟨i, hi⟩ := h.parent b w hw hne
        obtain rfl | hup := h.closest i b a hi hdom
        · exact .single hi
        · obtain ⟨w', hw', hlt⟩ := hw.cut_lt ((h.dominates i b hi).2 w hw) (h.dominates i b hi).1
          exact (ih i w' (by omega) hw' hup).tail hi
    exact hall w.length b w (Nat.le_refl _) hb

end SymBisect.Lib
