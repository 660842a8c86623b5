import Mathlib.Logic.Function.Basic
import Mathlib.Data.List.Pairwise

/-!
# Two maps kept inverse to each other

A pair of partial maps `fwd : α → Option β` and `bwd : β → Option α`.  Binding a pair writes both maps
and so may overwrite an older pair on either side.  Binding keeps the maps inverse, and keeps every
older pair, exactly when the new pair fits: each side is unbound, or bound to the other.
-/

namespace SymBisect.Lib

/-- A map and its intended inverse. -/
structure PairedMap (α β : Type*) where
  fwd : α → Option β
  bwd : β → Option α

namespace PairedMap

variable {α β : Type*} {m m' : PairedMap α β} {a : α} {b : β}

/-- The maps are inverse to each other. -/
def Inverse (m : PairedMap α β) : Prop := ∀ a b, m.fwd a = some b ↔ m.bwd b = some a

/-- Everything that `m` binds, `m'` binds alike. -/
def Extends (m m' : PairedMap α β) : Prop := ∀ a b, m.fwd a = some b → m'.fwd a = some b

/-- Neither side is bound to something else. -/
structure Fits (m : PairedMap α β) (a : α) (b : β) : Prop where
  fwd : ∀ b', m.fwd a = some b' → b' = b
  bwd : ∀ a', m.bwd b = some a' → a' = a

theorem Extends.refl (m : PairedMap α β) : m.Extends m := fun _ _ h => h

theorem Extends.trans {m'' : PairedMap α β} (h : m.Extends m') (h' : m'.Extends m'') :
    m.Extends m'' := fun a b hab => h' a b (h a b hab)

variable [DecidableEq α] [DecidableEq β]

/-- Write the pair into both maps. -/
def bind (m : PairedMap α β) (a : α) (b : β) : PairedMap α β :=
  ⟨Function.update m.fwd a (some b), Function.update m.bwd b (some a)⟩

/-- Erase the key from the first map only. -/
def eraseFwd (m : PairedMap α β) (a : α) : PairedMap α β :=
  ⟨Function.update m.fwd a none, m.bwd⟩

/-- Binding overwrites what was erased. -/
theorem bind_eraseFwd (m : PairedMap α β) (a : α) (b : β) : (m.eraseFwd a).bind a b = m.bind a b := by
  simp only [bind, eraseFwd, Function.update_idem]

theorem bind_extends (h : m.Fits a b) : m.Extends (m.bind a b) := by
  intro a' b' hab
  by_cases ha : a' = a
  · rw [ha] at hab ⊢
    rw [h.fwd b' hab]
    exact Function.update_self ..
  · exact (Function.update_of_ne ha ..).trans hab

theorem bind_inverse (hm : m.Inverse) (h : m.Fits a b) : (m.bind a b).Inverse := by
  intro a' b'
  show Function.update m.fwd a (some b) a' = some b' ↔ Function.update m.bwd b (some a) b' = some a'
  by_cases ha : a' = a
  · by_cases hb : b' = b
    · rw [ha, hb, Function.update_self, Function.update_self]
      simp
    · rw [ha, Function.update_self, Function.update_of_ne hb]
      refine iff_of_false (fun h' => hb (Option.some.inj h').symm) fun h' => hb ?_
      exact h.fwd b' ((hm a b').2 h')
  · by_cases hb : b' = b
    · rw [hb, Function.update_self, Function.update_of_ne ha]
      refine iff_of_false (fun h' => ha ?_) fun h' => ha (Option.some.inj h').symm
      exact h.bwd a' ((hm a' b).1 h')
    · rw [Function.update_of_ne ha, Function.update_of_ne hb]
      exact hm a' b'

/-- A pair that fits still fits after binding another one. -/
theorem Fits.bind_of_ne {a' : α} {b' : β} (h : m.Fits a b) (ha : a ≠ a') (hb : b ≠ b') :
    (m.bind a' b').Fits a b :=
  ⟨fun x hx => h.fwd x ((Function.update_of_ne ha ..).symm.trans hx),
    fun x hx => h.bwd x ((Function.update_of_ne hb ..).symm.trans hx)⟩

/-- Bind the pairs from the first to the last. -/
def bindAll (m : PairedMap α β) : List (α × β) → PairedMap α β
  | [] => m
  | p :: ps => (m.bind p.1 p.2).bindAll ps

/-- **Binding many pairs.** Pairs that differ on both sides and fit one by one fit together. -/
theorem bindAll_inverse_extends {ps : List (α × β)} (hm : m.Inverse)
    (hne : ps.Pairwise fun p q => p.1 ≠ q.1 ∧ p.2 ≠ q.2) (hfits : ∀ p ∈ ps, m.Fits p.1 p.2) :
    (m.bindAll ps).Inverse ∧ m.Extends (m.bindAll ps) := by
  induction ps generalizing m with
  | nil => exact ⟨hm, .refl m⟩
  | cons p ps ih =>
    obtain ⟨hp, hps⟩ := List.pairwise_cons.1 hne
    have hfit := hfits p List.mem_cons_self
    obtain ⟨hinv, hext⟩ := ih (bind_inverse hm hfit) hps fun q hq =>
      (hfits q (List.mem_cons_of_mem _ hq)).bind_of_ne (hp q hq).1.symm (hp q hq).2.symm
    exact ⟨hinv, (bind_extends hfit).trans hext⟩

/-- What the second map binds was bound before, or is one of the pairs. -/
theorem bindAll_bwd_cases {ps : List (α × β)} (h : (m.bindAll ps).bwd b = some a) :
    (∃ p ∈ ps, p.2 = b) ∨ m.bwd b = some a := by
  induction ps generalizing m with
  | nil => exact .inr h
  | cons p ps ih =>
    obtain ⟨q, hq, rfl⟩ | h := ih h
    · exact .inl ⟨q, List.mem_cons_of_mem _ hq, rfl⟩
    · by_cases hb : b = p.2
      · exact .inl ⟨p, List.mem_cons_self, hb.symm⟩
      · exact .inr ((Function.update_of_ne hb ..).symm.trans h)

/-- What is bound before pairs with other keys stays bound. -/
theorem bindAll_fwd_of_ne {ps : List (α × β)} (h : ∀ p ∈ ps, a ≠ p.1) :
    (m.bindAll ps).fwd a = m.fwd a := by
  induction ps generalizing m with
  | nil => rfl
  | cons p ps ih =>
    rw [bindAll, ih fun q hq => h q (List.mem_cons_of_mem _ hq)]
    exact Function.update_of_ne (h p List.mem_cons_self) ..

/-- Each of the pairs is bound in the end, whatever was bound before. -/
theorem bindAll_fwd_of_mem {ps : List (α × β)} (hne : ps.Pairwise fun p q => p.1 ≠ q.1 ∧ p.2 ≠ q.2)
    (hmem : (a, b) ∈ ps) : (m.bindAll ps).fwd a = some b := by
  induction ps generalizing m with
  | nil => cases hmem
  | cons p ps ih =>
    obtain ⟨hp, hps⟩ := List.pairwise_cons.1 hne
    rcases List.mem_cons.1 hmem with rfl | hmem
    · rw [bindAll, bindAll_fwd_of_ne fun q hq => (hp q hq).1]
      exact Function.update_self ..
    · exact ih hps hmem

end PairedMap

end SymBisect.Lib
