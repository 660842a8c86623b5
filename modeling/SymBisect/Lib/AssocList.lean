import Mathlib

/-!
# Sorted association lists

A `KeyOrder` compares values by a key with a strict weak order, so two keys are the same for it when neither is before the other.

* `KeyOrder.updateAt`: the list with another entry, or none, for a key; insertion, replacement and removal are its cases.
* `KeyOrder.sorted_updateAt`: it keeps the list sorted.
* `KeyOrder.lookup`, `KeyOrder.previous`, `KeyOrder.before`, `KeyOrder.upto`: what a search finds, and how many entries stand before
  a key.

For each there are the equations on `l ++ x :: r`, the entries of a search tree with the value `x` at its root.
-/

namespace SymBisect.Lib

/-- Values compared by their keys with a strict weak order. -/
structure KeyOrder (K V : Type*) where
  key : V → K
  lt : K → K → Bool
  irrefl : ∀ a, lt a a = false
  trans : ∀ {a b c}, lt a b = true → lt b c = true → lt a c = true
  incomp_trans : ∀ {a b c}, lt a b = false → lt b a = false → lt b c = false → lt c b = false → lt a c = false

namespace KeyOrder

variable {K V : Type*} (o : KeyOrder K V)

theorem asymm {a b : K} (h : o.lt a b = true) : o.lt b a = false := by
  cases hba : o.lt b a with
  | false => rfl
  | true =>
    have haa := o.trans h hba
    rw [o.irrefl] at haa
    cases haa

theorem not_lt_trans {a b c : K} (hab : o.lt a b = false) (hbc : o.lt b c = false) : o.lt a c = false := by
  cases hac : o.lt a c with
  | false => rfl
  | true =>
    cases hba : o.lt b a with
    | true =>
      rw [o.trans hba hac] at hbc
      cases hbc
    | false =>
      cases hcb : o.lt c b with
      | true =>
        rw [o.trans hac hcb] at hab
        cases hab
      | false =>
        rw [o.incomp_trans hab hba hbc hcb] at hac
        cases hac

theorem lt_of_lt_of_not_lt {a b c : K} (hab : o.lt a b = true) (hcb : o.lt c b = false) : o.lt a c = true := by
  cases hac : o.lt a c with
  | true => rfl
  | false =>
    rw [o.not_lt_trans hac hcb] at hab
    cases hab

theorem lt_of_not_lt_of_lt {a b c : K} (hba : o.lt b a = false) (hbc : o.lt b c = true) : o.lt a c = true := by
  cases hac : o.lt a c with
  | true => rfl
  | false =>
    rw [o.not_lt_trans hba hac] at hbc
    cases hbc

/-- The keys go up. -/
def Sorted (l : List V) : Prop := l.Pairwise fun x y => o.lt (o.key x) (o.key y) = true

theorem sorted_append_cons {l r : List V} {x : V} :
    o.Sorted (l ++ x :: r) ↔
      o.Sorted l ∧ o.Sorted r ∧ (∀ y ∈ l, o.lt (o.key y) (o.key x) = true) ∧ ∀ y ∈ r, o.lt (o.key x) (o.key y) = true := by
  unfold Sorted
  rw [List.pairwise_append, List.pairwise_cons]
  constructor
  · intro h
    obtain ⟨hl, ⟨hx, hr⟩, hcross⟩ := h
    exact ⟨hl, hr, fun y hy => hcross y hy x List.mem_cons_self, hx⟩
  · intro h
    obtain ⟨hl, hr, hlx, hxr⟩ := h
    refine ⟨hl, ⟨hxr, hr⟩, ?_⟩
    intro y hy z hz
    rw [List.mem_cons] at hz
    cases hz with
    | inl heq => rw [heq]; exact hlx y hy
    | inr hmem => exact o.trans (hlx y hy) (hxr z hmem)

/-! ### Updates -/

/-- The entries `absent` in place of no entry for `k`, and `present x` in place of an entry `x`. -/
def updateAt (k : K) (absent : List V) (present : V → List V) : List V → List V
  | [] => absent
  | x :: xs =>
    if o.lt k (o.key x) then absent ++ x :: xs
    else if o.lt (o.key x) k then x :: updateAt k absent present xs
    else present x ++ xs

/-- A new entry, unless there is one for its key. -/
def insert (v : V) : List V → List V := o.updateAt (o.key v) [v] fun x => [x]

/-- A new entry in place of the one for its key. -/
def replace (v : V) : List V → List V := o.updateAt (o.key v) [v] fun _ => [v]

/-- No entry for the key. -/
def remove (k : K) : List V → List V := o.updateAt k [] fun _ => []

section Updates

variable {o} {k : K} {absent : List V} {present : V → List V}

theorem updateAt_append_of_lt {l : List V} (h : ∀ y ∈ l, o.lt (o.key y) k = true) (m : List V) :
    o.updateAt k absent present (l ++ m) = l ++ o.updateAt k absent present m := by
  induction l with
  | nil => rfl
  | cons y l ih =>
    have hy := h y List.mem_cons_self
    have hrest := ih fun z hz => h z (List.mem_cons_of_mem _ hz)
    rw [List.cons_append, updateAt, o.asymm hy, hy, hrest]
    rfl

/-- The entry is on the left of the root. -/
theorem updateAt_left {l r : List V} {x : V} (h : o.lt k (o.key x) = true) :
    o.updateAt k absent present (l ++ x :: r) = o.updateAt k absent present l ++ x :: r := by
  induction l with
  | nil =>
    show o.updateAt k absent present (x :: r) = absent ++ x :: r
    rw [updateAt, h]
    rfl
  | cons y l ih =>
    rw [List.cons_append, updateAt, updateAt, ih]
    by_cases hky : o.lt k (o.key y) = true
    · rw [if_pos hky, if_pos hky, List.append_assoc, List.cons_append]
    · rw [if_neg hky, if_neg hky]
      by_cases hyk : o.lt (o.key y) k = true
      · rw [if_pos hyk, if_pos hyk, List.cons_append]
      · rw [if_neg hyk, if_neg hyk, List.append_assoc]

/-- The entry is on the right of the root. -/
theorem updateAt_right {l r : List V} {x : V} (hl : ∀ y ∈ l, o.lt (o.key y) (o.key x) = true) (h : o.lt (o.key x) k = true) :
    o.updateAt k absent present (l ++ x :: r) = l ++ x :: o.updateAt k absent present r := by
  rw [updateAt_append_of_lt fun y hy => o.trans (hl y hy) h, updateAt, o.asymm h, h]
  rfl

/-- The entry is the root. -/
theorem updateAt_root {l r : List V} {x : V} (hl : ∀ y ∈ l, o.lt (o.key y) (o.key x) = true) (hkx : o.lt k (o.key x) = false)
    (hxk : o.lt (o.key x) k = false) :
    o.updateAt k absent present (l ++ x :: r) = l ++ (present x ++ r) := by
  rw [updateAt_append_of_lt fun y hy => o.lt_of_lt_of_not_lt (hl y hy) hkx, updateAt, hkx, hxk]
  rfl

theorem lt_of_mem_updateAt {l : List V} {a : K} (hk : ∀ y ∈ absent, o.lt a (o.key y) = true)
    (hp : ∀ x, o.lt k (o.key x) = false → o.lt (o.key x) k = false → ∀ y ∈ present x, o.lt a (o.key y) = true) (hl : ∀ x ∈ l, o.lt a (o.key x) = true) :
    ∀ y ∈ o.updateAt k absent present l, o.lt a (o.key y) = true := by
  induction l with
  | nil => exact hk
  | cons x l ih =>
    have hrest := ih fun z hz => hl z (List.mem_cons_of_mem _ hz)
    intro y hy
    rw [updateAt] at hy
    by_cases hkx : o.lt k (o.key x) = true
    · rw [if_pos hkx, List.mem_append] at hy
      cases hy with
      | inl hmem => exact hk y hmem
      | inr hmem => exact hl y hmem
    · rw [if_neg hkx] at hy
      rw [Bool.not_eq_true] at hkx
      by_cases hxk : o.lt (o.key x) k = true
      · rw [if_pos hxk, List.mem_cons] at hy
        cases hy with
        | inl heq => rw [heq]; exact hl x List.mem_cons_self
        | inr hmem => exact hrest y hmem
      · rw [if_neg hxk, List.mem_append] at hy
        rw [Bool.not_eq_true] at hxk
        cases hy with
        | inl hmem => exact hp x hkx hxk y hmem
        | inr hmem => exact hl y (List.mem_cons_of_mem _ hmem)

/-- At most one entry, and that for the key `k`. -/
def Entry (o : KeyOrder K V) (k : K) (l : List V) : Prop := l = [] ∨ ∃ v, l = [v] ∧ o.lt k (o.key v) = false ∧ o.lt (o.key v) k = false

theorem Entry.sorted_append {m l : List V} (hm : o.Entry k m) (hl : o.Sorted l) (h : ∀ y ∈ l, o.lt k (o.key y) = true) :
    o.Sorted (m ++ l) := by
  cases hm with
  | inl hnil => rw [hnil]; exact hl
  | inr hone =>
    obtain ⟨v, rfl, hkv, hvk⟩ := hone
    exact List.pairwise_cons.2 ⟨fun y hy => o.lt_of_not_lt_of_lt hkv (h y hy), hl⟩

theorem Entry.lt_of_mem {m : List V} {a : K} (hm : o.Entry k m) (h : o.lt a k = true) : ∀ y ∈ m, o.lt a (o.key y) = true := by
  intro y hy
  cases hm with
  | inl hnil =>
    rw [hnil] at hy
    cases hy
  | inr hone =>
    obtain ⟨v, rfl, hkv, hvk⟩ := hone
    rw [List.mem_singleton] at hy
    rw [hy]
    exact o.lt_of_lt_of_not_lt h hvk

/-- **An update keeps the list sorted.** -/
theorem sorted_updateAt {l : List V} (hl : o.Sorted l) (habsent : o.Entry k absent)
    (hpresent : ∀ x, o.lt k (o.key x) = false → o.lt (o.key x) k = false → o.Entry k (present x)) :
    o.Sorted (o.updateAt k absent present l) := by
  induction l with
  | nil =>
    have hnil := habsent.sorted_append (l := []) List.Pairwise.nil (List.forall_mem_nil _)
    rwa [List.append_nil] at hnil
  | cons x l ih =>
    obtain ⟨hxl, hl'⟩ := List.pairwise_cons.1 hl
    rw [updateAt]
    by_cases hkx : o.lt k (o.key x) = true
    · rw [if_pos hkx]
      refine habsent.sorted_append hl ?_
      intro y hy
      rw [List.mem_cons] at hy
      cases hy with
      | inl heq => rw [heq]; exact hkx
      | inr hmem => exact o.trans hkx (hxl y hmem)
    · rw [if_neg hkx]
      rw [Bool.not_eq_true] at hkx
      by_cases hxk : o.lt (o.key x) k = true
      · rw [if_pos hxk]
        refine List.pairwise_cons.2 ⟨?_, ih hl'⟩
        exact lt_of_mem_updateAt (habsent.lt_of_mem hxk) (fun z hkz hzk => (hpresent z hkz hzk).lt_of_mem hxk) hxl
      · rw [if_neg hxk]
        rw [Bool.not_eq_true] at hxk
        refine (hpresent x hkx hxk).sorted_append hl' ?_
        intro y hy
        exact o.lt_of_not_lt_of_lt hxk (hxl y hy)

end Updates

/-! ### Searches -/

/-- The entry for a key. -/
def lookup (k : K) (l : List V) : Option V := l.find? fun x => !o.lt k (o.key x) && !o.lt (o.key x) k

/-- The last entry that is not after a key. -/
def previous (k : K) (l : List V) : Option V := (l.filter fun x => !o.lt k (o.key x)).getLast?

/-- How many entries are before a key. -/
def before (k : K) (l : List V) : ℕ := l.countP fun x => o.lt (o.key x) k

/-- How many entries are not after a key. -/
def upto (k : K) (l : List V) : ℕ := l.countP fun x => !o.lt k (o.key x)

section Searches

variable {o} {k : K} {l r : List V} {x : V}

theorem after_right (h : o.lt k (o.key x) = true) (hr : ∀ y ∈ r, o.lt (o.key x) (o.key y) = true) :
    ∀ y ∈ x :: r, o.lt k (o.key y) = true := by
  intro y hy
  rw [List.mem_cons] at hy
  cases hy with
  | inl heq => rw [heq]; exact h
  | inr hmem => exact o.trans h (hr y hmem)

theorem before_left_of_not_lt (h : o.lt k (o.key x) = false) (hl : ∀ y ∈ l, o.lt (o.key y) (o.key x) = true) :
    ∀ y ∈ l, o.lt (o.key y) k = true := fun y hy => o.lt_of_lt_of_not_lt (hl y hy) h

theorem lookup_left (h : o.lt k (o.key x) = true) (hr : ∀ y ∈ r, o.lt (o.key x) (o.key y) = true) :
    o.lookup k (l ++ x :: r) = o.lookup k l := by
  have hnone : (x :: r).find? (fun y => !o.lt k (o.key y) && !o.lt (o.key y) k) = none := by
    rw [List.find?_eq_none]
    intro y hy
    rw [after_right h hr y hy]
    exact Bool.false_ne_true
  rw [lookup, List.find?_append, hnone, Option.or_none]
  rfl

theorem lookup_append_of_lt (hl : ∀ y ∈ l, o.lt (o.key y) k = true) (m : List V) : o.lookup k (l ++ m) = o.lookup k m := by
  have hnone : l.find? (fun y => !o.lt k (o.key y) && !o.lt (o.key y) k) = none := by
    rw [List.find?_eq_none]
    intro y hy
    rw [hl y hy, Bool.not_true, Bool.and_false]
    exact Bool.false_ne_true
  rw [lookup, List.find?_append, hnone, Option.none_or]
  rfl

theorem lookup_right (h : o.lt (o.key x) k = true) (hl : ∀ y ∈ l, o.lt (o.key y) (o.key x) = true) :
    o.lookup k (l ++ x :: r) = o.lookup k r := by
  rw [lookup_append_of_lt (before_left_of_not_lt (o.asymm h) hl), lookup, List.find?_cons, h, Bool.not_true, Bool.and_false]
  rfl

theorem lookup_root (hkx : o.lt k (o.key x) = false) (hxk : o.lt (o.key x) k = false)
    (hl : ∀ y ∈ l, o.lt (o.key y) (o.key x) = true) : o.lookup k (l ++ x :: r) = some x := by
  rw [lookup_append_of_lt (before_left_of_not_lt hkx hl), lookup, List.find?_cons, hkx, hxk]
  rfl

theorem filter_after (h : ∀ y ∈ r, o.lt k (o.key y) = true) : (r.filter fun y => !o.lt k (o.key y)) = [] := by
  rw [List.filter_eq_nil_iff]
  intro y hy
  rw [h y hy]
  exact Bool.false_ne_true

theorem previous_left (h : o.lt k (o.key x) = true) (hr : ∀ y ∈ r, o.lt (o.key x) (o.key y) = true) :
    o.previous k (l ++ x :: r) = o.previous k l := by
  rw [previous, List.filter_append, filter_after (after_right h hr), List.append_nil]
  rfl

theorem previous_right (h : o.lt k (o.key x) = false) : o.previous k (l ++ x :: r) = (o.previous k r).or (some x) := by
  rw [previous, List.filter_append, List.filter_cons, h, Bool.not_false, if_pos rfl, List.getLast?_append, List.getLast?_cons,
    Option.some_or, previous]
  cases (r.filter fun y => !o.lt k (o.key y)).getLast? with
  | none => rfl
  | some y => rfl

theorem previous_root (h : o.lt k (o.key x) = false) (hxk : o.lt (o.key x) k = false)
    (hr : ∀ y ∈ r, o.lt (o.key x) (o.key y) = true) : o.previous k (l ++ x :: r) = some x := by
  have hnone : o.previous k r = none := by
    rw [previous, filter_after fun y hy => o.lt_of_not_lt_of_lt hxk (hr y hy)]
    rfl
  rw [previous_right h, hnone]
  rfl

theorem countP_eq_zero_of {p : V → Bool} (h : ∀ y ∈ r, p y = false) : r.countP p = 0 := by
  rw [List.countP_eq_zero]
  intro y hy
  rw [h y hy]
  exact Bool.false_ne_true

theorem before_left (h : o.lt k (o.key x) = true) (hr : ∀ y ∈ r, o.lt (o.key x) (o.key y) = true) :
    o.before k (l ++ x :: r) = o.before k l := by
  rw [before, List.countP_append, countP_eq_zero_of fun y hy => o.asymm (after_right h hr y hy)]
  rfl

theorem before_append_of_lt (hl : ∀ y ∈ l, o.lt (o.key y) k = true) (m : List V) :
    o.before k (l ++ m) = l.length + o.before k m := by
  rw [before, List.countP_append, List.countP_eq_length.2 hl]
  rfl

theorem before_right (h : o.lt (o.key x) k = true) (hl : ∀ y ∈ l, o.lt (o.key y) (o.key x) = true) :
    o.before k (l ++ x :: r) = l.length + 1 + o.before k r := by
  rw [before_append_of_lt (before_left_of_not_lt (o.asymm h) hl), before, List.countP_cons, if_pos h, add_assoc, Nat.add_comm 1]
  rfl

theorem before_root (hkx : o.lt k (o.key x) = false) (hxk : o.lt (o.key x) k = false)
    (hl : ∀ y ∈ l, o.lt (o.key y) (o.key x) = true) (hr : ∀ y ∈ r, o.lt (o.key x) (o.key y) = true) :
    o.before k (l ++ x :: r) = l.length := by
  have hzero : o.before k (x :: r) = 0 := by
    refine countP_eq_zero_of ?_
    intro y hy
    rw [List.mem_cons] at hy
    cases hy with
    | inl heq => rw [heq]; exact hxk
    | inr hmem => exact o.asymm (o.lt_of_not_lt_of_lt hxk (hr y hmem))
  rw [before_append_of_lt (before_left_of_not_lt hkx hl), hzero, Nat.add_zero]

/-- A sorted list is what is before a key and the rest. -/
theorem split_at (hl : o.Sorted l) (k : K) :
    ∃ a b, l = a ++ b ∧ (∀ y ∈ a, o.lt (o.key y) k = true) ∧ ∀ y ∈ b, o.lt (o.key y) k = false := by
  induction l with
  | nil => exact ⟨[], [], rfl, List.forall_mem_nil _, List.forall_mem_nil _⟩
  | cons x l ih =>
    obtain ⟨hx, hl'⟩ := List.pairwise_cons.1 hl
    by_cases hxk : o.lt (o.key x) k = true
    · obtain ⟨a, b, rfl, ha, hb⟩ := ih hl'
      refine ⟨x :: a, b, rfl, ?_, hb⟩
      intro y hy
      rw [List.mem_cons] at hy
      cases hy with
      | inl heq => rw [heq]; exact hxk
      | inr hmem => exact ha y hmem
    · rw [Bool.not_eq_true] at hxk
      refine ⟨[], x :: l, rfl, List.forall_mem_nil _, ?_⟩
      intro y hy
      rw [List.mem_cons] at hy
      cases hy with
      | inl heq => rw [heq]; exact hxk
      | inr hmem => exact o.not_lt_trans (o.asymm (hx y hmem)) hxk

theorem before_append {a b : List V} (ha : ∀ y ∈ a, o.lt (o.key y) k = true) (hb : ∀ y ∈ b, o.lt (o.key y) k = false) :
    o.before k (a ++ b) = a.length := by
  have hzero : o.before k b = 0 := countP_eq_zero_of hb
  rw [before_append_of_lt ha, hzero, Nat.add_zero]

theorem upto_append_of_lt (ha : ∀ y ∈ l, o.lt (o.key y) k = true) (m : List V) :
    o.upto k (l ++ m) = l.length + o.upto k m := by
  have hall : ∀ y ∈ l, (!o.lt k (o.key y)) = true := by
    intro y hy
    rw [o.asymm (ha y hy)]
    rfl
  rw [upto, List.countP_append, List.countP_eq_length.2 hall]
  rfl

theorem upto_eq_zero (h : ∀ y ∈ l, o.lt k (o.key y) = true) : o.upto k l = 0 := by
  refine countP_eq_zero_of ?_
  intro y hy
  rw [h y hy]
  rfl

/-- Where the entries before a key end there is the first one after it, or the entry for the key. -/
theorem upto_of_getElem? (hl : o.Sorted l) (hx : l[o.before k l]? = some x) :
    o.upto k l = if o.lt k (o.key x) = true then o.before k l else o.before k l + 1 := by
  obtain ⟨a, b, rfl, ha, hb⟩ := split_at hl k
  rw [before_append ha hb, List.getElem?_append_right le_rfl, Nat.sub_self] at hx
  rw [before_append ha hb, upto_append_of_lt ha]
  cases b with
  | nil => cases hx
  | cons y b =>
    obtain rfl : y = x := Option.some.inj hx
    have hrest := (o.sorted_append_cons.1 hl).2.2.2
    by_cases hky : o.lt k (o.key y) = true
    · rw [if_pos hky, upto_eq_zero (after_right hky hrest), Nat.add_zero]
    · have hyk := hb y List.mem_cons_self
      have hzero : o.upto k b = 0 := upto_eq_zero fun z hz => o.lt_of_not_lt_of_lt hyk (hrest z hz)
      rw [if_neg hky, upto, List.countP_cons]
      rw [Bool.not_eq_true] at hky
      rw [hky, Bool.not_false, if_pos rfl]
      have hcount : b.countP (fun z => !o.lt k (o.key z)) = 0 := hzero
      rw [hcount]

theorem upto_of_length (hl : o.before k l = l.length) : o.upto k l = o.before k l := by
  have hall := List.countP_eq_length.1 hl
  have hnil := upto_append_of_lt hall []
  rw [List.append_nil] at hnil
  rw [hnil, hl]
  rfl

/-- The entry for a key, by its place. -/
theorem lookup_eq (hl : o.Sorted l) (k : K) :
    o.lookup k l = (l[o.before k l]?).filter fun x => !o.lt k (o.key x) := by
  obtain ⟨a, b, rfl, ha, hb⟩ := split_at hl k
  rw [before_append ha hb, List.getElem?_append_right le_rfl, Nat.sub_self, lookup_append_of_lt ha]
  cases b with
  | nil => rfl
  | cons y b =>
    have hyk := hb y List.mem_cons_self
    have hrest := (o.sorted_append_cons.1 hl).2.2.2
    cases hky : o.lt k (o.key y) with
    | true =>
      have hnone := lookup_left (l := []) hky hrest
      rw [List.nil_append] at hnone
      rw [hnone, List.getElem?_cons_zero, Option.filter_some, hky]
      rfl
    | false =>
      have hsome := lookup_root (l := []) (r := b) hky hyk (List.forall_mem_nil _)
      rw [List.nil_append] at hsome
      rw [hsome, List.getElem?_cons_zero, Option.filter_some, hky]
      rfl

end Searches

end KeyOrder

end SymBisect.Lib
