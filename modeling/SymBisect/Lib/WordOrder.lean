import Mathlib

/-!
# Comparing by words

A comparison function that returns a sign, goes through two objects in step and stops at the first difference is the
lexicographic order of two words.  `Orders r u v` says that `r` is the order of the words `u` and `v` whatever follows
them, so the orders of consecutive parts compose.

* `orderSign`: the order of two values as a number.
* `Orders.append`, `Orders.cons`, `Orders.head`: how the parts compose.
* `Orders.eq_orderSign`: the order of two whole words.
-/

namespace SymBisect.Lib

variable {α : Type*} [LinearOrder α] {x y z : α}

/-- `-1`, `0` or `1`. -/
def orderSign (x y : α) : ℤ := if x = y then 0 else if x < y then -1 else 1

@[simp] theorem orderSign_self (x : α) : orderSign x x = 0 := if_pos rfl

theorem orderSign_of_lt (h : x < y) : orderSign x y = -1 := by rw [orderSign, if_neg h.ne, if_pos h]

theorem orderSign_of_gt (h : y < x) : orderSign x y = 1 := by rw [orderSign, if_neg h.ne', if_neg h.not_gt]

theorem orderSign_eq_zero : orderSign x y = 0 ↔ x = y := by
  rcases lt_trichotomy x y with h | h | h
  · simp [orderSign_of_lt h, h.ne]
  · simp [h]
  · simp [orderSign_of_gt h, h.ne']

theorem orderSign_neg : orderSign x y < 0 ↔ x < y := by
  rcases lt_trichotomy x y with h | h | h
  · simp [orderSign_of_lt h, h]
  · simp [h]
  · simp [orderSign_of_gt h, h.not_gt]

theorem orderSign_nonpos : orderSign x y ≤ 0 ↔ x ≤ y := by
  rcases lt_trichotomy x y with h | h | h
  · simp [orderSign_of_lt h, h.le]
  · simp [h]
  · simp [orderSign_of_gt h, h]

/-- The other way round, the sign is the opposite. -/
theorem orderSign_swap (x y : α) : orderSign y x = -orderSign x y := by
  rcases lt_trichotomy x y with h | h | h
  · rw [orderSign_of_lt h, orderSign_of_gt h, neg_neg]
  · simp [h]
  · rw [orderSign_of_gt h, orderSign_of_lt h]

/-- The first difference decides. -/
def andThen (r k : ℤ) : ℤ := if r = 0 then k else r

@[simp] theorem andThen_zero_left (k : ℤ) : andThen 0 k = k := if_pos rfl

@[simp] theorem andThen_zero_right (r : ℤ) : andThen r 0 = r := by
  by_cases h : r = 0
  · rw [andThen, if_pos h, h]
  · rw [andThen, if_neg h]

theorem andThen_of_ne {r : ℤ} (h : r ≠ 0) (k : ℤ) : andThen r k = r := if_neg h

theorem andThen_assoc (r k l : ℤ) : andThen (andThen r k) l = andThen r (andThen k l) := by
  by_cases h : r = 0
  · simp [h]
  · simp [andThen_of_ne h]

/-! ### Words -/

variable {u v u' v' : List α} {r k : ℤ}

theorem orderSign_cons (x y : α) (s t : List α) : orderSign (x :: s) (y :: t) = andThen (orderSign x y) (orderSign s t) := by
  rcases lt_trichotomy x y with h | h | h
  · rw [orderSign_of_lt h, andThen_of_ne (by decide)]
    exact orderSign_of_lt (List.Lex.rel h)
  · subst h
    rw [orderSign_self, andThen_zero_left]
    rcases lt_trichotomy s t with h' | h' | h'
    · rw [orderSign_of_lt h']
      exact orderSign_of_lt (List.Lex.cons h')
    · rw [h', orderSign_self, orderSign_self]
    · rw [orderSign_of_gt h']
      exact orderSign_of_gt (List.Lex.cons h')
  · rw [orderSign_of_gt h, andThen_of_ne (by decide)]
    exact orderSign_of_gt (List.Lex.rel h)

/-- `r` is the order of `u` and `v`, whatever words follow them. -/
def Orders (r : ℤ) (u v : List α) : Prop := ∀ s t, orderSign (u ++ s) (v ++ t) = andThen r (orderSign s t)

namespace Orders

theorem refl (u : List α) : Orders 0 u u := by
  intro s t
  rw [andThen_zero_left]
  induction u with
  | nil => rfl
  | cons x u ih => rw [List.cons_append, List.cons_append, orderSign_cons, orderSign_self, andThen_zero_left, ih]

/-- The first parts decide, then the second ones. -/
theorem append (h : Orders r u v) (h' : Orders k u' v') : Orders (andThen r k) (u ++ u') (v ++ v') := by
  intro s t
  rw [List.append_assoc, List.append_assoc, h, h', andThen_assoc]

/-- Equal first letters decide nothing. -/
theorem cons (x : α) (h : Orders r u v) : Orders r (x :: u) (x :: v) := by
  intro s t
  rw [List.cons_append, List.cons_append, orderSign_cons, orderSign_self, andThen_zero_left, h]

/-- Different first letters decide. -/
theorem head (hne : x ≠ y) (u v : List α) : Orders (orderSign x y) (x :: u) (y :: v) := by
  intro s t
  have h : orderSign x y ≠ 0 := fun hzero => hne (orderSign_eq_zero.1 hzero)
  rw [List.cons_append, List.cons_append, orderSign_cons, andThen_of_ne h, andThen_of_ne h]

/-- A difference in the first parts decides, whatever the second parts are. -/
theorem append_of_ne (h : Orders r u v) (hne : r ≠ 0) (u' v' : List α) : Orders r (u ++ u') (v ++ v') := by
  intro s t
  rw [List.append_assoc, List.append_assoc, h, andThen_of_ne hne, andThen_of_ne hne]

theorem eq_orderSign (h : Orders r u v) : r = orderSign u v := by
  have hnil := h [] []
  rw [orderSign_self, andThen_zero_right, List.append_nil, List.append_nil] at hnil
  exact hnil.symm

end Orders

end SymBisect.Lib
