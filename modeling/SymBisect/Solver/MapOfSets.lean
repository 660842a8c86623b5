import Mathlib

/-!
# Maps from sets

`MapOfSets` of `include/klee/ADT/MapOfSets.h`: a tree in which the elements of a set, in their order, are the
path to its value.  A set is the list of its elements in order; the children of a node, a `std::map`, are in
the order of their keys.

* `Node.Stores`: a path and the value at its end.
* `stores_insert`, `stores_of_lookup`, `stores_of_findSubset`, `stores_of_findSuperset`: what is stored after an
  insertion, and what the searches find.
* `searches_exact`: after any sequence of insertions the lookups give the last values, and the searches find a
  value wherever there is one.
-/

namespace SymBisect.MapOfSets

variable {K V : Type}

mutual

/-- `MapOfSets::Node`; a node that is not the end of a set has no value. -/
inductive Node (K V : Type) : Type
  | mk (value : Option V) (children : Children K V)

/-- `children_ty`. -/
inductive Children (K V : Type) : Type
  | nil
  | cons (key : K) (node : Node K V) (rest : Children K V)

end

/-- `Node()`. -/
def Node.empty : Node K V := .mk none .nil

section

variable [LinearOrder K]

/-- `children.insert(make_pair(key, Node()))`, followed by a change of the node of the key. -/
def Children.modify (key : K) (f : Node K V → Node K V) : Children K V → Children K V
  | .nil => .cons key (f .empty) .nil
  | .cons k n rest =>
    if k < key then .cons k n (rest.modify key f)
    else if k = key then .cons k (f n) rest
    else .cons key (f .empty) (.cons k n rest)

/-- `children.find(key)`. -/
def Children.find (key : K) : Children K V → Option (Node K V)
  | .nil => none
  | .cons k n rest => if k = key then some n else rest.find key

/-- `insert`. -/
def Node.insert (value : V) : List K → Node K V → Node K V
  | [], .mk _ children => .mk (some value) children
  | element :: set, .mk v children => .mk v (children.modify element (Node.insert value set))

/-- `lookup`. -/
def Node.lookup : List K → Node K V → Option V
  | [], .mk value _ => value
  | element :: set, .mk _ children =>
    match children.find element with
    | some n => Node.lookup set n
    | none => none

mutual

/-- `findSubset`. -/
def Node.findSubset (p : V → Bool) : Node K V → List K → Option V
  | .mk (some value) children, set => if p value then some value else children.findSubset p set
  | .mk none children, set => children.findSubset p set

/-- The loop of `findSubset`, which goes along the children and the set together. -/
def Children.findSubset (p : V → Bool) : Children K V → List K → Option V
  | .nil, _ => none
  | .cons k n rest, set =>
    match set.dropWhile (· < k) with
    | [] => none
    | x :: set =>
      if x = k then
        match n.findSubset p set with
        | some value => some value
        | none => if set = [] then none else rest.findSubset p set
      else rest.findSubset p (x :: set)

end

mutual

/-- `findSuperset`. -/
def Node.findSuperset (p : V → Bool) : Node K V → List K → Option V
  | .mk (some value) children, [] => if p value then some value else children.findSuperset p []
  | .mk none children, [] => children.findSuperset p []
  | .mk _ children, x :: set =>
    match children.findSuperset p (x :: set) with
    | some value => some value
    | none => children.findSupersetAt p x set

/-- The loop of `findSuperset` over all children. -/
def Children.findSuperset (p : V → Bool) : Children K V → List K → Option V
  | .nil, _ => none
  | .cons _ n rest, set =>
    match n.findSuperset p set with
    | some value => some value
    | none => rest.findSuperset p set

/-- The step of `findSuperset` to the child of the first element, `lower_bound` if that has the key. -/
def Children.findSupersetAt (p : V → Bool) : Children K V → K → List K → Option V
  | .nil, _, _ => none
  | .cons k n rest, x, set =>
    if k < x then rest.findSupersetAt p x set
    else if x = k then n.findSuperset p set
    else none

end

end

/-! ### What is stored -/

mutual

/-- The path leads from the node to the value. -/
def Node.Stores : Node K V → List K → V → Prop
  | .mk v _, [], value => v = some value
  | .mk _ children, k :: path, value => children.Stores k path value

/-- One of the children has the key, and the path leads from it to the value. -/
def Children.Stores : Children K V → K → List K → V → Prop
  | .nil, _, _, _ => False
  | .cons k' n rest, k, path, value => (k' = k ∧ n.Stores path value) ∨ rest.Stores k path value

end

theorem not_stores_empty {path : List K} {value : V} : ¬ (Node.empty : Node K V).Stores path value := by
  intro h
  cases path with
  | nil => cases h
  | cons k path => exact h

section

variable [LinearOrder K] {p : V → Bool}

/-- After a change of the node of a key, what is stored was stored before, or is what the change adds below the
key. -/
theorem stores_modify {key : K} {f : Node K V → Node K V} {R : List K → V → Prop}
    (hf : ∀ n path v, (f n).Stores path v → n.Stores path v ∨ R path v) (children : Children K V) {k : K}
    {path : List K} {v : V} (h : (children.modify key f).Stores k path v) :
    children.Stores k path v ∨ (k = key ∧ R path v) := by
  have hnew : (f .empty).Stores path v → R path v := fun h => (hf _ _ _ h).resolve_left not_stores_empty
  match children with
  | .nil =>
    obtain ⟨rfl, h⟩ | h := h
    · exact .inr ⟨rfl, hnew h⟩
    · exact h.elim
  | .cons k' n rest =>
    unfold Children.modify at h
    split at h
    · obtain h | h := h
      · exact .inl (.inl h)
      · exact (stores_modify hf rest h).imp_left .inr
    split at h
    · rename_i heq
      subst heq
      obtain ⟨rfl, h⟩ | h := h
      · exact (hf _ _ _ h).imp (fun h => .inl ⟨rfl, h⟩) fun h => ⟨rfl, h⟩
      · exact .inl (.inr h)
    · obtain ⟨rfl, h⟩ | h := h
      · exact .inr ⟨rfl, hnew h⟩
      · exact .inl h

/-- An insertion stores the value at the set, and nothing else that was not there. -/
theorem stores_insert {value : V} (set : List K) : ∀ {n : Node K V} {path : List K} {v : V},
    (n.insert value set).Stores path v → n.Stores path v ∨ (path = set ∧ v = value) := by
  induction set with
  | nil =>
    intro n path v h
    obtain ⟨w, children⟩ := n
    cases path with
    | nil => exact .inr ⟨rfl, (Option.some.inj h).symm⟩
    | cons k path => exact .inl h
  | cons element set ih =>
    intro n path v h
    obtain ⟨w, children⟩ := n
    cases path with
    | nil => exact .inl h
    | cons k path =>
      obtain h | ⟨rfl, rfl, rfl⟩ := stores_modify (R := fun path v => path = set ∧ v = value)
        (fun n path v h => ih h) children h
      · exact .inl h
      · exact .inr ⟨rfl, rfl⟩

theorem stores_of_find {key : K} {n : Node K V} {path : List K} {v : V} (children : Children K V)
    (h : children.find key = some n) (hn : n.Stores path v) : children.Stores key path v := by
  match children with
  | .nil => cases h
  | .cons k' n' rest =>
    unfold Children.find at h
    split at h
    · rename_i heq
      exact .inl ⟨heq, Option.some.inj h ▸ hn⟩
    · exact .inr (stores_of_find rest h hn)

/-- `lookup` finds what is stored at the set. -/
theorem stores_of_lookup (set : List K) : ∀ {n : Node K V} {v : V}, n.lookup set = some v → n.Stores set v := by
  induction set with
  | nil =>
    intro n v h
    obtain ⟨w, children⟩ := n
    exact h
  | cons element set ih =>
    intro n v h
    obtain ⟨w, children⟩ := n
    unfold Node.lookup at h
    cases hfind : children.find element with
    | none => rw [hfind] at h; cases h
    | some n' =>
      rw [hfind] at h
      exact stores_of_find children hfind (ih h)

mutual

/-- `findSubset` finds what is stored at a subset and satisfies the predicate. -/
theorem stores_of_findSubset (n : Node K V) {set : List K} {v : V} (h : n.findSubset p set = some v) :
    ∃ path, n.Stores path v ∧ p v = true ∧ path.Sublist set := by
  match n with
  | .mk (some value) children =>
    unfold Node.findSubset at h
    split at h
    · rename_i hp
      obtain rfl := Option.some.inj h
      exact ⟨[], rfl, hp, List.nil_sublist _⟩
    · obtain ⟨k, path, hstores, hp, hsub⟩ := stores_of_findSubset_children children h
      exact ⟨k :: path, hstores, hp, hsub⟩
  | .mk none children =>
    unfold Node.findSubset at h
    obtain ⟨k, path, hstores, hp, hsub⟩ := stores_of_findSubset_children children h
    exact ⟨k :: path, hstores, hp, hsub⟩

theorem stores_of_findSubset_children (children : Children K V) {set : List K} {v : V}
    (h : children.findSubset p set = some v) :
    ∃ k path, children.Stores k path v ∧ p v = true ∧ (k :: path).Sublist set := by
  match children with
  | .nil => cases h
  | .cons k n rest =>
    have hdrop : (set.dropWhile (· < k)).Sublist set := List.dropWhile_sublist _
    unfold Children.findSubset at h
    cases hset : set.dropWhile (· < k) with
    | nil => rw [hset] at h; cases h
    | cons x set' =>
      rw [hset] at h hdrop
      simp only at h
      split at h
      · rename_i heq
        subst heq
        cases hn : n.findSubset p set' with
        | some w =>
          rw [hn] at h
          obtain rfl := Option.some.inj h
          obtain ⟨path, hstores, hp, hsub⟩ := stores_of_findSubset n hn
          exact ⟨x, path, .inl ⟨rfl, hstores⟩, hp, (hsub.cons_cons x).trans hdrop⟩
        | none =>
          rw [hn] at h
          simp only at h
          split at h
          · cases h
          · obtain ⟨k, path, hstores, hp, hsub⟩ := stores_of_findSubset_children rest h
            exact ⟨k, path, .inr hstores, hp, (hsub.trans (List.sublist_cons_self x set')).trans hdrop⟩
      · obtain ⟨k, path, hstores, hp, hsub⟩ := stores_of_findSubset_children rest h
        exact ⟨k, path, .inr hstores, hp, hsub.trans hdrop⟩

end

mutual

/-- `findSuperset` finds what is stored at a superset and satisfies the predicate. -/
theorem stores_of_findSuperset (n : Node K V) {set : List K} {v : V} (h : n.findSuperset p set = some v) :
    ∃ path, n.Stores path v ∧ p v = true ∧ ∀ x ∈ set, x ∈ path := by
  match n, set with
  | .mk (some value) children, [] =>
    unfold Node.findSuperset at h
    split at h
    · rename_i hp
      obtain rfl := Option.some.inj h
      exact ⟨[], rfl, hp, fun x hx => hx⟩
    · obtain ⟨k, path, hstores, hp, -⟩ := stores_of_findSuperset_children children h
      exact ⟨k :: path, hstores, hp, fun x hx => absurd hx List.not_mem_nil⟩
  | .mk none children, [] =>
    unfold Node.findSuperset at h
    obtain ⟨k, path, hstores, hp, -⟩ := stores_of_findSuperset_children children h
    exact ⟨k :: path, hstores, hp, fun x hx => absurd hx List.not_mem_nil⟩
  | .mk w children, x :: set =>
    rw [Node.findSuperset] at h
    cases hall : children.findSuperset p (x :: set) with
    | some value =>
      rw [hall] at h
      obtain rfl := Option.some.inj h
      obtain ⟨k, path, hstores, hp, hsup⟩ := stores_of_findSuperset_children children hall
      exact ⟨k :: path, hstores, hp, fun y hy => List.mem_cons_of_mem k (hsup y hy)⟩
    | none =>
      rw [hall] at h
      obtain ⟨path, hstores, hp, hsup⟩ := stores_of_findSupersetAt children h
      refine ⟨x :: path, hstores, hp, fun y hy => ?_⟩
      obtain rfl | hy := List.mem_cons.1 hy
      · exact List.mem_cons_self
      · exact List.mem_cons_of_mem x (hsup y hy)

theorem stores_of_findSuperset_children (children : Children K V) {set : List K} {v : V}
    (h : children.findSuperset p set = some v) :
    ∃ k path, children.Stores k path v ∧ p v = true ∧ ∀ x ∈ set, x ∈ path := by
  match children with
  | .nil => cases h
  | .cons k n rest =>
    unfold Children.findSuperset at h
    cases hn : n.findSuperset p set with
    | some value =>
      rw [hn] at h
      obtain rfl := Option.some.inj h
      obtain ⟨path, hstores, hp, hsup⟩ := stores_of_findSuperset n hn
      exact ⟨k, path, .inl ⟨rfl, hstores⟩, hp, hsup⟩
    | none =>
      rw [hn] at h
      obtain ⟨k', path, hstores, hp, hsup⟩ := stores_of_findSuperset_children rest h
      exact ⟨k', path, .inr hstores, hp, hsup⟩

theorem stores_of_findSupersetAt (children : Children K V) {x : K} {set : List K} {v : V}
    (h : children.findSupersetAt p x set = some v) :
    ∃ path, children.Stores x path v ∧ p v = true ∧ ∀ y ∈ set, y ∈ path := by
  match children with
  | .nil => cases h
  | .cons k n rest =>
    unfold Children.findSupersetAt at h
    split at h
    · obtain ⟨path, hstores, hp, hsup⟩ := stores_of_findSupersetAt rest h
      exact ⟨path, .inr hstores, hp, hsup⟩
    split at h
    · rename_i heq
      obtain ⟨path, hstores, hp, hsup⟩ := stores_of_findSuperset n h
      exact ⟨path, .inl ⟨heq.symm, hstores⟩, hp, hsup⟩
    · cases h

end

end

/-! ### The order of the children -/

section

variable [LinearOrder K]

/-- The keys of all children are above `x`. -/
def Children.Above (x : K) : Children K V → Prop
  | .nil => True
  | .cons k _ rest => x < k ∧ rest.Above x

mutual

/-- The children of every node are in the order of their keys. -/
def Node.Sorted : Node K V → Prop
  | .mk _ children => children.Sorted

def Children.Sorted : Children K V → Prop
  | .nil => True
  | .cons k n rest => n.Sorted ∧ rest.Above k ∧ rest.Sorted

end

variable {p : V → Bool}

theorem Children.Above.mono {x y : K} (hxy : x ≤ y) (children : Children K V) (h : children.Above y) :
    children.Above x := by
  match children with
  | .nil => exact trivial
  | .cons k n rest => exact ⟨hxy.trans_lt h.1, Above.mono hxy rest h.2⟩

theorem find_of_above {x k : K} (hk : k ≤ x) (children : Children K V) (h : children.Above x) :
    children.find k = none := by
  match children with
  | .nil => rfl
  | .cons k' n rest =>
    unfold Children.find
    rw [if_neg (hk.trans_lt h.1).ne', find_of_above hk rest h.2]

theorem above_modify {x key : K} {f : Node K V → Node K V} (hx : x < key) (children : Children K V)
    (h : children.Above x) : (children.modify key f).Above x := by
  match children with
  | .nil => exact ⟨hx, trivial⟩
  | .cons k n rest =>
    unfold Children.modify
    split
    · exact ⟨h.1, above_modify hx rest h.2⟩
    · split
      · exact h
      · exact ⟨hx, h⟩

theorem sorted_modify {key : K} {f : Node K V → Node K V} (hf : ∀ n, n.Sorted → (f n).Sorted)
    (children : Children K V) (h : children.Sorted) : (children.modify key f).Sorted := by
  have hnew : (f .empty).Sorted := hf .empty trivial
  match children with
  | .nil => exact ⟨hnew, trivial, trivial⟩
  | .cons k n rest =>
    unfold Children.modify
    split
    · rename_i hlt
      exact ⟨h.1, above_modify hlt rest h.2.1, sorted_modify hf rest h.2.2⟩
    · rename_i hle
      split
      · exact ⟨hf n h.1, h.2⟩
      · rename_i hne
        have hlt : key < k := lt_of_le_of_ne (not_lt.1 hle) fun heq => hne heq.symm
        exact ⟨hnew, ⟨hlt, h.2.1.mono hlt.le rest⟩, h⟩

/-- An insertion keeps the order. -/
theorem sorted_insert (value : V) (set : List K) : ∀ n : Node K V, n.Sorted → (n.insert value set).Sorted := by
  induction set with
  | nil =>
    intro n h
    obtain ⟨w, children⟩ := n
    exact h
  | cons element set ih =>
    intro n h
    obtain ⟨w, children⟩ := n
    exact sorted_modify ih children h

/-! ### Lookups -/

/-- The child of a key after a change of the child of a key. -/
theorem find_modify {key : K} {f : Node K V → Node K V} (k : K) (children : Children K V) (h : children.Sorted) :
    (children.modify key f).find k =
      if k = key then some (f ((children.find key).getD .empty)) else children.find k := by
  match children with
  | .nil =>
    show (if key = k then _ else _) = _
    by_cases hk : k = key
    · rw [if_pos hk, if_pos hk.symm]
      rfl
    · rw [if_neg hk, if_neg fun heq => hk heq.symm]
  | .cons k' n rest =>
    unfold Children.modify
    split
    · rename_i hlt
      unfold Children.find
      rw [find_modify k rest h.2.2, if_neg hlt.ne]
      by_cases hk : k' = k
      · rw [if_pos hk, if_pos hk, if_neg (hk ▸ hlt.ne)]
      · rw [if_neg hk, if_neg hk]
    · rename_i hle
      split
      · rename_i heq
        subst heq
        unfold Children.find
        rw [if_pos rfl]
        by_cases hk : k' = k
        · rw [if_pos hk, if_pos hk.symm]
          rfl
        · rw [if_neg hk, if_neg hk, if_neg fun heq => hk heq.symm]
      · rename_i hne
        -- the key is below all the others
        have hlt : key < k' := lt_of_le_of_ne (not_lt.1 hle) fun heq => hne heq.symm
        have hnone : (Children.cons k' n rest).find key = none :=
          find_of_above le_rfl _ ⟨hlt, h.2.1.mono hlt.le rest⟩
        rw [hnone]
        show (if key = k then _ else _) = _
        by_cases hk : k = key
        · rw [if_pos hk, if_pos hk.symm]
          rfl
        · rw [if_neg hk, if_neg fun heq => hk heq.symm]

theorem sorted_find (children : Children K V) (h : children.Sorted) (k : K) :
    ((children.find k).getD .empty).Sorted := by
  match children with
  | .nil => exact trivial
  | .cons k' n rest =>
    unfold Children.find
    split
    · exact h.1
    · exact sorted_find rest h.2.2 k

theorem lookup_empty (path : List K) : (Node.empty : Node K V).lookup path = none := by
  cases path with
  | nil => rfl
  | cons k path => rfl

theorem lookup_cons (w : Option V) (children : Children K V) (k : K) (path : List K) :
    (Node.mk w children).lookup (k :: path) = ((children.find k).getD .empty).lookup path := by
  show (match children.find k with | some n => n.lookup path | none => none) = _
  cases children.find k with
  | none => exact (lookup_empty path).symm
  | some n => rfl

/-- `lookup` after `insert`. -/
theorem lookup_insert (value : V) (set : List K) : ∀ (n : Node K V) (path : List K), n.Sorted →
    (n.insert value set).lookup path = if path = set then some value else n.lookup path := by
  induction set with
  | nil =>
    intro n path h
    obtain ⟨w, children⟩ := n
    cases path with
    | nil => rfl
    | cons k path =>
      rw [if_neg (List.cons_ne_nil k path)]
      exact (lookup_cons _ _ _ _).trans (lookup_cons _ _ _ _).symm
  | cons element set ih =>
    intro n path h
    obtain ⟨w, children⟩ := n
    cases path with
    | nil =>
      rw [if_neg fun heq => List.cons_ne_nil _ _ heq.symm]
      rfl
    | cons k path =>
      unfold Node.insert
      rw [lookup_cons, lookup_cons, find_modify k children h]
      by_cases hk : k = element
      · subst hk
        rw [if_pos rfl, Option.getD_some, ih _ path ?_]
        · by_cases hpath : path = set
          · rw [if_pos hpath, if_pos (by rw [hpath])]
          · rw [if_neg hpath, if_neg fun heq => hpath (List.cons.inj heq).2]
        · exact sorted_find children h k
      · rw [if_neg hk, if_neg fun heq => hk (List.cons.inj heq).1]

/-- The keys at which something is stored. -/
theorem above_stores {x k : K} {path : List K} {v : V} (children : Children K V) (h : children.Above x)
    (hs : children.Stores k path v) : x < k := by
  match children with
  | .nil => exact hs.elim
  | .cons k' n rest =>
    obtain ⟨rfl, -⟩ | hs := hs
    · exact h.1
    · exact above_stores rest h.2 hs

theorem find_of_stores {k : K} {path : List K} {v : V} (children : Children K V) (hsorted : children.Sorted)
    (h : children.Stores k path v) : ∃ n, children.find k = some n ∧ n.Sorted ∧ n.Stores path v := by
  match children with
  | .nil => exact h.elim
  | .cons k' n rest =>
    unfold Children.find
    obtain ⟨hk, h⟩ | h := h
    · rw [if_pos hk]
      exact ⟨n, rfl, hsorted.1, h⟩
    · rw [if_neg (above_stores rest hsorted.2.1 h).ne]
      exact find_of_stores rest hsorted.2.2 h

/-- What is stored at a path is found there: no two children of a node have the same key. -/
theorem lookup_of_stores (path : List K) : ∀ {n : Node K V} {v : V}, n.Sorted → n.Stores path v →
    n.lookup path = some v := by
  induction path with
  | nil =>
    intro n v hsorted h
    obtain ⟨w, children⟩ := n
    exact h
  | cons k path ih =>
    intro n v hsorted h
    obtain ⟨w, children⟩ := n
    obtain ⟨n', hn', hsorted', h'⟩ := find_of_stores children hsorted h
    rw [lookup_cons, hn']
    exact ih hsorted' h'

/-! ### The searches find what there is -/

theorem sublist_dropWhile {l set : List K} (k : K) (h : l.Sublist set) (hl : ∀ x ∈ l, ¬x < k) :
    l.Sublist (set.dropWhile (· < k)) := by
  induction h with
  | slnil => exact List.nil_sublist _
  | @cons l set x h ih =>
    by_cases hx : x < k
    · rw [List.dropWhile_cons_of_pos (by simpa using hx)]
      exact ih hl
    · rw [List.dropWhile_cons_of_neg (by simpa using hx)]
      exact h.cons x
  | @cons_cons l set x h ih =>
    rw [List.dropWhile_cons_of_neg (by simpa using hl x List.mem_cons_self)]
    exact h.cons_cons x

mutual

/-- `findSubset` finds a value if there is one at a subset. -/
theorem findSubset_ne_none (n : Node K V) {set path : List K} {v : V} (hn : n.Sorted)
    (hset : set.Pairwise (· < ·)) (hs : n.Stores path v) (hp : p v = true) (hsub : path.Sublist set) :
    n.findSubset p set ≠ none := by
  match n, path with
  | .mk (some value) children, [] =>
    obtain rfl := Option.some.inj hs
    unfold Node.findSubset
    rw [if_pos hp]
    exact nofun
  | .mk (some value) children, k :: path =>
    unfold Node.findSubset
    split
    · exact nofun
    · exact findSubset_children_ne_none children hn hset hs hp hsub
  | .mk none children, [] => cases hs
  | .mk none children, k :: path =>
    unfold Node.findSubset
    exact findSubset_children_ne_none children hn hset hs hp hsub

theorem findSubset_children_ne_none (children : Children K V) {set path : List K} {k : K} {v : V}
    (hc : children.Sorted) (hset : set.Pairwise (· < ·)) (hs : children.Stores k path v) (hp : p v = true)
    (hsub : (k :: path).Sublist set) : children.findSubset p set ≠ none := by
  match children with
  | .nil => exact hs.elim
  | .cons k' n rest =>
    have hpath := List.pairwise_cons.1 (hset.sublist hsub)
    have hle : k' ≤ k := by
      obtain ⟨rfl, -⟩ | hs := hs
      · exact le_rfl
      · exact (above_stores rest hc.2.1 hs).le
    have hdrop : (k :: path).Sublist (set.dropWhile (· < k')) := by
      refine sublist_dropWhile k' hsub fun x hx => not_lt.2 ?_
      obtain rfl | hx := List.mem_cons.1 hx
      · exact hle
      · exact hle.trans (hpath.1 x hx).le
    have hset' : (set.dropWhile (· < k')).Pairwise (· < ·) := hset.sublist (List.dropWhile_sublist _)
    have hhead : ∀ x set', set.dropWhile (· < k') = x :: set' → ¬x < k' := by
      intro x set' heq
      have hnil : set.dropWhile (· < k') ≠ [] := by
        rw [heq]
        exact List.cons_ne_nil x set'
      have hnot := List.head_dropWhile_not (fun x => decide (x < k')) hnil
      simpa [heq] using hnot
    unfold Children.findSubset
    revert hdrop hset' hhead
    generalize set.dropWhile (· < k') = set'
    intro hdrop hset' hhead
    cases set' with
    | nil => exact absurd hdrop (by simp)
    | cons x set' =>
      have hx := List.pairwise_cons.1 hset'
      simp only
      split
      · rename_i heq
        subst heq
        cases hres : n.findSubset p set' with
        | some w => exact nofun
        | none =>
          obtain ⟨rfl, hs⟩ | hs := hs
          · exact absurd hres (findSubset_ne_none n hc.1 hx.2 hs hp (List.cons_sublist_cons.1 hdrop))
          · have hlt := above_stores rest hc.2.1 hs
            have hrest : (k :: path).Sublist set' := by
              cases hdrop with
              | cons _ h => exact h
              | cons_cons _ _ => exact absurd hlt (lt_irrefl _)
            have hne : set' ≠ [] := by
              rintro rfl
              exact absurd hrest (by simp)
            simp only [if_neg hne]
            exact findSubset_children_ne_none rest hc.2.2 hx.2 hs hp hrest
      · rename_i hne
        have hlt : k' < x := lt_of_le_of_ne (not_lt.1 (hhead x set' rfl)) fun heq => hne heq.symm
        obtain ⟨rfl, -⟩ | hs := hs
        · -- the key is below all elements that are left
          obtain hmem | hmem := List.mem_cons.1 (hdrop.subset List.mem_cons_self)
          · exact absurd hmem hlt.ne
          · exact absurd (hx.1 _ hmem) (not_lt.2 hlt.le)
        · exact findSubset_children_ne_none rest hc.2.2 hset' hs hp hdrop

end

mutual

/-- `findSuperset` finds a value if there is one at a superset. -/
theorem findSuperset_ne_none (n : Node K V) {set path : List K} {v : V} (hn : n.Sorted) (hs : n.Stores path v)
    (hp : p v = true) (hsub : set.Sublist path) : n.findSuperset p set ≠ none := by
  match n, path, set with
  | .mk (some value) children, [], [] =>
    obtain rfl := Option.some.inj hs
    unfold Node.findSuperset
    rw [if_pos hp]
    exact nofun
  | .mk none children, [], [] => cases hs
  | .mk (some value) children, k :: path, [] =>
    unfold Node.findSuperset
    split
    · exact nofun
    · exact findSuperset_children_ne_none children hn hs hp (List.nil_sublist _)
  | .mk none children, k :: path, [] =>
    unfold Node.findSuperset
    exact findSuperset_children_ne_none children hn hs hp (List.nil_sublist _)
  | .mk w children, [], x :: set => exact absurd hsub (by simp)
  | .mk w children, k :: path, x :: set =>
    rw [Node.findSuperset]
    cases hall : children.findSuperset p (x :: set) with
    | some value => exact nofun
    | none =>
      simp only
      cases hsub with
      | cons _ hsub => exact absurd hall (findSuperset_children_ne_none children hn hs hp hsub)
      | cons_cons _ hsub => exact findSupersetAt_ne_none children hn hs hp hsub

theorem findSuperset_children_ne_none (children : Children K V) {set path : List K} {k : K} {v : V}
    (hc : children.Sorted) (hs : children.Stores k path v) (hp : p v = true) (hsub : set.Sublist path) :
    children.findSuperset p set ≠ none := by
  match children with
  | .nil => exact hs.elim
  | .cons k' n rest =>
    unfold Children.findSuperset
    cases hres : n.findSuperset p set with
    | some value => exact nofun
    | none =>
      obtain ⟨-, hs⟩ | hs := hs
      · exact absurd hres (findSuperset_ne_none n hc.1 hs hp hsub)
      · exact findSuperset_children_ne_none rest hc.2.2 hs hp hsub

theorem findSupersetAt_ne_none (children : Children K V) {set path : List K} {x : K} {v : V}
    (hc : children.Sorted) (hs : children.Stores x path v) (hp : p v = true) (hsub : set.Sublist path) :
    children.findSupersetAt p x set ≠ none := by
  match children with
  | .nil => exact hs.elim
  | .cons k n rest =>
    unfold Children.findSupersetAt
    obtain ⟨rfl, hs⟩ | hs := hs
    · rw [if_neg (lt_irrefl _), if_pos rfl]
      exact findSuperset_ne_none n hc.1 hs hp hsub
    · rw [if_pos (above_stores rest hc.2.1 hs)]
      exact findSupersetAt_ne_none rest hc.2.2 hs hp hsub

end

/-! ### Sequences of insertions -/

/-- The elements of a set in their order. -/
def elements (s : Finset K) : List K := s.sort (· ≤ ·)

/-- The map after the insertions, from the first to the last. -/
def insertAll (inserts : List (Finset K × V)) : Node K V :=
  inserts.foldl (fun n x => n.insert x.2 (elements x.1)) .empty

/-- The last value inserted under a set. -/
def lastInserted (inserts : List (Finset K × V)) (s : Finset K) : Option V :=
  (inserts.reverse.find? fun x => x.1 = s).map (·.2)

/-- A value that satisfies the predicate and whose key has the property, or nothing if there is none. -/
def Finds (inserts : List (Finset K × V)) (P : Finset K → Prop) (p : V → Bool) : Option V → Prop
  | some v => p v = true ∧ ∃ key, P key ∧ lastInserted inserts key = some v
  | none => ∀ key v, P key → lastInserted inserts key = some v → p v = false

theorem lastInserted_append (inserts : List (Finset K × V)) (x : Finset K × V) (s : Finset K) :
    lastInserted (inserts ++ [x]) s = if x.1 = s then some x.2 else lastInserted inserts s := by
  unfold lastInserted
  rw [List.reverse_append, List.reverse_singleton, List.singleton_append]
  by_cases hx : x.1 = s
  · rw [if_pos hx, List.find?_cons_of_pos (by simpa using hx)]
    rfl
  · rw [if_neg hx, List.find?_cons_of_neg (by simpa using hx)]

theorem elements_inj {s t : Finset K} : elements s = elements t ↔ s = t := by
  refine ⟨fun h => ?_, fun h => by rw [h]⟩
  rw [← s.sort_toFinset (· ≤ ·), ← t.sort_toFinset (· ≤ ·)]
  exact congrArg List.toFinset h

theorem elements_sublist {s t : Finset K} (h : s ⊆ t) : (elements s).Sublist (elements t) := by
  refine List.sublist_of_subperm_of_pairwise (List.subperm_of_subset (s.sort_nodup _) fun x hx => ?_)
    (s.pairwise_sort (· ≤ ·)) (t.pairwise_sort (· ≤ ·))
  exact (Finset.mem_sort _).2 (h ((Finset.mem_sort _).1 hx))

/-- After any insertions the tree is sorted, and what is stored in it are the last values of the sets. -/
theorem insertAll_spec (inserts : List (Finset K × V)) :
    (insertAll inserts).Sorted ∧ (∀ s, (insertAll inserts).lookup (elements s) = lastInserted inserts s) ∧
      ∀ path v, (insertAll inserts).lookup path = some v → ∃ s, path = elements s := by
  induction inserts using List.reverseRecOn with
  | nil =>
    refine ⟨trivial, fun s => lookup_empty _, fun path v h => ?_⟩
    rw [show insertAll [] = (Node.empty : Node K V) from rfl, lookup_empty] at h
    cases h
  | append_singleton inserts x ih =>
    obtain ⟨hsorted, hlookup, hpaths⟩ := ih
    have hstep : insertAll (inserts ++ [x]) = (insertAll inserts).insert x.2 (elements x.1) := by
      unfold insertAll
      rw [List.foldl_append]
      rfl
    rw [hstep]
    refine ⟨sorted_insert _ _ _ hsorted, fun s => ?_, fun path v h => ?_⟩
    · rw [lookup_insert _ _ _ _ hsorted, lastInserted_append, hlookup s]
      exact if_congr (elements_inj.trans eq_comm) rfl rfl
    · rw [lookup_insert _ _ _ _ hsorted] at h
      split at h
      · exact ⟨x.1, by assumption⟩
      · exact hpaths path v h

/-- **Lookups and searches are exact.**  After any sequence of insertions, `lookup` gives the last value inserted
under the set, and `findSubset` and `findSuperset` find a value with the predicate at a subset and at a superset,
if there is one. -/
theorem searches_exact (inserts : List (Finset K × V)) (s : Finset K) (p : V → Bool) :
    (insertAll inserts).lookup (elements s) = lastInserted inserts s ∧
      Finds inserts (fun key => key ⊆ s) p ((insertAll inserts).findSubset p (elements s)) ∧
      Finds inserts (fun key => s ⊆ key) p ((insertAll inserts).findSuperset p (elements s)) := by
  obtain ⟨hsorted, hlookup, hpaths⟩ := insertAll_spec inserts
  have hkey : ∀ path v, (insertAll inserts).Stores path v →
      ∃ key, path = elements key ∧ lastInserted inserts key = some v := by
    intro path v hs
    have hl := lookup_of_stores path hsorted hs
    obtain ⟨key, rfl⟩ := hpaths path v hl
    exact ⟨key, rfl, (hlookup key).symm.trans hl⟩
  have hstores : ∀ key v, lastInserted inserts key = some v → (insertAll inserts).Stores (elements key) v :=
    fun key v h => stores_of_lookup _ ((hlookup key).trans h)
  refine ⟨hlookup s, ?_, ?_⟩
  · cases hres : (insertAll inserts).findSubset p (elements s) with
    | some v =>
      obtain ⟨path, hs, hp, hsub⟩ := stores_of_findSubset _ hres
      obtain ⟨key, rfl, hlast⟩ := hkey path v hs
      refine ⟨hp, key, fun x hx => ?_, hlast⟩
      exact (Finset.mem_sort _).1 (hsub.subset ((Finset.mem_sort _).2 hx))
    | none =>
      intro key v hsub hlast
      by_contra hp
      have hpair : (elements s).Pairwise (· < ·) := (Finset.sortedLT_sort s).pairwise
      exact findSubset_ne_none _ hsorted hpair (hstores key v hlast) (by simpa using hp)
        (elements_sublist hsub) hres
  · cases hres : (insertAll inserts).findSuperset p (elements s) with
    | some v =>
      obtain ⟨path, hs, hp, hsup⟩ := stores_of_findSuperset _ hres
      obtain ⟨key, rfl, hlast⟩ := hkey path v hs
      refine ⟨hp, key, fun x hx => ?_, hlast⟩
      exact (Finset.mem_sort _).1 (hsup x ((Finset.mem_sort _).2 hx))
    | none =>
      intro key v hsub hlast
      by_contra hp
      exact findSuperset_ne_none _ hsorted (hstores key v hlast) (by simpa using hp) (elements_sublist hsub) hres

end

end SymBisect.MapOfSets
