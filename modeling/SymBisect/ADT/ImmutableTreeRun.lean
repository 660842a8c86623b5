import Mathlib
import SymBisect.ADT.ImmutableTreeIterator

/-!
# Programs with persistent trees

A client holds any number of trees and iterators; they share nodes.  Next to it stands a client of plain sorted lists, in which an
iterator is a list and a place in it.

* `Client.step`: every public operation of a tree and of an iterator, on the heap.
* `Lists.step`: the same on lists.  A tree only changes where it is assigned to or destroyed.
* `Represents`: the trees in the heap are balanced search trees with the heights stored and the references counted; the stack of an
  iterator is the path to its place.
* `client_run`: every program that is defined on lists runs on the trees with the same answers.
-/

namespace SymBisect

open Lib

namespace ImmutableTree

variable {K : Type*} {V : Type} (o : KeyOrder K V)

/-- What a call returns. -/
inductive Out (V : Type) where
  | none
  | flag (b : Bool)
  | number (n : ℕ)
  | entry (v : Option V)

/-- The mutators. -/
inductive Change (K : Type*) (V : Type) where
  | insert (v : V)
  | replace (v : V)
  | remove (k : K)
  | popMin
  | popMax

/-- The searches. -/
inductive Query (K : Type*) where
  | empty
  | count (k : K)
  | lookup (k : K)
  | lookupPrevious (k : K)
  | min
  | max
  | size

/-- The functions that return an iterator. -/
inductive Start (K : Type*) where
  | begin
  | end_
  | find (k : K)
  | lowerBound (k : K)
  | upperBound (k : K)

/-- `++` and `--`. -/
inductive Move where
  | next
  | previous

/-- The calls of a client; trees and iterators are numbered as they come. -/
inductive Op (K : Type*) (V : Type) where
  | create
  | copy (i : ℕ)
  | assign (i j : ℕ)
  | destroy (i : ℕ)
  | change (i : ℕ) (c : Change K V)
  | query (i : ℕ) (q : Query K)
  | iterate (i : ℕ) (s : Start K)
  | move (j : ℕ) (m : Move)
  | value (j : ℕ)
  | release (j : ℕ)

/-- The tree that a call assigns to or destroys. -/
def Op.touches : Op K V → ℕ → Prop
  | assign i _, n => i = n
  | destroy i, n => i = n
  | _, _ => False

/-! ### On the heap -/

def Change.run : Change K V → ℕ → TreeM V (Out V × ℕ)
  | insert v, p => do return (.none, ← Node.insert o p v)
  | replace v, p => do return (.none, ← Node.replace o p v)
  | remove k, p => do return (.none, ← Node.remove o p k)
  | popMin, p => do
    let (valueOut, q) ← Node.popMin p
    return (.entry (some valueOut), q)
  | popMax, p => do
    let (valueOut, q) ← Node.popMax p
    return (.entry (some valueOut), q)

def Query.run : Query K → ℕ → TreeM V (Out V)
  | empty, p => return .flag (isTerminator p)
  | count k, p => do return .number (← Node.count o p k)
  | lookup k, p => do return .entry (← Node.lookup o p k)
  | lookupPrevious k, p => do return .entry (← Node.lookupPrevious o p k)
  | min, p => do return .entry (some (← Node.min p))
  | max, p => do return .entry (some (← Node.max p))
  | size, p => do return .number (← Node.size p)

def Start.run : Start K → ℕ → TreeM V Iterator
  | begin, p => Iterator.make p true
  | end_, p => Iterator.make p false
  | find k, p => Iterator.find o p k
  | lowerBound k, p => Iterator.lowerBound o p k
  | upperBound k, p => Iterator.upperBound o p k

def Move.run : Move → Iterator → TreeM V Iterator
  | next, it => it.increment
  | previous, it => it.decrement

/-- The heap, the `node` of every tree and the iterators; `none` for what is destroyed. -/
structure Client (V : Type) where
  heap : Heap V
  trees : List (Option ℕ)
  iterators : List (Option Iterator)

namespace Client

def initial (V : Type) [Inhabited V] : Client V := ⟨Heap.empty V, [], []⟩

def step (S : Client V) : Op K V → Option (Out V × Client V)
  | .create => do
    let (p, h) ← Node.incref terminator S.heap
    return (.none, ⟨h, S.trees ++ [some p], S.iterators⟩)
  | .copy i => do
    let p ← S.trees[i]?.join
    let (p, h) ← Node.incref p S.heap
    return (.none, ⟨h, S.trees ++ [some p], S.iterators⟩)
  | .assign i j => do
    let q ← S.trees[j]?.join
    let (q, h) ← Node.incref q S.heap
    let p ← S.trees[i]?.join
    let (_, h) ← Node.decref p h
    return (.none, ⟨h, S.trees.set i (some q), S.iterators⟩)
  | .destroy i => do
    let p ← S.trees[i]?.join
    let (_, h) ← Node.decref p S.heap
    return (.none, ⟨h, S.trees.set i none, S.iterators⟩)
  | .change i c => do
    let p ← S.trees[i]?.join
    let ((out, q), h) ← c.run o p S.heap
    return (out, ⟨h, S.trees ++ [some q], S.iterators⟩)
  | .query i q => do
    let p ← S.trees[i]?.join
    let (out, h) ← q.run o p S.heap
    return (out, ⟨h, S.trees, S.iterators⟩)
  | .iterate i s => do
    let p ← S.trees[i]?.join
    let (it, h) ← s.run o p S.heap
    return (.none, ⟨h, S.trees, S.iterators ++ [some it]⟩)
  | .move j m => do
    let it ← S.iterators[j]?.join
    let (it, h) ← m.run it S.heap
    return (.none, ⟨h, S.trees, S.iterators.set j (some it)⟩)
  | .value j => do
    let it ← S.iterators[j]?.join
    let (v, h) ← it.value S.heap
    return (.entry (some v), ⟨h, S.trees, S.iterators⟩)
  | .release j => do
    let it ← S.iterators[j]?.join
    let (_, h) ← it.destroy S.heap
    return (.none, ⟨h, S.trees, S.iterators.set j none⟩)

/-- A program, and what its calls return. -/
def run (S : Client V) : List (Op K V) → Option (List (Out V) × Client V)
  | [] => some ([], S)
  | op :: ops => do
    let (out, S) ← S.step o op
    let (outs, S) ← S.run ops
    return (out :: outs, S)

end Client

/-! ### On lists -/

variable [Inhabited V]

/-- A mutator on the entries; on no entries `popMin` and `popMax` return the default value. -/
def Change.apply : Change K V → List V → Out V × List V
  | insert v, l => (.none, o.insert v l)
  | replace v, l => (.none, o.replace v l)
  | remove k, l => (.none, o.remove k l)
  | popMin, l => (.entry (some (l.head?.getD default)), l.tail)
  | popMax, l => (.entry (some (l.getLast?.getD default)), l.dropLast)

omit [Inhabited V] in
/-- A search on the entries; `min` and `max` assert that there are some. -/
def Query.answer : Query K → List V → Option (Out V)
  | empty, l => some (.flag l.isEmpty)
  | count k, l => some (.number ((o.lookup k l).elim 0 fun _ => 1))
  | lookup k, l => some (.entry (o.lookup k l))
  | lookupPrevious k, l => some (.entry (o.previous k l))
  | min, l => l.head?.map fun v => .entry (some v)
  | max, l => l.getLast?.map fun v => .entry (some v)
  | size, l => some (.number l.length)

omit [Inhabited V] in
/-- Where an iterator starts; the length of the list stands for the end. -/
def Start.place : Start K → List V → ℕ
  | begin, _ => 0
  | end_, l => l.length
  | find k, l => if (o.lookup k l).isSome then o.before k l else l.length
  | lowerBound k, l => o.before k l
  | upperBound k, l => o.upto k l

/-- Where an iterator goes; `++` asserts that it is not at the end. -/
def Move.place : Move → ℕ → ℕ → Option ℕ
  | next, length, i => if i < length then some (i + 1) else none
  | previous, length, i => some (if i = 0 then length else i - 1)

/-- The trees as sorted lists and the iterators as places in lists. -/
structure Lists (V : Type) where
  trees : List (Option (List V))
  iterators : List (Option (List V × ℕ))

namespace Lists

def initial (V : Type) : Lists V := ⟨[], []⟩

def step (A : Lists V) : Op K V → Option (Out V × Lists V)
  | .create => some (.none, ⟨A.trees ++ [some []], A.iterators⟩)
  | .copy i => do
    let l ← A.trees[i]?.join
    return (.none, ⟨A.trees ++ [some l], A.iterators⟩)
  | .assign i j => do
    let l ← A.trees[j]?.join
    let _ ← A.trees[i]?.join
    return (.none, ⟨A.trees.set i (some l), A.iterators⟩)
  | .destroy i => do
    let _ ← A.trees[i]?.join
    return (.none, ⟨A.trees.set i none, A.iterators⟩)
  | .change i c => do
    let l ← A.trees[i]?.join
    return ((c.apply o l).1, ⟨A.trees ++ [some (c.apply o l).2], A.iterators⟩)
  | .query i q => do
    let l ← A.trees[i]?.join
    let out ← q.answer o l
    return (out, A)
  | .iterate i s => do
    let l ← A.trees[i]?.join
    return (.none, ⟨A.trees, A.iterators ++ [some (l, s.place o l)]⟩)
  | .move j m => do
    let (l, i) ← A.iterators[j]?.join
    let i ← m.place l.length i
    return (.none, ⟨A.trees, A.iterators.set j (some (l, i))⟩)
  | .value j => do
    let (l, i) ← A.iterators[j]?.join
    let v ← l[i]?
    return (.entry (some v), A)
  | .release j => do
    let _ ← A.iterators[j]?.join
    return (.none, ⟨A.trees, A.iterators.set j none⟩)

def run (A : Lists V) : List (Op K V) → Option (List (Out V) × Lists V)
  | [] => some ([], A)
  | op :: ops => do
    let (out, A) ← A.step o op
    let (outs, A) ← A.run ops
    return (out :: outs, A)

end Lists

/-! ### One call on one tree -/

section Calls

variable {o} {h : Heap V} {R : Multiset (PTree V)} {T : PTree V}

/-- The tree of a client: sorted and balanced. -/
structure Sound (o : KeyOrder K V) (T : PTree V) : Prop where
  sorted : o.Sorted T.toList
  balanced : T.erase.Balanced

omit [Inhabited V] in
theorem entry_self (v : V) : KeyOrder.Entry o (o.key v) [v] := .inr ⟨v, rfl, o.irrefl _, o.irrefl _⟩

omit [Inhabited V] in
theorem sorted_insert {l : List V} (hl : o.Sorted l) (v : V) : o.Sorted (o.insert v l) :=
  KeyOrder.sorted_updateAt hl (entry_self v) fun x hkx hxk => .inr ⟨x, rfl, hkx, hxk⟩

omit [Inhabited V] in
theorem sorted_replace {l : List V} (hl : o.Sorted l) (v : V) : o.Sorted (o.replace v l) :=
  KeyOrder.sorted_updateAt hl (entry_self v) fun _ _ _ => entry_self v

omit [Inhabited V] in
theorem sorted_remove {l : List V} (hl : o.Sorted l) (k : K) : o.Sorted (o.remove k l) :=
  KeyOrder.sorted_updateAt hl (.inl rfl) fun _ _ _ => .inl rfl

theorem popMin_apply (t : SlackTree V) :
    (SlackTree.popMin t).1 = t.toList.head?.getD default ∧ (SlackTree.popMin t).2.toList = t.toList.tail := by
  by_cases hnil : t = .nil
  · subst hnil
    exact ⟨rfl, rfl⟩
  · rw [SlackTree.popMin_toList hnil]
    exact ⟨rfl, rfl⟩

theorem popMax_apply (t : SlackTree V) :
    (SlackTree.popMax t).1 = t.toList.getLast?.getD default ∧ (SlackTree.popMax t).2.toList = t.toList.dropLast := by
  by_cases hnil : t = .nil
  · subst hnil
    exact ⟨rfl, rfl⟩
  · rw [SlackTree.popMax_toList hnil, List.getLast?_concat, List.dropLast_concat]
    exact ⟨rfl, rfl⟩

omit [Inhabited V] in
theorem bind_pure_eq {α β : Type} {m : TreeM V α} {f : α → β} {h' : Heap V} {a : α} (hm : m h = some (a, h')) :
    (m >>= fun a => pure (f a)) h = some (f a, h') := by
  rw [run_bind hm]
  rfl

/-- **A mutator** makes a new tree, sorted and balanced. -/
theorem change_spec (c : Change K V) (hc : Counted h R) (hT : Held R T) (hsound : Sound o T) :
    ∃ T' h', c.run o T.addr h = some (((c.apply o T.toList).1, T'.addr), h') ∧ Counted h' (T' ::ₘ R) ∧
      T'.toList = (c.apply o T.toList).2 ∧ Sound o T' := by
  cases c with
  | insert v =>
    obtain ⟨T', h', hrun, hc', hT'⟩ := insert_spec hc hT v
    have hlist : T'.toList = o.insert v T.toList := by
      rw [PTree.toList, hT']
      exact SlackTree.insert_toList v hsound.sorted
    refine ⟨T', h', bind_pure_eq hrun, hc', hlist, ?_, ?_⟩
    · rw [hlist]
      exact sorted_insert hsound.sorted v
    · rw [hT']
      exact (SlackTree.insert_near v hsound.balanced).balanced
  | replace v =>
    obtain ⟨T', h', hrun, hc', hT'⟩ := replace_spec hc hT v
    have hlist : T'.toList = o.replace v T.toList := by
      rw [PTree.toList, hT']
      exact SlackTree.replace_toList v hsound.sorted
    refine ⟨T', h', bind_pure_eq hrun, hc', hlist, ?_, ?_⟩
    · rw [hlist]
      exact sorted_replace hsound.sorted v
    · rw [hT']
      exact (SlackTree.replace_near v hsound.balanced).balanced
  | remove k =>
    obtain ⟨T', h', hrun, hc', hT'⟩ := remove_spec hc hT k
    have hlist : T'.toList = o.remove k T.toList := by
      rw [PTree.toList, hT']
      exact SlackTree.remove_toList k hsound.sorted
    refine ⟨T', h', bind_pure_eq hrun, hc', hlist, ?_, ?_⟩
    · rw [hlist]
      exact sorted_remove hsound.sorted k
    · rw [hT']
      exact (SlackTree.remove_near k hsound.balanced).balanced
  | popMin =>
    obtain ⟨T', h', hrun, hc', hT'⟩ := popMin_spec hc hT
    obtain ⟨hvalue, htail⟩ := popMin_apply T.erase
    have hlist : T'.toList = T.toList.tail := by
      rw [PTree.toList, hT', htail]
      rfl
    refine ⟨T', h', ?_, hc', hlist, ?_, ?_⟩
    · rw [hvalue] at hrun
      exact bind_pure_eq hrun
    · rw [hlist]
      exact hsound.sorted.tail
    · rw [hT']
      exact (SlackTree.popMin_near hsound.balanced).balanced
  | popMax =>
    obtain ⟨T', h', hrun, hc', hT'⟩ := popMax_spec hc hT
    obtain ⟨hvalue, hinit⟩ := popMax_apply T.erase
    have hlist : T'.toList = T.toList.dropLast := by
      rw [PTree.toList, hT', hinit]
      rfl
    refine ⟨T', h', ?_, hc', hlist, ?_, ?_⟩
    · rw [hvalue] at hrun
      exact bind_pure_eq hrun
    · rw [hlist]
      exact hsound.sorted.sublist (List.dropLast_sublist _)
    · rw [hT']
      exact (SlackTree.popMax_near hsound.balanced).balanced

/-- **A search** answers as on the list and leaves the heap as it is. -/
theorem query_spec (q : Query K) (hc : Counted h R) (hT : T.Stored h) (hsound : Sound o T) {out : Out V}
    (hout : q.answer o T.toList = some out) : q.run o T.addr h = some (out, h) := by
  cases q with
  | empty =>
    obtain rfl := Option.some.inj hout
    have hempty : T.erase.isNil = T.toList.isEmpty := by
      rw [Bool.eq_iff_iff, SlackTree.isNil_iff, List.isEmpty_iff]
      exact SlackTree.toList_eq_nil.symm
    show some (Out.flag (isTerminator T.addr), h) = _
    rw [isTerminator_addr hT, hempty]
  | count k =>
    obtain rfl := Option.some.inj hout
    exact bind_pure_eq (count_spec hc hT hsound.sorted)
  | lookup k =>
    obtain rfl := Option.some.inj hout
    exact bind_pure_eq (lookup_spec hc hT hsound.sorted)
  | lookupPrevious k =>
    obtain rfl := Option.some.inj hout
    exact bind_pure_eq (lookup_previous_spec hc hT hsound.sorted)
  | min =>
    obtain ⟨v, hv, rfl⟩ := Option.map_eq_some_iff.1 hout
    have hmin := min_spec hc hT
    rw [hv] at hmin
    exact bind_pure_eq hmin
  | max =>
    obtain ⟨v, hv, rfl⟩ := Option.map_eq_some_iff.1 hout
    have hmax := max_spec hc hT
    rw [hv] at hmax
    exact bind_pure_eq hmax
  | size =>
    obtain rfl := Option.some.inj hout
    exact bind_pure_eq (size_spec hc hT)

/-- **A new iterator** is an owner of its tree. -/
theorem start_spec (s : Start K) (hc : Counted h R) (hT : Held R T) (hsound : Sound o T) :
    ∃ it h', s.run o T.addr h = some (it, h') ∧ Counted h' (T ::ₘ R) ∧ At T it (s.place o T.toList) := by
  cases s with
  | begin => exact make_spec hc hT hsound.sorted true
  | end_ => exact make_spec hc hT hsound.sorted false
  | find k => exact find_spec hc hT hsound.sorted k
  | lowerBound k => exact lower_bound_spec hc hT hsound.sorted k
  | upperBound k => exact upper_bound_spec hc hT hsound.sorted k

/-- **A step of an iterator.** -/
theorem move_spec (m : Move) {it : Iterator} {i j : ℕ} (hc : Counted h R) (hT : T.Stored h) (hsound : Sound o T) (hat : At T it i)
    (hj : m.place T.toList.length i = some j) : ∃ it', m.run it h = some (it', h) ∧ At T it' j := by
  cases m with
  | next =>
    by_cases hi : i < T.toList.length
    · rw [Move.place, if_pos hi] at hj
      obtain rfl := Option.some.inj hj
      exact increment_spec hat hT hsound.sorted hi
    · rw [Move.place, if_neg hi] at hj
      cases hj
  | previous =>
    obtain rfl := Option.some.inj hj
    exact decrement_spec hc hat hT hsound.sorted

end Calls

/-! ### Programs -/

section Programs

/-- What is not destroyed. -/
def live {α : Type} (l : List (Option α)) : Multiset α := l.filterMap id

omit [Inhabited V] in
theorem live_append {α : Type} (l : List (Option α)) (a : α) : live (l ++ [some a]) = a ::ₘ live l := by
  rw [live, List.filterMap_append, ← Multiset.coe_add, add_comm]
  rfl

theorem live_set {α : Type} {l : List (Option α)} {i : ℕ} {a : α} (h : l[i]?.join = some a) :
    ∃ R, live l = a ::ₘ R ∧ live (l.set i none) = R ∧ ∀ b, live (l.set i (some b)) = b ::ₘ R := by
  induction l generalizing i with
  | nil => cases h
  | cons x l ih =>
    cases i with
    | zero =>
      obtain rfl : x = some a := h
      exact ⟨live l, rfl, rfl, fun b => rfl⟩
    | succ i =>
      obtain ⟨R, hl, hnone, hsome⟩ := ih h
      cases x with
      | none => exact ⟨R, hl, hnone, hsome⟩
      | some c =>
        refine ⟨c ::ₘ R, ?_, ?_, ?_⟩
        · rw [Multiset.cons_swap, ← hl]
          rfl
        · rw [← hnone]
          rfl
        · intro b
          rw [Multiset.cons_swap, ← hsome b]
          rfl

theorem mem_live {α : Type} {l : List (Option α)} {i : ℕ} {a : α} (h : l[i]?.join = some a) : a ∈ live l := by
  obtain ⟨R, hl, -, -⟩ := live_set h
  rw [hl]
  exact Multiset.mem_cons_self a R

theorem join_append {α : Type} {l : List (Option α)} {i : ℕ} {a : α} (h : l[i]?.join = some a) (m : List (Option α)) :
    (l ++ m)[i]?.join = some a := by
  have hi : i < l.length := by
    by_contra hge
    rw [List.getElem?_eq_none (Nat.le_of_not_lt hge)] at h
    cases h
  rw [List.getElem?_append_left hi, h]

theorem join_map {α β : Type} (f : α → β) (l : List (Option α)) (i : ℕ) :
    (l.map (Option.map f))[i]?.join = l[i]?.join.map f := by
  rw [List.getElem?_map]
  cases l[i]? with
  | none => rfl
  | some x => rfl

/-- The trees of a client with the addresses of their nodes, and its iterators as places in them. -/
structure Ghost (V : Type) where
  trees : List (Option (PTree V))
  iterators : List (Option (PTree V × ℕ))

/-- A tree or an iterator is one owner. -/
def Ghost.owners (G : Ghost V) : Multiset (PTree V) := live G.trees + (live G.iterators).map Prod.fst

/-- The client of lists. -/
def Ghost.lists (G : Ghost V) : Lists V :=
  ⟨G.trees.map (Option.map PTree.toList), G.iterators.map (Option.map fun c => (c.1.toList, c.2))⟩

/-- The iterator at a place. -/
def iteratorAt (c : PTree V × ℕ) : Iterator :=
  ⟨c.1.addr, c.1.height, if c.2 < c.1.toList.length then c.1.path c.2 else []⟩

omit [Inhabited V] in
theorem At.eq_iteratorAt {T : PTree V} {it : Iterator} {i : ℕ} (hat : At T it i) : it = iteratorAt (T, i) := by
  obtain ⟨hroot, hmax, hle, hstack⟩ := hat
  cases it with
  | mk root max stack =>
    obtain rfl : root = T.addr := hroot
    obtain rfl : max = T.height := hmax
    obtain rfl : stack = if i < T.toList.length then T.path i else [] := hstack
    rfl

/-- The trees are in the heap with all counts right, sorted and balanced, and the iterators are where the places say. -/
structure Represents (S : Client V) (G : Ghost V) : Prop where
  counted : Counted S.heap G.owners
  trees : S.trees = G.trees.map (Option.map PTree.addr)
  iterators : S.iterators = G.iterators.map (Option.map iteratorAt)
  sound : ∀ T ∈ G.owners, Sound o T
  places : ∀ c ∈ live G.iterators, c.2 ≤ c.1.toList.length

namespace Represents

variable {o} {S : Client V} {G : Ghost V} {T U : PTree V} {h : Heap V} {i : ℕ}

theorem tree (hrep : Represents o S G) {l : List V} (hl : G.lists.trees[i]?.join = some l) :
    ∃ T, G.trees[i]?.join = some T ∧ T.toList = l ∧ S.trees[i]?.join = some T.addr := by
  rw [Ghost.lists, join_map] at hl
  obtain ⟨T, hT, rfl⟩ := Option.map_eq_some_iff.1 hl
  refine ⟨T, hT, rfl, ?_⟩
  rw [hrep.trees, join_map, hT]
  rfl

theorem iterator (hrep : Represents o S G) {c : List V × ℕ} (hc : G.lists.iterators[i]?.join = some c) :
    ∃ T, G.iterators[i]?.join = some (T, c.2) ∧ T.toList = c.1 ∧ ∃ it, S.iterators[i]?.join = some it ∧ At T it c.2 := by
  rw [Ghost.lists, join_map] at hc
  obtain ⟨⟨T, j⟩, hT, rfl⟩ := Option.map_eq_some_iff.1 hc
  refine ⟨T, hT, rfl, iteratorAt (T, j), ?_, rfl, rfl, hrep.places _ (mem_live hT), rfl⟩
  rw [hrep.iterators, join_map, hT]
  rfl

omit [Inhabited V] in
theorem mem_owners (hT : G.trees[i]?.join = some T) : T ∈ G.owners :=
  Multiset.mem_add.2 (.inl (mem_live hT))

omit [Inhabited V] in
theorem mem_owners_iterator {j : ℕ} (hT : G.iterators[i]?.join = some (T, j)) : T ∈ G.owners :=
  Multiset.mem_add.2 (.inr (Multiset.mem_map_of_mem _ (mem_live hT)))

/-- Another tree. -/
theorem add_tree (hrep : Represents o S G) (hc : Counted h (T ::ₘ G.owners)) (hsound : Sound o T) :
    Represents o ⟨h, S.trees ++ [some T.addr], S.iterators⟩ ⟨G.trees ++ [some T], G.iterators⟩ := by
  have howners : Ghost.owners ⟨G.trees ++ [some T], G.iterators⟩ = T ::ₘ G.owners := by
    rw [Ghost.owners, live_append, Multiset.cons_add]
    rfl
  refine ⟨?_, ?_, hrep.iterators, ?_, hrep.places⟩
  · rw [howners]
    exact hc
  · rw [hrep.trees, List.map_append]
    rfl
  · intro U hU
    rw [howners, Multiset.mem_cons] at hU
    cases hU with
    | inl heq => rw [heq]; exact hsound
    | inr hmem => exact hrep.sound U hmem

/-- Another tree in place of one, or none. -/
theorem set_tree (hrep : Represents o S G) (hT : G.trees[i]?.join = some T) :
    ∃ R, G.owners = T ::ₘ R ∧
      (Counted h R → Represents o ⟨h, S.trees.set i none, S.iterators⟩ ⟨G.trees.set i none, G.iterators⟩) ∧
      ∀ U, Counted h (U ::ₘ R) → Sound o U →
        Represents o ⟨h, S.trees.set i (some U.addr), S.iterators⟩ ⟨G.trees.set i (some U), G.iterators⟩ := by
  obtain ⟨R, hlive, hnone, hsome⟩ := live_set hT
  have howners : G.owners = T ::ₘ (R + (live G.iterators).map Prod.fst) := by
    rw [Ghost.owners, hlive, Multiset.cons_add]
  have hrest : ∀ U ∈ R + (live G.iterators).map Prod.fst, Sound o U := by
    intro U hU
    refine hrep.sound U ?_
    rw [howners]
    exact Multiset.mem_cons_of_mem hU
  refine ⟨R + (live G.iterators).map Prod.fst, howners, ?_, ?_⟩
  · intro hc
    have howners' : Ghost.owners ⟨G.trees.set i none, G.iterators⟩ = R + (live G.iterators).map Prod.fst := by
      rw [Ghost.owners, hnone]
    refine ⟨?_, ?_, hrep.iterators, ?_, hrep.places⟩
    · rw [howners']
      exact hc
    · rw [hrep.trees, List.map_set]
      rfl
    · rw [howners']
      exact hrest
  · intro U hc hsound
    have howners' : Ghost.owners ⟨G.trees.set i (some U), G.iterators⟩ = U ::ₘ (R + (live G.iterators).map Prod.fst) := by
      rw [Ghost.owners, hsome, Multiset.cons_add]
    refine ⟨?_, ?_, hrep.iterators, ?_, hrep.places⟩
    · rw [howners']
      exact hc
    · rw [hrep.trees, List.map_set]
      rfl
    · intro W hW
      rw [howners', Multiset.mem_cons] at hW
      cases hW with
      | inl heq => rw [heq]; exact hsound
      | inr hmem => exact hrest W hmem

/-- Another iterator. -/
theorem add_iterator (hrep : Represents o S G) {it : Iterator} {j : ℕ} (hc : Counted h (T ::ₘ G.owners)) (hsound : Sound o T)
    (hat : At T it j) :
    Represents o ⟨h, S.trees, S.iterators ++ [some it]⟩ ⟨G.trees, G.iterators ++ [some (T, j)]⟩ := by
  have howners : Ghost.owners ⟨G.trees, G.iterators ++ [some (T, j)]⟩ = T ::ₘ G.owners := by
    rw [Ghost.owners, live_append, Multiset.map_cons, Multiset.add_cons]
    rfl
  refine ⟨?_, hrep.trees, ?_, ?_, ?_⟩
  · rw [howners]
    exact hc
  · rw [hrep.iterators, List.map_append, hat.eq_iteratorAt]
    rfl
  · intro U hU
    rw [howners, Multiset.mem_cons] at hU
    cases hU with
    | inl heq => rw [heq]; exact hsound
    | inr hmem => exact hrep.sound U hmem
  · intro c hmem
    rw [live_append, Multiset.mem_cons] at hmem
    cases hmem with
    | inl heq => rw [heq]; exact hat.le
    | inr hold => exact hrep.places c hold

/-- An iterator at another place, or gone. -/
theorem set_iterator (hrep : Represents o S G) {j : ℕ} (hT : G.iterators[i]?.join = some (T, j)) :
    ∃ R, G.owners = T ::ₘ R ∧
      (Counted h R → Represents o ⟨h, S.trees, S.iterators.set i none⟩ ⟨G.trees, G.iterators.set i none⟩) ∧
      ∀ it j', At T it j' →
        Represents o ⟨S.heap, S.trees, S.iterators.set i (some it)⟩ ⟨G.trees, G.iterators.set i (some (T, j'))⟩ := by
  obtain ⟨R, hlive, hnone, hsome⟩ := live_set hT
  have howners : G.owners = T ::ₘ (live G.trees + R.map Prod.fst) := by
    rw [Ghost.owners, hlive, Multiset.map_cons, Multiset.add_cons]
  have hplaces : ∀ c ∈ R, c.2 ≤ c.1.toList.length := by
    intro c hmem
    refine hrep.places c ?_
    rw [hlive]
    exact Multiset.mem_cons_of_mem hmem
  refine ⟨live G.trees + R.map Prod.fst, howners, ?_, ?_⟩
  · intro hc
    have howners' : Ghost.owners ⟨G.trees, G.iterators.set i none⟩ = live G.trees + R.map Prod.fst := by
      rw [Ghost.owners, hnone]
    refine ⟨?_, hrep.trees, ?_, ?_, ?_⟩
    · rw [howners']
      exact hc
    · rw [hrep.iterators, List.map_set]
      rfl
    · intro U hU
      refine hrep.sound U ?_
      rw [howners] at *
      rw [howners'] at hU
      exact Multiset.mem_cons_of_mem hU
    · rw [hnone]
      exact hplaces
  · intro it j' hat
    have howners' : Ghost.owners ⟨G.trees, G.iterators.set i (some (T, j'))⟩ = G.owners := by
      rw [howners, Ghost.owners, hsome, Multiset.map_cons, Multiset.add_cons]
    refine ⟨?_, hrep.trees, ?_, ?_, ?_⟩
    · rw [howners']
      exact hrep.counted
    · rw [hrep.iterators, List.map_set, hat.eq_iteratorAt]
      rfl
    · rw [howners']
      exact hrep.sound
    · intro c hmem
      rw [hsome, Multiset.mem_cons] at hmem
      cases hmem with
      | inl heq => rw [heq]; exact hat.le
      | inr hold => exact hplaces c hold

/-- The heap in place of an equal one. -/
theorem same (hrep : Represents o S G) : Represents o ⟨S.heap, S.trees, S.iterators⟩ G := hrep

end Represents

theorem bind_some {α β : Type} {x : Option α} {f : α → Option β} {a : α} (hx : x = some a) : (x >>= f) = f a := by
  rw [hx]
  rfl

variable {o}

/-- The trees that a call does not touch stay, node for node. -/
def Keeps (op : Op K V) (G G' : Ghost V) : Prop :=
  ∀ n T, ¬op.touches n → G.trees[n]?.join = some T → G'.trees[n]?.join = some T

omit [Inhabited V] in
theorem keeps_append (op : Op K V) (G : Ghost V) (m : List (Option (PTree V))) (iterators : List (Option (PTree V × ℕ))) :
    Keeps op G ⟨G.trees ++ m, iterators⟩ :=
  fun _ _ _ hT => join_append hT m

omit [Inhabited V] in
theorem keeps_set (op : Op K V) (i : ℕ) (htouches : op.touches i) (G : Ghost V) (x : Option (PTree V)) :
    Keeps op G ⟨G.trees.set i x, G.iterators⟩ := by
  intro n T hn hT
  have hne : i ≠ n := by
    intro heq
    exact hn (heq ▸ htouches)
  show ((G.trees.set i x)[n]?).join = some T
  rw [List.getElem?_set_ne hne, hT]

/-- **One call**: what it does on lists it does on the trees. -/
theorem client_step {S : Client V} {G : Ghost V} {op : Op K V} {out : Out V} {A : Lists V} (hrep : Represents o S G)
    (hstep : G.lists.step o op = some (out, A)) :
    ∃ S' G', S.step o op = some (out, S') ∧ Represents o S' G' ∧ G'.lists = A ∧ Keeps op G G' := by
  cases op with
  | create =>
    cases hstep
    obtain ⟨h', hrun, hc'⟩ := incref_spec (T := .nil) hrep.counted (.inl rfl)
    refine ⟨_, _, bind_some hrun, hrep.add_tree (T := .nil) hc' ⟨List.Pairwise.nil, trivial⟩, ?_, keeps_append _ G _ _⟩
    rw [Ghost.lists, List.map_append]
    rfl
  | copy i =>
    obtain ⟨l, hl, hout⟩ := Option.bind_eq_some_iff.1 hstep
    cases hout
    obtain ⟨T, hT, rfl, hp⟩ := hrep.tree hl
    obtain ⟨h', hrun, hc'⟩ := incref_spec hrep.counted (.of_mem (Represents.mem_owners hT))
    refine ⟨_, _, (bind_some hp).trans (bind_some hrun), hrep.add_tree hc' (hrep.sound T (Represents.mem_owners hT)), ?_, keeps_append _ G _ _⟩
    rw [Ghost.lists, List.map_append]
    rfl
  | assign i j =>
    obtain ⟨l, hl, hstep⟩ := Option.bind_eq_some_iff.1 hstep
    obtain ⟨l', hl', hout⟩ := Option.bind_eq_some_iff.1 hstep
    cases hout
    obtain ⟨U, hU, rfl, hq⟩ := hrep.tree hl
    obtain ⟨T, hT, -, hp⟩ := hrep.tree hl'
    have hsound := hrep.sound U (Represents.mem_owners hU)
    obtain ⟨h₁, hrun₁, hc₁⟩ := incref_spec hrep.counted (.of_mem (Represents.mem_owners hU))
    obtain ⟨R, howners, -, -⟩ := hrep.set_tree (h := h₁) hT
    rw [howners] at hc₁
    obtain ⟨h₂, hrun₂, hc₂⟩ := decref_spec hc₁.swap
    obtain ⟨R', howners', -, hset⟩ := hrep.set_tree (h := h₂) hT
    rw [howners, Multiset.cons_inj_right] at howners'
    subst howners'
    refine ⟨_, _, ?_, hset U hc₂ hsound, ?_, keeps_set (.assign i j) i rfl G _⟩
    · exact (bind_some hq).trans ((bind_some hrun₁).trans ((bind_some hp).trans (bind_some hrun₂)))
    · rw [Ghost.lists, List.map_set]
      rfl
  | destroy i =>
    obtain ⟨l, hl, hout⟩ := Option.bind_eq_some_iff.1 hstep
    cases hout
    obtain ⟨T, hT, -, hp⟩ := hrep.tree hl
    obtain ⟨R, howners, -, -⟩ := hrep.set_tree (h := S.heap) hT
    have hc := hrep.counted
    rw [howners] at hc
    obtain ⟨h', hrun, hc'⟩ := decref_spec hc
    obtain ⟨R', howners', hdrop, -⟩ := hrep.set_tree (h := h') hT
    rw [howners, Multiset.cons_inj_right] at howners'
    subst howners'
    refine ⟨_, _, (bind_some hp).trans (bind_some hrun), hdrop hc', ?_, keeps_set (.destroy i) i rfl G _⟩
    rw [Ghost.lists, List.map_set]
    rfl
  | change i c =>
    obtain ⟨l, hl, hout⟩ := Option.bind_eq_some_iff.1 hstep
    cases hout
    obtain ⟨T, hT, rfl, hp⟩ := hrep.tree hl
    have hmem := Represents.mem_owners hT
    obtain ⟨T', h', hrun, hc', hlist, hsound⟩ := change_spec c hrep.counted (.of_mem hmem) (hrep.sound T hmem)
    refine ⟨_, _, (bind_some hp).trans (bind_some hrun), hrep.add_tree hc' hsound, ?_, keeps_append _ G _ _⟩
    rw [Ghost.lists, List.map_append, ← hlist]
    rfl
  | query i q =>
    obtain ⟨l, hl, hstep⟩ := Option.bind_eq_some_iff.1 hstep
    obtain ⟨out', hanswer, hout⟩ := Option.bind_eq_some_iff.1 hstep
    cases hout
    obtain ⟨T, hT, rfl, hp⟩ := hrep.tree hl
    have hmem := Represents.mem_owners hT
    have hrun := query_spec q hrep.counted (hrep.counted.stored T hmem) (hrep.sound T hmem) hanswer
    exact ⟨_, G, (bind_some hp).trans (bind_some hrun), hrep.same, rfl, fun _ _ _ hT => hT⟩
  | iterate i s =>
    obtain ⟨l, hl, hout⟩ := Option.bind_eq_some_iff.1 hstep
    cases hout
    obtain ⟨T, hT, rfl, hp⟩ := hrep.tree hl
    have hmem := Represents.mem_owners hT
    obtain ⟨it, h', hrun, hc', hat⟩ := start_spec s hrep.counted (.of_mem hmem) (hrep.sound T hmem)
    refine ⟨_, _, (bind_some hp).trans (bind_some hrun), hrep.add_iterator hc' (hrep.sound T hmem) hat, ?_, fun _ _ _ hT => hT⟩
    rw [Ghost.lists, List.map_append]
    rfl
  | move j m =>
    obtain ⟨⟨l, i⟩, hl, hstep⟩ := Option.bind_eq_some_iff.1 hstep
    obtain ⟨i', hplace, hout⟩ := Option.bind_eq_some_iff.1 hstep
    cases hout
    obtain ⟨T, hT, hlist, it, hit, hat⟩ := hrep.iterator hl
    obtain rfl : T.toList = l := hlist
    have hmem := Represents.mem_owners_iterator hT
    obtain ⟨it', hrun, hat'⟩ := move_spec m hrep.counted (hrep.counted.stored T hmem) (hrep.sound T hmem) hat hplace
    obtain ⟨R, -, -, hset⟩ := hrep.set_iterator (h := S.heap) hT
    refine ⟨_, _, (bind_some hit).trans (bind_some hrun), hset it' i' hat', ?_, fun _ _ _ hT => hT⟩
    rw [Ghost.lists, List.map_set]
    rfl
  | value j =>
    obtain ⟨⟨l, i⟩, hl, hstep⟩ := Option.bind_eq_some_iff.1 hstep
    obtain ⟨v, hv, hout⟩ := Option.bind_eq_some_iff.1 hstep
    cases hout
    obtain ⟨T, hT, hlist, it, hit, hat⟩ := hrep.iterator hl
    obtain rfl : T.toList = l := hlist
    have hmem := Represents.mem_owners_iterator hT
    obtain ⟨v', hv', hrun⟩ := value_spec hat (hrep.counted.stored T hmem) (List.getElem?_eq_some_iff.1 hv).1
    obtain rfl : v = v' := Option.some.inj (hv.symm.trans hv')
    exact ⟨_, G, (bind_some hit).trans (bind_some hrun), hrep.same, rfl, fun _ _ _ hT => hT⟩
  | release j =>
    obtain ⟨⟨l, i⟩, hl, hout⟩ := Option.bind_eq_some_iff.1 hstep
    cases hout
    obtain ⟨T, hT, -, it, hit, hat⟩ := hrep.iterator hl
    obtain ⟨R, howners, -, -⟩ := hrep.set_iterator (h := S.heap) hT
    have hc := hrep.counted
    rw [howners] at hc
    obtain ⟨h', hrun, hc'⟩ := destroy_spec hc hat
    obtain ⟨R', howners', hdrop, -⟩ := hrep.set_iterator (h := h') hT
    rw [howners, Multiset.cons_inj_right] at howners'
    subst howners'
    refine ⟨_, _, (bind_some hit).trans (bind_some hrun), hdrop hc', ?_, fun _ _ _ hT => hT⟩
    rw [Ghost.lists, List.map_set]
    rfl

theorem run_refines {S : Client V} {G : Ghost V} {ops : List (Op K V)} {outs : List (Out V)} {A : Lists V} (hrep : Represents o S G)
    (hrun : G.lists.run o ops = some (outs, A)) :
    ∃ S' G', S.run o ops = some (outs, S') ∧ Represents o S' G' ∧ G'.lists = A ∧
      ∀ n T, (∀ op ∈ ops, ¬op.touches n) → G.trees[n]?.join = some T → G'.trees[n]?.join = some T := by
  induction ops generalizing S G outs with
  | nil =>
    cases hrun
    exact ⟨S, G, rfl, hrep, rfl, fun _ _ _ hT => hT⟩
  | cons op ops ih =>
    obtain ⟨⟨out, A₁⟩, hstep, hrun⟩ := Option.bind_eq_some_iff.1 hrun
    obtain ⟨⟨outs', A₂⟩, hrest, hout⟩ := Option.bind_eq_some_iff.1 hrun
    cases hout
    obtain ⟨S₁, G₁, hstep₁, hrep₁, rfl, hkeep₁⟩ := client_step hrep hstep
    obtain ⟨S₂, G₂, hrun₂, hrep₂, hlists₂, hkeep₂⟩ := ih hrep₁ hrest
    refine ⟨S₂, G₂, (bind_some hstep₁).trans (bind_some hrun₂), hrep₂, hlists₂, ?_⟩
    intro n T hops hT
    have hfirst := hkeep₁ n T (hops op List.mem_cons_self) hT
    exact hkeep₂ n T (fun op' hop' => hops op' (List.mem_cons_of_mem op hop')) hfirst

theorem represents_initial : Represents o (Client.initial V) ⟨[], []⟩ := by
  refine ⟨⟨⟨3, rfl⟩, ?_, ?_, ?_⟩, rfl, rfl, ?_, ?_⟩
  · intro q hq
    have hne : q ≠ terminator := Nat.ne_of_gt hq
    exact if_neg hne
  · intro q
    show (if q = terminator then some _ else none : Option (Node V)).elim 0 Node.references = _
    rw [Heap.edges]
    show _ = 0 + (∑ p ∈ Finset.range 1, links (Heap.empty V).nodes q p) + _
    rw [Finset.sum_range_one, links]
    show _ = 0 + ((if terminator = q then 1 else 0) + if terminator = q then 1 else 0) + _
    by_cases hq : q = terminator
    · rw [if_pos hq, if_pos hq.symm, if_pos hq]
      rfl
    · rw [if_neg hq, if_neg (Ne.symm hq), if_neg hq]
      rfl
  · intro T hT
    exact absurd hT (Multiset.notMem_zero T)
  · intro T hT
    exact absurd hT (Multiset.notMem_zero T)
  · intro c hc
    exact absurd hc (Multiset.notMem_zero c)

/-- **Persistent ordered map.**  Whatever sequence of calls is defined on sorted lists runs on the trees with the same answers.  In the
end every tree that is not destroyed holds exactly the entries of its list; it is sorted, at every node the heights differ by at most
two and are the stored ones, and every iterator is at its place.  Later calls leave an older tree as it is, node for node. -/
theorem client_run (o : KeyOrder K V) (ops later : List (Op K V)) (outs outs' : List (Out V)) (A A' : Lists V)
    (hrun : (Lists.initial V).run o ops = some (outs, A)) (hlater : A.run o later = some (outs', A')) :
    ∃ S G S' G', (Client.initial V).run o ops = some (outs, S) ∧ Represents o S G ∧ G.lists = A ∧
      S.run o later = some (outs', S') ∧ Represents o S' G' ∧ G'.lists = A' ∧
      ∀ n T, (∀ op ∈ later, ¬op.touches n) → G.trees[n]?.join = some T → G'.trees[n]?.join = some T := by
  obtain ⟨S, G, hfirst, hrep, rfl, -⟩ := run_refines represents_initial hrun
  obtain ⟨S', G', hsecond, hrep', hlists', hkeep⟩ := run_refines hrep hlater
  exact ⟨S, G, S', G', hfirst, hrep, rfl, hsecond, hrep', hlists', hkeep⟩

/-- Numbers by their values. -/
def natOrder : KeyOrder ℕ ℕ where
  key := id
  lt a b := decide (a < b)
  irrefl a := decide_eq_false (Nat.lt_irrefl a)
  trans hab hbc := decide_eq_true (Nat.lt_trans (of_decide_eq_true hab) (of_decide_eq_true hbc))
  incomp_trans hab hba hbc hcb := by
    have hab' := of_decide_eq_false hab
    have hba' := of_decide_eq_false hba
    have hbc' := of_decide_eq_false hbc
    have hcb' := of_decide_eq_false hcb
    exact decide_eq_false (by omega)

/-- Three entries; then the first is taken out and an iterator goes from the end of the old tree to its last entry. -/
theorem client_run_three :
    ∃ S G S' G', (Client.initial ℕ).run natOrder [.create, .change 0 (.insert 5), .change 1 (.insert 3), .change 2 (.insert 7)] =
        some ([.none, .none, .none, .none], S) ∧
      Represents natOrder S G ∧ G.lists = ⟨[some [], some [5], some [3, 5], some [3, 5, 7]], []⟩ ∧
      S.run natOrder [.change 3 .popMin, .iterate 3 .end_, .move 0 .previous, .value 0] =
        some ([.entry (some 3), .none, .none, .entry (some 7)], S') ∧
      Represents natOrder S' G' ∧
      G'.lists = ⟨[some [], some [5], some [3, 5], some [3, 5, 7], some [5, 7]], [some ([3, 5, 7], 2)]⟩ ∧
      ∀ n T, (∀ op ∈ [.change 3 .popMin, .iterate 3 .end_, .move 0 .previous, (.value 0 : Op ℕ ℕ)], ¬op.touches n) →
        G.trees[n]?.join = some T → G'.trees[n]?.join = some T :=
  client_run natOrder [.create, .change 0 (.insert 5), .change 1 (.insert 3), .change 2 (.insert 7)]
    [.change 3 .popMin, .iterate 3 .end_, .move 0 .previous, .value 0] _ _ _ _ rfl rfl

end Programs

end ImmutableTree

end SymBisect
