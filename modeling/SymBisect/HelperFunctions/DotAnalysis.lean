import SymBisect.HelperFunctions.CfgAnalysis

/-!
# The blocks that must have been executed

`helper_functions/dot_analysis.py`: the dominator tree of a function is read from a dot file, and for every block the
blocks that are on every way to it are listed.  `get_alldoms` extends the lists of the children in place, and remembers
what it has finished.

* `get_alldoms`: the blocks below a block of the tree.
* `get_alldoms_spec`: it returns all of them, each once, whatever the order of the edges.
* `mustnodes_exact`: the lists of `get_node_premustnodes` and `get_node_postmustnodes` are the dominators and
  post-dominators.

The edges are pairs of labels; what a run has left in a file from an earlier one is not read.  A text is a list of
characters.
-/

namespace SymBisect.DotAnalysis

open Lib PriorityList CfgAnalysis

attribute [local instance] Text.lawfulBEq

/-! ### The model -/

/-- `int(x.split("-")[-1])`. -/
def numberOf (label : Text) : Option ℤ := ((label.splitOn '-').getLast?).bind int

/-- `l.sort(key = lambda x:int(x.split("-")[-1]))`, unless a label has no number. -/
def sortByNumber (l : List Text) : Option (List Text) :=
  if l.all fun x => (numberOf x).isSome then
    some (l.insertionSort fun x y => (numberOf x).getD 0 ≤ (numberOf y).getD 0)
  else none

/-- `node_direct_doms`, whose lists are extended in place, and `node_all_doms`. -/
structure Doms where
  direct : List (Text × List Text)
  all : List (Text × List Text)

namespace Doms

/-- `doms += localdoms`, where `doms` is the list of a node. -/
def extend (d : Doms) (node : Text) (localdoms : List Text) : Doms :=
  { d with direct := d.direct.map fun e => if e.1 = node then (e.1, e.2 ++ localdoms) else e }

/-- `node_all_doms[node] = doms`. -/
def finish (d : Doms) (node : Text) (doms : List Text) : Doms :=
  { d with all := (node, doms) :: d.all.filter fun e => e.1 ≠ node }

end Doms

/-- One turn of the loop of `get_alldoms`; `rec` is the call for a node that is not finished. -/
def addLocal (rec : Text → Doms → Option (List Text × Doms)) (node : Text) (d : Doms) (domnode : Text) : Option Doms :=
  match d.all.lookup domnode with
  | some localdoms => some (d.extend node localdoms)
  | none =>
    if domnode ∈ d.direct.map Prod.fst then
      (rec domnode d).map fun res => res.2.extend node res.1
    else some d

/-- `get_alldoms`, with calls that are nested `fuel` deep. -/
def get_alldoms : ℕ → Text → Doms → Option (List Text × Doms)
  | 0, _, _ => none
  | fuel + 1, node, d =>
    match d.all.lookup node with
    | some doms => some (doms, d)
    | none =>
      match d.direct.lookup node with
      | none => some ([], d)
      | some direct_doms => do
        let d ← direct_doms.foldlM (addLocal (get_alldoms fuel) node) d
        let doms ← sortByNumber ((d.direct.lookup node).getD []).dedup
        some (doms, d.finish node doms)

/-- One turn of the loop of `get_domdic`. -/
def addNode (fuel : ℕ) (d : Doms) (node : Text) : Option Doms :=
  if node ∈ d.all.map Prod.fst then some d
  else (get_alldoms fuel node d).map fun res => res.2.finish node res.1

/-- `get_domdic`: a dictionary of dominators and dominatees. -/
def get_domdic (fuel : ℕ) (edges : List (Text × Text)) : Option (List (Text × List Text)) :=
  let node_direct_doms := get_BB_directBBs edges
  ((node_direct_doms.map Prod.fst).foldlM (addNode fuel) ⟨node_direct_doms, []⟩).map Doms.all

/-- The dominators of every dominatee. -/
def invert (domdic : List (Text × List Text)) : List (Text × List Text) :=
  get_BB_directBBs (domdic.flatMap fun e => e.2.map fun dom => (dom, e.1))

/-- The lists, sorted. -/
def sortAll (node_mustnodes : List (Text × List Text)) : Option (List (Text × List Text)) :=
  node_mustnodes.mapM fun e => (sortByNumber e.2).map fun l => (e.1, l)

/-- `get_node_premustnodes`. -/
def get_node_premustnodes (fuel : ℕ) (edges : List (Text × Text)) : Option (List (Text × List Text)) :=
  (get_domdic fuel edges).bind fun domdic => sortAll (invert domdic)

/-- `"Post dominance root node"`. -/
def postRoot : Text := "Post dominance root node".toList

/-- `get_node_postmustnodes`. -/
def get_node_postmustnodes (fuel : ℕ) (edges : List (Text × Text)) : Option (List (Text × List Text)) :=
  (get_domdic fuel edges).bind fun domdic => sortAll (invert (domdic.filter fun e => e.1 ≠ postRoot))

/-! ### Trees -/

/-- The edges are those of a tree: every block has one parent, and the root none. -/
structure IsTree (edges : List (Text × Text)) (root : Text) : Prop where
  parent : (edges.map Prod.snd).Nodup
  root_free : ∀ e ∈ edges, e.2 ≠ root
  rooted : ∀ e ∈ edges, Relation.ReflTransGen (fun a b => (a, b) ∈ edges) root e.1

/-- A block is below another one. -/
def Below (edges : List (Text × Text)) : Text → Text → Prop := Relation.TransGen fun a b => (a, b) ∈ edges

variable {edges : List (Text × Text)} {root node x y : Text}

theorem IsTree.parent_unique (h : IsTree edges root) (hx : (x, node) ∈ edges) (hy : (y, node) ∈ edges) : x = y := by
  have hnodup := h.parent
  have := List.inj_on_of_nodup_map hnodup hx hy rfl
  exact congrArg Prod.fst this

/-- A tree has no cycle. -/
theorem IsTree.acyclic (h : IsTree edges root) (x : Text) : ¬Below edges x x := by
  have hreach : ∀ x, Relation.ReflTransGen (fun a b => (a, b) ∈ edges) root x → ¬Below edges x x := by
    intro x hx
    induction hx with
    | refl =>
      intro hcycle
      obtain ⟨y, -, hedge⟩ := Relation.TransGen.tail'_iff.1 hcycle
      exact h.root_free _ hedge rfl
    | @tail p x hp hedge ih =>
      intro hcycle
      obtain ⟨y, hxy, hedge'⟩ := Relation.TransGen.tail'_iff.1 hcycle
      obtain rfl := h.parent_unique hedge hedge'
      exact ih (Relation.TransGen.head'_iff.2 ⟨x, hedge, hxy⟩)
  intro hcycle
  obtain ⟨y, hedge, -⟩ := Relation.TransGen.head'_iff.1 hcycle
  exact hreach x (h.rooted _ hedge) hcycle

/-- The number of edges below a block. -/
noncomputable def weight (edges : List (Text × Text)) (x : Text) : ℕ := by
  classical
  exact edges.countP fun e => decide (e.1 = x ∨ Below edges x e.1)

theorem weight_le (edges : List (Text × Text)) (x : Text) : weight edges x ≤ edges.length := by
  classical
  exact List.countP_le_length

/-- There are fewer edges below a block that is further down. -/
theorem IsTree.weight_lt (h : IsTree edges root) (hxy : Below edges x y) : weight edges y < weight edges x := by
  classical
  obtain ⟨z, hedge, -⟩ := Relation.TransGen.head'_iff.1 hxy
  have hsub : ∀ e ∈ edges, (e.1 = y ∨ Below edges y e.1) → e.1 = x ∨ Below edges x e.1 := by
    rintro e - (heq | hbelow)
    · exact .inr (heq ▸ hxy)
    · exact .inr (hxy.trans hbelow)
  have hnot : ¬((x, z).1 = y ∨ Below edges y (x, z).1) := by
    rintro (heq | hbelow)
    · exact h.acyclic x (by rw [← heq] at hxy; exact hxy)
    · exact h.acyclic x (hxy.trans hbelow)
  unfold weight
  rw [List.countP_eq_length_filter, List.countP_eq_length_filter]
  have hsublist : (edges.filter fun e => decide (e.1 = y ∨ Below edges y e.1)).Sublist
      (edges.filter fun e => decide (e.1 = x ∨ Below edges x e.1)) := by
    have heq : edges.filter (fun e => decide (e.1 = y ∨ Below edges y e.1)) =
        (edges.filter fun e => decide (e.1 = x ∨ Below edges x e.1)).filter
          fun e => decide (e.1 = y ∨ Below edges y e.1) := by
      rw [List.filter_filter]
      refine List.filter_congr fun e he => ?_
      by_cases hy : e.1 = y ∨ Below edges y e.1
      · simp [hy, hsub e he hy]
      · simp [hy]
    rw [heq]
    exact List.filter_sublist
  refine Nat.lt_of_le_of_ne hsublist.length_le fun hlen => hnot ?_
  have hmem : (x, z) ∈ edges.filter fun e => decide (e.1 = x ∨ Below edges x e.1) :=
    List.mem_filter.2 ⟨hedge, by simp⟩
  rw [← hsublist.eq_of_length hlen] at hmem
  simpa using (List.mem_filter.1 hmem).2

/-! ### The closure -/

variable {d d' : Doms} {l : List Text}

theorem mem_of_lookup {t : List (Text × List Text)} (h : t.lookup node = some l) : (node, l) ∈ t := by
  induction t with
  | nil => cases h
  | cons e t ih =>
    rw [List.lookup_cons] at h
    split at h
    · rename_i heq
      obtain rfl := Option.some.inj h
      have hkey : node = e.1 := by simpa using heq
      rw [hkey]
      exact List.mem_cons_self
    · exact List.mem_cons_of_mem _ (ih h)

theorem lookup_eq_none {t : List (Text × List Text)} : t.lookup node = none ↔ node ∉ t.map Prod.fst := by
  rw [List.lookup_eq_none_iff]
  constructor
  · intro h hmem
    obtain ⟨e, he, rfl⟩ := List.mem_map.1 hmem
    exact absurd (h e he) (by simp)
  · intro h e he
    have hne : node ≠ e.1 := fun heq => h (heq ▸ List.mem_map_of_mem he)
    simpa using hne

theorem unique_of_nodup {t : List (Text × List Text)} {l' : List Text} (hnodup : (t.map Prod.fst).Nodup)
    (h : (node, l) ∈ t) (h' : (node, l') ∈ t) : l = l' :=
  congrArg Prod.snd (List.inj_on_of_nodup_map hnodup h h' rfl)

theorem lookup_of_mem {t : List (Text × List Text)} (hnodup : (t.map Prod.fst).Nodup) (h : (node, l) ∈ t) :
    t.lookup node = some l := by
  cases hlook : t.lookup node with
  | none => exact absurd (List.mem_map_of_mem h) (lookup_eq_none.1 hlook)
  | some l' => rw [unique_of_nodup hnodup h (mem_of_lookup hlook)]

/-- What is true of the tables all the time: the list of a block has its children and only blocks below it, and a finished
list has all blocks below it. -/
structure Inv (edges : List (Text × Text)) (d : Doms) : Prop where
  keys : ∀ k, k ∈ d.direct.map Prod.fst ↔ ∃ y, (k, y) ∈ edges
  nodup : (d.direct.map Prod.fst).Nodup
  children : ∀ k l, (k, l) ∈ d.direct → ∀ y, (k, y) ∈ edges → y ∈ l
  below : ∀ k l, (k, l) ∈ d.direct → ∀ y ∈ l, Below edges k y
  finished : ∀ k l, (k, l) ∈ d.all → l.Nodup ∧ ∀ y, y ∈ l ↔ Below edges k y
  finished_nodup : (d.all.map Prod.fst).Nodup

/-- The list of a block has a block. -/
def Doms.Has (d : Doms) (k y : Text) : Prop := ∃ l, (k, l) ∈ d.direct ∧ y ∈ l

/-- Lists and finished entries only get more. -/
structure Grows (d d' : Doms) : Prop where
  has : ∀ k y, d.Has k y → d'.Has k y
  all : ∀ k, k ∈ d.all.map Prod.fst → k ∈ d'.all.map Prod.fst

theorem Grows.refl (d : Doms) : Grows d d := ⟨fun _ _ h => h, fun _ h => h⟩

theorem Grows.trans {d'' : Doms} (h : Grows d d') (h' : Grows d' d'') : Grows d d'' :=
  ⟨fun k y hk => h'.has k y (h.has k y hk), fun k hk => h'.all k (h.all k hk)⟩

theorem extend_keys (d : Doms) (node : Text) (l : List Text) :
    (d.extend node l).direct.map Prod.fst = d.direct.map Prod.fst := by
  show (d.direct.map _).map Prod.fst = _
  rw [List.map_map]
  refine List.map_congr_left fun e _ => ?_
  show Prod.fst (if e.1 = node then (e.1, e.2 ++ l) else e) = e.1
  split
  · rfl
  · rfl

/-- An entry after a list was extended. -/
theorem mem_extend {k : Text} {l' : List Text} (h : (k, l') ∈ (d.extend node l).direct) :
    (k ≠ node ∧ (k, l') ∈ d.direct) ∨ (k = node ∧ ∃ l₀, (k, l₀) ∈ d.direct ∧ l' = l₀ ++ l) := by
  obtain ⟨⟨k₀, l₀⟩, hmem, heq⟩ := List.mem_map.1 h
  by_cases hk : k₀ = node
  · have heq' : (k₀, l₀ ++ l) = (k, l') := by simpa [hk] using heq
    cases heq'
    exact .inr ⟨hk, l₀, hmem, rfl⟩
  · have heq' : (k₀, l₀) = (k, l') := by simpa [hk] using heq
    cases heq'
    exact .inl ⟨hk, hmem⟩

theorem Inv.extend (h : Inv edges d) (hl : ∀ y ∈ l, Below edges node y) : Inv edges (d.extend node l) := by
  refine ⟨?_, ?_, fun k l' hkl y hy => ?_, fun k l' hkl y hy => ?_, h.finished, h.finished_nodup⟩
  · rw [extend_keys]
    exact h.keys
  · rw [extend_keys]
    exact h.nodup
  · obtain ⟨-, hmem⟩ | ⟨-, l₀, hmem, rfl⟩ := mem_extend hkl
    · exact h.children k l' hmem y hy
    · exact List.mem_append_left _ (h.children k l₀ hmem y hy)
  · obtain ⟨-, hmem⟩ | ⟨rfl, l₀, hmem, rfl⟩ := mem_extend hkl
    · exact h.below k l' hmem y hy
    · exact (List.mem_append.1 hy).elim (h.below k l₀ hmem y) (hl y)

theorem grows_extend (d : Doms) (node : Text) (l : List Text) : Grows d (d.extend node l) := by
  refine ⟨fun k y ⟨l₀, hmem, hy⟩ => ?_, fun _ hk => hk⟩
  have hmem' := List.mem_map_of_mem (f := fun e : Text × List Text => if e.1 = node then (e.1, e.2 ++ l) else e) hmem
  by_cases hk : k = node
  · rw [if_pos hk] at hmem'
    exact ⟨_, hmem', List.mem_append_left _ hy⟩
  · rw [if_neg hk] at hmem'
    exact ⟨_, hmem', hy⟩

theorem has_extend (hnode : node ∈ d.direct.map Prod.fst) (hy : y ∈ l) : (d.extend node l).Has node y := by
  obtain ⟨⟨k, l₀⟩, hmem, rfl⟩ := List.mem_map.1 hnode
  refine ⟨l₀ ++ l, List.mem_map.2 ⟨(k, l₀), hmem, if_pos rfl⟩, List.mem_append_right _ hy⟩

theorem Inv.finish (h : Inv edges d) (hnodup : l.Nodup) (hl : ∀ y, y ∈ l ↔ Below edges node y) :
    Inv edges (d.finish node l) := by
  refine ⟨h.keys, h.nodup, h.children, h.below, fun k l' hkl => ?_, ?_⟩
  · obtain heq | hmem := List.mem_cons.1 hkl
    · cases heq
      exact ⟨hnodup, hl⟩
    · exact h.finished k l' (List.mem_filter.1 hmem).1
  · refine List.nodup_cons.2 ⟨fun hmem => ?_, (List.filter_sublist.map Prod.fst).nodup h.finished_nodup⟩
    obtain ⟨e, he, heq⟩ := List.mem_map.1 hmem
    exact absurd heq (by simpa using (List.mem_filter.1 he).2)

theorem grows_finish (d : Doms) (node : Text) (l : List Text) : Grows d (d.finish node l) := by
  refine ⟨fun _ _ h => h, fun k hk => ?_⟩
  by_cases hnode : k = node
  · rw [hnode]
    exact List.mem_cons_self
  · obtain ⟨e, he, rfl⟩ := List.mem_map.1 hk
    exact List.mem_cons_of_mem _ (List.mem_map_of_mem (List.mem_filter.2 ⟨he, by simpa using hnode⟩))

/-- What a call for a block returns. -/
structure Closed (edges : List (Text × Text)) (node : Text) (d : Doms) (res : List Text × Doms) : Prop where
  inv : Inv edges res.2
  grows : Grows d res.2
  nodup : res.1.Nodup
  mem : ∀ y, y ∈ res.1 ↔ Below edges node y

/-- One turn of the loop. -/
theorem addLocal_spec {rec : Text → Doms → Option (List Text × Doms)} (h : Inv edges d)
    (hnode : node ∈ d.direct.map Prod.fst) (hx : Below edges node x)
    (hrec : ∀ d, Inv edges d → ∃ res, rec x d = some res ∧ Closed edges x d res) :
    ∃ d', addLocal rec node d x = some d' ∧ Inv edges d' ∧ Grows d d' ∧ ∀ y, Below edges x y → d'.Has node y := by
  unfold addLocal
  cases hlook : d.all.lookup x with
  | some l =>
    obtain ⟨-, hl⟩ := h.finished x l (mem_of_lookup hlook)
    exact ⟨_, rfl, h.extend fun y hy => hx.trans ((hl y).1 hy), grows_extend d node l,
      fun y hy => has_extend hnode ((hl y).2 hy)⟩
  | none =>
    show ∃ d', (if x ∈ d.direct.map Prod.fst then _ else _) = some d' ∧ _
    split
    · obtain ⟨⟨l, d₁⟩, hrun, hclosed⟩ := hrec d h
      have hnode' : node ∈ d₁.direct.map Prod.fst := (hclosed.inv.keys node).2 ((h.keys node).1 hnode)
      refine ⟨d₁.extend node l, by rw [hrun]; rfl, hclosed.inv.extend fun y hy => hx.trans ((hclosed.mem y).1 hy),
        hclosed.grows.trans (grows_extend d₁ node l), fun y hy => has_extend hnode' ((hclosed.mem y).2 hy)⟩
    · rename_i hleaf
      refine ⟨d, rfl, h, .refl d, fun y hy => ?_⟩
      obtain ⟨z, hedge, -⟩ := Relation.TransGen.head'_iff.1 hy
      exact absurd ((h.keys x).2 ⟨z, hedge⟩) hleaf

/-- The loop. -/
theorem addLocals_spec (rec : Text → Doms → Option (List Text × Doms)) (xs : List Text) :
    ∀ {d : Doms}, Inv edges d → node ∈ d.direct.map Prod.fst → (∀ x ∈ xs, Below edges node x) →
      (∀ x ∈ xs, ∀ d, Inv edges d → ∃ res, rec x d = some res ∧ Closed edges x d res) →
      ∃ d', xs.foldlM (addLocal rec node) d = some d' ∧ Inv edges d' ∧ Grows d d' ∧
        ∀ x ∈ xs, ∀ y, Below edges x y → d'.Has node y := by
  induction xs with
  | nil => exact fun {d} h _ _ _ => ⟨d, rfl, h, .refl d, fun x hx => absurd hx List.not_mem_nil⟩
  | cons x xs ih =>
    intro d h hnode hbelow hrec
    obtain ⟨d₁, hrun, h₁, hgrows, hhas⟩ :=
      addLocal_spec h hnode (hbelow x List.mem_cons_self) (hrec x List.mem_cons_self)
    have hnode' : node ∈ d₁.direct.map Prod.fst := (h₁.keys node).2 ((h.keys node).1 hnode)
    obtain ⟨d₂, hrun', h₂, hgrows', hhas'⟩ := ih h₁ hnode' (fun x hx => hbelow x (List.mem_cons_of_mem _ hx))
      fun x hx => hrec x (List.mem_cons_of_mem _ hx)
    refine ⟨d₂, ?_, h₂, hgrows.trans hgrows', fun z hz y hy => ?_⟩
    · rw [List.foldlM_cons, hrun]
      exact hrun'
    · obtain rfl | hz := List.mem_cons.1 hz
      · exact hgrows'.has node y (hhas y hy)
      · exact hhas' z hz y hy

/-- Every block with a parent has a number in its label. -/
def Numbered (edges : List (Text × Text)) : Prop := ∀ e ∈ edges, (numberOf e.2).isSome = true

theorem Numbered.of_below (hnum : Numbered edges) (h : Below edges x y) : (numberOf y).isSome = true := by
  obtain ⟨z, -, hedge⟩ := Relation.TransGen.tail'_iff.1 h
  exact hnum _ hedge

theorem sortByNumber_spec (hl : ∀ x ∈ l, (numberOf x).isSome = true) :
    ∃ l', sortByNumber l = some l' ∧ l'.Perm l := by
  refine ⟨_, if_pos (List.all_eq_true.2 hl), List.perm_insertionSort _ l⟩

/-- **The closure of a block**: all blocks below it, each once. -/
theorem get_alldoms_spec (ht : IsTree edges root) (hnum : Numbered edges) :
    ∀ fuel node d, Inv edges d → weight edges node < fuel →
      ∃ res, get_alldoms fuel node d = some res ∧ Closed edges node d res := by
  intro fuel
  induction fuel with
  | zero => exact fun _ _ _ hlt => absurd hlt (Nat.not_lt_zero _)
  | succ fuel ih =>
    intro node d h hlt
    unfold get_alldoms
    cases hall : d.all.lookup node with
    | some l =>
      obtain ⟨hnodup, hl⟩ := h.finished node l (mem_of_lookup hall)
      exact ⟨(l, d), rfl, h, .refl d, hnodup, hl⟩
    | none =>
      cases hdirect : d.direct.lookup node with
      | none =>
        refine ⟨([], d), rfl, h, .refl d, List.nodup_nil, fun y => ⟨fun hy => absurd hy List.not_mem_nil, fun hy => ?_⟩⟩
        obtain ⟨z, hedge, -⟩ := Relation.TransGen.head'_iff.1 hy
        exact absurd ((h.keys node).2 ⟨z, hedge⟩) (lookup_eq_none.1 hdirect)
      | some direct_doms =>
        have hmem := mem_of_lookup hdirect
        have hnode : node ∈ d.direct.map Prod.fst := List.mem_map_of_mem hmem
        obtain ⟨d₁, hrun, h₁, hgrows, hhas⟩ := addLocals_spec (get_alldoms fuel) direct_doms h hnode
          (h.below node direct_doms hmem) fun x hx d hd => by
            have := ht.weight_lt (h.below node direct_doms hmem x hx)
            exact ih x d hd (by omega)
        obtain ⟨⟨k, l⟩, hl, hk⟩ := List.mem_map.1 ((h₁.keys node).2 ((h.keys node).1 hnode))
        obtain rfl : k = node := hk
        have hlook : d₁.direct.lookup k = some l := lookup_of_mem h₁.nodup hl
        have hbelow : ∀ y, y ∈ l ↔ Below edges k y := by
          intro y
          refine ⟨h₁.below k l hl y, fun hy => ?_⟩
          -- a child is in the list from the start, and what is below a child was added in its turn
          obtain ⟨c, hedge, hcy⟩ := Relation.TransGen.head'_iff.1 hy
          obtain rfl | hcy := Relation.reflTransGen_iff_eq_or_transGen.1 hcy
          · exact h₁.children k l hl _ hedge
          · obtain ⟨l', hl', hmem'⟩ := hhas c (h.children k direct_doms hmem c hedge) y hcy
            rwa [unique_of_nodup h₁.nodup hl hl']
        obtain ⟨doms, hsort, hperm⟩ := sortByNumber_spec (l := l.dedup) fun x hx =>
          hnum.of_below ((hbelow x).1 (List.mem_dedup.1 hx))
        have hnodup : doms.Nodup := hperm.nodup_iff.2 (List.nodup_dedup l)
        have hdoms : ∀ y, y ∈ doms ↔ Below edges k y := by
          intro y
          rw [hperm.mem_iff, List.mem_dedup, hbelow]
        refine ⟨(doms, d₁.finish k doms), ?_, h₁.finish hnodup hdoms, hgrows.trans (grows_finish d₁ k doms), hnodup,
          hdoms⟩
        show (direct_doms.foldlM (addLocal (get_alldoms fuel) k) d >>= fun d => _) = _
        rw [hrun]
        show (sortByNumber ((d₁.direct.lookup k).getD []).dedup >>= fun doms => _) = _
        rw [hlook]
        show (sortByNumber l.dedup >>= fun doms => _) = _
        rw [hsort]
        rfl

/-! ### The lists of a whole tree -/

variable {fuel : ℕ}

theorem inv_start (edges : List (Text × Text)) : Inv edges ⟨get_BB_directBBs edges, []⟩ := by
  refine ⟨fun k => ⟨fun hk => ?_, fun ⟨y, hy⟩ => ?_⟩, get_BB_directBBs_nodup edges, fun k l hkl y hy => ?_,
    fun k l hkl y hy => ?_, fun k l hkl => absurd hkl List.not_mem_nil, List.nodup_nil⟩
  · obtain ⟨⟨k, l⟩, hkl, rfl⟩ := List.mem_map.1 hk
    obtain ⟨rfl, hne⟩ := mem_get_BB_directBBs.1 hkl
    obtain ⟨y, hy⟩ := List.exists_mem_of_ne_nil _ hne
    exact ⟨y, mem_directs.1 hy⟩
  · exact List.mem_map_of_mem (mem_get_BB_directBBs.2 ⟨rfl, List.ne_nil_of_mem (mem_directs.2 hy)⟩)
  · obtain ⟨rfl, -⟩ := mem_get_BB_directBBs.1 hkl
    exact mem_directs.2 hy
  · obtain ⟨rfl, -⟩ := mem_get_BB_directBBs.1 hkl
    exact .single (mem_directs.1 hy)

/-- One turn of the loop finishes its block. -/
theorem addNode_spec (ht : IsTree edges root) (hnum : Numbered edges) (hfuel : edges.length < fuel) (h : Inv edges d)
    (node : Text) :
    ∃ d', addNode fuel d node = some d' ∧ Inv edges d' ∧ Grows d d' ∧ node ∈ d'.all.map Prod.fst := by
  unfold addNode
  split
  · rename_i hdone
    exact ⟨d, rfl, h, .refl d, hdone⟩
  · have hlt : weight edges node < fuel := Nat.lt_of_le_of_lt (weight_le edges node) hfuel
    obtain ⟨⟨l, d₁⟩, hrun, hclosed⟩ := get_alldoms_spec ht hnum fuel node d h hlt
    refine ⟨d₁.finish node l, ?_, hclosed.inv.finish hclosed.nodup hclosed.mem, hclosed.grows.trans (grows_finish d₁ node l),
      List.mem_cons_self⟩
    rw [hrun]
    rfl

theorem addNodes_spec (ht : IsTree edges root) (hnum : Numbered edges) (hfuel : edges.length < fuel) (nodes : List Text) :
    ∀ {d : Doms}, Inv edges d → ∃ d', nodes.foldlM (addNode fuel) d = some d' ∧ Inv edges d' ∧ Grows d d' ∧
      ∀ node ∈ nodes, node ∈ d'.all.map Prod.fst := by
  induction nodes with
  | nil => exact fun {d} h => ⟨d, rfl, h, .refl d, fun node hnode => absurd hnode List.not_mem_nil⟩
  | cons node nodes ih =>
    intro d h
    obtain ⟨d₁, hrun, h₁, hgrows, hdone⟩ := addNode_spec ht hnum hfuel h node
    obtain ⟨d₂, hrun', h₂, hgrows', hdone'⟩ := ih h₁
    refine ⟨d₂, ?_, h₂, hgrows.trans hgrows', fun x hx => ?_⟩
    · rw [List.foldlM_cons, hrun]
      exact hrun'
    · obtain rfl | hx := List.mem_cons.1 hx
      · exact hgrows'.all x hdone
      · exact hdone' x hx

/-- A dictionary of lists that has, for every key, just the blocks in a relation to it, each once. -/
structure Lists (dic : List (Text × List Text)) (rel : Text → Text → Prop) : Prop where
  keys : (dic.map Prod.fst).Nodup
  nodup : ∀ node, ((dic.lookup node).getD []).Nodup
  mem : ∀ node y, y ∈ (dic.lookup node).getD [] ↔ rel node y

theorem Lists.of_mem {dic : List (Text × List Text)} {rel : Text → Text → Prop} (hkeys : (dic.map Prod.fst).Nodup)
    (hentry : ∀ k l, (k, l) ∈ dic → l.Nodup ∧ ∀ y, y ∈ l ↔ rel k y)
    (hrel : ∀ k y, rel k y → k ∈ dic.map Prod.fst) : Lists dic rel := by
  have hlist : ∀ node, ((dic.lookup node).getD []).Nodup ∧ ∀ y, y ∈ (dic.lookup node).getD [] ↔ rel node y := by
    intro node
    cases hlook : dic.lookup node with
    | none =>
      refine ⟨List.nodup_nil, fun y => ⟨fun hy => absurd hy List.not_mem_nil, fun hy => ?_⟩⟩
      exact absurd (hrel node y hy) (lookup_eq_none.1 hlook)
    | some l => exact hentry node l (mem_of_lookup hlook)
  exact ⟨hkeys, fun node => (hlist node).1, fun node => (hlist node).2⟩

theorem Lists.of_entry {dic : List (Text × List Text)} {rel : Text → Text → Prop} (h : Lists dic rel)
    (hmem : (node, l) ∈ dic) : l.Nodup ∧ ∀ y, y ∈ l ↔ rel node y := by
  have hlook := lookup_of_mem h.keys hmem
  have hnodup := h.nodup node
  have hiff := h.mem node
  rw [hlook] at hnodup hiff
  exact ⟨hnodup, hiff⟩

/-- **The dictionary of a tree** has the blocks below every block. -/
theorem get_domdic_spec (ht : IsTree edges root) (hnum : Numbered edges) (hfuel : edges.length < fuel) :
    ∃ domdic, get_domdic fuel edges = some domdic ∧ Lists domdic (Below edges) := by
  obtain ⟨d, hrun, h, -, hdone⟩ := addNodes_spec ht hnum hfuel ((get_BB_directBBs edges).map Prod.fst) (inv_start edges)
  refine ⟨d.all, ?_, .of_mem h.finished_nodup h.finished fun k y hy => hdone k ?_⟩
  · show ((((get_BB_directBBs edges).map Prod.fst).foldlM (addNode fuel) ⟨get_BB_directBBs edges, []⟩).map Doms.all) = _
    rw [hrun]
    rfl
  · obtain ⟨z, hedge, -⟩ := Relation.TransGen.head'_iff.1 hy
    exact ((inv_start edges).keys k).2 ⟨z, hedge⟩

/-- Turning a dictionary around. -/
theorem invert_spec {dic : List (Text × List Text)} {rel : Text → Text → Prop} (h : Lists dic rel) :
    Lists (invert dic) fun node k => rel k node := by
  have hpair : ∀ node k, (node, k) ∈ dic.flatMap (fun e => e.2.map fun dom => (dom, e.1)) ↔ rel k node := by
    intro node k
    rw [List.mem_flatMap]
    constructor
    · rintro ⟨⟨k', l⟩, hmem, hnode⟩
      obtain ⟨dom, hdom, heq⟩ := List.mem_map.1 hnode
      cases heq
      exact ((h.of_entry hmem).2 _).1 hdom
    · intro hrel
      cases hlook : dic.lookup k with
      | none =>
        have := (h.mem k node).2 hrel
        rw [hlook] at this
        exact absurd this List.not_mem_nil
      | some l =>
        have hmem := mem_of_lookup hlook
        exact ⟨(k, l), hmem, List.mem_map.2 ⟨node, ((h.of_entry hmem).2 node).2 hrel, rfl⟩⟩
  have hnodup : (dic.flatMap fun e => e.2.map fun dom => (dom, e.1)).Nodup := by
    refine List.nodup_flatMap.2 ⟨fun e he => ?_, ?_⟩
    · have hentry : (e.1, e.2) ∈ dic := he
      refine (h.of_entry hentry).1.map fun x y hxy => ?_
      exact congrArg Prod.fst hxy
    · refine (List.pairwise_map.1 h.keys).imp fun {e e'} hne => ?_
      intro p hp hp'
      obtain ⟨x, -, rfl⟩ := List.mem_map.1 hp
      obtain ⟨x', -, heq⟩ := List.mem_map.1 hp'
      exact hne (congrArg Prod.snd heq).symm
  refine .of_mem (get_BB_directBBs_nodup _) (fun k l hkl => ?_) fun k y hy => ?_
  · obtain ⟨rfl, -⟩ := mem_get_BB_directBBs.1 hkl
    refine ⟨?_, fun y => mem_directs.trans (hpair k y)⟩
    refine List.Nodup.map_on (fun p hp q hq heq => ?_) (hnodup.filter _)
    have hp' := (List.mem_filter.1 hp).2
    have hq' := (List.mem_filter.1 hq).2
    exact Prod.ext ((of_decide_eq_true hp').trans (of_decide_eq_true hq').symm) heq
  · have hmem := mem_directs.2 ((hpair k y).2 hy)
    exact List.mem_map_of_mem (mem_get_BB_directBBs.2 ⟨rfl, List.ne_nil_of_mem hmem⟩)

/-- Sorting the lists of a dictionary. -/
theorem sortAll_spec {dic : List (Text × List Text)} {rel : Text → Text → Prop} (h : Lists dic rel)
    (hnum : ∀ k y, rel k y → (numberOf y).isSome = true) : ∃ dic', sortAll dic = some dic' ∧ Lists dic' rel := by
  have hall : ∀ t : List (Text × List Text), t ⊆ dic → ∃ t', sortAll t = some t' ∧ t'.map Prod.fst = t.map Prod.fst ∧
      ∀ k l', (k, l') ∈ t' → ∃ l, (k, l) ∈ t ∧ l'.Perm l := by
    intro t
    induction t with
    | nil => exact fun _ => ⟨[], rfl, rfl, fun k l' hmem => absurd hmem List.not_mem_nil⟩
    | cons e t ih =>
      intro hsub
      obtain ⟨t', hrun, hkeys, hperm⟩ := ih fun x hx => hsub (List.mem_cons_of_mem _ hx)
      obtain ⟨l, hl, hlperm⟩ := sortByNumber_spec (l := e.2) fun x hx =>
        hnum e.1 x (((h.of_entry (hsub List.mem_cons_self)).2 x).1 hx)
      refine ⟨(e.1, l) :: t', ?_, ?_, fun k l' hmem => ?_⟩
      · unfold sortAll at hrun ⊢
        rw [List.mapM_cons, hl, hrun]
        rfl
      · rw [List.map_cons, List.map_cons, hkeys]
      · obtain heq | hmem := List.mem_cons.1 hmem
        · cases heq
          exact ⟨e.2, List.mem_cons_self, hlperm⟩
        · obtain ⟨l₀, hmem', hp⟩ := hperm k l' hmem
          exact ⟨l₀, List.mem_cons_of_mem _ hmem', hp⟩
  obtain ⟨dic', hrun, hkeys, hperm⟩ := hall dic (List.Subset.refl dic)
  refine ⟨dic', hrun, .of_mem (hkeys ▸ h.keys) (fun k l' hmem => ?_) fun k y hy => ?_⟩
  · obtain ⟨l, hl, hp⟩ := hperm k l' hmem
    obtain ⟨hnodup, hiff⟩ := h.of_entry hl
    exact ⟨hp.nodup_iff.2 hnodup, fun y => hp.mem_iff.trans (hiff y)⟩
  · rw [hkeys]
    by_contra hnot
    have hmem := (h.mem k y).2 hy
    rw [lookup_eq_none.2 hnot] at hmem
    exact absurd hmem List.not_mem_nil

/-! ### Dominators and post-dominators -/

/-- The edges of a dominator tree, each of them once, are those of a tree. -/
theorem isTree_of_dominators {r : Text → Text → Prop} (hnodup : edges.Nodup)
    (h : IsDominatorTree r root fun a b => (a, b) ∈ edges) : IsTree edges root := by
  refine ⟨?_, fun e he heq => ?_, fun e he => ?_⟩
  · refine hnodup.map_on fun e he e' he' heq => Prod.ext ?_ heq
    by_contra hne
    have he₂ : (e'.1, e.2) ∈ edges := heq ▸ he'
    obtain ⟨w, hw⟩ := h.reachable e.1 e.2 he
    obtain heq' | hdom := h.closest e'.1 e.2 e.1 he₂ (h.dominates e.1 e.2 he)
    · exact hne heq'
    · obtain heq' | hdom' := h.closest e.1 e.2 e'.1 he (h.dominates e'.1 e.2 he₂)
      · exact hne heq'.symm
      · obtain ⟨w', hw', -⟩ := hw.cut ((h.dominates e.1 e.2 he).2 w hw)
        exact hdom.asymm hdom' w' hw'
  · have hdom := h.dominates e.1 e.2 he
    rw [heq] at hdom
    exact hdom.1 (List.mem_singleton.1 (hdom.2 _ (.single root)))
  · by_cases hroot : e.1 = root
    · rw [hroot]
    · obtain ⟨w, hw⟩ := h.reachable e.1 e.2 he
      obtain ⟨w', hw', -⟩ := hw.cut ((h.dominates e.1 e.2 he).2 w hw)
      have hdom : StrictlyDominates r root root e.1 := ⟨fun heq => hroot heq.symm, fun w hw => hw.first_mem⟩
      exact ((h.ancestor_iff hw').2 hdom).to_reflTransGen

/-- A control flow graph with its exits; the labels of its blocks end in numbers. -/
structure Func where
  cfg : Cfg
  exits : List Text
  entry_numbered : (numberOf cfg.entry).isSome = true
  exit_numbered : ∀ BB ∈ exits, (numberOf BB).isSome = true
  edge_numbered : ∀ e ∈ cfg.edges, (numberOf e.1).isSome = true ∧ (numberOf e.2).isSome = true

/-- The edges that the post-dominator tree is about: backwards, and from the root of the tree to the exits. -/
def Func.Back (F : Func) (a b : Text) : Prop := (a = postRoot ∧ b ∈ F.exits) ∨ F.cfg.Edge b a

variable {F : Func}

theorem postRoot_unnumbered : numberOf postRoot = none := by decide

theorem ne_root_of_numbered (h : (numberOf x).isSome = true) : x ≠ postRoot := by
  rintro rfl
  rw [postRoot_unnumbered] at h
  cases h

theorem Func.back_numbered {a b : Text} (h : F.Back a b) : (numberOf b).isSome = true := by
  obtain ⟨-, hexit⟩ | hedge := h
  · exact F.exit_numbered b hexit
  · exact (F.edge_numbered _ hedge).1

/-- A way from the root of the post-dominator tree is a way to an exit, backwards. -/
theorem Func.back_walk {n : Text} {w : List Text} (hw : Walk F.Back postRoot n w) (hn : n ≠ postRoot) :
    ∃ exit w', exit ∈ F.exits ∧ Walk F.cfg.Edge n exit w' ∧ w = postRoot :: w'.reverse := by
  cases hw with
  | single => exact absurd rfl hn
  | @cons _ exit _ w hr hw =>
    obtain ⟨-, hexit⟩ | hedge := hr
    · -- the root is not passed again
      have hout : ∀ x ∈ w, x ≠ postRoot := by
        intro x hx heq
        obtain rfl | ⟨y, -, hback⟩ := (hw.reaches hx).cases_tail
        · exact ne_root_of_numbered (F.exit_numbered _ hexit) heq
        · exact ne_root_of_numbered (back_numbered hback) heq
      have hflow : Walk (fun x y => F.cfg.Edge y x) exit n w := by
        refine hw.mono fun x hx y _ hxy => ?_
        obtain ⟨hroot, -⟩ | hedge := hxy
        · exact absurd hroot (hout x hx)
        · exact hedge
      exact ⟨exit, w.reverse, hexit, hflow.reverse, by rw [List.reverse_reverse]⟩
    · exact absurd rfl (ne_root_of_numbered (F.edge_numbered _ hedge).2)

theorem Func.walk_back {n exit : Text} {w : List Text} (hexit : exit ∈ F.exits) (hw : Walk F.cfg.Edge n exit w) :
    Walk F.Back postRoot n (postRoot :: w.reverse) :=
  .cons (.inl ⟨rfl, hexit⟩) (hw.reverse.mono fun _ _ _ _ hxy => .inr hxy)

theorem Func.walk_numbered {n exit : Text} {w : List Text} (hexit : exit ∈ F.exits) (hw : Walk F.cfg.Edge n exit w)
    (hx : x ∈ w) : (numberOf x).isSome = true := by
  induction hw with
  | single =>
    obtain rfl := List.mem_singleton.1 hx
    exact F.exit_numbered _ hexit
  | cons hedge _ ih =>
    obtain rfl | hx := List.mem_cons.1 hx
    · exact (F.edge_numbered _ hedge).1
    · exact ih hexit hx

/-- The block is another one, and on every way from `n` to an exit. -/
def Func.PostDominates (F : Func) (k n : Text) : Prop :=
  k ≠ n ∧ ∀ exit ∈ F.exits, ∀ w, Walk F.cfg.Edge n exit w → k ∈ w

theorem Func.postDominates_iff {k n exit : Text} {w : List Text} (hexit : exit ∈ F.exits)
    (hw : Walk F.cfg.Edge n exit w) :
    F.PostDominates k n ↔ k ≠ postRoot ∧ StrictlyDominates F.Back postRoot k n := by
  have hn : n ≠ postRoot := ne_root_of_numbered (walk_numbered hexit hw hw.first_mem)
  constructor
  · rintro ⟨hne, hall⟩
    refine ⟨fun heq => ?_, hne, fun w' hw' => ?_⟩
    · exact ne_root_of_numbered (walk_numbered hexit hw (hall exit hexit w hw)) heq
    · obtain ⟨exit', w₁, hexit', hw₁, rfl⟩ := back_walk hw' hn
      exact List.mem_cons_of_mem _ (List.mem_reverse.2 (hall exit' hexit' w₁ hw₁))
  · rintro ⟨hroot, hne, hall⟩
    refine ⟨hne, fun exit' hexit' w' hw' => ?_⟩
    obtain heq | hmem := List.mem_cons.1 (hall _ (walk_back hexit' hw'))
    · exact absurd heq hroot
    · exact List.mem_reverse.1 hmem

/-- The two trees of a function, with every edge once and in any order. -/
structure Trees (F : Func) where
  doms : List (Text × Text)
  postdoms : List (Text × Text)
  doms_nodup : doms.Nodup
  postdoms_nodup : postdoms.Nodup
  isDoms : IsDominatorTree F.cfg.Edge F.cfg.entry fun a b => (a, b) ∈ doms
  isPostdoms : IsDominatorTree F.Back postRoot fun a b => (a, b) ∈ postdoms

variable (T : Trees F)

theorem Trees.doms_numbered {e : Text × Text} (he : e ∈ T.doms) :
    (numberOf e.1).isSome = true ∧ (numberOf e.2).isSome = true := by
  have hreach : ∀ b w, Walk F.cfg.Edge F.cfg.entry b w → (numberOf b).isSome = true := by
    intro b w hw
    obtain rfl | ⟨y, -, hedge⟩ := (hw.reaches hw.last_mem).cases_tail
    · exact F.entry_numbered
    · exact (F.edge_numbered _ hedge).2
  obtain ⟨w, hw⟩ := T.isDoms.reachable e.1 e.2 he
  obtain ⟨w', hw', -⟩ := hw.cut ((T.isDoms.dominates e.1 e.2 he).2 w hw)
  exact ⟨hreach e.1 w' hw', hreach e.2 w hw⟩

theorem Trees.postdoms_numbered {e : Text × Text} (he : e ∈ T.postdoms) :
    (e.1 = postRoot ∨ (numberOf e.1).isSome = true) ∧ (numberOf e.2).isSome = true := by
  have hreach : ∀ b w, Walk F.Back postRoot b w → b = postRoot ∨ (numberOf b).isSome = true := by
    intro b w hw
    obtain heq | ⟨y, -, hback⟩ := (hw.reaches hw.last_mem).cases_tail
    · exact .inl heq
    · exact .inr (Func.back_numbered hback)
  obtain ⟨w, hw⟩ := T.isPostdoms.reachable e.1 e.2 he
  have hdom := T.isPostdoms.dominates e.1 e.2 he
  obtain ⟨w', hw', -⟩ := hw.cut (hdom.2 w hw)
  refine ⟨hreach e.1 w' hw', (hreach e.2 w hw).resolve_left fun heq => ?_⟩
  rw [heq] at hdom
  exact hdom.1 (List.mem_singleton.1 (hdom.2 _ (.single postRoot)))

/-- The dictionary without the root. -/
theorem Lists.filter_root {dic : List (Text × List Text)} {rel : Text → Text → Prop} (h : Lists dic rel) :
    Lists (dic.filter fun e => e.1 ≠ postRoot) fun k y => k ≠ postRoot ∧ rel k y := by
  refine .of_mem ((List.filter_sublist.map Prod.fst).nodup h.keys) (fun k l hkl => ?_) fun k y hy => ?_
  · obtain ⟨hmem, hne⟩ := List.mem_filter.1 hkl
    have hroot : k ≠ postRoot := by simpa using hne
    obtain ⟨hnodup, hiff⟩ := h.of_entry hmem
    exact ⟨hnodup, fun y => (hiff y).trans ⟨fun hrel => ⟨hroot, hrel⟩, fun hrel => hrel.2⟩⟩
  · cases hlook : dic.lookup k with
    | none =>
      have hmem := (h.mem k y).2 hy.2
      rw [hlook] at hmem
      exact absurd hmem List.not_mem_nil
    | some l =>
      refine List.mem_map_of_mem (List.mem_filter.2 ⟨mem_of_lookup hlook, ?_⟩)
      simpa using hy.1

/-- **The blocks that must be executed**, with calls nested deep enough.  Each dictionary has the blocks below every block
of its tree, each once; so the lists of a block are the other blocks on every way to it from the entry, and on every way
from it to an exit. -/
theorem mustnodes_exact (F : Func) (T : Trees F) (fuel : ℕ) (hdoms : T.doms.length < fuel)
    (hpostdoms : T.postdoms.length < fuel) :
    (∃ domdic, get_domdic fuel T.doms = some domdic ∧ Lists domdic (Below T.doms)) ∧
      (∃ domdic, get_domdic fuel T.postdoms = some domdic ∧ Lists domdic (Below T.postdoms)) ∧
      (∃ must, get_node_premustnodes fuel T.doms = some must ∧
        ∀ n w, Walk F.cfg.Edge F.cfg.entry n w → ((must.lookup n).getD []).Nodup ∧
          ∀ k, k ∈ (must.lookup n).getD [] ↔ StrictlyDominates F.cfg.Edge F.cfg.entry k n) ∧
      ∃ must, get_node_postmustnodes fuel T.postdoms = some must ∧
        ∀ n exit w, exit ∈ F.exits → Walk F.cfg.Edge n exit w → ((must.lookup n).getD []).Nodup ∧
          ∀ k, k ∈ (must.lookup n).getD [] ↔ F.PostDominates k n := by
  obtain ⟨domdic, hdic, hlists⟩ := get_domdic_spec (isTree_of_dominators T.doms_nodup T.isDoms)
    (fun e he => (T.doms_numbered he).2) hdoms
  obtain ⟨postdic, hpostdic, hpostlists⟩ := get_domdic_spec (isTree_of_dominators T.postdoms_nodup T.isPostdoms)
    (fun e he => (T.postdoms_numbered he).2) hpostdoms
  obtain ⟨pre, hpre, hprelists⟩ := sortAll_spec (invert_spec hlists) fun n k hk => by
    obtain ⟨z, hedge, -⟩ := Relation.TransGen.head'_iff.1 hk
    exact (T.doms_numbered hedge).1
  obtain ⟨post, hpost, hpostlists'⟩ := sortAll_spec (invert_spec hpostlists.filter_root) fun n k hk => by
    obtain ⟨z, hedge, -⟩ := Relation.TransGen.head'_iff.1 hk.2
    exact (T.postdoms_numbered hedge).1.resolve_left hk.1
  refine ⟨⟨domdic, hdic, hlists⟩, ⟨postdic, hpostdic, hpostlists⟩, ⟨pre, ?_, fun n w hw => ⟨hprelists.nodup n, fun k => ?_⟩⟩,
    post, ?_, fun n exit w hexit hw => ⟨hpostlists'.nodup n, fun k => ?_⟩⟩
  · unfold get_node_premustnodes
    rw [hdic]
    exact hpre
  · exact (hprelists.mem n k).trans (T.isDoms.ancestor_iff hw)
  · unfold get_node_postmustnodes
    rw [hpostdic]
    exact hpost
  · rw [Func.postDominates_iff hexit hw, hpostlists'.mem n k]
    exact and_congr_right fun _ => T.isPostdoms.ancestor_iff (Func.walk_back hexit hw)

/-- Two blocks in a row. -/
def twoBlocks : Func where
  cfg := ⟨block0, [block0, block1], [(block0, block1)], by decide⟩
  exits := [block1]
  entry_numbered := by decide
  exit_numbered := by decide
  edge_numbered := by decide

theorem twoBlocks_edge {a b : Text} (h : twoBlocks.cfg.Edge a b) : a = block0 ∧ b = block1 :=
  Prod.mk.inj (List.mem_singleton.1 h)

theorem twoBlocks_back {a b : Text} (h : twoBlocks.Back a b) :
    (a = postRoot ∧ b = block1) ∨ (a = block1 ∧ b = block0) := by
  obtain ⟨hroot, hexit⟩ | hedge := h
  · exact .inl ⟨hroot, List.mem_singleton.1 hexit⟩
  · exact .inr (twoBlocks_edge hedge).symm

theorem twoBlocks_walk : Walk twoBlocks.cfg.Edge block0 block1 [block0, block1] :=
  .cons (List.mem_singleton.2 rfl) (.single block1)

theorem twoBlocks_doms : IsDominatorTree twoBlocks.cfg.Edge block0 fun a b => (a, b) ∈ [(block0, block1)] := by
  have hdom : StrictlyDominates twoBlocks.cfg.Edge block0 block0 block1 := ⟨by decide, fun w hw => hw.first_mem⟩
  refine ⟨fun a b hab => ?_, fun a b hab => ?_, fun a b d hab hd => ?_, fun b w hw hne => ?_⟩
  · obtain ⟨rfl, rfl⟩ := Prod.mk.inj (List.mem_singleton.1 hab)
    exact ⟨_, twoBlocks_walk⟩
  · obtain ⟨rfl, rfl⟩ := Prod.mk.inj (List.mem_singleton.1 hab)
    exact hdom
  · obtain ⟨rfl, rfl⟩ := Prod.mk.inj (List.mem_singleton.1 hab)
    obtain heq | hmem := List.mem_cons.1 (hd.2 _ twoBlocks_walk)
    · exact .inl heq
    · exact absurd (List.mem_singleton.1 hmem) hd.1
  · obtain heq | ⟨y, -, hedge⟩ := (hw.reaches hw.last_mem).cases_tail
    · exact absurd heq hne
    · exact ⟨y, hedge⟩

theorem twoBlocks_postdoms :
    IsDominatorTree twoBlocks.Back postRoot fun a b => (a, b) ∈ [(postRoot, block1), (block1, block0)] := by
  have hwalk₁ : Walk twoBlocks.Back postRoot block1 [postRoot, block1] :=
    Func.walk_back (List.mem_singleton.2 rfl) (.single block1)
  have hwalk₀ : Walk twoBlocks.Back postRoot block0 [postRoot, block1, block0] :=
    Func.walk_back (List.mem_singleton.2 rfl) twoBlocks_walk
  have hdom₁ : StrictlyDominates twoBlocks.Back postRoot postRoot block1 := ⟨by decide, fun w hw => hw.first_mem⟩
  have hdom₀ : StrictlyDominates twoBlocks.Back postRoot block1 block0 := by
    refine ⟨by decide, fun w hw => ?_⟩
    obtain ⟨exit, w', hexit, hw', rfl⟩ := Func.back_walk hw (by decide)
    obtain rfl := List.mem_singleton.1 hexit
    exact List.mem_cons_of_mem _ (List.mem_reverse.2 hw'.last_mem)
  have hcases : ∀ {a b : Text}, (a, b) ∈ [(postRoot, block1), (block1, block0)] →
      (a = postRoot ∧ b = block1) ∨ (a = block1 ∧ b = block0) := by
    intro a b hab
    obtain heq | hmem := List.mem_cons.1 hab
    · exact .inl (Prod.mk.inj heq)
    · exact .inr (Prod.mk.inj (List.mem_singleton.1 hmem))
  refine ⟨fun a b hab => ?_, fun a b hab => ?_, fun a b d hab hd => ?_, fun b w hw hne => ?_⟩
  · obtain ⟨rfl, rfl⟩ | ⟨rfl, rfl⟩ := hcases hab
    · exact ⟨_, hwalk₁⟩
    · exact ⟨_, hwalk₀⟩
  · obtain ⟨rfl, rfl⟩ | ⟨rfl, rfl⟩ := hcases hab
    · exact hdom₁
    · exact hdom₀
  · obtain ⟨rfl, rfl⟩ | ⟨rfl, rfl⟩ := hcases hab
    · obtain heq | hmem := List.mem_cons.1 (hd.2 _ hwalk₁)
      · exact .inl heq
      · exact absurd (List.mem_singleton.1 hmem) hd.1
    · obtain heq | hmem := List.mem_cons.1 (hd.2 _ hwalk₀)
      · exact .inr (heq ▸ hdom₁)
      · obtain heq | hmem := List.mem_cons.1 hmem
        · exact .inl heq
        · exact absurd (List.mem_singleton.1 hmem) hd.1
  · obtain heq | ⟨y, -, hback⟩ := (hw.reaches hw.last_mem).cases_tail
    · exact absurd heq hne
    · obtain ⟨rfl, rfl⟩ | ⟨rfl, rfl⟩ := twoBlocks_back hback
      · exact ⟨_, List.mem_cons_self⟩
      · exact ⟨_, List.mem_cons_of_mem _ List.mem_cons_self⟩

/-- The trees of two blocks in a row. -/
def twoBlocksTrees : Trees twoBlocks where
  doms := [(block0, block1)]
  postdoms := [(postRoot, block1), (block1, block0)]
  doms_nodup := List.nodup_singleton _
  postdoms_nodup := by decide
  isDoms := twoBlocks_doms
  isPostdoms := twoBlocks_postdoms

/-- The first of two blocks must have been executed before the second one. -/
theorem mustnodes_two : ∃ must, get_node_premustnodes 3 [(block0, block1)] = some must ∧
    block0 ∈ (must.lookup block1).getD [] := by
  obtain ⟨-, -, ⟨must, hrun, hall⟩, -⟩ := mustnodes_exact twoBlocks twoBlocksTrees 3 (by decide) (by decide)
  refine ⟨must, hrun, ((hall block1 _ twoBlocks_walk).2 block0).2 ⟨by decide, fun w hw => hw.first_mem⟩⟩

/-- The dictionary of the tree does not have the blocks above a block, but those below it. -/
theorem domdic_not_ancestors : ∃ domdic, get_domdic 2 [(block0, block1)] = some domdic ∧
    ¬∀ node y, y ∈ (domdic.lookup node).getD [] ↔ Below [(block0, block1)] y node := by
  have ht := isTree_of_dominators (List.nodup_singleton _) twoBlocks_doms
  obtain ⟨domdic, hrun, hlists⟩ := get_domdic_spec ht (fun e he => (twoBlocksTrees.doms_numbered he).2) (by decide : _ < 2)
  refine ⟨domdic, hrun, fun hall => ht.acyclic block0 ?_⟩
  have hbelow : Below [(block0, block1)] block0 block1 := .single (List.mem_singleton.2 rfl)
  exact hbelow.trans ((hall block0 block1).1 ((hlists.mem block0 block1).2 hbelow))

end SymBisect.DotAnalysis
