import SymBisect.ADT.DiscretePDFRun
import SymBisect.Core.SearcherSpec

/-!
# The weighted searcher over its tree

`WeightedRandomSearcher` of `lib/Core/Searcher.cpp`, with its states in a `DiscretePDF` as the source has them.  `StateFacts` is
what `getWeight` reads of a state and of the statistics; weights are taken of it when a state is added, and again when it is the
current one.

* `choose_mem`: whatever the weights are, also when all of them are zero, `choose` returns a present item.
* `treeSearcher_correct`: the searcher is correct in the sense of the other searchers, so every wrapper over it is.
* `run_holds`: the tree along a run of updates.
-/

namespace SymBisect

open Lib

namespace DiscretePDF

open LinkedHeap LinkedTree

variable {T W : Type}

/-! ### Queries -/

section

variable [LinearOrder T]

def inTree (item : T) : Prog (DiscretePDF T W) Bool := do
  let np ← lookup item
  let link ← follow np
  pure link.isSome

def getWeight (item : T) : Prog (DiscretePDF T W) W := do
  let np ← lookup item
  let link ← follow np
  let n ← Prog.unwrap link
  let c ← deref n
  pure c.label.weight

end

/-- `DiscretePDF::empty`. -/
def isEmpty : Prog (DiscretePDF T W) Bool := do
  let s ← Prog.get
  pure s.root.isNone

section

variable [LinearOrder T] [AddCommMonoid W] {H : ℕ → Option (Cell (Node T W))} {s : DiscretePDF T W} {all : List (T × W)}
  {m : T → Option W} {item : T}

omit [AddCommMonoid W] in
/-- The loop of `lookup` ends at a missing node when the item is in no node that it meets. -/
theorem lookupLoop_absent (t : Tree T W) : ∀ (fuel : ℕ) {path : Path (Node T W)}, Shows H s path t →
    (∀ e ∈ items t, e.1 ≠ item) → t.size < fuel →
    ∃ path', lookupLoop item fuel (Path.place path) s = (some (Path.place path'), s) ∧ Shows H s path' .nil := by
  induction t with
  | nil =>
    intro fuel path h habsent hfuel
    obtain ⟨fuel, rfl⟩ : ∃ k, fuel = k + 1 := ⟨fuel - 1, by omega⟩
    refine ⟨path, ?_, h⟩
    rw [lookupLoop, Prog.bind_of_result h.follow_eq]
    exact rfl
  | node a x l r ihl ihr =>
    intro fuel path h habsent hfuel
    obtain ⟨fuel, rfl⟩ : ∃ k, fuel = k + 1 := ⟨fuel - 1, by omega⟩
    rw [LinkedTree.size] at hfuel
    have hl : ∀ e ∈ items l, e.1 ≠ item := fun e he => habsent e (List.mem_append_left _ he)
    have hr : ∀ e ∈ items r, e.1 ≠ item := fun e he => habsent e (List.mem_append_right _ (List.mem_cons_of_mem _ he))
    have hx : x.key ≠ item := habsent (x.key, x.weight) (List.mem_append_right _ List.mem_cons_self)
    rw [lookupLoop, Prog.bind_of_result h.follow_eq]
    show ∃ path', (deref a >>= _) s = _ ∧ _
    rw [Prog.bind_of_result (deref_eq h.cell)]
    simp only [if_neg hx]
    by_cases hless : item < x.key
    · rw [if_pos hless]
      exact ihl _ (downLeft h) hl (by omega)
    · rw [if_neg hless]
      exact ihr _ (downRight h) hr (by omega)

theorem lookup_absent (h : Right H s all) (habsent : ∀ e ∈ all, e.1 ≠ item) :
    ∃ np, lookup item s = (some np, s) ∧ follow np s = (some none, s) := by
  obtain ⟨t, hshows, -, -, -, rfl⟩ := h
  have hcard := hshows.card_le
  obtain ⟨path, hrun, hnil⟩ := lookupLoop_absent t (turns s) hshows habsent (by
    unfold turns
    omega)
  exact ⟨_, hrun, hnil.follow_eq⟩

/-- **`inTree`.** -/
theorem inTree_spec (h : Right H s all) (hm : Lists all m) : inTree item s = (some (m item).isSome, s) := by
  cases hitem : m item with
  | none =>
    obtain ⟨np, hrun, hlink⟩ := lookup_absent h (hm.absent hitem)
    rw [inTree, Prog.bind_of_result hrun, Prog.bind_of_result hlink]
    exact rfl
  | some w =>
    obtain ⟨path, a, x, l, r, hrun, hplaced, -⟩ := lookup_spec h hm.sorted (hm.present (hitem ▸ Option.some_ne_none w))
    rw [inTree, Prog.bind_of_result hrun, Prog.bind_of_result hplaced.shows.follow_eq]
    exact rfl

/-- **`getWeight`.** -/
theorem getWeight_spec {w : W} (h : Right H s all) (hm : Lists all m) (hitem : m item = some w) :
    getWeight item s = (some w, s) := by
  obtain ⟨path, a, x, l, r, hrun, hplaced, hkey⟩ := lookup_spec h hm.sorted (hm.present (hitem ▸ Option.some_ne_none w))
  have hmem : (x.key, x.weight) ∈ all := by
    rw [← hplaced.items]
    exact List.mem_append_left _ (List.mem_append_right _ (List.mem_append_right _ List.mem_cons_self))
  have hw : x.weight = w := by
    rw [hm.mem_iff, hkey, hitem] at hmem
    exact (Option.some.inj hmem).symm
  rw [getWeight, Prog.bind_of_result hrun, Prog.bind_of_result hplaced.shows.follow_eq]
  show (deref a >>= _) s = _
  rw [Prog.bind_of_result (deref_eq hplaced.shows.cell), ← hw]
  exact rfl

omit [LinearOrder T] in
/-- **`empty`.** -/
theorem isEmpty_spec (h : Right H s all) : isEmpty s = (some all.isEmpty, s) := by
  obtain ⟨t, hshows, -, -, -, rfl⟩ := h
  have hroot : s.root = t.link := hshows.rest
  show (some s.root.isNone, s) = _
  rw [hroot]
  cases t with
  | nil => rfl
  | node a x l r => simp [items, LinkedTree.link]

end

/-! ### `choose` with any weights -/

section

variable [Field W] [LinearOrder W] [IsStrictOrderedRing W] {H : ℕ → Option (Cell (Node T W))} {s : DiscretePDF T W} {all : List (T × W)}

omit [IsStrictOrderedRing W] in
theorem chooseHere_link {w : W} {c : Cell (Node T W)} {next : W × ℕ} (h : chooseHere w c = some next) : c.right = some next.2 := by
  unfold chooseHere at h
  cases hr : c.right with
  | none =>
    rw [hr] at h
    cases h
  | some right =>
    rw [hr] at h
    by_cases hw : w < c.label.weight
    · simp only [if_pos hw, reduceCtorEq] at h
    · simp only [if_neg hw, Option.some.injEq] at h
      rw [← h]

omit [IsStrictOrderedRing W] in
theorem chooseNext_link {w l : W} {c : Cell (Node T W)} {next : W × ℕ} (h : chooseNext w l c = some next) :
    c.left = some next.2 ∨ c.right = some next.2 := by
  unfold chooseNext at h
  cases hl : c.left with
  | none =>
    rw [hl] at h
    exact .inr (chooseHere_link h)
  | some left =>
    rw [hl] at h
    by_cases hw : w < l
    · simp only [if_pos hw, Option.some.injEq] at h
      exact .inl (by rw [← h])
    · simp only [if_neg hw] at h
      exact .inr (chooseHere_link h)

omit [IsStrictOrderedRing W] in
/-- The loop of `choose` ends at an item below the node, wherever the number leads it. -/
theorem chooseLoop_mem (t : Tree T W) : ∀ (fuel : ℕ) (w : W) {path : Path (Node T W)} {a : ℕ}, Shows H s path t →
    t.link = some a → t.size ≤ fuel → ∃ k, chooseLoop fuel w a s = (some k, s) ∧ k ∈ (items t).map Prod.fst := by
  induction t with
  | nil =>
    intro fuel w path a h hlink hfuel
    cases hlink
  | node b x l r ihl ihr =>
    intro fuel w path a h hlink hfuel
    obtain rfl := Option.some.inj hlink
    rw [LinkedTree.size] at hfuel
    obtain ⟨fuel, rfl⟩ : ∃ k, fuel = k + 1 := ⟨fuel - 1, by omega⟩
    have hself : x.key ∈ (items (.node b x l r)).map Prod.fst :=
      List.mem_map.2 ⟨(x.key, x.weight), List.mem_append_right _ List.mem_cons_self, rfl⟩
    have hleft : ∀ k, k ∈ (items l).map Prod.fst → k ∈ (items (.node b x l r)).map Prod.fst := fun k hk => by
      rw [items, List.map_append]
      exact List.mem_append_left _ hk
    have hright : ∀ k, k ∈ (items r).map Prod.fst → k ∈ (items (.node b x l r)).map Prod.fst := fun k hk => by
      rw [items, List.map_append, List.map_cons]
      exact List.mem_append_right _ (List.mem_cons_of_mem _ hk)
    rw [chooseLoop, Prog.bind_of_result (deref_eq h.cell), Prog.bind_of_result (linkSum_eq (downLeft h))]
    -- the turn ends here, or goes on in one of the subtrees
    have hnext : ∀ next, chooseNext w (sumOf l) ⟨x, Path.parent path, l.link, r.link⟩ = some next →
        l.link = some next.2 ∨ r.link = some next.2 := fun next hgo => chooseNext_link hgo
    generalize chooseNext w (sumOf l) ⟨x, Path.parent path, l.link, r.link⟩ = next at hnext ⊢
    cases next with
    | none => exact ⟨x.key, rfl, hself⟩
    | some next =>
      obtain hl | hr := hnext next rfl
      · obtain ⟨k, hrun, hk⟩ := ihl fuel next.1 (downLeft h) hl (by omega)
        exact ⟨k, hrun, hleft k hk⟩
      · obtain ⟨k, hrun, hk⟩ := ihr fuel next.1 (downRight h) hr (by omega)
        exact ⟨k, hrun, hright k hk⟩

omit [IsStrictOrderedRing W] in
/-- **`choose`, whatever the weights.** -/
theorem choose_mem {p : W} (h : Right H s all) (hne : all ≠ []) (hp : 0 ≤ p) (hp' : p < 1) :
    ∃ k, choose p s = (some k, s) ∧ k ∈ all.map Prod.fst := by
  obtain ⟨t, hshows, -, -, -, rfl⟩ := h
  cases t with
  | nil => exact absurd rfl hne
  | node a x l r =>
    have hcard := hshows.card_le
    have hroot : s.root = some a := hshows.rest
    obtain ⟨k, hrun, hk⟩ := chooseLoop_mem _ (turns s) (x.sumWeights * p) hshows rfl (by
      unfold turns
      omega)
    refine ⟨k, ?_, hk⟩
    unfold choose
    rw [Prog.bind_of_result (show Prog.assert (0 ≤ p ∧ p < 1) s = (some ⟨⟩, s) from congrFun (if_pos ⟨hp, hp'⟩) s)]
    show (Prog.unwrap s.root >>= _) s = _
    rw [hroot]
    show (deref a >>= _) s = _
    rw [Prog.bind_of_result (deref_eq hshows.cell)]
    exact hrun

end

end DiscretePDF

/-! ### The searcher -/

namespace WeightedRandomSearcher

open Searcher (WeightType)

variable {W : Type}

/-- What `getWeight` reads: `count` and `cpCount` are the executed instructions at the program counter and of the call path. -/
structure StateFacts (W : Type) where
  depth : ℕ
  count : BitVec 64
  cpCount : BitVec 64
  queryCost : W
  md2u : BitVec 64
  instsSinceCovNew : BitVec 32

section

variable [Field W] [LinearOrder W]

def getWeight (type : WeightType) (es : StateFacts W) : W :=
  match type with
  | .Depth => es.depth
  | .RP => (1 / 2) ^ es.depth
  | .InstCount =>
    let inv : W := 1 / (max 1 es.count.toNat : ℕ)
    inv * inv
  | .CPInstCount => 1 / (max 1 es.cpCount.toNat : ℕ)
  | .QueryCost => if es.queryCost < 1 / 10 then 1 else 1 / es.queryCost
  | .CoveringNew =>
    let invMD2U : W := 1 / (if es.md2u ≠ 0 then es.md2u.toNat else 10000 : ℕ)
    let invCovNew : W := if es.instsSinceCovNew ≠ 0 then 1 / (max 1 (es.instsSinceCovNew.toInt - 1000) : ℤ) else 0
    invCovNew * invCovNew + invMD2U * invMD2U
  | .MinDistToUncovered =>
    let invMD2U : W := 1 / (if es.md2u ≠ 0 then es.md2u.toNat else 10000 : ℕ)
    invMD2U * invMD2U

variable [IsStrictOrderedRing W]

/-- Every weight but the depth is positive. -/
theorem getWeight_pos {type : WeightType} (htype : type ≠ .Depth) (es : StateFacts W) : 0 < getWeight type es := by
  have hmax : ∀ n : ℕ, (0 : W) < 1 / (max 1 n : ℕ) := fun n =>
    one_div_pos.2 (Nat.cast_pos.2 (lt_of_lt_of_le Nat.one_pos (le_max_left 1 n)))
  have hmd2u : (0 : W) < 1 / (if es.md2u ≠ 0 then es.md2u.toNat else 10000 : ℕ) := by
    refine one_div_pos.2 (Nat.cast_pos.2 ?_)
    by_cases hzero : es.md2u ≠ 0
    · rw [if_pos hzero]
      exact Nat.pos_of_ne_zero fun h => hzero (BitVec.eq_of_toNat_eq h)
    · rw [if_neg hzero]
      omega
  cases type with
  | Depth => exact absurd rfl htype
  | RP => exact pow_pos (by norm_num) _
  | InstCount => exact mul_pos (hmax _) (hmax _)
  | CPInstCount => exact hmax _
  | QueryCost =>
    unfold getWeight
    by_cases hcost : es.queryCost < 1 / 10
    · simp only [if_pos hcost]
      exact one_pos
    · simp only [if_neg hcost]
      exact one_div_pos.2 (lt_of_lt_of_le (by norm_num) (not_lt.1 hcost))
  | CoveringNew => exact add_pos_of_nonneg_of_pos (mul_self_nonneg _) (mul_pos hmd2u hmd2u)
  | MinDistToUncovered => exact mul_pos hmd2u hmd2u

theorem getWeight_nonneg (type : WeightType) (es : StateFacts W) : 0 ≤ getWeight type es := by
  by_cases htype : type = .Depth
  · subst htype
    exact Nat.cast_nonneg _
  · exact (getWeight_pos htype es).le

end

/-! ### `update` -/

section

variable [Field W] [LinearOrder W]

/-- The current state gets a new weight. -/
def reweigh (type : WeightType) (es : ℕ → StateFacts W) (current : Option ℕ) (removedStates : List ℕ) :
    Prog (DiscretePDF ℕ W) PUnit :=
  match current with
  | some c => if type.updateWeights = true ∧ c ∉ removedStates then DiscretePDF.update c (getWeight type (es c)) else pure ⟨⟩
  | none => pure ⟨⟩

def update (type : WeightType) (es : ℕ → StateFacts W) (current : Option ℕ) (addedStates removedStates : List ℕ) :
    Prog (DiscretePDF ℕ W) PUnit := do
  reweigh type es current removedStates
  -- insert states
  Prog.each (fun state => DiscretePDF.insert state (getWeight type (es state))) addedStates
  -- remove states
  Prog.each DiscretePDF.remove removedStates

/-- The random number is `theRNG.getDoubleL()`. -/
def selectState (p : W) : Prog (DiscretePDF ℕ W) ℕ := DiscretePDF.choose p

/-- The weights of the states after an update. -/
def weightsAfter (type : WeightType) (es : ℕ → StateFacts W) (current : Option ℕ) (addedStates removedStates : List ℕ)
    (m : ℕ → Option W) : ℕ → Option W := fun x =>
  if x ∈ removedStates then none
  else if x ∈ addedStates ∨ (type.updateWeights = true ∧ current = some x) then some (getWeight type (es x))
  else m x

/-- What the executor promises of an update: the current state is held, new states are added once, and held or added ones are
removed once. -/
structure Allowed (m : ℕ → Option W) (current : Option ℕ) (addedStates removedStates : List ℕ) : Prop where
  current_held : ∀ c ∈ current, m c ≠ none
  added_nodup : addedStates.Nodup
  added_new : ∀ x ∈ addedStates, m x = none
  removed_nodup : removedStates.Nodup
  removed_held : ∀ x ∈ removedStates, m x ≠ none ∨ x ∈ addedStates

end

section

variable [Field W] [LinearOrder W] [IsStrictOrderedRing W] {s : DiscretePDF ℕ W} {m : ℕ → Option W}
  {type : WeightType} {es : ℕ → StateFacts W} {current : Option ℕ} {addedStates removedStates : List ℕ}

/-- The tree is right and has these weights. -/
def Holds (s : DiscretePDF ℕ W) (m : ℕ → Option W) : Prop :=
  ∃ all, DiscretePDF.Right (fun _ => none) s all ∧ DiscretePDF.Lists all m

omit [LinearOrder W] [IsStrictOrderedRing W] in
theorem each_eq_runAll (f : ℕ → DiscretePDF.Op ℕ W) (states : List ℕ) :
    Prog.each (fun state => (f state).run) states = DiscretePDF.runAll (states.map f) := by
  induction states with
  | nil => rfl
  | cons state states ih =>
    show ((f state).run >>= fun _ => Prog.each _ states) = _
    rw [ih]
    rfl

omit [LinearOrder W] [IsStrictOrderedRing W] in
theorem Holds.run {ops : List (DiscretePDF.Op ℕ W)} (h : Holds s m) (hops : DiscretePDF.AllAllowed m ops) :
    ∃ s', DiscretePDF.runAll ops s = (some ⟨⟩, s') ∧ Holds s' (DiscretePDF.present m ops) := by
  obtain ⟨all, hright, hm⟩ := h
  obtain ⟨s', all', hrun, hright', hm'⟩ := DiscretePDF.runAll_spec ops hright hm hops
  exact ⟨s', hrun, all', hright', hm'⟩

omit [Field W] [LinearOrder W] [IsStrictOrderedRing W] in
theorem present_insert (f : ℕ → W) (states : List ℕ) :
    ∀ {m : ℕ → Option W}, states.Nodup → (∀ x ∈ states, m x = none) →
      DiscretePDF.AllAllowed m (states.map fun x => .insert x (f x)) ∧
        DiscretePDF.present m (states.map fun x => .insert x (f x)) = fun x => if x ∈ states then some (f x) else m x := by
  induction states with
  | nil =>
    intro m _ _
    exact ⟨trivial, rfl⟩
  | cons state states ih =>
    intro m hnodup hnew
    obtain ⟨hnot, hnodup⟩ := List.nodup_cons.1 hnodup
    have hrest : ∀ x ∈ states, Function.update m state (some (f state)) x = none := fun x hx => by
      rw [Function.update_of_ne (ne_of_mem_of_not_mem hx hnot)]
      exact hnew x (List.mem_cons_of_mem _ hx)
    obtain ⟨hall, hpresent⟩ := ih hnodup hrest
    refine ⟨⟨hnew state List.mem_cons_self, hall⟩, ?_⟩
    show DiscretePDF.present (Function.update m state (some (f state))) _ = _
    rw [hpresent]
    funext x
    by_cases hx : x = state
    · subst hx
      rw [if_neg hnot, if_pos List.mem_cons_self, Function.update_self]
    · rw [Function.update_of_ne hx]
      simp [hx]

omit [Field W] [LinearOrder W] [IsStrictOrderedRing W] in
theorem present_remove (states : List ℕ) : ∀ {m : ℕ → Option W}, states.Nodup → (∀ x ∈ states, m x ≠ none) →
    DiscretePDF.AllAllowed m (states.map .remove) ∧
      DiscretePDF.present m (states.map .remove) = fun x => if x ∈ states then none else m x := by
  induction states with
  | nil =>
    intro m _ _
    exact ⟨trivial, rfl⟩
  | cons state states ih =>
    intro m hnodup hheld
    obtain ⟨hnot, hnodup⟩ := List.nodup_cons.1 hnodup
    have hrest : ∀ x ∈ states, Function.update m state none x ≠ none := fun x hx => by
      rw [Function.update_of_ne (ne_of_mem_of_not_mem hx hnot)]
      exact hheld x (List.mem_cons_of_mem _ hx)
    obtain ⟨hall, hpresent⟩ := ih hnodup hrest
    refine ⟨⟨hheld state List.mem_cons_self, hall⟩, ?_⟩
    show DiscretePDF.present (Function.update m state none) _ = _
    rw [hpresent]
    funext x
    by_cases hx : x = state
    · subst hx
      rw [if_neg hnot, if_pos List.mem_cons_self, Function.update_self]
    · rw [Function.update_of_ne hx]
      simp [hx]

omit [IsStrictOrderedRing W] in
theorem reweigh_spec (type : WeightType) (es : ℕ → StateFacts W) (removedStates : List ℕ) (h : Holds s m) (hcurrent : ∀ c ∈ current, m c ≠ none) :
    ∃ s', reweigh type es current removedStates s = (some ⟨⟩, s') ∧
      Holds s' fun x => if type.updateWeights = true ∧ current = some x ∧ x ∉ removedStates then some (getWeight type (es x))
        else m x := by
  cases current with
  | none => exact ⟨s, rfl, by simpa using h⟩
  | some c =>
    by_cases hgo : type.updateWeights = true ∧ c ∉ removedStates
    · obtain ⟨all, hright, hm⟩ := h
      obtain ⟨s', all', hrun, hright', hm'⟩ := (DiscretePDF.Op.update c (getWeight type (es c))).run_spec hright hm (hcurrent c rfl)
      refine ⟨s', (congrFun (if_pos hgo) s).trans hrun, all', hright', ?_⟩
      convert hm' using 1
      funext x
      show _ = Function.update m c _ x
      by_cases hx : x = c
      · subst hx
        rw [if_pos ⟨hgo.1, rfl, hgo.2⟩, Function.update_self]
      · rw [if_neg fun hbad => hx (Option.some.inj hbad.2.1).symm, Function.update_of_ne hx]
    · refine ⟨s, congrFun (if_neg hgo) s, ?_⟩
      convert h using 1
      funext x
      refine if_neg fun hbad => hgo ⟨hbad.1, ?_⟩
      obtain rfl := Option.some.inj hbad.2.1
      exact hbad.2.2

omit [IsStrictOrderedRing W] in
/-- **One update.** -/
theorem update_spec (type : WeightType) (es : ℕ → StateFacts W) (h : Holds s m) (hallowed : Allowed m current addedStates removedStates) :
    ∃ s', update type es current addedStates removedStates s = (some ⟨⟩, s') ∧
      Holds s' (weightsAfter type es current addedStates removedStates m) := by
  obtain ⟨s₁, hrun₁, h₁⟩ := reweigh_spec type es removedStates h hallowed.current_held
  -- the current state is held already, so it is none of the added ones
  have hnew : ∀ x ∈ addedStates, (if type.updateWeights = true ∧ current = some x ∧ x ∉ removedStates
      then some (getWeight type (es x)) else m x) = none := by
    intro x hx
    rw [if_neg fun hbad => hallowed.current_held x hbad.2.1 (hallowed.added_new x hx)]
    exact hallowed.added_new x hx
  obtain ⟨hadd, hadded⟩ := present_insert (fun x => getWeight type (es x)) addedStates hallowed.added_nodup hnew
  obtain ⟨s₂, hrun₂, h₂⟩ := h₁.run hadd
  rw [hadded] at h₂
  obtain ⟨hremove, hremoved⟩ := present_remove (m := fun x => if x ∈ addedStates then some (getWeight type (es x)) else
    if type.updateWeights = true ∧ current = some x ∧ x ∉ removedStates then some (getWeight type (es x)) else m x)
    removedStates hallowed.removed_nodup fun x hx => by
      by_cases hxa : x ∈ addedStates
      · rw [if_pos hxa]
        exact Option.some_ne_none _
      · rw [if_neg hxa, if_neg fun hbad => hbad.2.2 hx]
        exact (hallowed.removed_held x hx).resolve_right hxa
  obtain ⟨s₃, hrun₃, h₃⟩ := h₂.run hremove
  rw [hremoved] at h₃
  refine ⟨s₃, ?_, ?_⟩
  · unfold update
    rw [Prog.bind_of_result hrun₁]
    show (Prog.each (fun state => (DiscretePDF.Op.insert state (getWeight type (es state))).run) addedStates >>= _) s₁ = _
    rw [each_eq_runAll (fun state => .insert state (getWeight type (es state))), Prog.bind_of_result hrun₂]
    show Prog.each (fun state => (DiscretePDF.Op.remove state).run) removedStates s₂ = _
    rw [each_eq_runAll]
    exact hrun₃
  · convert h₃ using 1
    funext x
    unfold weightsAfter
    by_cases hxr : x ∈ removedStates
    · rw [if_pos hxr, if_pos hxr]
    · rw [if_neg hxr, if_neg hxr]
      by_cases hxa : x ∈ addedStates
      · rw [if_pos (.inl hxa), if_pos hxa]
      · rw [if_neg hxa]
        simp [hxa, hxr]

end

/-! ### Runs -/

section

variable [Field W] [LinearOrder W]

/-- One call of `update`, with what is known of the states then. -/
structure Turn (W : Type) where
  es : ℕ → StateFacts W
  current : Option ℕ
  addedStates : List ℕ
  removedStates : List ℕ

def runAll (type : WeightType) (turns : List (Turn W)) : Prog (DiscretePDF ℕ W) PUnit :=
  Prog.each (fun turn => update type turn.es turn.current turn.addedStates turn.removedStates) turns

/-- The last weights that were taken of the states held. -/
def weightsAlong (type : WeightType) : List (Turn W) → (ℕ → Option W) → ℕ → Option W
  | [], m => m
  | turn :: turns, m => weightsAlong type turns (weightsAfter type turn.es turn.current turn.addedStates turn.removedStates m)

/-- Every update of a run is allowed when it comes. -/
def AllAllowed (type : WeightType) : List (Turn W) → (ℕ → Option W) → Prop
  | [], _ => True
  | turn :: turns, m => Allowed m turn.current turn.addedStates turn.removedStates ∧
      AllAllowed type turns (weightsAfter type turn.es turn.current turn.addedStates turn.removedStates m)

end

section

variable [Field W] [LinearOrder W] [IsStrictOrderedRing W] {s : DiscretePDF ℕ W} {m : ℕ → Option W} {all : List (ℕ × W)}
  {type : WeightType}

omit [IsStrictOrderedRing W] in
theorem run_holds (turns : List (Turn W)) : ∀ {s : DiscretePDF ℕ W} {m : ℕ → Option W}, Holds s m → AllAllowed type turns m →
    ∃ s', runAll type turns s = (some ⟨⟩, s') ∧ Holds s' (weightsAlong type turns m) := by
  induction turns with
  | nil =>
    intro s m h _
    exact ⟨s, rfl, h⟩
  | cons turn turns ih =>
    intro s m h hall
    obtain ⟨s₁, hrun₁, h₁⟩ := update_spec type turn.es h hall.1
    obtain ⟨s', hrun, h'⟩ := ih h₁ hall.2
    exact ⟨s', (Prog.bind_of_result hrun₁).trans hrun, h'⟩

omit [IsStrictOrderedRing W] in
/-- The weights along a run have what every weight has. -/
theorem weightsAlong_all {P : W → Prop} (hP : ∀ es : StateFacts W, P (getWeight type es)) (turns : List (Turn W)) :
    ∀ {m : ℕ → Option W}, (∀ x w, m x = some w → P w) → ∀ x w, weightsAlong type turns m x = some w → P w := by
  induction turns with
  | nil =>
    intro m hm
    exact hm
  | cons turn turns ih =>
    intro m hm
    refine ih fun x w hx => ?_
    unfold weightsAfter at hx
    by_cases hxr : x ∈ turn.removedStates
    · rw [if_pos hxr] at hx
      cases hx
    · rw [if_neg hxr] at hx
      by_cases hnew : x ∈ turn.addedStates ∨ (type.updateWeights = true ∧ turn.current = some x)
      · rw [if_pos hnew] at hx
        obtain rfl := Option.some.inj hx
        exact hP (turn.es x)
      · rw [if_neg hnew] at hx
        exact hm x w hx

theorem total_nonneg (hpos : ∀ e ∈ all, 0 ≤ e.2) : 0 ≤ DiscretePDF.total all :=
  List.sum_nonneg fun w hw => by
    obtain ⟨e, he, rfl⟩ := List.mem_map.1 hw
    exact hpos e he

omit [Field W] [LinearOrder W] [IsStrictOrderedRing W] in
/-- A sorted list has an item at one place only. -/
theorem split_unique {x : ℕ} {w v : W} {post post' : List (ℕ × W)} (pre : List (ℕ × W)) : ∀ {pre' : List (ℕ × W)},
    (pre ++ (x, w) :: post).Pairwise (fun e e' => e.1 < e'.1) → pre ++ (x, w) :: post = pre' ++ (x, v) :: post' →
      pre = pre' ∧ w = v := by
  induction pre with
  | nil =>
    intro pre' hsorted h
    cases pre' with
    | nil =>
      simp only [List.nil_append, List.cons.injEq, Prod.mk.injEq] at h
      exact ⟨rfl, h.1.2⟩
    | cons e pre' =>
      -- the item would be once more after itself
      simp only [List.nil_append, List.cons_append, List.cons.injEq] at h
      have hlt : x < x := (List.pairwise_cons.1 hsorted).1 (x, v) (by simp [h.2])
      exact absurd hlt (lt_irrefl x)
  | cons e pre ih =>
    intro pre' hsorted h
    obtain ⟨hbefore, hsorted⟩ := List.pairwise_cons.1 hsorted
    cases pre' with
    | nil =>
      simp only [List.nil_append, List.cons_append, List.cons.injEq] at h
      have hlt : e.1 < x := hbefore (x, w) (by simp)
      rw [h.1] at hlt
      exact absurd hlt (lt_irrefl x)
    | cons e' pre' =>
      simp only [List.cons_append, List.cons.injEq] at h
      obtain ⟨hpre, hw⟩ := ih hsorted h.2
      exact ⟨by rw [h.1, hpre], hw⟩

theorem weight_le_total (hpos : ∀ e ∈ all, 0 ≤ e.2) {e : ℕ × W} (he : e ∈ all) : e.2 ≤ DiscretePDF.total all :=
  List.single_le_sum (fun w hw => by
    obtain ⟨e, he, rfl⟩ := List.mem_map.1 hw
    exact hpos e he) e.2 (List.mem_map.2 ⟨e, he, rfl⟩)

/-- The numbers that select a state are those of one interval as long as its weight. -/
theorem selectState_iff (hright : DiscretePDF.Right (fun _ => none) s all) (hm : DiscretePDF.Lists all m)
    (hpos : ∀ e ∈ all, 0 ≤ e.2) (htotal : 0 < DiscretePDF.total all) {x : ℕ} {w : W} (hx : m x = some w) :
    ∃ low, 0 ≤ low ∧ low + w ≤ DiscretePDF.total all ∧ ∀ p, 0 ≤ p → p < 1 →
      (selectState p s = (some x, s) ↔ low ≤ p * DiscretePDF.total all ∧ p * DiscretePDF.total all < low + w) := by
  obtain ⟨pre, post, hsplit⟩ := List.append_of_mem ((hm.mem_iff x w).2 hx)
  have hpre : ∀ e ∈ pre, 0 ≤ e.2 := fun e he => hpos e (hsplit ▸ List.mem_append_left _ he)
  have hpost : ∀ e ∈ post, 0 ≤ e.2 := fun e he => hpos e (hsplit ▸ List.mem_append_right _ (List.mem_cons_of_mem _ he))
  have hsum : DiscretePDF.total all = DiscretePDF.total pre + (w + DiscretePDF.total post) := by
    rw [hsplit]
    simp [DiscretePDF.total]
  refine ⟨DiscretePDF.total pre, total_nonneg hpre, ?_, ?_⟩
  · rw [hsum, ← add_assoc]
    exact le_add_of_nonneg_right (total_nonneg hpost)
  · intro p hp hp'
    obtain ⟨k, hk, hinterval⟩ := DiscretePDF.choose_spec hright hpos htotal hp hp'
    have hsame : selectState p s = (some x, s) ↔ x = k := by
      show DiscretePDF.choose p s = _ ↔ _
      rw [hk]
      simp [eq_comm]
    rw [hsame, ← hinterval x]
    constructor
    · intro hin
      obtain ⟨pre', v, post', hsplit', hlow, hup⟩ := hin
      obtain ⟨rfl, rfl⟩ := split_unique pre (hsplit ▸ hm.sorted) (hsplit.symm.trans hsplit')
      exact ⟨hlow, hup⟩
    · intro hin
      exact ⟨pre, w, post, hsplit, hin.1, hin.2⟩

/-- **Runs.**  Every run of updates ends.  The tree then holds the states that were added and not removed, with the weights that
were taken last, every number selects one of them, and a state is selected as often as its weight says. -/
theorem run_selects (type : WeightType) (turns : List (Turn W)) (hall : AllAllowed type turns fun _ => none) :
    ∃ s all, runAll type turns LinkedHeap.empty = (some ⟨⟩, s) ∧ DiscretePDF.Lists all (weightsAlong type turns fun _ => none) ∧
      (∀ x, DiscretePDF.inTree x s = (some (weightsAlong type turns (fun _ => none) x).isSome, s)) ∧
      (∀ x w, weightsAlong type turns (fun _ => none) x = some w → DiscretePDF.getWeight x s = (some w, s)) ∧
      DiscretePDF.isEmpty s = (some all.isEmpty, s) ∧
      (∀ p : W, 0 ≤ p → p < 1 → all ≠ [] →
        ∃ x, selectState p s = (some x, s) ∧ weightsAlong type turns (fun _ => none) x ≠ none) ∧
      (type ≠ .Depth ∨ 0 < DiscretePDF.total all → ∀ x w, weightsAlong type turns (fun _ => none) x = some w →
        ∃ low, 0 ≤ low ∧ low + w ≤ DiscretePDF.total all ∧ ∀ p, 0 ≤ p → p < 1 →
          (selectState p s = (some x, s) ↔ low ≤ p * DiscretePDF.total all ∧ p * DiscretePDF.total all < low + w)) := by
  have hempty : DiscretePDF.Lists ([] : List (ℕ × W)) fun _ => none := ⟨.nil, fun k w => by simp⟩
  have hstart : Holds (LinkedHeap.empty : DiscretePDF ℕ W) fun _ => none := ⟨[], DiscretePDF.right_empty, hempty⟩
  obtain ⟨s, hrun, all, hright, hm⟩ := run_holds turns hstart hall
  have hnonneg : ∀ e ∈ all, 0 ≤ e.2 := fun e he =>
    weightsAlong_all (getWeight_nonneg type) turns (fun x w hx => by cases hx) e.1 e.2 ((hm.mem_iff e.1 e.2).1 he)
  refine ⟨s, all, hrun, hm, fun x => DiscretePDF.inTree_spec hright hm, fun x w hx => DiscretePDF.getWeight_spec hright hm hx,
    DiscretePDF.isEmpty_spec hright, ?_, ?_⟩
  · intro p hp hp' hne
    obtain ⟨x, hx, hmem⟩ := DiscretePDF.choose_mem hright hne hp hp'
    obtain ⟨e, he, rfl⟩ := List.mem_map.1 hmem
    refine ⟨e.1, hx, ?_⟩
    rw [(hm.mem_iff e.1 e.2).1 he]
    exact Option.some_ne_none _
  · intro htype x w hx
    have htotal : 0 < DiscretePDF.total all := by
      obtain htype | htotal := htype
      · have hw : 0 < w := weightsAlong_all (getWeight_pos htype) turns (fun x w hx => by cases hx) x w hx
        exact lt_of_lt_of_le hw (weight_le_total hnonneg ((hm.mem_iff x w).2 hx))
      · exact htotal
    exact selectState_iff hright hm hnonneg htotal hx

/-- Two states are added; then one of them is current, the other is removed and a third is added. -/
def turnsOfThree : List (Turn ℚ) :=
  [⟨fun x => ⟨x, 3, 5, 0, 7, 2000⟩, none, [1, 2], []⟩, ⟨fun x => ⟨x, 4, 6, 0, 0, 0⟩, some 1, [3], [2]⟩]

theorem run_selects_three : ∃ s all, runAll .InstCount turnsOfThree LinkedHeap.empty = (some ⟨⟩, s) ∧
    DiscretePDF.Lists all (weightsAlong .InstCount turnsOfThree fun _ => none) := by
  have hall : AllAllowed .InstCount turnsOfThree fun _ => none := by
    refine ⟨⟨by simp, by simp, by simp, by simp, by simp⟩, ⟨by simp [weightsAfter], by simp, ?_, by simp, by simp [weightsAfter]⟩, trivial⟩
    simp [weightsAfter]
  obtain ⟨s, all, hrun, hm, -⟩ := run_selects .InstCount turnsOfThree hall
  exact ⟨s, all, hrun, hm⟩

end

/-! ### The searcher among the others -/

section

variable [Field W] [LinearOrder W]

/-- The searcher, given what is known of the states in a call and the random number. -/
def treeSearcher (type : WeightType) (es : ℕ → StateFacts W) (p : W) : Searcher.Calls (DiscretePDF ℕ W) where
  empty s _ := (DiscretePDF.isEmpty s).1.getD true
  selectState s _ := (selectState p s).1.map fun x => (x, (selectState p s).2)
  update current addedStates removedStates s σ :=
    (update type es current addedStates removedStates s).1.map fun _ => ((update type es current addedStates removedStates s).2, σ)

variable [IsStrictOrderedRing W]

/-- The tree holds the states that have a weight. -/
def treeView : Searcher.View (DiscretePDF ℕ W) where
  holds s _ L := ∃ m : ℕ → Option W, Holds s m ∧ L = {x | m x ≠ none}
  fits _ _ := True
  ids := []

omit [Field W] [LinearOrder W] [IsStrictOrderedRing W] in
theorem Allowed.of_consistent {σ : RandomPathSearcher.System} {L : Set ℕ} {m : ℕ → Option W} {current : Option ℕ}
    {addedStates removedStates : List ℕ} (hL : L = {x | m x ≠ none})
    (hc : Searcher.Consistent σ L current addedStates removedStates) : Allowed m current addedStates removedStates := by
  subst hL
  refine ⟨hc.current_held, hc.added_nodup, fun x hx => ?_, hc.removed_nodup, hc.removed_held⟩
  exact not_not.1 fun hne => hc.added_new x hx hne

omit [IsStrictOrderedRing W] in
theorem after_weights {L : Set ℕ} {m : ℕ → Option W} {type : WeightType} {es : ℕ → StateFacts W} {current : Option ℕ}
    {addedStates removedStates : List ℕ} (hL : L = {x | m x ≠ none}) (hcurrent : ∀ c ∈ current, c ∈ L) :
    Searcher.after L addedStates removedStates =
      {x | weightsAfter type es current addedStates removedStates m x ≠ none} := by
  subst hL
  ext x
  show (m x ≠ none ∨ x ∈ addedStates) ∧ x ∉ removedStates ↔ weightsAfter type es current addedStates removedStates m x ≠ none
  unfold weightsAfter
  by_cases hxr : x ∈ removedStates
  · simp [hxr]
  · rw [if_neg hxr]
    by_cases hnew : x ∈ addedStates ∨ (type.updateWeights = true ∧ current = some x)
    · rw [if_pos hnew]
      refine iff_of_true ⟨?_, hxr⟩ (Option.some_ne_none _)
      obtain hxa | ⟨-, hxc⟩ := hnew
      · exact .inr hxa
      · exact .inl (hcurrent x hxc)
    · rw [if_neg hnew]
      rw [not_or] at hnew
      simp [hxr, hnew.1]

omit [IsStrictOrderedRing W] in
/-- **The searcher over its tree is correct, as the searcher over a list of its states is.** -/
theorem treeSearcher_correct (type : WeightType) (es : ℕ → StateFacts W) {p : W} (hp : 0 ≤ p) (hp' : p < 1) :
    (treeSearcher type es p).Correct treeView where
  fits_none _ := trivial
  frame h _ := h
  registered _ hid := absurd hid List.not_mem_nil
  update hc h _ := by
    obtain ⟨m, hm, hL⟩ := h
    obtain ⟨s', hrun, hholds⟩ := update_spec type es hm (.of_consistent hL hc)
    refine ⟨s', _, ?_, ⟨_, hholds, after_weights hL hc.current_held⟩, .refl hc.inv⟩
    show (update _ _ _ _ _ _).1.map _ = _
    rw [hrun]
    rfl
  empty _ _ h := by
    obtain ⟨m, ⟨all, hright, hm⟩, rfl⟩ := h
    show (DiscretePDF.isEmpty _).1.getD true = true ↔ _
    rw [DiscretePDF.isEmpty_spec hright, Option.getD_some, List.isEmpty_iff, List.eq_nil_iff_forall_not_mem,
      Set.eq_empty_iff_forall_notMem]
    constructor
    · intro hnone x hx
      obtain ⟨w, hw⟩ := Option.ne_none_iff_exists'.1 hx
      exact hnone (x, w) ((hm.mem_iff x w).2 hw)
    · intro hnone e he
      refine hnone e.1 ?_
      show m e.1 ≠ none
      rw [(hm.mem_iff e.1 e.2).1 he]
      exact Option.some_ne_none _
  selectState _ _ h hne := by
    obtain ⟨m, ⟨all, hright, hm⟩, rfl⟩ := h
    obtain ⟨y, hy⟩ := Set.nonempty_iff_ne_empty.2 hne
    obtain ⟨w, hw⟩ := Option.ne_none_iff_exists'.1 hy
    have hall : all ≠ [] := List.ne_nil_of_mem ((hm.mem_iff y w).2 hw)
    obtain ⟨x, hx, hmem⟩ := DiscretePDF.choose_mem hright hall hp hp'
    obtain ⟨e, he, rfl⟩ := List.mem_map.1 hmem
    refine ⟨e.1, _, ?_, ?_, m, ⟨all, hright, hm⟩, rfl⟩
    · show (DiscretePDF.choose p _).1.map _ = _
      rw [hx]
      show some (e.1, (DiscretePDF.choose p _).2) = _
      rw [hx]
    · show m e.1 ≠ none
      rw [(hm.mem_iff e.1 e.2).1 he]
      exact Option.some_ne_none _

end

end WeightedRandomSearcher

end SymBisect
