import SymBisect.Core.Searcher

/-!
# What a searcher holds

Every searcher holds exactly the states it was told of, each once, whatever it does with them inside.

* `View`: for what a searcher keeps, which states it holds, and which state it must not be told is the current one.
* `Calls.Correct`: the functions of a searcher agree with its view.  Every searcher is correct, and every wrapper
  is when the searchers below are.
* `calls_correct`: so is every searcher that can be built.
-/

namespace SymBisect

open RandomPathSearcher

namespace Searcher

/-! ### Lists of states -/

/-- The list has exactly the states of the set, each once. -/
structure Lists (states : List ℕ) (L : Set ℕ) : Prop where
  nodup : states.Nodup
  mem : ∀ x, x ∈ states ↔ x ∈ L

/-- The states after an update. -/
def after (L : Set ℕ) (addedStates removedStates : List ℕ) : Set ℕ :=
  (L ∪ {x | x ∈ addedStates}) \ {x | x ∈ removedStates}

theorem mem_after {L : Set ℕ} {addedStates removedStates : List ℕ} {x : ℕ} :
    x ∈ after L addedStates removedStates ↔ (x ∈ L ∨ x ∈ addedStates) ∧ x ∉ removedStates := Iff.rfl

/-- `f` erases a state of a list. -/
def Erases (f : List ℕ → ℕ → Option (List ℕ)) : Prop :=
  ∀ {states x}, states.Nodup → x ∈ states →
    ∃ states', f states x = some states' ∧ states'.Nodup ∧ ∀ y, y ∈ states' ↔ y ∈ states ∧ y ≠ x

theorem eraseFound_erases : Erases eraseFound := by
  intro states x hnodup hx
  refine ⟨states.erase x, if_pos hx, hnodup.erase x, fun y => ?_⟩
  rw [hnodup.mem_erase_iff, and_comm]

theorem eraseBack_erases : Erases eraseBack := by
  intro states x hnodup hx
  unfold eraseBack
  cases hlast : states.getLast? with
  | none =>
    rw [List.getLast?_eq_none_iff] at hlast
    rw [hlast] at hx
    exact absurd hx List.not_mem_nil
  | some back =>
    by_cases hxb : x = back
    · subst hxb
      have hsplit := List.dropLast_append_getLast? x hlast
      rw [← hsplit] at hnodup
      have hdis := List.nodup_append.1 hnodup
      refine ⟨states.dropLast, if_pos rfl, hdis.1, fun y => ?_⟩
      constructor
      · intro hy
        exact ⟨List.mem_of_mem_dropLast hy, fun heq => hdis.2.2 y hy x (List.mem_singleton_self x) heq⟩
      · intro hy
        rw [← hsplit, List.mem_append, List.mem_singleton] at hy
        exact hy.1.resolve_right hy.2
    · simp only [if_neg hxb]
      exact eraseFound_erases hnodup hx

theorem eraseFront_erases : Erases eraseFront := by
  intro states x hnodup hx
  cases states with
  | nil => exact absurd hx List.not_mem_nil
  | cons front states =>
    unfold eraseFront
    by_cases hxf : x = front
    · subst hxf
      obtain ⟨hnot, hnodup⟩ := List.nodup_cons.1 hnodup
      refine ⟨states, if_pos rfl, hnodup, fun y => ?_⟩
      rw [List.mem_cons]
      constructor
      · intro hy
        exact ⟨.inr hy, fun heq => hnot (heq ▸ hy)⟩
      · intro hy
        exact hy.1.resolve_left hy.2
    · simp only [if_neg hxf]
      exact eraseFound_erases hnodup hx

/-- All removed states are erased, one after the other. -/
theorem Erases.foldlM {f : List ℕ → ℕ → Option (List ℕ)} (hf : Erases f) (removedStates : List ℕ) :
    ∀ {states : List ℕ} {L : Set ℕ}, Lists states L → removedStates.Nodup → (∀ x ∈ removedStates, x ∈ L) →
      ∃ states', removedStates.foldlM f states = some states' ∧ Lists states' (L \ {x | x ∈ removedStates}) := by
  induction removedStates with
  | nil =>
    intro states L h _ _
    refine ⟨states, rfl, h.nodup, fun x => ?_⟩
    rw [h.mem]
    simp
  | cons state removedStates ih =>
    intro states L h hnodup hsub
    obtain ⟨hnot, hnodup⟩ := List.nodup_cons.1 hnodup
    obtain ⟨states₁, hrun, hnodup₁, hmem₁⟩ := hf h.nodup ((h.mem state).2 (hsub state List.mem_cons_self))
    have hlists : Lists states₁ (L \ {state}) :=
      ⟨hnodup₁, fun y => (hmem₁ y).trans (and_congr (h.mem y) Iff.rfl)⟩
    obtain ⟨states₂, hrun₂, hlists₂⟩ := ih hlists hnodup fun x hx =>
      ⟨hsub x (List.mem_cons_of_mem _ hx), fun heq => hnot (heq ▸ hx)⟩
    refine ⟨states₂, ?_, hlists₂.nodup, fun x => ?_⟩
    · rw [List.foldlM_cons, hrun]
      exact hrun₂
    · rw [hlists₂.mem]
      simp only [Set.mem_sdiff, Set.mem_singleton_iff, Set.mem_ofPred_eq, List.mem_cons, not_or]
      exact and_assoc

/-- New states at the end of a list. -/
theorem Lists.append {states addedStates : List ℕ} {L : Set ℕ} (h : Lists states L) (hnodup : addedStates.Nodup)
    (hnew : ∀ x ∈ addedStates, x ∉ L) : Lists (states ++ addedStates) (L ∪ {x | x ∈ addedStates}) := by
  refine ⟨List.nodup_append.2 ⟨h.nodup, hnodup, fun x hx y hy heq => ?_⟩, fun x => ?_⟩
  · exact hnew y hy ((h.mem y).1 (heq ▸ hx))
  · rw [List.mem_append, h.mem]
    rfl

/-- `DiscretePDF` with new items. -/
theorem foldlM_insertNew (addedStates : List ℕ) : ∀ {states : List ℕ} {L : Set ℕ}, Lists states L →
    addedStates.Nodup → (∀ x ∈ addedStates, x ∉ L) →
      addedStates.foldlM insertNew states = some (states ++ addedStates) := by
  induction addedStates with
  | nil =>
    intro states L _ _ _
    rw [List.append_nil]
    rfl
  | cons state addedStates ih =>
    intro states L h hnodup hnew
    obtain ⟨hnot, hnodup⟩ := List.nodup_cons.1 hnodup
    have hnotin : state ∉ states := fun hin => hnew state List.mem_cons_self ((h.mem state).1 hin)
    have hlists := h.append (List.nodup_singleton state)
      (fun x hx => List.mem_singleton.1 hx ▸ hnew state List.mem_cons_self)
    have hrest := ih hlists hnodup fun x hx hin => by
      obtain hin | hin := hin
      · exact hnew x (List.mem_cons_of_mem _ hx) hin
      · exact hnot (List.mem_singleton.1 hin ▸ hx)
    rw [List.foldlM_cons, insertNew, if_neg hnotin]
    show addedStates.foldlM insertNew (states ++ [state]) = _
    rw [hrest, List.append_assoc]
    rfl

/-! ### Correct calls -/

/-- What is known about the states of a searcher of some kind.  `holds` says which they are, those that are set aside
included, `fits` that the current state is not set aside, and `ids` are the bits of the process tree that it uses. -/
structure View (S : Type) where
  holds : S → System → Set ℕ → Prop
  fits : Option ℕ → S → Prop
  ids : List (Fin 3)

/-- An update that is consistent with the states of a searcher. -/
structure Consistent (σ : System) (L : Set ℕ) (current : Option ℕ) (addedStates removedStates : List ℕ) : Prop where
  inv : σ.Inv
  live : ∀ x, x ∈ L ∨ x ∈ addedStates → σ.tree.Live x
  added_nodup : addedStates.Nodup
  added_new : ∀ x ∈ addedStates, x ∉ L
  removed_nodup : removedStates.Nodup
  removed_held : ∀ x ∈ removedStates, x ∈ L ∨ x ∈ addedStates
  current_held : ∀ c ∈ current, c ∈ L

/-- A searcher changes the process tree in its own bits only. -/
structure Frame (ids : List (Fin 3)) (σ σ' : System) : Prop where
  inv : σ'.Inv
  registered : ∀ id ∉ ids, σ'.registered id = σ.registered id
  live : ∀ x, σ'.tree.Live x ↔ σ.tree.Live x

theorem Frame.refl {ids : List (Fin 3)} {σ : System} (h : σ.Inv) : Frame ids σ σ := ⟨h, fun _ _ => rfl, fun _ => Iff.rfl⟩

theorem Frame.trans {ids : List (Fin 3)} {σ σ' σ'' : System} (h : Frame ids σ σ') (h' : Frame ids σ' σ'') :
    Frame ids σ σ'' :=
  ⟨h'.inv, fun id hid => (h'.registered id hid).trans (h.registered id hid), fun x => (h'.live x).trans (h.live x)⟩

theorem Frame.mono {ids ids' : List (Fin 3)} {σ σ' : System} (h : Frame ids σ σ') (hsub : ids ⊆ ids') :
    Frame ids' σ σ' :=
  ⟨h.inv, fun id hid => h.registered id fun hin => hid (hsub hin), h.live⟩

/-- The functions of a searcher agree with its view. -/
structure Calls.Correct {S : Type} (C : Calls S) (V : View S) : Prop where
  fits_none : ∀ s, V.fits none s
  frame : ∀ {s σ σ' L}, V.holds s σ L → (∀ id ∈ V.ids, σ'.registered id = σ.registered id) → V.holds s σ' L
  registered : ∀ {s σ L id}, V.holds s σ L → id ∈ V.ids → σ.registered id ⊆ L
  update : ∀ {s σ L current addedStates removedStates}, Consistent σ L current addedStates removedStates →
    V.holds s σ L → V.fits current s → ∃ s' σ', C.update current addedStates removedStates s σ = some (s', σ') ∧
      V.holds s' σ' (after L addedStates removedStates) ∧ Frame V.ids σ σ'
  empty : ∀ {s σ L}, σ.Inv → (∀ x ∈ L, σ.tree.Live x) → V.holds s σ L → (C.empty s σ = true ↔ L = ∅)
  selectState : ∀ {s σ L}, σ.Inv → (∀ x ∈ L, σ.tree.Live x) → V.holds s σ L → L ≠ ∅ →
    ∃ x s', C.selectState s σ = some (x, s') ∧ x ∈ L ∧ V.holds s' σ L

/-- A searcher that keeps the list of its states. -/
def listView : View (List ℕ) where
  holds states _ L := Lists states L
  fits _ _ := True
  ids := []

theorem Lists.isEmpty_iff {states : List ℕ} {L : Set ℕ} (h : Lists states L) : states.isEmpty = true ↔ L = ∅ := by
  rw [List.isEmpty_iff, List.eq_nil_iff_forall_not_mem, Set.eq_empty_iff_forall_notMem]
  exact forall_congr' fun x => not_congr (h.mem x)

theorem Lists.ne_nil {states : List ℕ} {L : Set ℕ} (h : Lists states L) (hne : L ≠ ∅) : states ≠ [] := by
  rintro rfl
  exact hne (h.isEmpty_iff.1 rfl)

/-- A searcher that keeps the list of its states is correct if its updates give the list after them, and its
selection is from the list. -/
theorem listView_correct {C : Calls (List ℕ)} (hempty : ∀ states σ, C.empty states σ = states.isEmpty)
    (hselect : ∀ states σ, states ≠ [] → ∃ x ∈ states, C.selectState states σ = some (x, states))
    (hupdate : ∀ {states σ L current addedStates removedStates}, Consistent σ L current addedStates removedStates →
      Lists states L → ∃ states', C.update current addedStates removedStates states σ = some (states', σ) ∧
        Lists states' (after L addedStates removedStates)) : C.Correct listView where
  fits_none _ := trivial
  frame h _ := h
  registered _ hid := absurd hid List.not_mem_nil
  update hc h _ := by
    obtain ⟨states', hrun, hlists⟩ := hupdate hc h
    exact ⟨states', _, hrun, hlists, .refl hc.inv⟩
  empty _ _ h := by
    rw [hempty]
    exact h.isEmpty_iff
  selectState _ _ h hne := by
    obtain ⟨x, hx, hrun⟩ := hselect _ _ (h.ne_nil hne)
    exact ⟨x, _, hrun, (h.mem x).1 hx, h⟩

section Lists

variable {σ : System} {L : Set ℕ} {current : Option ℕ} {addedStates removedStates states : List ℕ}

/-- Append the added states, and erase the removed ones. -/
theorem Consistent.append_erase (hc : Consistent σ L current addedStates removedStates) (h : Lists states L)
    {f : List ℕ → ℕ → Option (List ℕ)} (hf : Erases f) :
    ∃ states', removedStates.foldlM f (states ++ addedStates) = some states' ∧
      Lists states' (after L addedStates removedStates) :=
  hf.foldlM removedStates (h.append hc.added_nodup hc.added_new) hc.removed_nodup hc.removed_held

theorem DFSSearcher_correct : DFSSearcher.Correct listView := by
  refine listView_correct (fun _ _ => rfl) (fun states σ hne => ?_) fun hc h => ?_
  · refine ⟨states.getLast hne, List.getLast_mem hne, ?_⟩
    show states.getLast?.map _ = _
    rw [List.getLast?_eq_some_getLast hne]
    rfl
  · obtain ⟨states', hrun, hlists⟩ := hc.append_erase h eraseBack_erases
    exact ⟨states', congrArg (Option.map _) hrun, hlists⟩

/-- The current state is one of the states, so it can move to their end. -/
theorem moveCurrent_spec (hc : Consistent σ L current addedStates removedStates) (h : Lists states L) :
    ∃ states', moveCurrent current addedStates removedStates states = some states' ∧ Lists states' L := by
  unfold moveCurrent
  cases current with
  | none => exact ⟨states, rfl, h⟩
  | some c =>
    have hcL := hc.current_held c rfl
    by_cases hmove : addedStates ≠ [] ∧ c ∉ removedStates
    · obtain ⟨states₁, hrun, hnodup, hmem⟩ := eraseFound_erases h.nodup ((h.mem c).2 hcL)
      refine ⟨states₁ ++ [c], ?_, List.nodup_append.2 ⟨hnodup, List.nodup_singleton c, fun x hx y hy heq => ?_⟩, fun x => ?_⟩
      · simp only [if_pos hmove, hrun]
        rfl
      · exact ((hmem x).1 hx).2 (heq.trans (List.mem_singleton.1 hy))
      · rw [List.mem_append, hmem, List.mem_singleton, h.mem]
        by_cases hxc : x = c
        · simp [hxc, hcL]
        · simp [hxc]
    · exact ⟨states, if_neg hmove, h⟩

theorem BFSSearcher_correct : BFSSearcher.Correct listView := by
  refine listView_correct (fun _ _ => rfl) (fun states σ hne => ?_) fun hc h => ?_
  · cases states with
    | nil => exact absurd rfl hne
    | cons front states => exact ⟨front, List.mem_cons_self, rfl⟩
  · obtain ⟨states₁, hmove, hlists₁⟩ := moveCurrent_spec hc h
    obtain ⟨states', hrun, hlists⟩ := hc.append_erase hlists₁ eraseFront_erases
    refine ⟨states', ?_, hlists⟩
    show (moveCurrent _ _ _ _).bind _ = _
    rw [hmove]
    exact congrArg (Option.map _) hrun

theorem RandomSearcher_correct (o : Oracle) : (RandomSearcher o).Correct listView := by
  refine listView_correct (fun _ _ => rfl) (fun states σ hne => ?_) fun hc h => ?_
  · have hlt := Nat.mod_lt (o.rng 0).toNat (List.length_pos_iff.2 hne)
    refine ⟨states[(o.rng 0).toNat % states.length], List.getElem_mem hlt, ?_⟩
    show (states[_]?).map _ = _
    rw [List.getElem?_eq_getElem hlt]
    rfl
  · obtain ⟨states', hrun, hlists⟩ := hc.append_erase h eraseFound_erases
    exact ⟨states', congrArg (Option.map _) hrun, hlists⟩

/-- The current state is in the tree, so its weight can be updated. -/
theorem reweigh_spec (hc : Consistent σ L current addedStates removedStates) (h : Lists states L) (updateWeights : Bool) :
    reweigh updateWeights current removedStates states = some states := by
  unfold reweigh
  cases current with
  | none => rfl
  | some c => exact if_neg fun hbad => hbad.2.2 ((h.mem c).2 (hc.current_held c rfl))

theorem WeightedRandomSearcher_correct (o : Oracle) (type : WeightType) :
    (WeightedRandomSearcher o type).Correct listView := by
  refine listView_correct (fun _ _ => rfl) (fun states σ hne => ?_) fun hc h => ?_
  · obtain ⟨x, hx, hchoose⟩ := o.choose_mem hne
    refine ⟨x, hx, ?_⟩
    show (if states = [] then none else (o.choose states).map _) = _
    rw [if_neg hne, hchoose]
    rfl
  · obtain ⟨states', hrun, hlists⟩ := hc.append_erase h eraseFound_erases
    refine ⟨states', ?_, hlists⟩
    show (reweigh _ _ _ _).bind _ = _
    rw [reweigh_spec hc h]
    show (List.foldlM insertNew _ _).bind _ = _
    rw [foldlM_insertNew _ h hc.added_nodup hc.added_new]
    exact congrArg (Option.map _) hrun

end Lists

/-- The states of a random path searcher are the registered ones. -/
def randomPathView (id : Fin 3) : View Unit where
  holds _ σ L := σ.registered id = L
  fits _ _ := True
  ids := [id]

theorem RandomPathSearcher_correct (o : Oracle) (id : Fin 3) :
    (RandomPathSearcher o id).Correct (randomPathView id) where
  fits_none _ := trivial
  frame h hid := (hid id (List.mem_singleton_self id)).trans h
  registered := by
    intro s σ L id' h hid
    obtain rfl : id' = id := List.mem_singleton.1 hid
    exact Eq.subset h
  update := by
    intro s σ L current addedStates removedStates hc h _
    have hL : σ.registered id = L := h
    have hallowed : σ.Allowed (.update id addedStates removedStates) := by
      refine ⟨fun x hx => hc.live x (.inr hx), hc.removed_nodup, fun x hx => ?_⟩
      rw [hL]
      exact hc.removed_held x hx
    obtain ⟨σ', hstep, hinv⟩ := hc.inv.step hallowed
    obtain ⟨t', hrun, hretag, -⟩ := PTree.update_spec hc.inv.shape hc.inv.tagged (fun x hx => hc.inv.live hx)
      hallowed.1 hallowed.2.1 hallowed.2.2
    have hσ' : σ' = ⟨t', register σ.registered id addedStates removedStates⟩ := by
      simp only [System.step, hrun, Option.bind_eq_bind, Option.bind_some, Option.some.injEq] at hstep
      exact hstep.symm
    refine ⟨s, σ', congrArg (Option.map _) hstep, ?_, hinv, fun id' hid => ?_, fun x => ?_⟩
    · rw [hσ']
      show Function.update _ id _ id = _
      rw [Function.update_self, hL]
      rfl
    · rw [hσ']
      exact Function.update_of_ne (fun heq : id' = id => hid (List.mem_singleton.2 heq)) _ _
    · rw [hσ']
      exact hretag.live
  empty hinv hlive h := by
    have h' : _ = _ := h
    subst h'
    exact PTree.empty_iff hinv.shape hinv.tagged hlive
  selectState := by
    intro s σ L hinv hlive h hne
    have h' : σ.registered id = L := h
    subst h'
    have hempty : RandomPathSearcher.empty id σ.tree = false := by
      rw [Bool.eq_false_iff]
      exact fun he => hne ((PTree.empty_iff hinv.shape hinv.tagged hlive).1 he)
    obtain ⟨x, hrun, hx⟩ := PTree.selectState_spec hinv.shape hinv.tagged hempty o.rng
    exact ⟨x, s, congrArg (Option.map _) hrun, hx, rfl⟩

/-! ### Wrappers -/

section Wrappers

variable {S T : Type} {base : Calls S} {V : View S}

theorem Consistent.frame {ids : List (Fin 3)} {σ σ' : System} {L : Set ℕ} {current : Option ℕ}
    {addedStates removedStates : List ℕ} (h : Consistent σ L current addedStates removedStates)
    (hf : Frame ids σ σ') : Consistent σ' L current addedStates removedStates :=
  { h with
    inv := hf.inv
    live := fun x hx => (hf.live x).2 (h.live x hx) }

/-- The last state of a batch is one of the states. -/
def batchingView (V : View S) : View (Batching S) where
  holds s σ L := V.holds s.baseSearcher σ L ∧ ∀ x ∈ s.lastState, x ∈ L
  fits current s := V.fits current s.baseSearcher
  ids := V.ids

theorem BatchingSearcher_correct (h : base.Correct V) (expired : Bool) :
    (BatchingSearcher expired base).Correct (batchingView V) where
  fits_none s := h.fits_none s.baseSearcher
  frame hs hid := ⟨h.frame hs.1 hid, hs.2⟩
  registered hs hid := h.registered hs.1 hid
  update := by
    intro s σ L current addedStates removedStates hc hs hfits
    obtain ⟨b, σ', hrun, hholds, hframe⟩ := h.update hc hs.1 hfits
    refine ⟨_, σ', congrArg (Option.map _) hrun, ⟨hholds, fun x hx => ?_⟩, hframe⟩
    obtain ⟨hlast, hnot⟩ := Option.mem_filter_iff.1 hx
    exact ⟨.inl (hs.2 x hlast), by simpa using hnot⟩
  empty hinv hlive hs := h.empty hinv hlive hs.1
  selectState := by
    intro s σ L hinv hlive hs hne
    obtain ⟨y, b, hrun, hy, hholds⟩ := h.selectState hinv hlive hs.1 hne
    have hfresh : ∃ x s', (base.selectState s.baseSearcher σ).map (fun r => (r.1, (⟨r.2, some r.1⟩ : Batching S))) =
        some (x, s') ∧ x ∈ L ∧ (batchingView V).holds s' σ L := by
      refine ⟨y, _, congrArg (Option.map _) hrun, hy, hholds, fun x hx => ?_⟩
      exact Option.some.inj hx ▸ hy
    unfold BatchingSearcher
    cases hlast : s.lastState with
    | none => simpa only [hlast] using hfresh
    | some x =>
      cases expired with
      | true => simpa only [hlast] using hfresh
      | false => exact ⟨x, s, by simp only [hlast], hs.2 x hlast, hs⟩

/-- Every state is with the underlying searcher or paused, and the paused states are not all there are. -/
structure IterativeDeepening.Holds (V : View S) (s : IterativeDeepening S) (σ : System) (L B : Set ℕ) : Prop where
  base : V.holds s.baseSearcher σ B
  nodup : s.pausedStates.Nodup
  disjoint : ∀ x ∈ s.pausedStates, x ∉ B
  mem : ∀ x, x ∈ L ↔ x ∈ B ∨ x ∈ s.pausedStates

/-- The states of an iterative deepening searcher; the current one must not be paused. -/
def iterativeDeepeningView (V : View S) : View (IterativeDeepening S) where
  holds s σ L := ∃ B, IterativeDeepening.Holds V s σ L B ∧ (B = ∅ → s.pausedStates = [])
  fits current s := (∀ c ∈ current, c ∉ s.pausedStates) ∧ V.fits current s.baseSearcher
  ids := V.ids

theorem dropPaused_spec (removedStates : List ℕ) : ∀ (pausedStates alt : List ℕ), pausedStates.Nodup →
    ((dropPaused removedStates pausedStates alt).1.Nodup ∧
      ∀ x, x ∈ (dropPaused removedStates pausedStates alt).1 ↔ x ∈ pausedStates ∧ x ∉ removedStates) ∧
    (alt.Nodup → (dropPaused removedStates pausedStates alt).2.Nodup) ∧
      ∀ x, x ∈ (dropPaused removedStates pausedStates alt).2 ↔
        x ∈ alt ∧ ¬ (x ∈ removedStates ∧ x ∈ pausedStates) := by
  induction removedStates with
  | nil =>
    intro pausedStates alt hnodup
    exact ⟨⟨hnodup, fun x => by simp [dropPaused]⟩, id, fun x => by simp [dropPaused]⟩
  | cons state removedStates ih =>
    intro pausedStates alt hnodup
    unfold dropPaused
    by_cases hin : state ∈ pausedStates
    · rw [if_pos hin]
      obtain ⟨⟨hn₁, hm₁⟩, hn₂, hm₂⟩ := ih _ (alt.filter fun x => x ≠ state) (hnodup.erase state)
      refine ⟨⟨hn₁, fun x => ?_⟩, fun h => hn₂ (h.filter _), fun x => ?_⟩
      · rw [hm₁, hnodup.mem_erase_iff, List.mem_cons]
        tauto
      · rw [hm₂, List.mem_filter, hnodup.mem_erase_iff, List.mem_cons]
        simp only [decide_eq_true_eq]
        constructor
        · rintro ⟨⟨hx, hne⟩, hnot⟩
          exact ⟨hx, fun h => hnot ⟨h.1.resolve_left hne, hne, h.2⟩⟩
        · rintro ⟨hx, hnot⟩
          have hne : x ≠ state := fun heq => hnot ⟨.inl heq, heq ▸ hin⟩
          exact ⟨⟨hx, hne⟩, fun h => hnot ⟨.inr h.1, h.2.2⟩⟩
    · rw [if_neg hin]
      obtain ⟨⟨hn₁, hm₁⟩, hn₂, hm₂⟩ := ih _ alt hnodup
      refine ⟨⟨hn₁, fun x => ?_⟩, hn₂, fun x => ?_⟩
      · rw [hm₁, List.mem_cons]
        constructor
        · rintro ⟨hx, hnot⟩
          exact ⟨hx, fun h => h.elim (fun heq => hin (heq ▸ hx)) hnot⟩
        · rintro ⟨hx, hnot⟩
          exact ⟨hx, fun h => hnot (.inr h)⟩
      · rw [hm₂, List.mem_cons]
        constructor
        · rintro ⟨hx, hnot⟩
          exact ⟨hx, fun h => h.1.elim (fun heq => hin (heq ▸ h.2)) fun hr => hnot ⟨hr, h.2⟩⟩
        · rintro ⟨hx, hnot⟩
          exact ⟨hx, fun h => hnot ⟨.inr h.1, h.2⟩⟩

theorem mem_insertPaused {x state : ℕ} {pausedStates : List ℕ} :
    x ∈ insertPaused state pausedStates ↔ x = state ∨ x ∈ pausedStates := by
  unfold insertPaused
  split
  · rename_i hin
    exact ⟨.inr, fun h => h.elim (fun heq => heq ▸ hin) id⟩
  · rw [List.mem_orderedInsert]

theorem nodup_insertPaused {state : ℕ} {pausedStates : List ℕ} (h : pausedStates.Nodup) :
    (insertPaused state pausedStates).Nodup := by
  unfold insertPaused
  split
  · exact h
  · rename_i hnot
    exact (List.perm_orderedInsert _ _ _).nodup_iff.2 (List.nodup_cons.2 ⟨hnot, h⟩)

namespace IterativeDeepening

variable {s : IterativeDeepening S} {σ : System} {L B : Set ℕ}

theorem Holds.live (h : Holds V s σ L B) (hlive : ∀ x ∈ L, σ.tree.Live x) : ∀ x ∈ B, σ.tree.Live x :=
  fun x hx => hlive x ((h.mem x).2 (.inl hx))

/-- The current state goes from the underlying searcher to the paused states. -/
theorem pauseExpired_spec (hbase : base.Correct V) (h : Holds V s σ L B) (hinv : σ.Inv)
    (hlive : ∀ x ∈ L, σ.tree.Live x) (expired : Bool) (current : Option ℕ) (removedStates : List ℕ)
    (hcur : ∀ c ∈ current, c ∉ removedStates → c ∈ B) :
    ∃ s' σ' B', pauseExpired expired base current removedStates s σ = some (s', σ') ∧
      Holds V s' σ' L B' ∧ Frame V.ids σ σ' := by
  unfold pauseExpired
  cases current with
  | none => exact ⟨s, σ, B, rfl, h, .refl hinv⟩
  | some c =>
    by_cases hp : c ∉ removedStates ∧ expired = true
    · have hcB := hcur c rfl hp.1
      have hcons : Consistent σ B none [] [c] :=
        { inv := hinv
          live := fun x hx => h.live hlive x (hx.resolve_right List.not_mem_nil)
          added_nodup := List.nodup_nil
          added_new := fun x hx => absurd hx List.not_mem_nil
          removed_nodup := List.nodup_singleton c
          removed_held := fun x hx => .inl (List.mem_singleton.1 hx ▸ hcB)
          current_held := fun x hx => nomatch hx }
      obtain ⟨b, σ', hrun, hholds, hframe⟩ := hbase.update hcons h.base (hbase.fits_none _)
      refine ⟨⟨b, insertPaused c s.pausedStates⟩, σ', _, ?_, ⟨hholds, nodup_insertPaused h.nodup, ?_, ?_⟩, hframe⟩
      · simp only [if_pos hp]
        exact congrArg (Option.map _) hrun
      · intro x hx hin
        obtain ⟨hxB, hnot⟩ := mem_after.1 hin
        obtain rfl | hx := mem_insertPaused.1 hx
        · exact hnot (List.mem_singleton_self x)
        · exact h.disjoint x hx (hxB.resolve_right List.not_mem_nil)
      · intro x
        rw [h.mem, mem_after, mem_insertPaused]
        by_cases hxc : x = c
        · simp [hxc, hcB]
        · simp [hxc]
    · exact ⟨s, σ, B, if_neg hp, h, .refl hinv⟩

/-- Without states in the underlying searcher the paused ones go there. -/
theorem refill_spec (hbase : base.Correct V) (h : Holds V s σ L B) (hinv : σ.Inv) (hlive : ∀ x ∈ L, σ.tree.Live x) :
    ∃ s' σ', refill base s σ = some (s', σ') ∧ (iterativeDeepeningView V).holds s' σ' L ∧ Frame V.ids σ σ' := by
  have hiff := hbase.empty hinv (h.live hlive) h.base
  unfold refill
  by_cases he : base.empty s.baseSearcher σ = true
  · have hB : B = ∅ := hiff.1 he
    subst hB
    have hcons : Consistent σ ∅ none s.pausedStates [] :=
      { inv := hinv
        live := fun x hx => hlive x ((h.mem x).2 hx)
        added_nodup := h.nodup
        added_new := fun x _ => Set.notMem_empty x
        removed_nodup := List.nodup_nil
        removed_held := fun x hx => absurd hx List.not_mem_nil
        current_held := fun x hx => nomatch hx }
    obtain ⟨b, σ', hrun, hholds, hframe⟩ := hbase.update hcons h.base (hbase.fits_none _)
    refine ⟨⟨b, []⟩, σ', ?_, ⟨_, ⟨hholds, List.nodup_nil, fun x hx => absurd hx List.not_mem_nil, fun x => ?_⟩,
      fun _ => rfl⟩, hframe⟩
    · rw [if_pos he]
      exact congrArg (Option.map _) hrun
    · rw [h.mem, mem_after]
      simp
  · exact ⟨s, σ, if_neg he, ⟨B, h, fun hB => absurd (hiff.2 hB) he⟩, .refl hinv⟩

end IterativeDeepening

theorem IterativeDeepeningTimeSearcher_correct (h : base.Correct V) (expired : Bool) :
    (IterativeDeepeningTimeSearcher expired base).Correct (iterativeDeepeningView V) where
  fits_none s := ⟨fun c hc => (nomatch hc), h.fits_none s.baseSearcher⟩
  frame := by
    rintro s σ σ' L ⟨B, hs, hB⟩ hid
    exact ⟨B, ⟨h.frame hs.base hid, hs.nodup, hs.disjoint, hs.mem⟩, hB⟩
  registered := by
    rintro s σ L id ⟨B, hs, -⟩ hid
    exact fun x hx => (hs.mem x).2 (.inl (h.registered hs.base hid hx))
  update := by
    rintro s σ L current addedStates removedStates hc ⟨B, hs, -⟩ hfits
    obtain ⟨⟨hpn, hpm⟩, han, ham⟩ := dropPaused_spec removedStates _ removedStates hs.nodup
    have han := han hc.removed_nodup
    have hcons : Consistent σ B current addedStates (dropPaused removedStates s.pausedStates removedStates).2 :=
      { inv := hc.inv
        live := fun x hx => hc.live x (hx.imp_left fun hB => (hs.mem x).2 (.inl hB))
        added_nodup := hc.added_nodup
        added_new := fun x hx hB => hc.added_new x hx ((hs.mem x).2 (.inl hB))
        removed_nodup := han
        removed_held := fun x hx => by
          obtain ⟨hxr, hnot⟩ := (ham x).1 hx
          obtain hL | hadd := hc.removed_held x hxr
          · exact .inl (((hs.mem x).1 hL).resolve_right fun hp => hnot ⟨hxr, hp⟩)
          · exact .inr hadd
        current_held := fun c hcur => ((hs.mem c).1 (hc.current_held c hcur)).resolve_right (hfits.1 c hcur) }
    obtain ⟨b₁, σ₁, hrun₁, hholds₁, hframe₁⟩ := h.update hcons hs.base hfits.2
    have hs₁ : IterativeDeepening.Holds V ⟨b₁, (dropPaused removedStates s.pausedStates removedStates).1⟩ σ₁
        (after L addedStates removedStates)
        (after B addedStates (dropPaused removedStates s.pausedStates removedStates).2) := by
      refine ⟨hholds₁, hpn, fun x hx hin => ?_, fun x => ?_⟩
      · obtain ⟨hp, hnr⟩ := (hpm x).1 hx
        obtain hB | hadd := (mem_after.1 hin).1
        · exact hs.disjoint x hp hB
        · exact hc.added_new x hadd ((hs.mem x).2 (.inr hp))
      · rw [mem_after, mem_after, hs.mem, hpm, ham]
        have hdis := hs.disjoint x
        have hnew := hc.added_new x
        rw [hs.mem] at hnew
        tauto
    have hlive₁ : ∀ x ∈ after L addedStates removedStates, σ₁.tree.Live x :=
      fun x hx => (hframe₁.live x).2 (hc.live x (mem_after.1 hx).1)
    obtain ⟨s₂, σ₂, B₂, hrun₂, hs₂, hframe₂⟩ := IterativeDeepening.pauseExpired_spec h hs₁ hframe₁.inv hlive₁ expired
      current removedStates fun c hcur hnr =>
        ⟨.inl (hcons.current_held c hcur), fun hin => hnr ((ham c).1 hin).1⟩
    obtain ⟨s₃, σ₃, hrun₃, hs₃, hframe₃⟩ := IterativeDeepening.refill_spec h hs₂ hframe₂.inv
      fun x hx => (hframe₂.live x).2 (hlive₁ x hx)
    refine ⟨s₃, σ₃, ?_, hs₃, (hframe₁.trans hframe₂).trans hframe₃⟩
    show (base.update _ _ _ _ _).bind _ = _
    rw [hrun₁]
    show (IterativeDeepening.pauseExpired _ _ _ _ _ _).bind _ = _
    rw [hrun₂]
    exact hrun₃
  empty := by
    rintro s σ L hinv hlive ⟨B, hs, hB⟩
    have hiff := h.empty hinv (hs.live hlive) hs.base
    show (base.empty s.baseSearcher σ && s.pausedStates.isEmpty) = true ↔ _
    rw [Bool.and_eq_true, hiff, List.isEmpty_iff]
    constructor
    · rintro ⟨rfl, hp⟩
      rw [Set.eq_empty_iff_forall_notMem]
      intro x hx
      obtain hx | hx := (hs.mem x).1 hx
      · exact hx
      · rw [hp] at hx
        exact absurd hx List.not_mem_nil
    · rintro rfl
      have hB' : B = ∅ := Set.eq_empty_iff_forall_notMem.2 fun x hx => (hs.mem x).2 (.inl hx)
      exact ⟨hB', hB hB'⟩
  selectState := by
    rintro s σ L hinv hlive ⟨B, hs, hB⟩ hne
    have hneB : B ≠ ∅ := by
      rintro rfl
      refine hne (Set.eq_empty_iff_forall_notMem.2 fun x hx => ?_)
      obtain hx | hx := (hs.mem x).1 hx
      · exact hx
      · rw [hB rfl] at hx
        exact absurd hx List.not_mem_nil
    obtain ⟨x, b, hrun, hx, hholds⟩ := h.selectState hinv (hs.live hlive) hs.base hneB
    exact ⟨x, ⟨b, s.pausedStates⟩, congrArg (Option.map _) hrun, (hs.mem x).2 (.inl hx), B,
      ⟨hholds, hs.nodup, hs.disjoint, hs.mem⟩, hB⟩

/-- The calls to several searchers agree with their view. -/
structure ManyCalls.Correct (M : ManyCalls T) (W : View T) (n : ℕ) : Prop where
  fits_none : ∀ s, W.fits none s
  frame : ∀ {s σ σ' L}, W.holds s σ L → (∀ id ∈ W.ids, σ'.registered id = σ.registered id) → W.holds s σ' L
  registered : ∀ {s σ L id}, W.holds s σ L → id ∈ W.ids → σ.registered id ⊆ L
  update : ∀ {s σ L current addedStates removedStates}, Consistent σ L current addedStates removedStates →
    W.holds s σ L → W.fits current s → ∃ s' σ', M.update current addedStates removedStates s σ = some (s', σ') ∧
      W.holds s' σ' (after L addedStates removedStates) ∧ Frame W.ids σ σ'
  selectAt : ∀ {i s σ L}, i < n → σ.Inv → (∀ x ∈ L, σ.tree.Live x) → W.holds s σ L → L ≠ ∅ →
    ∃ x s', M.selectAt i s σ = some (x, s') ∧ x ∈ L ∧ W.holds s' σ L

/-- Two searchers side by side, each with all states. -/
def prodView (V : View S) (W : View T) : View (S × T) where
  holds s σ L := V.holds s.1 σ L ∧ W.holds s.2 σ L
  fits current s := V.fits current s.1 ∧ W.fits current s.2
  ids := V.ids ++ W.ids

/-- An update of one and then of the other: neither touches the bits of the other. -/
theorem prod_update {rest : ManyCalls T} {W : View T} {n : ℕ} (h : base.Correct V) (hr : rest.Correct W n)
    (hids : (V.ids ++ W.ids).Nodup) {s : S × T} {σ : System} {L : Set ℕ} {current : Option ℕ}
    {addedStates removedStates : List ℕ} (hc : Consistent σ L current addedStates removedStates)
    (hs : (prodView V W).holds s σ L) (hfits : (prodView V W).fits current s) :
    ∃ s' σ₁ σ', base.update current addedStates removedStates s.1 σ = some (s'.1, σ₁) ∧
      rest.update current addedStates removedStates s.2 σ₁ = some (s'.2, σ') ∧
      (prodView V W).holds s' σ' (after L addedStates removedStates) ∧ Frame (V.ids ++ W.ids) σ σ' := by
  have hdis := (List.nodup_append.1 hids).2.2
  obtain ⟨b, σ₁, hrun, hholds, hframe⟩ := h.update hc hs.1 hfits.1
  have hs₂ : W.holds s.2 σ₁ L :=
    hr.frame hs.2 fun id hid => hframe.registered id fun hin => hdis id hin id hid rfl
  obtain ⟨c, σ', hrun', hholds', hframe'⟩ := hr.update (hc.frame hframe) hs₂ hfits.2
  have hs₁ : V.holds b σ' (after L addedStates removedStates) :=
    h.frame hholds fun id hid => hframe'.registered id fun hin => hdis id hid id hin rfl
  exact ⟨(b, c), σ₁, σ', hrun, hrun', ⟨hs₁, hholds'⟩,
    (hframe.mono (List.subset_append_left _ _)).trans (hframe'.mono (List.subset_append_right _ _))⟩

/-- No searchers hold any states. -/
def unitView : View Unit where
  holds _ _ _ := True
  fits _ _ := True
  ids := []

theorem noCalls_correct : noCalls.Correct unitView 0 where
  fits_none _ := trivial
  frame _ _ := trivial
  registered _ hid := absurd hid List.not_mem_nil
  update hc _ _ := ⟨_, _, rfl, trivial, .refl hc.inv⟩
  selectAt hi := absurd hi (Nat.not_lt_zero _)

theorem consCalls_correct {rest : ManyCalls T} {W : View T} {n : ℕ} (h : base.Correct V) (hr : rest.Correct W n)
    (hids : (V.ids ++ W.ids).Nodup) : (consCalls base rest).Correct (prodView V W) (n + 1) where
  fits_none s := ⟨h.fits_none s.1, hr.fits_none s.2⟩
  frame hs hid :=
    ⟨h.frame hs.1 fun id hin => hid id (List.mem_append_left _ hin),
      hr.frame hs.2 fun id hin => hid id (List.mem_append_right _ hin)⟩
  registered hs hid := (List.mem_append.1 hid).elim (h.registered hs.1) (hr.registered hs.2)
  update := by
    intro s σ L current addedStates removedStates hc hs hfits
    obtain ⟨s', σ₁, σ', hrun, hrun', hholds, hframe⟩ := prod_update h hr hids hc hs hfits
    refine ⟨s', σ', ?_, hholds, hframe⟩
    show (base.update _ _ _ _ _).bind _ = _
    rw [hrun]
    exact congrArg (Option.map _) hrun'
  selectAt := by
    intro i s σ L hi hinv hlive hs hne
    cases i with
    | zero =>
      obtain ⟨x, b, hrun, hx, hholds⟩ := h.selectState hinv hlive hs.1 hne
      exact ⟨x, (b, s.2), congrArg (Option.map _) hrun, hx, hholds, hs.2⟩
    | succ i =>
      obtain ⟨x, b, hrun, hx, hholds⟩ := hr.selectAt (Nat.lt_of_succ_lt_succ hi) hinv hlive hs.2 hne
      exact ⟨x, (s.1, b), congrArg (Option.map _) hrun, hx, hs.1, hholds⟩

/-- Every one of the searchers holds all states; the index is that of one of them, counted from one. -/
def interleavedView (V : View S) (W : View T) (n : ℕ) : View (Interleaved (S × T)) where
  holds s σ L := (prodView V W).holds s.searchers σ L ∧ 1 ≤ s.index ∧ s.index ≤ n + 1
  fits current s := (prodView V W).fits current s.searchers
  ids := V.ids ++ W.ids

theorem InterleavedSearcher_correct {rest : ManyCalls T} {W : View T} {n : ℕ} (h : base.Correct V)
    (hr : rest.Correct W n) (hids : (V.ids ++ W.ids).Nodup) :
    (InterleavedSearcher base rest n).Correct (interleavedView V W n) where
  fits_none s := ⟨h.fits_none s.searchers.1, hr.fits_none s.searchers.2⟩
  frame hs hid :=
    ⟨⟨h.frame hs.1.1 fun id hin => hid id (List.mem_append_left _ hin),
      hr.frame hs.1.2 fun id hin => hid id (List.mem_append_right _ hin)⟩, hs.2⟩
  registered hs hid := (List.mem_append.1 hid).elim (h.registered hs.1.1) (hr.registered hs.1.2)
  update := by
    intro s σ L current addedStates removedStates hc hs hfits
    obtain ⟨s', σ₁, σ', hrun, hrun', hholds, hframe⟩ := prod_update h hr hids hc hs.1 hfits
    refine ⟨⟨s', s.index⟩, σ', ?_, ⟨hholds, hs.2⟩, hframe⟩
    show (base.update _ _ _ _ _).bind _ = _
    rw [hrun]
    exact congrArg (Option.map _) hrun'
  empty hinv hlive hs := h.empty hinv hlive hs.1.1
  selectState := by
    intro s σ L hinv hlive hs hne
    unfold InterleavedSearcher
    cases hindex : s.index - 1 with
    | zero =>
      obtain ⟨x, b, hrun, hx, hholds⟩ := h.selectState hinv hlive hs.1.1 hne
      refine ⟨x, ⟨(b, s.searchers.2), n + 1⟩, ?_, hx, ⟨hholds, hs.1.2⟩, Nat.le_add_left 1 n, Nat.le_refl _⟩
      simp only [hindex, hrun]
      rfl
    | succ i =>
      have hi : i < n := by
        have := hs.2.2
        omega
      obtain ⟨x, b, hrun, hx, hholds⟩ := hr.selectAt hi hinv hlive hs.1.2 hne
      refine ⟨x, ⟨(s.searchers.1, b), i + 1⟩, ?_, hx, ⟨hs.1.1, hholds⟩, Nat.le_add_left 1 i, Nat.succ_le_succ hi.le⟩
      simp only [hindex, hrun]
      rfl

end Wrappers

/-! ### Every searcher -/

mutual

/-- The view of a searcher. -/
def view : (k : Kind) → View (State k)
  | .dfs => listView
  | .bfs => listView
  | .random => listView
  | .weightedRandom _ => listView
  | .randomPath id => randomPathView id
  | .batching base => batchingView (view base)
  | .iterativeDeepening base => iterativeDeepeningView (view base)
  | .interleaved first rest => interleavedView (view first) (manyView rest) rest.size

/-- The view of several searchers. -/
def manyView : (ks : Kinds) → View (States ks)
  | .nil => unitView
  | .cons first rest => prodView (view first) (manyView rest)

end

/-- The random path searchers have different bits, as `getNextId` gives them. -/
def Kind.Distinct (k : Kind) : Prop := (view k).ids.Nodup

mutual

/-- **Every searcher holds its states**, however it is built. -/
theorem calls_correct (o : Oracle) (path : List ℕ) : ∀ k : Kind, k.Distinct → (calls o path k).Correct (view k)
  | .dfs, _ => DFSSearcher_correct
  | .bfs, _ => BFSSearcher_correct
  | .random, _ => RandomSearcher_correct o
  | .weightedRandom type, _ => WeightedRandomSearcher_correct o type
  | .randomPath id, _ => RandomPathSearcher_correct o id
  | .batching base, h => BatchingSearcher_correct (calls_correct o (0 :: path) base h) (o.expired path)
  | .iterativeDeepening base, h =>
    IterativeDeepeningTimeSearcher_correct (calls_correct o (0 :: path) base h) (o.expired path)
  | .interleaved first rest, h =>
    InterleavedSearcher_correct (calls_correct o (0 :: path) first (List.nodup_append.1 h).1)
      (manyCalls_correct o (1 :: path) rest (List.nodup_append.1 h).2.1) h

theorem manyCalls_correct (o : Oracle) (path : List ℕ) : ∀ ks : Kinds, (manyView ks).ids.Nodup →
    (manyCalls o path ks).Correct (manyView ks) ks.size
  | .nil, _ => noCalls_correct
  | .cons first rest, h =>
    consCalls_correct (calls_correct o (0 :: path) first (List.nodup_append.1 h).1)
      (manyCalls_correct o (1 :: path) rest (List.nodup_append.1 h).2.1) h

end

mutual

/-- A searcher holds nothing at the start. -/
theorem initial_holds {σ : System} (hσ : ∀ id, σ.registered id = ∅) : ∀ k : Kind, (view k).holds (initial k) σ ∅
  | .dfs => ⟨List.nodup_nil, fun x => iff_of_false List.not_mem_nil (Set.notMem_empty x)⟩
  | .bfs => ⟨List.nodup_nil, fun x => iff_of_false List.not_mem_nil (Set.notMem_empty x)⟩
  | .random => ⟨List.nodup_nil, fun x => iff_of_false List.not_mem_nil (Set.notMem_empty x)⟩
  | .weightedRandom _ => ⟨List.nodup_nil, fun x => iff_of_false List.not_mem_nil (Set.notMem_empty x)⟩
  | .randomPath id => hσ id
  | .batching base => ⟨initial_holds hσ base, fun _ hx => nomatch hx⟩
  | .iterativeDeepening base =>
    ⟨∅, ⟨initial_holds hσ base, List.nodup_nil, fun _ hx => absurd hx List.not_mem_nil,
      fun x => iff_of_false (Set.notMem_empty x) fun h => h.elim (Set.notMem_empty x) List.not_mem_nil⟩, fun _ => rfl⟩
  | .interleaved first rest => ⟨⟨initial_holds hσ first, initials_hold hσ rest⟩, Nat.le_refl 1, Nat.le_add_left 1 _⟩

theorem initials_hold {σ : System} (hσ : ∀ id, σ.registered id = ∅) : ∀ ks : Kinds,
    (manyView ks).holds (initials ks) σ ∅
  | .nil => trivial
  | .cons first rest => ⟨initial_holds hσ first, initials_hold hσ rest⟩

end

end Searcher

end SymBisect
