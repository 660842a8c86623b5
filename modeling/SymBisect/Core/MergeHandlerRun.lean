import SymBisect.Lib.Run
import SymBisect.Core.MergeHandlerBooks

/-!
# Merging over runs

States open and close merges, fork and terminate, the executor tells the searcher, and the searcher selects.

* `Inv`: the books are kept, and the states that were terminated are still with the searcher.
* `Allowed`: what the executor keeps to.
* `run_tidy`: in every run no assertion fails, and what the books say holds.
* `run_progress`: whatever waits, there is a state to go on with.
-/

namespace SymBisect

open Lib

namespace KleeMerge

variable {outer : ℕ → List ℕ} {pending doomed : List ℕ} {s s' : System} {es h mp : ℕ} {m m' : MergeHandler}
  {stack : List ℕ}

/-! ### Opening a merge -/

theorem nodup_snoc {l : List ℕ} {x : ℕ} (hl : l.Nodup) (hx : x ∉ l) : (l ++ [x]).Nodup := by
  rw [← List.concat_eq_append]
  exact hl.concat hx

/-- The merge stack of another state does not matter to a handler that is in neither of the stacks. -/
theorem HandlerBooks.restack {pending' : List ℕ} (stack' : List ℕ) (hb : HandlerBooks outer pending s.openMergeStack h m)
    (hstack : s.openMergeStack es = some stack) (hin : h ∈ stack' ↔ h ∈ stack) (hwait : es ∉ m.waiting)
    (hcount : pending'.count h = pending.count h) :
    HandlerBooks outer pending' (s.setStack es (some stack')).openMergeStack h m :=
  { hb with
    open_iff := fun x => by
      rw [hb.open_iff]
      by_cases heq : x = es
      · subst heq
        rw [setStack_self, hstack]
        simp [hin]
      · rw [setStack_of_ne heq]
    refs := by rw [hcount, hb.refs]
    waiting_stack := fun x hx => by
      have hne : x ≠ es := fun heq => hwait (heq ▸ hx)
      rw [setStack_of_ne hne]
      exact hb.waiting_stack x hx }

/-- The same states exist after the stack of an existing one was written. -/
theorem exists_setStack (hstack : s.openMergeStack es = some stack) {stack' : List ℕ} {x : ℕ} :
    (∃ st, (s.setStack es (some stack')).openMergeStack x = some st) ↔ ∃ st, s.openMergeStack x = some st := by
  by_cases heq : x = es
  · subst heq
    exact iff_of_true ⟨stack', setStack_self⟩ ⟨stack, hstack⟩
  · rw [setStack_of_ne heq]

/-- A handler that did not exist is made. -/
theorem live_setHandler_new {o : MergeHandler} {g : ℕ} : Live (s.setHandler h (some o)) g ↔ g = h ∨ Live s g := by
  by_cases heq : g = h
  · subst heq
    exact iff_of_true ⟨o, setHandler_self⟩ (.inl rfl)
  · show (∃ n, (s.setHandler h (some o)).mergeHandler g = some n) ↔ _
    rw [setHandler_of_ne heq]
    exact (or_iff_right heq).symm

theorem handleOpenMerge_spec (hs : Books outer [] [] s) (hstack : s.openMergeStack es = some stack)
    (hpaused : es ∉ s.pausedStates) :
    ∃ s', s.handleOpenMerge es = some s' ∧ Books (Function.update outer s.nextHandler stack) [] [] s' ∧
      s'.removedStates = s.removedStates ∧ s'.baseSearcher = s.baseSearcher := by
  have hfresh : ¬ Live s s.nextHandler := fun hl => Nat.lt_irrefl _ (hs.fresh hl)
  have hne : ∀ {g}, Live s g → g ≠ s.nextHandler := fun hg heq => hfresh (heq ▸ hg)
  have hnot : s.nextHandler ∉ stack := fun hin => hfresh (hs.stack_live hstack _ hin)
  have houter : ∀ {g}, g ≠ s.nextHandler → Function.update outer s.nextHandler stack g = outer g :=
    fun hg => Function.update_of_ne hg ..
  have hrun : s.handleOpenMerge es = some { (s.setHandler s.nextHandler (some (MergeHandler.addOpenState
      ⟨s.steppedInstructions es, 0, 0, [], [], 1⟩ es))).setStack es (some (s.nextHandler :: stack)) with
        nextHandler := s.nextHandler + 1
        mergeGroups := s.mergeGroups ++ [s.nextHandler] } := by
    unfold System.handleOpenMerge
    rw [hstack]
    rfl
  have hwaits : ∀ {x g : ℕ}, Waits (s.setHandler s.nextHandler (some (MergeHandler.addOpenState
      ⟨s.steppedInstructions es, 0, 0, [], [], 1⟩ es))) x g ↔ Waits s x g := by
    intro x g
    rw [waits_setHandler]
    constructor
    · rintro (⟨-, hx⟩ | ⟨-, hx⟩)
      · exact absurd hx List.not_mem_nil
      · exact hx
    · intro hx
      have hlive : Live s g := by
        obtain ⟨n, hn, -⟩ := hx
        exact ⟨n, hn⟩
      exact .inr ⟨hne hlive, hx⟩
  refine ⟨_, hrun, ?_, rfl, rfl⟩
  exact { hs with
    handlers := fun {g n} hg => by
      obtain ⟨rfl, heq⟩ | ⟨hgne, hg⟩ := setHandler_cases hg
      · -- the new handler: only this state is open
        obtain rfl := Option.some.inj heq
        exact {
          open_nodup := List.nodup_singleton es
          open_iff := fun x => by
            show x ∈ [es] ↔ ∃ st, (s.setStack es (some (s.nextHandler :: stack))).openMergeStack x = some st ∧ _
            rw [List.mem_singleton]
            constructor
            · rintro rfl
              exact ⟨_, setStack_self, List.mem_cons_self⟩
            · rintro ⟨st, hst, hin⟩
              obtain ⟨hx, -⟩ | ⟨-, hst⟩ := setStack_eq_some hst
              · exact hx
              · exact absurd (hs.stack_live hst _ hin) hfresh
          refs := rfl
          refs_pos := Nat.one_pos
          outer_lt := fun g hg => by
            rw [Function.update_self] at hg
            exact hs.fresh (hs.stack_live hstack g hg)
          waiting_nodup := List.nodup_nil
          waiting_stack := fun x hx => absurd hx List.not_mem_nil
          groups_ne_nil := fun group hgroup => absurd hgroup List.not_mem_nil }
      · have hb := (hs.handlers hg).restack (s.nextHandler :: stack) hstack
          ⟨fun hin => (List.mem_cons.1 hin).resolve_left hgne, List.mem_cons_of_mem _⟩
          (fun hx => hpaused (hs.waits_paused hg hx)) rfl
        exact { hb with
          outer_lt := by
            rw [houter hgne]
            exact hb.outer_lt
          waiting_stack := by
            rw [houter hgne]
            exact hb.waiting_stack }
    groups_nodup := by
      refine List.nodup_append.2 ⟨hs.groups_nodup, List.nodup_singleton _, fun g hg g' hg' heq => ?_⟩
      exact hne ((hs.groups_iff g).1 hg) (heq.trans (List.mem_singleton.1 hg'))
    groups_iff := fun g => by
      refine Iff.trans ?_ live_setHandler_new.symm
      rw [List.mem_append, List.mem_singleton, hs.groups_iff, or_comm]
    fresh := fun {g} hg => by
      obtain rfl | hg := live_setHandler_new.1 hg
      · exact Nat.lt_succ_self _
      · exact Nat.lt_succ_of_lt (hs.fresh hg)
    stack_live := fun {x st} hst g hg => by
      refine live_setHandler_new.2 ?_
      obtain ⟨-, heq⟩ | ⟨-, hst⟩ := setStack_eq_some hst
      · rw [← Option.some.inj heq] at hg
        exact (List.mem_cons.1 hg).imp_right (hs.stack_live hstack g)
      · exact .inr (hs.stack_live hst g hg)
    nested := fun {x st} hst g rest hsuffix => by
      obtain ⟨-, heq⟩ | ⟨-, hst⟩ := setStack_eq_some hst
      · rw [← Option.some.inj heq] at hsuffix
        obtain heq | hsuffix := List.suffix_cons_iff.1 hsuffix
        · obtain ⟨rfl, rfl⟩ := List.cons.inj heq
          rw [Function.update_self]
        · rw [houter (hne (hs.stack_live hstack g (hsuffix.subset List.mem_cons_self)))]
          exact hs.nested hstack g rest hsuffix
      · rw [houter (hne (hs.stack_live hst g (hsuffix.subset List.mem_cons_self)))]
        exact hs.nested hst g rest hsuffix
    paused_iff := fun x => (hs.paused_iff x).trans (exists_congr fun _ => hwaits.symm)
    waits_unique := fun hg hg' => hs.waits_unique (hwaits.1 hg) (hwaits.1 hg')
    added_live := fun x hx => ⟨(exists_setStack hstack).2 (hs.added_live x hx).1, (hs.added_live x hx).2⟩
    base_iff := fun x => (hs.base_iff x).trans (and_congr_left' (exists_setStack hstack).symm) }

/-! ### Forking -/

/-- The handlers of a stack with another state. -/
def System.shared (s : System) (falseState : ℕ) (stack : List ℕ) : System :=
  (s.mapHandlers stack.reverse fun m => m.ref).mapHandlers stack.reverse fun m => m.addOpenState falseState

/-- Another state holds the handlers of a stack. -/
theorem branch_spec {falseState : ℕ} (hs : Books outer [] [] s) (hstack : s.openMergeStack es = some stack)
    (hnew : s.openMergeStack falseState = none) :
    ∃ s', s.branch es falseState = some s' ∧ Books outer [] [] s' ∧ s'.removedStates = s.removedStates ∧
      s'.baseSearcher = s.baseSearcher := by
  have hreverse : stack.reverse.Nodup := List.nodup_reverse.2 (hs.stack_nodup hstack)
  have hlive : ∀ h ∈ stack.reverse, Live s h := fun h hh => hs.stack_live hstack h (List.mem_reverse.1 hh)
  have hrefs : System.updateHandlers (fun m => some m.ref) stack.reverse s =
      some (s.mapHandlers stack.reverse fun m => m.ref) :=
    updateHandlers_eq _ s hreverse fun h hh => (hlive h hh).imp fun m hm => ⟨hm, rfl⟩
  have hopens : System.updateHandlers (fun m => some (m.addOpenState falseState)) stack.reverse
      (s.mapHandlers stack.reverse fun m => m.ref) =
      some (s.shared falseState stack) :=
    updateHandlers_eq _ _ hreverse fun h hh => (live_mapHandlers.2 (hlive h hh)).imp fun m hm => ⟨hm, rfl⟩
  have hrun : s.branch es falseState = some {
      (s.shared falseState stack).setStack falseState (some stack) with
      steppedInstructions := Function.update s.steppedInstructions falseState (s.steppedInstructions es)
      addedStates := s.addedStates ++ [falseState] } := by
    unfold System.branch
    rw [hstack]
    show (System.updateHandlers (fun m => some m.ref) stack.reverse s).bind _ = _
    rw [hrefs]
    show (System.updateHandlers (fun m => some (m.addOpenState falseState)) stack.reverse _).bind _ = _
    rw [hopens]
    rfl
  have hwaits : ∀ {x g : ℕ}, Waits (s.shared falseState stack) x g ↔ Waits s x g :=
    (waits_mapHandlers (f := fun m => m.addOpenState falseState) fun _ => rfl).trans
      (waits_mapHandlers (f := fun m => m.ref) fun _ => rfl)
  have hlives : ∀ {g : ℕ}, Live (s.shared falseState stack) g ↔ Live s g := live_mapHandlers.trans live_mapHandlers
  have hold : ∀ {x : ℕ} {st}, s.openMergeStack x = some st → x ≠ falseState := by
    rintro x st hx rfl
    rw [hnew] at hx
    cases hx
  have hexists : ∀ x : ℕ, (∃ st, (s.setStack falseState (some stack)).openMergeStack x = some st) ↔
      x = falseState ∨ ∃ st, s.openMergeStack x = some st := by
    intro x
    by_cases heq : x = falseState
    · subst heq
      exact iff_of_true ⟨stack, setStack_self⟩ (.inl rfl)
    · rw [setStack_of_ne heq]
      exact (or_iff_right heq).symm
  have hstacks : ∀ {x : ℕ} {st}, (s.setStack falseState (some stack)).openMergeStack x = some st →
      (x = falseState ∧ stack = st) ∨ s.openMergeStack x = some st := by
    intro x st hx
    obtain ⟨hx, heq⟩ | ⟨-, hx⟩ := setStack_eq_some hx
    · exact .inl ⟨hx, Option.some.inj heq⟩
    · exact .inr hx
  have hadded : falseState ∉ s.addedStates := fun hin => by
    obtain ⟨st, hst⟩ := (hs.added_live falseState hin).1
    exact hold hst rfl
  have hpaused : falseState ∉ s.pausedStates := fun hin => by
    obtain ⟨st, hst⟩ := hs.paused_live hin
    exact hold hst rfl
  have hopen : ∀ {m g}, s.mergeHandler g = some m → falseState ∉ m.openStates := by
    intro m g hm hin
    obtain ⟨st, hst, -⟩ := ((hs.handlers hm).open_iff falseState).1 hin
    exact hold hst rfl
  refine ⟨_, hrun, ?_, rfl, rfl⟩
  exact { hs with
    handlers := fun {g n} hg => by
      obtain ⟨m', hm', rfl⟩ := mapHandlers_eq_some hg
      obtain ⟨m, hm, rfl⟩ := mapHandlers_eq_some hm'
      have hb := hs.handlers hm
      have hwaiting : ∀ x ∈ m.waiting, (s.setStack falseState (some stack)).openMergeStack x = some (outer g) := by
        intro x hx
        have hst := hb.waiting_stack x hx
        rw [setStack_of_ne (hold hst)]
        exact hst
      by_cases hin : g ∈ stack
      · rw [if_pos (List.mem_reverse.2 hin), if_pos (List.mem_reverse.2 hin)]
        exact { hb with
          open_nodup := by exact nodup_snoc hb.open_nodup (hopen (m := m) hm)
          open_iff := fun x => by
            show x ∈ m.openStates ++ [falseState] ↔ ∃ st, (s.setStack falseState (some stack)).openMergeStack x = some st ∧ _
            rw [List.mem_append, List.mem_singleton, hb.open_iff]
            by_cases heq : x = falseState
            · subst heq
              exact iff_of_true (.inr rfl) ⟨stack, setStack_self, hin⟩
            · rw [setStack_of_ne heq]
              exact or_iff_left heq
          refs := by
            have hrefs := hb.refs
            show m.refCount + 1 = (m.openStates ++ [falseState]).length + _
            rw [List.length_append, List.length_singleton, hrefs]
            omega
          refs_pos := Nat.succ_pos _
          waiting_stack := hwaiting }
      · rw [if_neg fun h => hin (List.mem_reverse.1 h), if_neg fun h => hin (List.mem_reverse.1 h)]
        exact { hb with
          open_iff := fun x => by
            show _ ↔ ∃ st, (s.setStack falseState (some stack)).openMergeStack x = some st ∧ _
            rw [hb.open_iff]
            constructor
            · rintro ⟨st, hst, hgst⟩
              exact ⟨st, (setStack_of_ne (hold hst)).trans hst, hgst⟩
            · rintro ⟨st, hst, hgst⟩
              obtain ⟨-, rfl⟩ | hst := hstacks hst
              · exact absurd hgst hin
              · exact ⟨st, hst, hgst⟩
          waiting_stack := hwaiting }
    groups_iff := fun g => (hs.groups_iff g).trans hlives.symm
    fresh := fun hg => hs.fresh (hlives.1 hg)
    stack_live := fun {x st} hst g hg => by
      refine hlives.2 ?_
      obtain ⟨-, rfl⟩ | hst := hstacks hst
      · exact hs.stack_live hstack g hg
      · exact hs.stack_live hst g hg
    nested := fun {x st} hst => by
      obtain ⟨-, rfl⟩ | hst := hstacks hst
      · exact hs.nested hstack
      · exact hs.nested hst
    paused_iff := fun x => (hs.paused_iff x).trans (exists_congr fun _ => hwaits.symm)
    waits_unique := fun hg hg' => hs.waits_unique (hwaits.1 hg) (hwaits.1 hg')
    added_nodup := nodup_snoc hs.added_nodup hadded
    added_live := fun x hx => by
      obtain hx | hx := List.mem_append.1 hx
      · exact ⟨(hexists x).2 (.inr (hs.added_live x hx).1), (hs.added_live x hx).2⟩
      · rw [List.mem_singleton.1 hx]
        exact ⟨(hexists falseState).2 (.inl rfl), hpaused⟩
    base_iff := fun x => by
      refine (hs.base_iff x).trans (Iff.trans ?_ (and_congr_left' (hexists x).symm))
      show _ ↔ _ ∧ x ∉ s.addedStates ++ [falseState] ∧ _
      rw [List.mem_append, List.mem_singleton]
      constructor
      · rintro ⟨⟨st, hst⟩, hadd, hrest⟩
        exact ⟨.inr ⟨st, hst⟩, fun hin => hin.elim hadd (hold hst), hrest⟩
      · rintro ⟨hx, hadd, hrest⟩
        exact ⟨hx.resolve_left fun heq => hadd (.inr heq), fun hin => hadd (.inl hin), hrest⟩ }

/-! ### The invariant of runs -/

/-- The books are kept, and the states that were terminated are still with the searcher. -/
structure Inv (s : System) : Prop where
  books : ∃ outer, Books outer [] [] s
  removed_nodup : s.removedStates.Nodup
  removed_base : ∀ es ∈ s.removedStates, es ∈ s.baseSearcher

/-- A state that executes. -/
structure Running (s : System) (es : ℕ) : Prop where
  live : ∃ stack, s.openMergeStack es = some stack
  not_paused : es ∉ s.pausedStates
  not_removed : es ∉ s.removedStates

/-- A state that was never told of is deleted at once. -/
theorem Books.forget (hs : Books outer [] [] s) (hadded : es ∈ s.addedStates) :
    Books outer [] [es] { s with addedStates := s.addedStates.erase es } :=
  { hs with
    added_nodup := hs.added_nodup.erase es
    added_live := fun x hx => hs.added_live x (List.mem_of_mem_erase hx)
    base_iff := fun x => by
      refine (hs.base_iff x).trans ?_
      show _ ↔ _ ∧ x ∉ s.addedStates.erase es ∧ _
      rw [hs.added_nodup.mem_erase_iff, List.mem_singleton]
      by_cases heq : x = es
      · subst heq
        simp [hadded]
      · simp [heq] }

theorem Inv.terminateState (hs : Inv s) (hr : Running s es) : ∃ s', s.terminateState es = some s' ∧ Inv s' := by
  obtain ⟨outer, hb⟩ := hs.books
  obtain ⟨stack, hstack⟩ := hr.live
  by_cases hadded : es ∈ s.addedStates
  · have hawake : Awake [es] { s with addedStates := s.addedStates.erase es } := by
      intro x hx
      rw [List.mem_singleton.1 hx]
      exact hr.not_paused
    obtain ⟨s', hrun, hb', hk⟩ := deleteState_spec (hb.forget hadded) hawake hstack
      fun hin => (hb.added_nodup.mem_erase_iff.1 hin).1 rfl
    refine ⟨s', (if_pos hadded).trans hrun, ⟨outer, hb'⟩, ?_, fun x hx => ?_⟩
    · rw [hk.removed]
      exact hs.removed_nodup
    · rw [hk.removed] at hx
      exact hk.base (hs.removed_base x hx)
  · have hbase : es ∈ s.baseSearcher := (hb.base_iff es).2 ⟨⟨stack, hstack⟩, hadded, hr.not_paused, List.not_mem_nil⟩
    refine ⟨{ s with removedStates := s.removedStates ++ [es] }, if_neg hadded, ⟨outer, { hb with }⟩, ?_, fun x hx => ?_⟩
    · exact nodup_snoc hs.removed_nodup hr.not_removed
    · obtain hx | hx := List.mem_append.1 hx
      · exact hs.removed_base x hx
      · rw [List.mem_singleton.1 hx]
        exact hbase

/-! ### Closing a merge -/

section Closing

variable {rest : List ℕ}

/-- A state leaves the handler on top of its stack, whose reference is pending. -/
theorem HandlerBooks.close (hb : HandlerBooks outer [] s.openMergeStack h m)
    (hstack : s.openMergeStack es = some (h :: rest)) (hnot : h ∉ rest) {groups : List (ℕ × List ℕ)} {count : BitVec 32}
    {mean : ℚ} (hnodup : (groups.flatMap Prod.snd).Nodup) (hne : ∀ group ∈ groups, group.2 ≠ [])
    (hwait : ∀ x ∈ groups.flatMap Prod.snd, (x = es ∧ rest = outer h) ∨ (x ≠ es ∧ x ∈ m.waiting)) :
    HandlerBooks outer [h] (s.setStack es (some rest)).openMergeStack h
      ⟨m.openInstruction, mean, count, swapErase m.openStates es, groups, m.refCount⟩ := by
  have hes : es ∈ m.openStates := (hb.open_iff es).2 ⟨_, hstack, List.mem_cons_self⟩
  exact {
    open_nodup := (swapErase_perm hes).nodup_iff.2 (hb.open_nodup.erase es)
    open_iff := fun x => by
      show x ∈ (m.without es).openStates ↔ _
      rw [mem_without hb hes, hb.open_iff]
      by_cases heq : x = es
      · subst heq
        rw [setStack_self]
        simp [hnot]
      · rw [setStack_of_ne heq]
        simp [heq]
    refs := by
      have hlen := length_without hes
      have hrefs := hb.refs
      rw [List.count_nil] at hrefs
      rw [List.count_singleton_self]
      show m.refCount = (m.without es).openStates.length + 1
      omega
    refs_pos := hb.refs_pos
    outer_lt := hb.outer_lt
    waiting_nodup := hnodup
    waiting_stack := fun x hx => by
      obtain ⟨rfl, hrest⟩ | ⟨hxne, hx⟩ := hwait x hx
      · rw [setStack_self, hrest]
      · rw [setStack_of_ne hxne]
        exact hb.waiting_stack x hx
    groups_ne_nil := hne }

/-- The books after a state has left the handler on top of its stack, and waits there or was merged into a state that
waits there. -/
theorem Books.close (hs : Books outer [] [] s) (hstack : s.openMergeStack es = some (h :: rest))
    (hpaused : es ∉ s.pausedStates) (hadded : es ∉ s.addedStates) (hm : s.mergeHandler h = some m)
    {groups : List (ℕ × List ℕ)} {count : BitVec 32} {mean : ℚ} {paused : List ℕ} {closing base : Finset ℕ}
    (waits : Bool)
    (hgroups : (groups.flatMap Prod.snd).Perm (if waits = true then es :: m.waiting else m.waiting))
    (hne : ∀ group ∈ groups, group.2 ≠ []) (hpausedNodup : paused.Nodup)
    (hpausedMem : ∀ x, x ∈ paused ↔ (waits = true ∧ x = es) ∨ x ∈ s.pausedStates)
    (hclosing : ∀ x, x ∈ closing ↔ x ∈ paused) (hbase : ∀ x, x ∈ base ↔ x ∈ s.baseSearcher ∧ (waits = true → x ≠ es)) :
    Books outer [h] [] { (s.setHandler h (some ⟨m.openInstruction, mean, count, swapErase m.openStates es, groups,
      m.refCount⟩)).setStack es (some rest) with
        pausedStates := paused
        inCloseMerge := closing
        baseSearcher := base } := by
  have hb := hs.handlers hm
  have hnot : h ∉ rest := (List.nodup_cons.1 (hs.stack_nodup hstack)).1
  have hrest : rest = outer h := hs.nested hstack h rest (List.suffix_refl _)
  have hwaiting : es ∉ m.waiting := fun hin => hpaused (hs.waits_paused hm hin)
  have hmem : ∀ x, x ∈ groups.flatMap Prod.snd ↔ (waits = true ∧ x = es) ∨ x ∈ m.waiting := by
    intro x
    rw [hgroups.mem_iff]
    by_cases hw : waits = true
    · simp [hw]
    · simp [hw]
  have hnodup : (groups.flatMap Prod.snd).Nodup := by
    rw [hgroups.nodup_iff]
    by_cases hw : waits = true
    · rw [if_pos hw]
      exact List.nodup_cons.2 ⟨hwaiting, hb.waiting_nodup⟩
    · rw [if_neg hw]
      exact hb.waiting_nodup
  have hwaits : ∀ {x g : ℕ}, Waits (s.setHandler h (some ⟨m.openInstruction, mean, count, swapErase m.openStates es, groups,
      m.refCount⟩)) x g ↔ (g = h ∧ waits = true ∧ x = es) ∨ Waits s x g := by
    intro x g
    rw [waits_setHandler]
    show (g = h ∧ x ∈ groups.flatMap Prod.snd) ∨ _ ↔ _
    rw [hmem]
    by_cases heq : g = h
    · subst heq
      simp [Waits, hm]
    · simp [heq]
  have hesWaits : ∀ {g}, ¬ Waits s es g := fun hw => hpaused ((hs.paused_iff es).2 ⟨_, hw⟩)
  exact { hs with
    handlers := fun {g n} hg => by
      obtain ⟨rfl, heq⟩ | ⟨hgne, hg⟩ := setHandler_cases hg
      · obtain rfl := Option.some.inj heq
        refine hb.close hstack hnot hnodup hne fun x hx => ?_
        obtain ⟨-, rfl⟩ | hx := (hmem x).1 hx
        · exact .inl ⟨rfl, hrest⟩
        · exact .inr ⟨fun heq => hwaiting (heq ▸ hx), hx⟩
      · refine (hs.handlers hg).restack rest hstack ⟨List.mem_cons_of_mem h, fun hin => (List.mem_cons.1 hin).resolve_left hgne⟩
          (fun hx => hpaused (hs.waits_paused hg hx)) ?_
        rw [List.count_singleton, List.count_nil]
        simp [hgne.symm]
    groups_iff := fun g => (hs.groups_iff g).trans (live_setHandler hm).symm
    fresh := fun hg => hs.fresh ((live_setHandler hm).1 hg)
    stack_live := fun {x st} hst g hg => by
      refine (live_setHandler hm).2 ?_
      obtain ⟨-, heq⟩ | ⟨-, hst⟩ := setStack_eq_some hst
      · rw [← Option.some.inj heq] at hg
        exact hs.stack_live hstack g (List.mem_cons_of_mem h hg)
      · exact hs.stack_live hst g hg
    nested := fun {x st} hst g r hsuffix => by
      obtain ⟨-, heq⟩ | ⟨-, hst⟩ := setStack_eq_some hst
      · rw [← Option.some.inj heq] at hsuffix
        exact hs.nested hstack g r (hsuffix.trans (List.suffix_cons h rest))
      · exact hs.nested hst g r hsuffix
    paused_nodup := hpausedNodup
    paused_iff := fun x => by
      rw [hpausedMem, hs.paused_iff]
      constructor
      · rintro (hx | ⟨g, hg⟩)
        · exact ⟨h, hwaits.2 (.inl ⟨rfl, hx⟩)⟩
        · exact ⟨g, hwaits.2 (.inr hg)⟩
      · rintro ⟨g, hg⟩
        obtain ⟨-, hx⟩ | hg := hwaits.1 hg
        · exact .inl hx
        · exact .inr ⟨g, hg⟩
    waits_unique := fun {x g g'} hg hg' => by
      obtain ⟨hgh, -, hx⟩ | hold := hwaits.1 hg
      · obtain ⟨hgh', -⟩ | hold' := hwaits.1 hg'
        · exact hgh.trans hgh'.symm
        · rw [hx] at hold'
          exact absurd hold' hesWaits
      · obtain ⟨-, -, hx⟩ | hold' := hwaits.1 hg'
        · rw [hx] at hold
          exact absurd hold hesWaits
        · exact hs.waits_unique hold hold'
    closing_iff := hclosing
    added_live := fun x hx => ⟨(exists_setStack hstack).2 (hs.added_live x hx).1, fun hin => by
      obtain ⟨-, rfl⟩ | hin := (hpausedMem x).1 hin
      · exact hadded hx
      · exact (hs.added_live x hx).2 hin⟩
    base_iff := fun x => by
      refine (hbase x).trans ?_
      rw [hs.base_iff x]
      show _ ↔ (∃ st, (s.setStack es (some rest)).openMergeStack x = some st) ∧ x ∉ s.addedStates ∧ x ∉ paused ∧ _
      rw [exists_setStack hstack, hpausedMem]
      tauto }

/-- A handler that a state has closed. -/
def MergeHandler.closed (m : MergeHandler) (es : ℕ) (distance : BitVec 32) : MergeHandler :=
  (m.countClosed distance).without es

/-- A handler that a state has closed and in which it waits. -/
def MergeHandler.parked (m : MergeHandler) (es mp : ℕ) (distance : BitVec 32) : MergeHandler :=
  { m.closed es distance with reachedCloseMerge := pushBack mp es m.reachedCloseMerge }

/-- A state that closes a merge is paused, or it was merged and is terminated. -/
theorem addClosedState_cases (merge : ℕ → ℕ → Bool) (mp : ℕ) (hm : s.mergeHandler h = some m) (hopen : es ∈ m.openStates)
    (hpaused : es ∉ s.pausedStates) (hadded : es ∉ s.addedStates) (hbase : es ∈ s.baseSearcher)
    {distance : BitVec 32} (hdistance : m.getInstructionDistance (s.steppedInstructions es) = distance) :
    s.addClosedState merge h es mp = some {
      s.setHandler h (some (m.parked es mp distance)) with
      baseSearcher := s.baseSearcher.erase es
      pausedStates := s.pausedStates ++ [es] } ∨
    s.addClosedState merge h es mp = some {
      s.setHandler h (some (m.closed es distance)) with
      removedStates := s.removedStates ++ [es]
      inCloseMerge := s.inCloseMerge.erase es } := by
  have hremove : (m.countClosed distance).removeOpenState es =
      some (m.closed es distance) := if_pos hopen
  have hpark : System.pauseState es
      (s.setHandler h (some (m.parked es mp distance))) = some {
      s.setHandler h (some (m.parked es mp distance)) with
      baseSearcher := s.baseSearcher.erase es
      pausedStates := s.pausedStates ++ [es] } := pauseState_eq hpaused hbase
  have hterminate : System.terminateState es
      (s.setHandler h (some (m.closed es distance))) = some {
      s.setHandler h (some (m.closed es distance)) with
      removedStates := s.removedStates ++ [es] } := if_neg hadded
  unfold System.addClosedState
  simp only [hm, hdistance, hremove, Option.bind_eq_bind, Option.bind_some]
  cases (m.closed es distance).reachedCloseMerge.lookup mp with
  | none => exact .inl hpark
  | some cpv =>
    by_cases hany : (cpv.any fun mState => merge mState es) = true
    · simp only [hany, if_true, hterminate, Option.bind_some]
      exact .inr rfl
    · simp only [if_neg hany]
      exact .inl hpark

/-- `klee_close_merge`, called by a state that the searcher has. -/
theorem Inv.handleCloseMerge {merge : ℕ → ℕ → Bool} (hs : Inv s) (hr : Running s es) (hadded : es ∉ s.addedStates) :
    ∃ s', s.handleCloseMerge merge es mp = some s' ∧ Inv s' := by
  obtain ⟨outer, hb⟩ := hs.books
  obtain ⟨stack, hstack⟩ := hr.live
  have hbase : es ∈ s.baseSearcher := (hb.base_iff es).2 ⟨⟨stack, hstack⟩, hadded, hr.not_paused, List.not_mem_nil⟩
  cases stack with
  | nil =>
    refine ⟨s, ?_, hs⟩
    unfold System.handleCloseMerge
    rw [hstack]
    rfl
  | cons h rest =>
    obtain ⟨m, hm⟩ := hb.stack_live hstack h List.mem_cons_self
    have hm' := hb.handlers hm
    have hopen : es ∈ m.openStates := (hm'.open_iff es).2 ⟨_, hstack, List.mem_cons_self⟩
    have hclosing : es ∉ s.inCloseMerge := fun hin => hr.not_paused ((hb.closing_iff es).1 hin)
    have hrun : s.handleCloseMerge merge es mp =
        (System.addClosedState merge h es mp { s with inCloseMerge := insert es s.inCloseMerge }).bind fun t =>
          System.unref h (t.setStack es (some rest)) := by
      unfold System.handleCloseMerge
      rw [hstack]
      show (if es ∈ s.inCloseMerge then none else _) = _
      rw [if_neg hclosing]
      rfl
    have hawake : ∀ t : System, Awake [] t := fun t x hx => absurd hx List.not_mem_nil
    obtain ⟨distance, hdistance⟩ : ∃ d, m.getInstructionDistance (s.steppedInstructions es) = d := ⟨_, rfl⟩
    rw [hrun]
    obtain hadd | hadd := addClosedState_cases (s := { s with inCloseMerge := insert es s.inCloseMerge }) merge mp hm hopen hr.not_paused hadded hbase hdistance
    · -- the state waits
      have hwaits : Books outer [h] [] { (s.setHandler h (some (m.parked es mp distance))).setStack es (some rest) with
          pausedStates := s.pausedStates ++ [es]
          inCloseMerge := insert es s.inCloseMerge
          baseSearcher := s.baseSearcher.erase es } := by
        refine hb.close hstack hr.not_paused hadded hm true (flatMap_pushBack mp es _)
          (pushBack_ne_nil hm'.groups_ne_nil) ?_ (fun x => ?_) (fun x => ?_) fun x => ?_
        · exact nodup_snoc hb.paused_nodup hr.not_paused
        · rw [List.mem_append, List.mem_singleton, or_comm]
          simp
        · rw [Finset.mem_insert, List.mem_append, List.mem_singleton, hb.closing_iff, or_comm]
        · rw [Finset.mem_erase, and_comm]
          simp
      obtain ⟨s', hunref, hb', hk, -⟩ := unref_spec hwaits (hawake _) ⟨_, setHandler_self⟩
      refine ⟨s', ?_, ⟨outer, hb'⟩, ?_, fun x hx => ?_⟩
      · rw [hadd]
        exact hunref
      · rw [hk.removed]
        exact hs.removed_nodup
      · rw [hk.removed] at hx
        exact hk.base (Finset.mem_erase.2 ⟨fun heq => hr.not_removed (heq ▸ hx), hs.removed_base x hx⟩)
    · -- the state was merged
      have hmerged : Books outer [h] [] { (s.setHandler h (some (m.closed es distance))).setStack es (some rest) with
          pausedStates := s.pausedStates
          inCloseMerge := (insert es s.inCloseMerge).erase es
          baseSearcher := s.baseSearcher } := by
        rw [Finset.erase_insert hclosing]
        exact hb.close hstack hr.not_paused hadded hm false (.refl _) hm'.groups_ne_nil hb.paused_nodup
          (fun x => by simp) hb.closing_iff fun x => by simp
      have hremoved : Books outer [h] [] { (s.setHandler h (some (m.closed es distance))).setStack es (some rest) with
          removedStates := s.removedStates ++ [es]
          inCloseMerge := (insert es s.inCloseMerge).erase es } := { hmerged with }
      obtain ⟨s', hunref, hb', hk, -⟩ := unref_spec hremoved (hawake _) ⟨_, setHandler_self⟩
      refine ⟨s', ?_, ⟨outer, hb'⟩, ?_, fun x hx => ?_⟩
      · rw [hadd]
        exact hunref
      · rw [hk.removed]
        exact nodup_snoc hs.removed_nodup hr.not_removed
      · rw [hk.removed] at hx
        refine hk.base ?_
        obtain hx | hx := List.mem_append.1 hx
        · exact hs.removed_base x hx
        · rw [List.mem_singleton.1 hx]
          exact hbase

end Closing

/-! ### Telling the searcher -/

/-- The searcher is told of the new states and of the terminated ones, which are then deleted. -/
theorem Inv.updateStates {current : Option ℕ} (hs : Inv s)
    (hcurrent : (∃ c ∈ current, c ∈ s.pausedStates) → s.addedStates = [] ∧ s.removedStates = []) :
    ∃ s', s.updateStates current = some s' ∧ Inv s' := by
  obtain ⟨outer, hb⟩ := hs.books
  have hlive : ∀ es ∈ s.removedStates, ∃ stack, s.openMergeStack es = some stack :=
    fun es hes => ((hb.base_iff es).1 (hs.removed_base es hes)).1
  have hawake : ∀ es ∈ s.removedStates, es ∉ s.pausedStates :=
    fun es hes => ((hb.base_iff es).1 (hs.removed_base es hes)).2.2.1
  have hfinish : ∀ t : System, s.update current = some t → Books outer [] s.removedStates { t with addedStates := [] } →
      t.removedStates = s.removedStates → t.pausedStates = s.pausedStates → t.openMergeStack = s.openMergeStack →
      ∃ s', s.updateStates current = some s' ∧ Inv s' := by
    intro t hrun ht hremoved hpaused hstack
    obtain ⟨u, hdelete, hu, hadded⟩ := deleteEach_spec s.removedStates ht
      (fun es hes hin => hawake es hes (hpaused ▸ hin)) hs.removed_nodup rfl fun es hes => by
        show ∃ stack, t.openMergeStack es = some stack
        rw [hstack]
        exact hlive es hes
    refine ⟨{ u with removedStates := [] }, ?_, ⟨outer, { hu with }⟩, List.nodup_nil, fun es hes => absurd hes List.not_mem_nil⟩
    unfold System.updateStates
    rw [hrun]
    rw [← hremoved] at hdelete
    show (System.deleteEach t.removedStates { t with addedStates := [] }).bind _ = _
    rw [hdelete]
    rfl
  by_cases hpaused : ∃ c ∈ current, c ∈ s.pausedStates
  · obtain ⟨hadded, hremoved⟩ := hcurrent hpaused
    refine hfinish s (if_pos hpaused) ?_ rfl rfl rfl
    rw [hremoved]
    exact { hb with
      added_nodup := List.nodup_nil
      added_live := fun x hx => absurd hx List.not_mem_nil
      base_iff := fun x => by
        have hx := hb.base_iff x
        rw [hadded] at hx
        exact hx }
  · have hbase := updateBase_eq s.baseSearcher hb.added_nodup (fun x hx hin => ((hb.base_iff x).1 hin).2.1 hx) hs.removed_nodup
      fun x hx => .inl (hs.removed_base x hx)
    have hrun : s.update current = some { s with
        baseSearcher := (s.baseSearcher ∪ s.addedStates.toFinset) \ s.removedStates.toFinset } := by
      unfold System.update
      rw [if_neg hpaused, hbase]
      rfl
    refine hfinish _ hrun ?_ rfl rfl rfl
    exact { hb with
      added_nodup := List.nodup_nil
      added_live := fun x hx => absurd hx List.not_mem_nil
      base_iff := fun x => by
        show x ∈ (s.baseSearcher ∪ s.addedStates.toFinset) \ s.removedStates.toFinset ↔ _ ∧ x ∉ [] ∧ x ∉ s.pausedStates ∧ _
        rw [Finset.mem_sdiff, Finset.mem_union, List.mem_toFinset, List.mem_toFinset, hb.base_iff]
        constructor
        · rintro ⟨⟨hx, -, hp, -⟩ | hx, hr⟩
          · exact ⟨hx, List.not_mem_nil, hp, hr⟩
          · exact ⟨(hb.added_live x hx).1, List.not_mem_nil, (hb.added_live x hx).2, hr⟩
        · rintro ⟨hx, -, hp, hr⟩
          by_cases hadd : x ∈ s.addedStates
          · exact ⟨.inr hadd, hr⟩
          · exact ⟨.inl ⟨hx, hadd, hp, List.not_mem_nil⟩, hr⟩ }

/-! ### Selecting a state -/

/-- A state that can be prioritized is with the searcher. -/
theorem getPrioritizeState_mem (hb : Books outer [] [] s) (hadded : s.addedStates = []) (hm : s.mergeHandler h = some m)
    (hes : s.getPrioritizeState m = some es) : es ∈ s.baseSearcher := by
  have hopen := List.mem_of_find?_eq_some hes
  have hclosing := List.find?_some hes
  obtain ⟨stack, hstack, -⟩ := ((hb.handlers hm).open_iff es).1 hopen
  refine (hb.base_iff es).2 ⟨⟨stack, hstack⟩, ?_, ?_, List.not_mem_nil⟩
  · rw [hadded]
    exact List.not_mem_nil
  · intro hin
    simp [(hb.closing_iff es).2 hin] at hclosing

/-- The handlers in turn. -/
theorem selectFrom_spec {select : Finset ℕ → Option ℕ} (hselect : ∀ base, base ≠ ∅ → ∃ x ∈ base, select base = some x)
    (groups : List ℕ) : ∀ {s : System}, Inv s → s.addedStates = [] → s.baseSearcher ≠ ∅ → (∀ h ∈ groups, Live s h) →
      ∃ es s', System.selectFrom select groups s = some (es, s') ∧ Inv s' ∧ es ∈ s'.baseSearcher := by
  induction groups with
  | nil =>
    intro s hs _ hne _
    obtain ⟨x, hx, hrun⟩ := hselect _ hne
    refine ⟨x, s, ?_, hs, hx⟩
    unfold System.selectFrom
    rw [hrun]
    rfl
  | cons h rest ih =>
    intro s hs hadded hne hlive
    obtain ⟨outer, hb⟩ := hs.books
    obtain ⟨m, hm⟩ := hlive h List.mem_cons_self
    have hrest : ∀ g ∈ rest, Live s g := fun g hg => hlive g (List.mem_cons_of_mem _ hg)
    by_cases hmerged : m.hasMergedStates = true
    · cases hprioritize : s.getPrioritizeState m with
      | some es =>
        refine ⟨es, s, ?_, hs, getPrioritizeState_mem hb hadded hm hprioritize⟩
        simp only [System.selectFrom, hm, Option.bind_eq_bind, Option.bind_some, if_pos hmerged, hprioritize]
      | none =>
        have hreleased := hb.release hm fun x _ => List.not_mem_nil
        have hinv : Inv (s.released h m) := ⟨⟨outer, hreleased⟩, hs.removed_nodup, fun x hx =>
          Finset.mem_union_left _ (hs.removed_base x hx)⟩
        have hne' : (s.released h m).baseSearcher ≠ ∅ := by
          intro hempty
          exact hne (Finset.union_eq_empty.1 hempty).1
        obtain ⟨es, s', hselected, hinv', hes⟩ := ih hinv hadded hne' fun g hg => (live_setHandler hm).2 (hrest g hg)
        refine ⟨es, s', ?_, hinv', hes⟩
        simp only [System.selectFrom, hm, Option.bind_eq_bind, Option.bind_some, if_pos hmerged, hprioritize,
          releaseStates_eq hb hm]
        exact hselected
    · obtain ⟨es, s', hselected, hinv', hes⟩ := ih hs hadded hne hrest
      refine ⟨es, s', ?_, hinv', hes⟩
      simp only [System.selectFrom, hm, Option.bind_eq_bind, Option.bind_some, if_neg hmerged]
      exact hselected

/-! ### Progress -/

/-- A handler in which a state waits lives, so a state is open in it.  If that state waits too, it does so in a later
handler, and there is a last one. -/
theorem Books.open_awake (hb : Books outer [] [] s) : ∀ n h, s.nextHandler - h ≤ n → (∃ x, Waits s x h) →
    ∃ es stack, s.openMergeStack es = some stack ∧ es ∉ s.pausedStates := by
  intro n
  induction n with
  | zero =>
    intro h hn hw
    obtain ⟨x, m, hm, -⟩ := hw
    have hlt := hb.fresh ⟨m, hm⟩
    omega
  | succ n ih =>
    intro h hn hw
    obtain ⟨x, m, hm, -⟩ := hw
    have hm' := hb.handlers hm
    have hpos : 0 < m.openStates.length := by
      have hrefs := hm'.refs
      have hrefs_pos := hm'.refs_pos
      rw [List.count_nil] at hrefs
      omega
    obtain ⟨es, hes⟩ := List.exists_mem_of_length_pos hpos
    obtain ⟨stack, hstack, hin⟩ := (hm'.open_iff es).1 hes
    by_cases hpaused : es ∈ s.pausedStates
    · obtain ⟨h', m', hm'', hw⟩ := (hb.paused_iff es).1 hpaused
      have houter : stack = outer h' :=
        Option.some.inj (hstack.symm.trans ((hb.handlers hm'').waiting_stack es hw))
      have hlater : h < h' := (hb.handlers hm'').outer_lt h (houter ▸ hin)
      have hlt := hb.fresh ⟨m, hm⟩
      exact ih h' (by omega) ⟨es, m', hm'', hw⟩
    · exact ⟨es, stack, hstack, hpaused⟩

/-- Whatever waits, some state is with the searcher. -/
theorem Inv.nonempty (hs : Inv s) (hadded : s.addedStates = []) (hlive : ∃ stack, s.openMergeStack es = some stack) :
    s.baseSearcher ≠ ∅ := by
  obtain ⟨outer, hb⟩ := hs.books
  have hawake : ∃ x stack, s.openMergeStack x = some stack ∧ x ∉ s.pausedStates := by
    by_cases hpaused : es ∈ s.pausedStates
    · obtain ⟨h, hw⟩ := (hb.paused_iff es).1 hpaused
      exact hb.open_awake _ h (Nat.le_refl _) ⟨es, hw⟩
    · obtain ⟨stack, hstack⟩ := hlive
      exact ⟨es, stack, hstack, hpaused⟩
  obtain ⟨x, stack, hstack, hpaused⟩ := hawake
  refine Finset.ne_empty_of_mem ((hb.base_iff x).2 ⟨⟨stack, hstack⟩, ?_, hpaused, List.not_mem_nil⟩)
  rw [hadded]
  exact List.not_mem_nil

/-- `selectState` while a state exists. -/
theorem Inv.selectState (useIncompleteMerge : Bool) {select : Finset ℕ → Option ℕ} (hs : Inv s) (hadded : s.addedStates = [])
    (hlive : ∃ stack, s.openMergeStack es = some stack)
    (hselect : ∀ base, base ≠ ∅ → ∃ x ∈ base, select base = some x) :
    ∃ x s', s.selectState useIncompleteMerge select = some (x, s') ∧ Inv s' ∧ x ∈ s'.baseSearcher := by
  obtain ⟨outer, hb⟩ := hs.books
  have hne := hs.nonempty hadded hlive
  unfold System.selectState
  rw [if_neg hne]
  cases useIncompleteMerge with
  | true => exact selectFrom_spec hselect s.mergeGroups hs hadded hne fun h hh => (hb.groups_iff h).1 hh
  | false =>
    obtain ⟨x, hx, hrun⟩ := hselect _ hne
    refine ⟨x, s, ?_, hs, hx⟩
    simp [hrun]

/-! ### Runs -/

/-- What happens, and what is decided elsewhere while it does. -/
inductive Action where
  | execute (es : ℕ) (instructions : BitVec 64)
  | openMerge (es : ℕ)
  | closeMerge (merge : ℕ → ℕ → Bool) (es mp : ℕ)
  | branch (es falseState : ℕ)
  | terminateState (es : ℕ)
  | updateStates (current : Option ℕ)
  | selectState (useIncompleteMerge : Bool) (select : Finset ℕ → Option ℕ)

/-- One action. -/
def System.step (s : System) : Action → Option System
  | .execute es instructions =>
    some { s with steppedInstructions := Function.update s.steppedInstructions es (s.steppedInstructions es + instructions) }
  | .openMerge es => s.handleOpenMerge es
  | .closeMerge merge es mp => s.handleCloseMerge merge es mp
  | .branch es falseState => s.branch es falseState
  | .terminateState es => s.terminateState es
  | .updateStates current => s.updateStates current
  | .selectState useIncompleteMerge select => (s.selectState useIncompleteMerge select).map Prod.snd

/-- What the executor keeps to: a state that executes is neither paused nor terminated, a merge is closed by a state that the
searcher has, a forked state is new, the current state of an update is not paused or nothing is added and removed, and a state
is selected when one exists and the searcher was told of all. -/
def System.Allowed (s : System) : Action → Prop
  | .execute es _ => Running s es
  | .openMerge es => Running s es
  | .closeMerge _ es _ => Running s es ∧ es ∉ s.addedStates
  | .branch es falseState => Running s es ∧ s.openMergeStack falseState = none
  | .terminateState es => Running s es
  | .updateStates current =>
    (∃ c ∈ current, c ∈ s.pausedStates) → s.addedStates = [] ∧ s.removedStates = []
  | .selectState _ select =>
    s.addedStates = [] ∧ (∃ es stack, s.openMergeStack es = some stack) ∧
      ∀ base, base ≠ ∅ → ∃ x ∈ base, select base = some x

/-- One state, which the searcher has. -/
def System.start (initialState : ℕ) : System where
  mergeHandler _ := none
  nextHandler := 0
  openMergeStack := Function.update (fun _ => none) initialState (some [])
  steppedInstructions _ := 0
  addedStates := []
  removedStates := []
  baseSearcher := {initialState}
  pausedStates := []
  inCloseMerge := ∅
  mergeGroups := []

theorem start_inv (initialState : ℕ) : Inv (System.start initialState) := by
  have hstack : ∀ {es stack}, (System.start initialState).openMergeStack es = some stack → es = initialState ∧ [] = stack := by
    intro es stack hes
    have hes : Function.update (fun _ => none) initialState (some []) es = some stack := hes
    by_cases heq : es = initialState
    · subst heq
      rw [Function.update_self] at hes
      exact ⟨rfl, Option.some.inj hes⟩
    · rw [Function.update_of_ne heq] at hes
      cases hes
  have hdead : ∀ {h}, ¬ Live (System.start initialState) h := by
    rintro h ⟨m, hm⟩
    cases hm
  have hwaits : ∀ {es h}, ¬ Waits (System.start initialState) es h := by
    rintro es h ⟨m, hm, -⟩
    cases hm
  refine ⟨⟨fun _ => [], ?_⟩, List.nodup_nil, fun es hes => absurd hes List.not_mem_nil⟩
  exact {
    handlers := fun hm => absurd ⟨_, hm⟩ hdead
    groups_nodup := List.nodup_nil
    groups_iff := fun h => iff_of_false List.not_mem_nil hdead
    fresh := fun hl => absurd hl hdead
    stack_live := fun hst h hh => by
      rw [← (hstack hst).2] at hh
      exact absurd hh List.not_mem_nil
    nested := fun hst h rest hsuffix => by
      rw [← (hstack hst).2] at hsuffix
      exact absurd (List.suffix_nil.1 hsuffix) (List.cons_ne_nil h rest)
    paused_nodup := List.nodup_nil
    paused_iff := fun es => iff_of_false List.not_mem_nil fun hex => hex.elim fun _ => hwaits
    waits_unique := fun hw => absurd hw hwaits
    closing_iff := fun es => iff_of_false (Finset.notMem_empty es) List.not_mem_nil
    added_nodup := List.nodup_nil
    added_live := fun es hes => absurd hes List.not_mem_nil
    base_iff := fun es => by
      show es ∈ ({initialState} : Finset ℕ) ↔ _
      rw [Finset.mem_singleton]
      constructor
      · rintro rfl
        exact ⟨⟨[], by simp [System.start]⟩, List.not_mem_nil, List.not_mem_nil, List.not_mem_nil⟩
      · rintro ⟨⟨stack, hst⟩, -⟩
        exact (hstack hst).1 }

/-- **One action.**  No assertion fails, and the books are kept. -/
theorem Inv.step (hs : Inv s) {a : Action} (ha : s.Allowed a) : ∃ s', s.step a = some s' ∧ Inv s' := by
  obtain ⟨outer, hb⟩ := hs.books
  cases a with
  | execute es instructions =>
    exact ⟨_, rfl, ⟨outer, { hb with }⟩, hs.removed_nodup, hs.removed_base⟩
  | openMerge es =>
    obtain ⟨stack, hstack⟩ := ha.live
    obtain ⟨s', hrun, hb', hremoved, hbase⟩ := handleOpenMerge_spec hb hstack ha.not_paused
    refine ⟨s', hrun, ⟨_, hb'⟩, ?_, ?_⟩
    · rw [hremoved]
      exact hs.removed_nodup
    · rw [hremoved, hbase]
      exact hs.removed_base
  | closeMerge merge es mp => exact hs.handleCloseMerge ha.1 ha.2
  | branch es falseState =>
    obtain ⟨stack, hstack⟩ := ha.1.live
    obtain ⟨s', hrun, hb', hremoved, hbase⟩ := branch_spec hb hstack ha.2
    refine ⟨s', hrun, ⟨_, hb'⟩, ?_, ?_⟩
    · rw [hremoved]
      exact hs.removed_nodup
    · rw [hremoved, hbase]
      exact hs.removed_base
  | terminateState es => exact hs.terminateState ha
  | updateStates current => exact hs.updateStates ha
  | selectState useIncompleteMerge select =>
    obtain ⟨hadded, ⟨es, hlive⟩, hselect⟩ := ha
    obtain ⟨x, s', hrun, hinv, -⟩ := hs.selectState useIncompleteMerge hadded hlive hselect
    refine ⟨s', ?_, hinv⟩
    show (s.selectState useIncompleteMerge select).map Prod.snd = some s'
    rw [hrun]
    rfl

/-- The books are kept along a run. -/
theorem run_inv {initialState : ℕ} (h : Run System.step System.Allowed (System.start initialState) s) : Inv s := by
  refine h.invariant (fun t a u ht ha hstep => ?_) (start_inv initialState)
  obtain ⟨u', hstep', hinv⟩ := ht.step ha
  obtain rfl := Option.some.inj (hstep.symm.trans hstep')
  exact hinv

/-- What can be seen of the books. -/
structure Tidy (s : System) : Prop where
  waits_once : ∀ es, es ∈ s.pausedStates ↔ ∃! h, Waits s es h
  closing_iff : ∀ es, es ∈ s.inCloseMerge ↔ es ∈ s.pausedStates
  open_ne_nil : ∀ {h m}, s.mergeHandler h = some m → m.openStates ≠ [] ∧ m.refCount = m.openStates.length
  open_iff : ∀ {h m}, s.mergeHandler h = some m →
    ∀ es, es ∈ m.openStates ↔ ∃ stack, s.openMergeStack es = some stack ∧ h ∈ stack
  stack_live : ∀ {es stack}, s.openMergeStack es = some stack → stack.Nodup ∧ ∀ h ∈ stack, Live s h
  same_stack : ∀ {es mState h rest}, s.openMergeStack es = some (h :: rest) → Waits s mState h →
    s.openMergeStack mState = some rest
  base_iff : ∀ es, es ∈ s.baseSearcher ↔
    (∃ stack, s.openMergeStack es = some stack) ∧ es ∉ s.addedStates ∧ es ∉ s.pausedStates

theorem Inv.tidy (hs : Inv s) : Tidy s := by
  obtain ⟨outer, hb⟩ := hs.books
  exact {
    waits_once := fun es => by
      rw [hb.paused_iff]
      constructor
      · rintro ⟨h, hw⟩
        exact ⟨h, hw, fun h' hw' => hb.waits_unique hw' hw⟩
      · rintro ⟨h, hw, -⟩
        exact ⟨h, hw⟩
    closing_iff := hb.closing_iff
    open_ne_nil := fun {h m} hm => by
      have hrefs := (hb.handlers hm).refs
      have hpos := (hb.handlers hm).refs_pos
      rw [List.count_nil, Nat.add_zero] at hrefs
      refine ⟨fun hnil => ?_, hrefs⟩
      rw [hrefs, hnil] at hpos
      exact Nat.lt_irrefl 0 hpos
    open_iff := fun hm => (hb.handlers hm).open_iff
    stack_live := fun hstack => ⟨hb.stack_nodup hstack, hb.stack_live hstack⟩
    same_stack := fun {es mState h rest} hstack hw => by
      obtain ⟨m, hm, hin⟩ := hw
      rw [hb.nested hstack h rest (List.suffix_refl _)]
      exact (hb.handlers hm).waiting_stack mState hin
    base_iff := fun es => by
      rw [hb.base_iff]
      simp }

variable {initialState : ℕ}

/-- **The books of the merge handlers.**  In every run of opened and closed merges, forks, terminated states, updates and
selections no assertion fails; a paused state waits in exactly one handler, every handler that exists has an open state and one
reference for each, and the states that wait for a state to close the same merge hold the same handlers below it. -/
theorem run_tidy (h : Run System.step System.Allowed (System.start initialState) s) :
    Tidy s ∧ ∀ a, s.Allowed a → ∃ s', s.step a = some s' :=
  ⟨(run_inv h).tidy, fun _ ha => ((run_inv h).step ha).imp fun _ hstep => hstep.1⟩

/-- A state opens a merge and forks, the searcher is told, and the first of the two closes the merge. -/
def waitingActions : List Action :=
  [.openMerge 0, .branch 0 1, .updateStates (some 0), .closeMerge (fun _ _ => false) 0 5]

/-- The state after the first actions of a list. -/
def System.after (s : System) : List Action → System
  | [] => s
  | a :: rest => ((s.step a).getD s).after rest

/-- The first of the two states waits for the second. -/
theorem waiting_reached : Run System.step System.Allowed (System.start 0) ((System.start 0).after waitingActions) := by
  have hopen : Run System.step System.Allowed (System.start 0) ((System.start 0).after (waitingActions.take 1)) :=
    .single (a := .openMerge 0) ⟨⟨[], rfl⟩, List.not_mem_nil, List.not_mem_nil⟩ rfl
  have hbranch : Run System.step System.Allowed (System.start 0) ((System.start 0).after (waitingActions.take 2)) :=
    .step (.branch 0 1) hopen ⟨⟨⟨_, rfl⟩, List.not_mem_nil, List.not_mem_nil⟩, rfl⟩ rfl
  have hupdate : Run System.step System.Allowed (System.start 0) ((System.start 0).after (waitingActions.take 3)) :=
    .step (.updateStates (some 0)) hbranch (fun hex => hex.elim fun c hc => absurd hc.2 List.not_mem_nil) rfl
  exact .step (.closeMerge (fun _ _ => false) 0 5) hupdate
    ⟨⟨⟨_, rfl⟩, List.not_mem_nil, List.not_mem_nil⟩, List.not_mem_nil⟩ rfl

theorem run_tidy_waiting : Tidy ((System.start 0).after waitingActions) ∧
    0 ∈ ((System.start 0).after waitingActions).pausedStates :=
  ⟨(run_tidy waiting_reached).1, by decide⟩

/-- **Progress.**  Whatever waits, a selection finds a state that exists and is not paused, also when states are released on the
way. -/
theorem run_progress (h : Run System.step System.Allowed (System.start initialState) s) (hadded : s.addedStates = [])
    (hlive : ∃ es stack, s.openMergeStack es = some stack) (useIncompleteMerge : Bool) {select : Finset ℕ → Option ℕ}
    (hselect : ∀ base, base ≠ ∅ → ∃ x ∈ base, select base = some x) :
    ∃ x s', s.selectState useIncompleteMerge select = some (x, s') ∧ Tidy s' ∧ x ∈ s'.baseSearcher ∧
      x ∉ s'.pausedStates := by
  obtain ⟨es, hlive⟩ := hlive
  obtain ⟨x, s', hrun, hinv, hx⟩ := (run_inv h).selectState useIncompleteMerge hadded hlive hselect
  exact ⟨x, s', hrun, hinv.tidy, hx, ((hinv.tidy.base_iff x).1 hx).2.2⟩

/-- The searcher below selects the least of its states. -/
theorem min_mem (base : Finset ℕ) (hne : base ≠ ∅) : ∃ x ∈ base, (base.sort fun a b => a ≤ b).head? = some x := by
  cases hsort : base.sort fun a b => a ≤ b with
  | nil =>
    obtain ⟨x, hx⟩ := Finset.nonempty_of_ne_empty hne
    rw [← Finset.mem_sort (fun a b => a ≤ b), hsort] at hx
    exact absurd hx List.not_mem_nil
  | cons x rest =>
    refine ⟨x, ?_, rfl⟩
    rw [← Finset.mem_sort (fun a b => a ≤ b), hsort]
    exact List.mem_cons_self

theorem run_progress_waiting : ∃ x s', ((System.start 0).after waitingActions).selectState true
    (fun base => (base.sort fun a b => a ≤ b).head?) = some (x, s') ∧ Tidy s' ∧ x ∈ s'.baseSearcher ∧ x ∉ s'.pausedStates :=
  run_progress waiting_reached rfl ⟨1, _, rfl⟩ true min_mem

end KleeMerge

end SymBisect
