import SymBisect.Core.MergeHandler
import Mathlib.Data.List.Nodup

/-!
# The books of the merge handlers

What the merge handlers, the merge stacks of the states and the searcher know of each other.

* `Books`: a handler lives as long as a state is open in it, a paused state waits in exactly one live handler, and every state that
  holds a handler holds the same handlers below it.
* `unref_spec`: the last reference to a handler releases the states that wait in it.
* `deleteState_spec`: a state that is deleted leaves its handlers.
-/

namespace SymBisect

namespace KleeMerge

/-! ### The books -/

/-- A handler `h`, with `outer` the handlers below it in a stack; `pending` are the references of stacks that are being
destroyed. -/
structure HandlerBooks (outer : ℕ → List ℕ) (pending : List ℕ) (stackOf : ℕ → Option (List ℕ)) (h : ℕ) (m : MergeHandler) :
    Prop where
  open_nodup : m.openStates.Nodup
  open_iff : ∀ es, es ∈ m.openStates ↔ ∃ stack, stackOf es = some stack ∧ h ∈ stack
  refs : m.refCount = m.openStates.length + pending.count h
  refs_pos : 0 < m.refCount
  outer_lt : ∀ g ∈ outer h, g < h
  waiting_nodup : m.waiting.Nodup
  waiting_stack : ∀ es ∈ m.waiting, stackOf es = some (outer h)
  groups_ne_nil : ∀ group ∈ m.reachedCloseMerge, group.2 ≠ []

/-- A handler that exists. -/
def Live (s : System) (h : ℕ) : Prop := ∃ m, s.mergeHandler h = some m

/-- A state waits in a handler. -/
def Waits (s : System) (es h : ℕ) : Prop := ∃ m, s.mergeHandler h = some m ∧ es ∈ m.waiting

/-- The books of the system; `doomed` are the states that the searcher was told to forget and that are about to be deleted. -/
structure Books (outer : ℕ → List ℕ) (pending doomed : List ℕ) (s : System) : Prop where
  handlers : ∀ {h m}, s.mergeHandler h = some m → HandlerBooks outer pending s.openMergeStack h m
  groups_nodup : s.mergeGroups.Nodup
  groups_iff : ∀ h, h ∈ s.mergeGroups ↔ Live s h
  fresh : ∀ {h}, Live s h → h < s.nextHandler
  stack_live : ∀ {es stack}, s.openMergeStack es = some stack → ∀ h ∈ stack, Live s h
  nested : ∀ {es stack}, s.openMergeStack es = some stack → ∀ h rest, h :: rest <:+ stack → rest = outer h
  paused_nodup : s.pausedStates.Nodup
  paused_iff : ∀ es, es ∈ s.pausedStates ↔ ∃ h, Waits s es h
  waits_unique : ∀ {es h h'}, Waits s es h → Waits s es h' → h = h'
  closing_iff : ∀ es, es ∈ s.inCloseMerge ↔ es ∈ s.pausedStates
  added_nodup : s.addedStates.Nodup
  added_live : ∀ es ∈ s.addedStates, (∃ stack, s.openMergeStack es = some stack) ∧ es ∉ s.pausedStates
  base_iff : ∀ es, es ∈ s.baseSearcher ↔
    (∃ stack, s.openMergeStack es = some stack) ∧ es ∉ s.addedStates ∧ es ∉ s.pausedStates ∧ es ∉ doomed

variable {outer : ℕ → List ℕ} {pending doomed : List ℕ} {s s' : System} {es h mp : ℕ} {m m' : MergeHandler}
  {stack : List ℕ}

namespace Books

/-- A state that waits is paused. -/
theorem waits_paused (hs : Books outer pending doomed s) (hm : s.mergeHandler h = some m) (hes : es ∈ m.waiting) :
    es ∈ s.pausedStates := (hs.paused_iff es).2 ⟨h, m, hm, hes⟩

/-- A paused state exists. -/
theorem paused_live (hs : Books outer pending doomed s) (hes : es ∈ s.pausedStates) :
    ∃ stack, s.openMergeStack es = some stack := by
  obtain ⟨h, m, hm, hw⟩ := (hs.paused_iff es).1 hes
  exact ⟨_, (hs.handlers hm).waiting_stack es hw⟩

/-- No handler is twice in a stack. -/
theorem stack_nodup (hs : Books outer pending doomed s) (hstack : s.openMergeStack es = some stack) : stack.Nodup := by
  have hsuffix : ∀ rest : List ℕ, rest <:+ stack → rest.Nodup := by
    intro rest
    induction rest with
    | nil => exact fun _ => List.nodup_nil
    | cons h rest ih =>
      intro hle
      refine List.nodup_cons.2 ⟨fun hmem => ?_, ih ((List.suffix_cons h rest).trans hle)⟩
      obtain ⟨l, r, hlr⟩ := List.append_of_mem hmem
      have hin : h :: r <:+ stack := by
        refine List.IsSuffix.trans ?_ hle
        rw [hlr]
        exact (List.suffix_append l (h :: r)).trans (List.suffix_cons h _)
      have hr : r = rest := (hs.nested hstack h r hin).trans (hs.nested hstack h rest hle).symm
      have hlen := congrArg List.length hlr
      rw [hr] at hlen
      simp at hlen
      omega
  exact hsuffix stack (List.suffix_refl stack)

end Books

/-! ### Writing one handler -/

theorem setHandler_self {o : Option MergeHandler} : (s.setHandler h o).mergeHandler h = o := Function.update_self ..

theorem setHandler_of_ne {o : Option MergeHandler} {g : ℕ} (hne : g ≠ h) :
    (s.setHandler h o).mergeHandler g = s.mergeHandler g := Function.update_of_ne hne ..

/-- The handlers after one of them was written. -/
theorem setHandler_cases {o : Option MergeHandler} {g : ℕ} {n : MergeHandler}
    (hg : (s.setHandler h o).mergeHandler g = some n) : (g = h ∧ o = some n) ∨ (g ≠ h ∧ s.mergeHandler g = some n) := by
  by_cases heq : g = h
  · subst heq
    exact .inl ⟨rfl, setHandler_self.symm.trans hg⟩
  · exact .inr ⟨heq, (setHandler_of_ne heq).symm.trans hg⟩

/-- The same handlers exist after a handler was written. -/
theorem live_setHandler (hm : s.mergeHandler h = some m) {g : ℕ} : Live (s.setHandler h (some m')) g ↔ Live s g := by
  by_cases heq : g = h
  · subst heq
    exact iff_of_true ⟨m', setHandler_self⟩ ⟨m, hm⟩
  · show (∃ n, (s.setHandler h (some m')).mergeHandler g = some n) ↔ _
    rw [setHandler_of_ne heq]
    exact Iff.rfl

/-- Who waits after a handler was written. -/
theorem waits_setHandler {g : ℕ} :
    Waits (s.setHandler h (some m')) es g ↔ (g = h ∧ es ∈ m'.waiting) ∨ (g ≠ h ∧ Waits s es g) := by
  by_cases heq : g = h
  · subst heq
    show (∃ n, (s.setHandler g (some m')).mergeHandler g = some n ∧ es ∈ n.waiting) ↔ _
    rw [setHandler_self]
    simp
  · show (∃ n, (s.setHandler h (some m')).mergeHandler g = some n ∧ es ∈ n.waiting) ↔ _
    rw [setHandler_of_ne heq]
    simp [heq, Waits]

/-- Who waits does not change when a handler is written for which the same states wait. -/
theorem waits_setHandler_same (hm : s.mergeHandler h = some m) (hw : m'.waiting = m.waiting) {g : ℕ} :
    Waits (s.setHandler h (some m')) es g ↔ Waits s es g := by
  rw [waits_setHandler, hw]
  by_cases heq : g = h
  · subst heq
    simp [Waits, hm]
  · simp [heq]

/-- A handler is written for which the same states wait. -/
theorem Books.setHandler {pending' : List ℕ} (m' : MergeHandler) (hs : Books outer pending doomed s) (hm : s.mergeHandler h = some m)
    (hw : m'.waiting = m.waiting) (hb : HandlerBooks outer pending' s.openMergeStack h m')
    (hpending : ∀ g ≠ h, pending'.count g = pending.count g) : Books outer pending' doomed (s.setHandler h (some m')) :=
  { hs with
    handlers := fun {g n} hg => by
      obtain ⟨rfl, heq⟩ | ⟨hne, hg⟩ := setHandler_cases hg
      · exact Option.some.inj heq ▸ hb
      · exact { hs.handlers hg with refs := by rw [hpending g hne, (hs.handlers hg).refs] }
    groups_iff := fun g => (hs.groups_iff g).trans (live_setHandler hm).symm
    fresh := fun hg => hs.fresh ((live_setHandler hm).1 hg)
    stack_live := fun hst g hg => (live_setHandler hm).2 (hs.stack_live hst g hg)
    paused_iff := fun es => (hs.paused_iff es).trans (exists_congr fun _ => (waits_setHandler_same hm hw).symm)
    waits_unique := fun hg hg' => hs.waits_unique ((waits_setHandler_same hm hw).1 hg) ((waits_setHandler_same hm hw).1 hg') }

/-! ### The searcher -/

section Searcher

/-- An update is possible when it fits the states of the searcher. -/
theorem updateBase_eq (base : Finset ℕ) {addedStates removedStates : List ℕ} (hadded : addedStates.Nodup)
    (hnew : ∀ x ∈ addedStates, x ∉ base) (hremoved : removedStates.Nodup)
    (hheld : ∀ x ∈ removedStates, x ∈ base ∨ x ∈ addedStates) :
    updateBase base addedStates removedStates = some ((base ∪ addedStates.toFinset) \ removedStates.toFinset) :=
  if_pos ⟨hadded, hnew, hremoved, hheld⟩

theorem pauseState_eq (hpaused : es ∉ s.pausedStates) (hbase : es ∈ s.baseSearcher) :
    s.pauseState es =
      some { s with baseSearcher := s.baseSearcher.erase es, pausedStates := s.pausedStates ++ [es] } := by
  have hrun := updateBase_eq s.baseSearcher List.nodup_nil (fun x hx => absurd hx List.not_mem_nil)
    (List.nodup_singleton es) fun x hx => .inl (List.mem_singleton.1 hx ▸ hbase)
  have hset : (s.baseSearcher ∪ ([] : List ℕ).toFinset) \ [es].toFinset = s.baseSearcher.erase es := by
    ext x
    simp [and_comm]
  unfold System.pauseState
  rw [if_neg hpaused, hrun, hset]
  rfl

theorem continueState_eq (hpaused : es ∈ s.pausedStates) (hbase : es ∉ s.baseSearcher) :
    s.continueState es =
      some { s with baseSearcher := insert es s.baseSearcher, pausedStates := s.pausedStates.erase es } := by
  have hrun := updateBase_eq s.baseSearcher (List.nodup_singleton es)
    (fun x hx => List.mem_singleton.1 hx ▸ hbase) List.nodup_nil fun x hx => absurd hx List.not_mem_nil
  have hset : (s.baseSearcher ∪ [es].toFinset) \ ([] : List ℕ).toFinset = insert es s.baseSearcher := by
    ext x
    simp
  unfold System.continueState
  rw [if_pos hpaused, hrun, hset]
  rfl

/-- Several paused states are continued. -/
theorem releaseEach_eq (states : List ℕ) : ∀ s : System, states.Nodup → (∀ es ∈ states, es ∈ s.pausedStates) →
    (∀ es ∈ states, es ∉ s.baseSearcher) → s.pausedStates.Nodup →
    System.releaseEach states s = some { s with
      baseSearcher := s.baseSearcher ∪ states.toFinset
      pausedStates := s.pausedStates.diff states
      inCloseMerge := s.inCloseMerge \ states.toFinset } := by
  induction states with
  | nil =>
    intro s _ _ _ _
    simp [System.releaseEach]
  | cons es rest ih =>
    intro s hnodup hpaused hbase hnd
    obtain ⟨hnot, hrest⟩ := List.nodup_cons.1 hnodup
    have hne : ∀ x ∈ rest, x ≠ es := fun x hx heq => hnot (heq ▸ hx)
    show (s.continueState es).bind _ = _
    rw [continueState_eq (hpaused es List.mem_cons_self) (hbase es List.mem_cons_self)]
    show System.releaseEach rest _ = _
    rw [ih _ hrest (fun x hx => (hnd.mem_erase_iff).2 ⟨hne x hx, hpaused x (List.mem_cons_of_mem _ hx)⟩)
      (fun x hx hin => (Finset.mem_insert.1 hin).elim (hne x hx) (hbase x (List.mem_cons_of_mem _ hx)))
      (hnd.erase es)]
    have hbases : insert es s.baseSearcher ∪ rest.toFinset = s.baseSearcher ∪ (es :: rest).toFinset := by
      ext x
      simp only [Finset.mem_union, Finset.mem_insert, List.mem_toFinset, List.mem_cons]
      tauto
    have hclosing : s.inCloseMerge.erase es \ rest.toFinset = s.inCloseMerge \ (es :: rest).toFinset := by
      ext x
      simp only [Finset.mem_sdiff, Finset.mem_erase, List.mem_toFinset, List.mem_cons]
      tauto
    simp only [hbases, hclosing, List.diff_cons]

/-- The states of a handler are continued, and the handler has none. -/
def System.released (s : System) (h : ℕ) (m : MergeHandler) : System :=
  { s.setHandler h (some { m with reachedCloseMerge := [] }) with
    baseSearcher := s.baseSearcher ∪ m.waiting.toFinset
    pausedStates := s.pausedStates.diff m.waiting
    inCloseMerge := s.inCloseMerge \ m.waiting.toFinset }

theorem releaseStates_eq (hs : Books outer pending doomed s) (hm : s.mergeHandler h = some m) :
    s.releaseStates h = some (s.released h m) := by
  have hpaused : ∀ es ∈ m.waiting, es ∈ s.pausedStates := fun es hes => hs.waits_paused hm hes
  unfold System.releaseStates
  rw [hm]
  show (System.releaseEach m.waiting s).bind _ = _
  rw [releaseEach_eq m.waiting s (hs.handlers hm).waiting_nodup hpaused
    (fun es hes hin => ((hs.base_iff es).1 hin).2.2.1 (hpaused es hes)) hs.paused_nodup]
  rfl

end Searcher

/-! ### Releasing the states of a handler -/

/-- What a handler waits for does not matter to its states. -/
theorem HandlerBooks.clear (hm : HandlerBooks outer pending s.openMergeStack h m) :
    HandlerBooks outer pending s.openMergeStack h { m with reachedCloseMerge := [] } :=
  { hm with
    waiting_nodup := List.nodup_nil
    waiting_stack := fun _ hes => absurd hes List.not_mem_nil
    groups_ne_nil := fun _ hg => absurd hg List.not_mem_nil }

theorem mem_released_paused (hs : Books outer pending doomed s) :
    es ∈ (s.released h m).pausedStates ↔ es ∈ s.pausedStates ∧ es ∉ m.waiting :=
  hs.paused_nodup.mem_sdiff_iff

/-- The other handlers keep their states. -/
theorem waits_released {g : ℕ} : Waits (s.released h m) es g ↔ g ≠ h ∧ Waits s es g := by
  have hset : Waits (s.released h m) es g ↔ Waits (s.setHandler h (some { m with reachedCloseMerge := [] })) es g := Iff.rfl
  rw [hset, waits_setHandler]
  simp [MergeHandler.waiting]

/-- The states that waited in a handler are released. -/
theorem Books.release (hs : Books outer pending doomed s) (hm : s.mergeHandler h = some m)
    (hdoomed : ∀ es ∈ m.waiting, es ∉ doomed) : Books outer pending doomed (s.released h m) :=
  { hs with
    handlers := fun {g n} hg => by
      obtain ⟨rfl, heq⟩ | ⟨-, hg⟩ := setHandler_cases hg
      · exact Option.some.inj heq ▸ (hs.handlers hm).clear
      · exact hs.handlers hg
    groups_iff := fun g => (hs.groups_iff g).trans (live_setHandler hm).symm
    fresh := fun hg => hs.fresh ((live_setHandler hm).1 hg)
    stack_live := fun hst g hg => (live_setHandler hm).2 (hs.stack_live hst g hg)
    paused_nodup := hs.paused_nodup.diff
    paused_iff := fun es => by
      rw [mem_released_paused hs, hs.paused_iff]
      constructor
      · rintro ⟨⟨g, hg⟩, hnot⟩
        refine ⟨g, waits_released.2 ⟨?_, hg⟩⟩
        rintro rfl
        obtain ⟨n, hn, hes⟩ := hg
        exact hnot (Option.some.inj (hm.symm.trans hn) ▸ hes)
      · rintro ⟨g, hg⟩
        obtain ⟨hne, hg⟩ := waits_released.1 hg
        exact ⟨⟨g, hg⟩, fun hw => hne (hs.waits_unique hg ⟨m, hm, hw⟩)⟩
    waits_unique := fun hg hg' => hs.waits_unique (waits_released.1 hg).2 (waits_released.1 hg').2
    closing_iff := fun es => by
      rw [mem_released_paused hs, ← hs.closing_iff]
      show es ∈ s.inCloseMerge \ m.waiting.toFinset ↔ _
      rw [Finset.mem_sdiff, List.mem_toFinset]
    added_live := fun es hes => ⟨(hs.added_live es hes).1, fun hin =>
      (hs.added_live es hes).2 ((mem_released_paused hs).1 hin).1⟩
    base_iff := fun es => by
      rw [mem_released_paused hs]
      show es ∈ s.baseSearcher ∪ m.waiting.toFinset ↔ _
      rw [Finset.mem_union, List.mem_toFinset, hs.base_iff]
      by_cases hes : es ∈ m.waiting
      · have hp := hs.waits_paused hm hes
        refine iff_of_true (.inr hes) ⟨hs.paused_live hp, fun hadd => (hs.added_live es hadd).2 hp, fun hin => hin.2 hes,
          hdoomed es hes⟩
      · simp [hes, System.released, System.setHandler] }

/-! ### References -/

/-- A handler that no state holds and where none waits is deleted. -/
theorem Books.drop (hs : Books outer (h :: pending) doomed s) (hm : s.mergeHandler h = some m) (hopen : m.openStates = [])
    (hwaiting : m.waiting = []) :
    Books outer pending doomed { s.setHandler h none with mergeGroups := swapErase s.mergeGroups h } := by
  have hperm := swapErase_perm ((hs.groups_iff h).2 ⟨m, hm⟩)
  have hother : ∀ {g n}, (s.setHandler h none).mergeHandler g = some n → g ≠ h ∧ s.mergeHandler g = some n := by
    intro g n hg
    obtain ⟨-, heq⟩ | hg := setHandler_cases hg
    · cases heq
    · exact hg
  have hlive : ∀ {g}, Live (s.setHandler h none) g ↔ g ≠ h ∧ Live s g := by
    intro g
    constructor
    · rintro ⟨n, hn⟩
      exact ⟨(hother hn).1, n, (hother hn).2⟩
    · rintro ⟨hne, n, hn⟩
      exact ⟨n, (setHandler_of_ne hne).trans hn⟩
  have hwaits : ∀ {es g}, Waits (s.setHandler h none) es g ↔ Waits s es g := by
    intro es g
    constructor
    · rintro ⟨n, hn, hes⟩
      exact ⟨n, (hother hn).2, hes⟩
    · rintro ⟨n, hn, hes⟩
      refine ⟨n, (setHandler_of_ne ?_).trans hn, hes⟩
      rintro rfl
      rw [← Option.some.inj (hm.symm.trans hn), hwaiting] at hes
      exact List.not_mem_nil hes
  exact { hs with
    handlers := fun {g n} hg => by
      obtain ⟨hne, hg⟩ := hother hg
      have hrefs := (hs.handlers hg).refs
      rw [List.count_cons_of_ne hne.symm] at hrefs
      exact { hs.handlers hg with refs := hrefs }
    groups_nodup := hperm.nodup_iff.2 (hs.groups_nodup.erase h)
    groups_iff := fun g => by
      rw [hperm.mem_iff, hs.groups_nodup.mem_erase_iff, hs.groups_iff]
      exact hlive.symm
    fresh := fun hg => hs.fresh (hlive.1 hg).2
    stack_live := fun {es stack} hst g hg => hlive.2 ⟨by
      rintro rfl
      have hin := ((hs.handlers hm).open_iff es).2 ⟨stack, hst, hg⟩
      rw [hopen] at hin
      exact List.not_mem_nil hin, hs.stack_live hst g hg⟩
    paused_iff := fun es => (hs.paused_iff es).trans (exists_congr fun _ => hwaits.symm)
    waits_unique := fun hg hg' => hs.waits_unique (hwaits.1 hg) (hwaits.1 hg') }

/-- What the calls on handlers leave alone. -/
structure Kept (s s' : System) : Prop where
  stack : s'.openMergeStack = s.openMergeStack
  added : s'.addedStates = s.addedStates
  removed : s'.removedStates = s.removedStates
  base : s.baseSearcher ⊆ s'.baseSearcher
  paused : ∀ es ∈ s'.pausedStates, es ∈ s.pausedStates

theorem Kept.trans {t u : System} (h : Kept s t) (h' : Kept t u) : Kept s u :=
  ⟨h'.stack.trans h.stack, h'.added.trans h.added, h'.removed.trans h.removed,
    h.base.trans h'.base, fun es hes => h.paused es (h'.paused es hes)⟩

/-- The states that are about to be deleted are not paused. -/
def Awake (doomed : List ℕ) (s : System) : Prop := ∀ es ∈ doomed, es ∉ s.pausedStates

theorem Awake.of_waiting (hd : Awake doomed s) (hs : Books outer pending doomed s)
    (hm : s.mergeHandler h = some m) : ∀ es ∈ m.waiting, es ∉ doomed :=
  fun es hes hin => hd es hin (hs.waits_paused hm hes)

theorem Awake.kept (hd : Awake doomed s) (hk : Kept s s') : Awake doomed s' :=
  fun es hes hin => hd es hes (hk.paused es hin)

/-- The destructor of a handler, when its last reference is gone. -/
theorem destroyHandler_eq (hs : Books outer pending doomed s) (hm : s.mergeHandler h = some m) :
    (s.setHandler h (some { m with refCount := 0 })).destroyHandler h =
      some { (s.released h m).setHandler h none with mergeGroups := swapErase s.mergeGroups h } := by
  have hpaused : ∀ es ∈ m.waiting, es ∈ s.pausedStates := fun es hes => hs.waits_paused hm hes
  unfold System.destroyHandler
  rw [if_pos (show h ∈ (s.setHandler h (some { m with refCount := 0 })).mergeGroups from (hs.groups_iff h).2 ⟨m, hm⟩)]
  have heach := releaseEach_eq m.waiting
    { s.setHandler h (some { m with refCount := 0 }) with mergeGroups := swapErase s.mergeGroups h }
    (hs.handlers hm).waiting_nodup hpaused (fun es hes hin => ((hs.base_iff es).1 hin).2.2.1 (hpaused es hes))
    hs.paused_nodup
  have hself : (s.setHandler h (some { m with refCount := 0 })).mergeHandler h = some { m with refCount := 0 } :=
    setHandler_self
  unfold System.releaseStates
  show (((s.setHandler h (some { m with refCount := 0 })).mergeHandler h).bind _).bind _ = _
  rw [hself]
  refine (congrArg (fun o : Option System => (o.bind fun t => some (t.setHandler h
    (some { m with refCount := 0, reachedCloseMerge := [] }))).bind fun t => some (t.setHandler h none)) heach).trans ?_
  simp [System.setHandler, System.released]

/-- A pending reference goes; with the last one the handler is destroyed and releases its states. -/
theorem unref_spec (hs : Books outer (h :: pending) doomed s) (hd : Awake doomed s) (hlive : Live s h) :
    ∃ s', s.unref h = some s' ∧ Books outer pending doomed s' ∧ Kept s s' ∧ ∀ g ≠ h, Live s g → Live s' g := by
  obtain ⟨m, hm⟩ := hlive
  have hb := hs.handlers hm
  have hrefs := hb.refs
  rw [List.count_cons_self] at hrefs
  have hrun : s.unref h = if m.refCount - 1 = 0 then
      (s.setHandler h (some { m with refCount := m.refCount - 1 })).destroyHandler h
      else some (s.setHandler h (some { m with refCount := m.refCount - 1 })) := by
    unfold System.unref
    rw [hm]
    rfl
  by_cases hzero : m.refCount - 1 = 0
  · -- the last reference: no state is open, and those that wait are released
    have hopen : m.openStates = [] := List.eq_nil_of_length_eq_zero (by omega)
    have hreleased := hs.release hm (hd.of_waiting hs hm)
    refine ⟨_, ?_, hreleased.drop setHandler_self hopen rfl, ⟨rfl, rfl, rfl, Finset.subset_union_left,
      fun _ hes => ((mem_released_paused (h := h) hs).1 hes).1⟩, fun g hne hg => ?_⟩
    · rw [hrun, if_pos hzero, hzero]
      exact destroyHandler_eq hs hm
    · obtain ⟨n, hn⟩ := hg
      exact ⟨n, (setHandler_of_ne (s := s.released h m) hne).trans ((setHandler_of_ne hne).trans hn)⟩
  · refine ⟨s.setHandler h (some { m with refCount := m.refCount - 1 }), by rw [hrun, if_neg hzero], ?_, ⟨rfl, rfl, rfl, Finset.Subset.refl _, fun _ hes => hes⟩,
      fun g _ hg => (live_setHandler hm).2 hg⟩
    refine hs.setHandler { m with refCount := m.refCount - 1 } hm rfl ?_ fun g hne => ?_
    · exact { hb with
        refs := by
          show m.refCount - 1 = m.openStates.length + pending.count h
          omega
        refs_pos := by
          show 0 < m.refCount - 1
          omega }
    · rw [List.count_cons_of_ne hne.symm]

/-- The references of a stack go. -/
theorem unrefEach_spec (stack : List ℕ) : ∀ {s : System}, Books outer stack doomed s → Awake doomed s → stack.Nodup →
    (∀ h ∈ stack, Live s h) → ∃ s', System.unrefEach stack s = some s' ∧ Books outer [] doomed s' ∧ Kept s s' := by
  induction stack with
  | nil =>
    intro s hs _ _ _
    exact ⟨s, rfl, hs, rfl, rfl, rfl, Finset.Subset.refl _, fun _ hes => hes⟩
  | cons h rest ih =>
    intro s hs hd hnodup hlive
    obtain ⟨hnot, hrest⟩ := List.nodup_cons.1 hnodup
    obtain ⟨t, hrun, ht, hk, hlive'⟩ := unref_spec hs hd (hlive h List.mem_cons_self)
    obtain ⟨u, hrun', hu, hk'⟩ := ih ht (hd.kept hk) hrest fun g hg =>
      hlive' g (fun heq => hnot (heq ▸ hg)) (hlive g (List.mem_cons_of_mem _ hg))
    refine ⟨u, ?_, hu, hk.trans hk'⟩
    show (s.unref h).bind _ = _
    rw [hrun]
    exact hrun'

/-! ### Calls on the handlers of a stack -/

/-- The handlers of a stack are changed. -/
def System.mapHandlers (s : System) (hs : List ℕ) (f : MergeHandler → MergeHandler) : System :=
  { s with mergeHandler := fun h => if h ∈ hs then (s.mergeHandler h).map f else s.mergeHandler h }

theorem updateHandlers_eq {f : MergeHandler → Option MergeHandler} {f' : MergeHandler → MergeHandler} (hs : List ℕ) :
    ∀ s : System, hs.Nodup → (∀ h ∈ hs, ∃ m, s.mergeHandler h = some m ∧ f m = some (f' m)) →
      System.updateHandlers f hs s = some (s.mapHandlers hs f') := by
  induction hs with
  | nil =>
    intro s _ _
    simp [System.updateHandlers, System.mapHandlers]
  | cons h rest ih =>
    intro s hnodup hf
    obtain ⟨hnot, hrest⟩ := List.nodup_cons.1 hnodup
    obtain ⟨m, hm, hfm⟩ := hf h List.mem_cons_self
    have hne : ∀ g ∈ rest, g ≠ h := fun g hg heq => hnot (heq ▸ hg)
    show ((s.mergeHandler h).bind fun m => (f m).bind _) = _
    rw [hm]
    show (f m).bind _ = _
    rw [hfm]
    show System.updateHandlers f rest (s.setHandler h (some (f' m))) = _
    rw [ih _ hrest fun g hg => by
      rw [setHandler_of_ne (hne g hg)]
      exact hf g (List.mem_cons_of_mem _ hg)]
    have hmaps : (fun g => if g ∈ rest then ((s.setHandler h (some (f' m))).mergeHandler g).map f'
        else (s.setHandler h (some (f' m))).mergeHandler g) =
        fun g => if g ∈ h :: rest then (s.mergeHandler g).map f' else s.mergeHandler g := by
      funext g
      by_cases heq : g = h
      · subst heq
        rw [if_neg hnot, setHandler_self, if_pos List.mem_cons_self, hm]
        rfl
      · rw [setHandler_of_ne heq]
        simp [heq]
    simp only [System.mapHandlers, hmaps]
    rfl

section

variable {hs : List ℕ} {f : MergeHandler → MergeHandler}

theorem mapHandlers_eq_some {g : ℕ} {n : MergeHandler} (hg : (s.mapHandlers hs f).mergeHandler g = some n) :
    ∃ m, s.mergeHandler g = some m ∧ n = if g ∈ hs then f m else m := by
  have hg : (if g ∈ hs then (s.mergeHandler g).map f else s.mergeHandler g) = some n := hg
  by_cases hin : g ∈ hs
  · rw [if_pos hin] at hg
    obtain ⟨m, hm, rfl⟩ := Option.map_eq_some_iff.1 hg
    exact ⟨m, hm, (if_pos hin).symm⟩
  · rw [if_neg hin] at hg
    exact ⟨n, hg, (if_neg hin).symm⟩

theorem mapHandlers_of_some {g : ℕ} (hm : s.mergeHandler g = some m) :
    (s.mapHandlers hs f).mergeHandler g = some (if g ∈ hs then f m else m) := by
  show (if g ∈ hs then (s.mergeHandler g).map f else s.mergeHandler g) = _
  rw [hm]
  by_cases hin : g ∈ hs
  · rw [if_pos hin, if_pos hin]
    rfl
  · rw [if_neg hin, if_neg hin]

theorem live_mapHandlers {g : ℕ} : Live (s.mapHandlers hs f) g ↔ Live s g := by
  constructor
  · rintro ⟨n, hn⟩
    obtain ⟨m, hm, -⟩ := mapHandlers_eq_some hn
    exact ⟨m, hm⟩
  · rintro ⟨m, hm⟩
    exact ⟨_, mapHandlers_of_some hm⟩

theorem waits_mapHandlers (hf : ∀ m, (f m).waiting = m.waiting) {g : ℕ} :
    Waits (s.mapHandlers hs f) es g ↔ Waits s es g := by
  have hif : ∀ m : MergeHandler, (if g ∈ hs then f m else m).waiting = m.waiting := by
    intro m
    by_cases hin : g ∈ hs
    · rw [if_pos hin, hf]
    · rw [if_neg hin]
  constructor
  · rintro ⟨n, hn, hes⟩
    obtain ⟨m, hm, rfl⟩ := mapHandlers_eq_some hn
    exact ⟨m, hm, hif m ▸ hes⟩
  · rintro ⟨m, hm, hes⟩
    exact ⟨_, mapHandlers_of_some hm, (hif m).symm ▸ hes⟩

end

/-! ### Deleting a state -/

/-- A handler that a state leaves. -/
def MergeHandler.without (m : MergeHandler) (es : ℕ) : MergeHandler := { m with openStates := swapErase m.openStates es }

theorem mem_without (hb : HandlerBooks outer pending s.openMergeStack h m) (hes : es ∈ m.openStates) {x : ℕ} :
    x ∈ (m.without es).openStates ↔ x ≠ es ∧ x ∈ m.openStates := by
  show x ∈ swapErase m.openStates es ↔ _
  rw [(swapErase_perm hes).mem_iff, hb.open_nodup.mem_erase_iff]

theorem length_without (hes : es ∈ m.openStates) : (m.without es).openStates.length + 1 = m.openStates.length := by
  show (swapErase m.openStates es).length + 1 = _
  rw [(swapErase_perm hes).length_eq, List.length_erase_of_mem hes]
  have hpos := List.length_pos_of_mem hes
  omega

/-- The stack of a state after one was written. -/
theorem setStack_eq_some {o : Option (List ℕ)} {x : ℕ} {st : List ℕ} (hx : (s.setStack es o).openMergeStack x = some st) :
    (x = es ∧ o = some st) ∨ (x ≠ es ∧ s.openMergeStack x = some st) := by
  by_cases heq : x = es
  · subst heq
    exact .inl ⟨rfl, by simpa [System.setStack] using hx⟩
  · exact .inr ⟨heq, by simpa [System.setStack, heq] using hx⟩

theorem setStack_self {o : Option (List ℕ)} : (s.setStack es o).openMergeStack es = o := Function.update_self ..

theorem setStack_of_ne {o : Option (List ℕ)} {x : ℕ} (hne : x ≠ es) :
    (s.setStack es o).openMergeStack x = s.openMergeStack x := Function.update_of_ne hne ..

/-- The handlers of its stack without a state, which is gone. -/
def System.left (s : System) (es : ℕ) (stack : List ℕ) : System :=
  (s.mapHandlers stack.reverse fun m => m.without es).setStack es none

/-- A state that is not paused leaves all handlers of its stack; the references of the stack are pending. -/
theorem Books.leave (hs : Books outer [] (es :: doomed) s) (hstack : s.openMergeStack es = some stack)
    (hpaused : es ∉ s.pausedStates) (hadded : es ∉ s.addedStates) :
    Books outer stack.reverse doomed (s.left es stack) := by
  have hnodup := hs.stack_nodup hstack
  have hlive : ∀ {x : ℕ} {st}, (s.left es stack).openMergeStack x = some st ↔
      x ≠ es ∧ s.openMergeStack x = some st := by
    intro x st
    constructor
    · intro hx
      obtain ⟨-, heq⟩ | hx := setStack_eq_some hx
      · cases heq
      · exact hx
    · rintro ⟨hne, hx⟩
      exact (setStack_of_ne hne).trans hx
  have hwaits : ∀ {x g : ℕ}, Waits (s.left es stack) x g ↔ Waits s x g :=
    waits_mapHandlers (f := fun m => m.without es) fun _ => rfl
  have hexists : ∀ x : ℕ, (∃ st, (s.left es stack).openMergeStack x =
      some st) ↔ x ≠ es ∧ ∃ st, s.openMergeStack x = some st := by
    intro x
    simp only [hlive, exists_and_left]
  exact { hs with
    handlers := fun {g n} hg => by
      obtain ⟨m, hm, rfl⟩ := mapHandlers_eq_some hg
      have hb := hs.handlers hm
      have hwaiting : ∀ x ∈ m.waiting, (s.left es stack).openMergeStack x =
          some (outer g) := by
        intro x hx
        refine hlive.2 ⟨?_, hb.waiting_stack x hx⟩
        rintro rfl
        exact hpaused (hs.waits_paused hm hx)
      by_cases hin : g ∈ stack
      · have hes : es ∈ m.openStates := (hb.open_iff es).2 ⟨stack, hstack, hin⟩
        rw [if_pos (List.mem_reverse.2 hin)]
        exact { hb with
          open_nodup := (swapErase_perm hes).nodup_iff.2 (hb.open_nodup.erase es)
          open_iff := fun x => by
            rw [mem_without hb hes, hb.open_iff]
            simp only [hlive]
            tauto
          refs := by
            have hlen := length_without hes
            have hrefs := hb.refs
            rw [List.count_nil] at hrefs
            rw [List.count_reverse, List.count_eq_one_of_mem hnodup hin]
            show m.refCount = _
            omega
          waiting_stack := hwaiting }
      · rw [if_neg fun h => hin (List.mem_reverse.1 h)]
        exact { hb with
          open_iff := fun x => by
            rw [hb.open_iff]
            simp only [hlive]
            constructor
            · rintro ⟨st, hst, hgst⟩
              refine ⟨st, ⟨?_, hst⟩, hgst⟩
              rintro rfl
              rw [Option.some.inj (hstack.symm.trans hst)] at hin
              exact hin hgst
            · rintro ⟨st, ⟨-, hst⟩, hgst⟩
              exact ⟨st, hst, hgst⟩
          refs := by
            rw [List.count_reverse, List.count_eq_zero_of_not_mem hin]
            exact hb.refs
          waiting_stack := hwaiting }
    groups_iff := fun g => (hs.groups_iff g).trans live_mapHandlers.symm
    fresh := fun hg => hs.fresh (live_mapHandlers.1 hg)
    stack_live := fun hst g hg => live_mapHandlers.2 (hs.stack_live (hlive.1 hst).2 g hg)
    nested := fun hst => hs.nested (hlive.1 hst).2
    paused_iff := fun x => (hs.paused_iff x).trans (exists_congr fun _ => hwaits.symm)
    waits_unique := fun hg hg' => hs.waits_unique (hwaits.1 hg) (hwaits.1 hg')
    added_live := fun x hx => ⟨(hexists x).2 ⟨fun heq => hadded (heq ▸ hx), (hs.added_live x hx).1⟩, (hs.added_live x hx).2⟩
    base_iff := fun x => by
      rw [hexists]
      refine (hs.base_iff x).trans ?_
      rw [List.mem_cons]
      tauto }

/-- A state is deleted that the searcher does not have. -/
theorem deleteState_spec (hs : Books outer [] (es :: doomed) s) (hd : Awake (es :: doomed) s)
    (hstack : s.openMergeStack es = some stack) (hadded : es ∉ s.addedStates) :
    ∃ s', s.deleteState es = some s' ∧ Books outer [] doomed s' ∧ Kept (s.setStack es none) s' := by
  have hleft := hs.leave hstack (hd es List.mem_cons_self) hadded
  have hreverse : stack.reverse.Nodup := List.nodup_reverse.2 (hs.stack_nodup hstack)
  have hremove : System.updateHandlers (fun m => m.removeOpenState es) stack.reverse s =
      some (s.mapHandlers stack.reverse fun m => m.without es) := by
    refine updateHandlers_eq _ s hreverse fun h hh => ?_
    have hh := List.mem_reverse.1 hh
    obtain ⟨m, hm⟩ := hs.stack_live hstack h hh
    exact ⟨m, hm, if_pos (((hs.handlers hm).open_iff es).2 ⟨stack, hstack, hh⟩)⟩
  obtain ⟨s', hrun, hs', hk⟩ := unrefEach_spec stack.reverse hleft (fun x hx => hd x (List.mem_cons_of_mem _ hx)) hreverse
    fun h hh => live_mapHandlers.2 (hs.stack_live hstack h (List.mem_reverse.1 hh))
  refine ⟨s', ?_, hs', hk.stack, hk.added, hk.removed, hk.base, hk.paused⟩
  unfold System.deleteState
  rw [hstack]
  show (System.updateHandlers (fun m => m.removeOpenState es) stack.reverse s).bind _ = _
  rw [hremove]
  exact hrun

/-- Removed states are deleted, one after the other. -/
theorem deleteEach_spec (states : List ℕ) : ∀ {s : System}, Books outer [] states s → Awake states s → states.Nodup →
    s.addedStates = [] → (∀ es ∈ states, ∃ stack, s.openMergeStack es = some stack) →
    ∃ s', System.deleteEach states s = some s' ∧ Books outer [] [] s' ∧ s'.addedStates = [] := by
  induction states with
  | nil =>
    intro s hs _ _ hadded _
    exact ⟨s, rfl, hs, hadded⟩
  | cons es rest ih =>
    intro s hs hd hnodup hadded hlive
    obtain ⟨hnot, hrest⟩ := List.nodup_cons.1 hnodup
    obtain ⟨stack, hstack⟩ := hlive es List.mem_cons_self
    have hnew : es ∉ s.addedStates := by
      rw [hadded]
      exact List.not_mem_nil
    obtain ⟨t, hrun, ht, hk⟩ := deleteState_spec hs hd hstack hnew
    obtain ⟨u, hrun', hu, hadded'⟩ := ih ht
      (fun x hx hin => hd x (List.mem_cons_of_mem _ hx) (hk.paused x hin)) hrest (hk.added.trans hadded) fun x hx => by
        have hne : x ≠ es := fun heq => hnot (heq ▸ hx)
        rw [hk.stack, setStack_of_ne hne]
        exact hlive x (List.mem_cons_of_mem _ hx)
    refine ⟨u, ?_, hu, hadded'⟩
    show (s.deleteState es).bind _ = _
    rw [hrun]
    exact hrun'

end KleeMerge

end SymBisect
