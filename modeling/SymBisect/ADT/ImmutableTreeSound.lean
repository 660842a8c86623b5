import Mathlib
import SymBisect.ADT.ImmutableTree

/-!
# The mutators of the persistent tree

Every mutator leaves the trees of all owners as they are and hands one reference to a new tree over; that tree is the balanced
search tree of the library with the same operation applied.

* `balance_spec`: the four rotations; the node that is taken apart is given up.
* `popMin_spec`, `popMax_spec`, `insert_spec`, `replace_spec`, `remove_spec`.
-/

namespace SymBisect

open Lib

namespace ImmutableTree

variable {K : Type*} {V : Type} [Inhabited V] {h : Heap V} {R : Multiset (PTree V)}

/-- A run that ends with a reference to a tree that is `t` without its addresses. -/
def Yields (R : Multiset (PTree V)) (run : Option (ℕ × Heap V)) (t : SlackTree V) : Prop :=
  ∃ T h', run = some (T.addr, h') ∧ Counted h' (T ::ₘ R) ∧ T.erase = t

/-- The second and the third owner change places. -/
theorem Counted.swap_inner {S T U : PTree V} (hc : Counted h (S ::ₘ T ::ₘ U ::ₘ R)) : Counted h (S ::ₘ U ::ₘ T ::ₘ R) := by
  rwa [Multiset.cons_swap T U] at hc

theorem newNode_yields {l r : PTree V} (hc : Counted h (l ::ₘ r ::ₘ R)) (v : V) :
    Yields R (Node.newNode l.addr r.addr v h) (.node l.erase v r.erase) := by
  obtain ⟨p, h', hrun, hc'⟩ := newNode_spec hc v
  exact ⟨.node p l v r, h', hrun, hc', rfl⟩

omit [Inhabited V] in
theorem held_left {p : ℕ} {l r : PTree V} {v : V} (hmem : PTree.node p l v r ∈ R) : Held R l :=
  (Held.of_mem hmem).sub (.left (.refl _))

omit [Inhabited V] in
theorem held_right {p : ℕ} {l r : PTree V} {v : V} (hmem : PTree.node p l v r ∈ R) : Held R r :=
  (Held.of_mem hmem).sub (.right (.refl _))

omit [Inhabited V] in
theorem mem_first {T : PTree V} : T ∈ T ::ₘ R := Multiset.mem_cons_self _ _

omit [Inhabited V] in
theorem mem_second {S T : PTree V} : T ∈ S ::ₘ T ::ₘ R := Multiset.mem_cons_of_mem (Multiset.mem_cons_self _ _)

/-- **The left tree is too high.** -/
theorem rotateRight_spec {p : ℕ} {ll lr r : PTree V} {lv : V} (hc : Counted h (.node p ll lv lr ::ₘ r ::ₘ R)) (v : V)
    (hhigh : (PTree.node p ll lv lr).height > r.height + 2) :
    Yields R (Node.balance (PTree.node p ll lv lr).addr v r.addr h)
      (SlackTree.rotateRight (.node ll.erase lv lr.erase) v r.erase) := by
  obtain ⟨hp, ⟨references, hn⟩, hll, hlr⟩ := hc.stored _ mem_first
  have hnl : h.nodes (PTree.node p ll lv lr).addr = _ := hn
  obtain ⟨nr, hnr, hr⟩ := hc.node_of_stored (hc.stored r mem_second)
  obtain ⟨nll, hnll, hllh⟩ := hc.node_of_stored hll
  obtain ⟨nlr, hnlr, hlrh⟩ := hc.node_of_stored hlr
  rw [← hr] at hhigh
  rw [Node.balance, run_bind (deref_eq hnl), run_bind (deref_eq hnr), if_pos hhigh, run_bind (deref_eq hnll),
    run_bind (deref_eq hnlr)]
  by_cases hcase : nll.height ≥ nlr.height
  · rw [if_pos hcase]
    rw [hllh, hlrh] at hcase
    rw [SlackTree.rotateRight_of_le hcase]
    obtain ⟨h₁, hrun₁, hc₁⟩ := incref_spec hc (held_right mem_first)
    obtain ⟨nlr', h₂, hrun₂, hc₂⟩ := newNode_spec hc₁.swap_inner v
    obtain ⟨h₃, hrun₃, hc₃⟩ := incref_spec hc₂ (held_left mem_second)
    obtain ⟨res, h₄, hrun₄, hc₄⟩ := newNode_spec hc₃ lv
    obtain ⟨h₅, hrun₅, hc₅⟩ := decref_spec hc₄.swap
    refine ⟨_, h₅, ?_, hc₅, rfl⟩
    rw [run_bind hrun₁, run_bind hrun₂, run_bind hrun₃, run_bind hrun₄, run_bind hrun₅]
    rfl
  · rw [if_neg hcase]
    rw [hllh, hlrh] at hcase
    cases lr with
    | nil => exact absurd (Nat.zero_le _) hcase
    | node q lrl lrv lrr =>
      obtain ⟨-, ⟨references', hn'⟩, -, -⟩ := hlr
      obtain rfl := Option.some.inj (hnlr.symm.trans hn')
      have hsub : ∀ {R' : Multiset (PTree V)}, PTree.node p ll lv (.node q lrl lrv lrr) ∈ R' →
          Held R' (.node q lrl lrv lrr) := fun hmem => held_right hmem
      obtain ⟨h₁, hrun₁, hc₁⟩ := incref_spec hc (held_left mem_first)
      obtain ⟨h₂, hrun₂, hc₂⟩ := incref_spec hc₁ ((hsub mem_second).sub (.left (.refl _)))
      obtain ⟨nll', h₃, hrun₃, hc₃⟩ := newNode_spec hc₂.swap lv
      obtain ⟨h₄, hrun₄, hc₄⟩ := incref_spec hc₃ ((hsub mem_second).sub (.right (.refl _)))
      rw [Multiset.cons_swap _ r, Multiset.cons_swap _ r] at hc₄
      obtain ⟨nlr', h₅, hrun₅, hc₅⟩ := newNode_spec hc₄ v
      obtain ⟨res, h₆, hrun₆, hc₆⟩ := newNode_spec hc₅.swap lrv
      obtain ⟨h₇, hrun₇, hc₇⟩ := decref_spec hc₆.swap
      refine ⟨_, h₇, ?_, hc₇, ?_⟩
      · rw [run_bind hrun₁, run_bind hrun₂, run_bind hrun₃, run_bind hrun₄, run_bind hrun₅, run_bind hrun₆, run_bind hrun₇]
        rfl
      · exact (if_neg hcase).symm

/-- **The right tree is too high.** -/
theorem rotateLeft_spec {p : ℕ} {l rl rr : PTree V} {rv : V} (hc : Counted h (l ::ₘ .node p rl rv rr ::ₘ R)) (v : V)
    (hhigh : (PTree.node p rl rv rr).height > l.height + 2) :
    Yields R (Node.balance l.addr v (PTree.node p rl rv rr).addr h)
      (SlackTree.rotateLeft l.erase v (.node rl.erase rv rr.erase)) := by
  obtain ⟨hp, ⟨references, hn⟩, hrl, hrr⟩ := hc.stored _ mem_second
  have hnr : h.nodes (PTree.node p rl rv rr).addr = _ := hn
  obtain ⟨nl, hnl, hl⟩ := hc.node_of_stored (hc.stored l mem_first)
  obtain ⟨nrl, hnrl, hrlh⟩ := hc.node_of_stored hrl
  obtain ⟨nrr, hnrr, hrrh⟩ := hc.node_of_stored hrr
  rw [← hl] at hhigh
  have hlow : ¬nl.height > (PTree.node p rl rv rr).height + 2 := by omega
  rw [Node.balance, run_bind (deref_eq hnl), run_bind (deref_eq hnr), if_neg hlow, if_pos hhigh, run_bind (deref_eq hnrl),
    run_bind (deref_eq hnrr)]
  by_cases hcase : nrr.height ≥ nrl.height
  · rw [if_pos hcase]
    rw [hrlh, hrrh] at hcase
    rw [SlackTree.rotateLeft_of_le hcase]
    obtain ⟨h₁, hrun₁, hc₁⟩ := incref_spec hc (held_left mem_second)
    obtain ⟨nrl', h₂, hrun₂, hc₂⟩ := newNode_spec hc₁.swap v
    obtain ⟨h₃, hrun₃, hc₃⟩ := incref_spec hc₂ (held_right mem_second)
    obtain ⟨res, h₄, hrun₄, hc₄⟩ := newNode_spec hc₃.swap rv
    obtain ⟨h₅, hrun₅, hc₅⟩ := decref_spec hc₄.swap
    refine ⟨_, h₅, ?_, hc₅, rfl⟩
    rw [run_bind hrun₁, run_bind hrun₂, run_bind hrun₃, run_bind hrun₄, run_bind hrun₅]
    rfl
  · rw [if_neg hcase]
    rw [hrlh, hrrh] at hcase
    cases rl with
    | nil => exact absurd (Nat.zero_le _) hcase
    | node q rll rlv rlr =>
      obtain ⟨-, ⟨references', hn'⟩, -, -⟩ := hrl
      obtain rfl := Option.some.inj (hnrl.symm.trans hn')
      have hsub : ∀ {R' : Multiset (PTree V)}, PTree.node p (.node q rll rlv rlr) rv rr ∈ R' →
          Held R' (.node q rll rlv rlr) := fun hmem => held_left hmem
      obtain ⟨h₁, hrun₁, hc₁⟩ := incref_spec hc ((hsub mem_second).sub (.left (.refl _)))
      obtain ⟨nrl', h₂, hrun₂, hc₂⟩ := newNode_spec hc₁.swap v
      obtain ⟨h₃, hrun₃, hc₃⟩ := incref_spec hc₂ ((hsub mem_second).sub (.right (.refl _)))
      obtain ⟨h₄, hrun₄, hc₄⟩ := incref_spec hc₃ (held_right (Multiset.mem_cons_of_mem mem_second))
      obtain ⟨nrr', h₅, hrun₅, hc₅⟩ := newNode_spec hc₄.swap rv
      obtain ⟨res, h₆, hrun₆, hc₆⟩ := newNode_spec hc₅.swap rlv
      obtain ⟨h₇, hrun₇, hc₇⟩ := decref_spec hc₆.swap
      refine ⟨_, h₇, ?_, hc₇, ?_⟩
      · rw [run_bind hrun₁, run_bind hrun₂, run_bind hrun₃, run_bind hrun₄, run_bind hrun₅, run_bind hrun₆, run_bind hrun₇]
        rfl
      · exact (if_neg hcase).symm

/-- **`balance`**. -/
theorem balance_spec {l r : PTree V} (hc : Counted h (l ::ₘ r ::ₘ R)) (v : V) :
    Yields R (Node.balance l.addr v r.addr h) (SlackTree.balance l.erase v r.erase) := by
  obtain ⟨nl, hnl, hl⟩ := hc.node_of_stored (hc.stored l mem_first)
  obtain ⟨nr, hnr, hr⟩ := hc.node_of_stored (hc.stored r mem_second)
  unfold SlackTree.balance
  by_cases hleft : r.erase.height + 2 < l.erase.height
  · rw [if_pos hleft]
    cases l with
    | nil => exact absurd hleft (Nat.not_lt_zero _)
    | node p ll lv lr => exact rotateRight_spec hc v hleft
  · rw [if_neg hleft]
    by_cases hright : l.erase.height + 2 < r.erase.height
    · rw [if_pos hright]
      cases r with
      | nil => exact absurd hright (Nat.not_lt_zero _)
      | node p rl rv rr => exact rotateLeft_spec hc v hright
    · rw [if_neg hright]
      have hl' : ¬nl.height > nr.height + 2 := by rw [hl, hr]; exact hleft
      have hr' : ¬nr.height > nl.height + 2 := by rw [hl, hr]; exact hright
      rw [Node.balance, run_bind (deref_eq hnl), run_bind (deref_eq hnr), if_neg hl', if_neg hr']
      exact newNode_yields hc v

/-! ### The first and the last entry -/

omit [Inhabited V] in
theorem isTerminator_addr {T : PTree V} (hT : T.Stored h) : isTerminator T.addr = T.erase.isNil := by
  cases T with
  | nil => rfl
  | node p l v r =>
    have hp : p ≠ terminator := hT.1
    exact beq_eq_false_iff_ne.2 hp

/-- A run of `popMin` or `popMax`: the entry and a reference to the tree without it. -/
def YieldsPair (R : Multiset (PTree V)) (run : Option ((V × ℕ) × Heap V)) (t : V × SlackTree V) : Prop :=
  ∃ T h', run = some ((t.1, T.addr), h') ∧ Counted h' (T ::ₘ R) ∧ T.erase = t.2

theorem popMinAux_spec (fuel : ℕ) {T : PTree V} (hc : Counted h R) (hT : Held R T) (hfuel : T.height < fuel) :
    YieldsPair R (Node.popMinAux fuel T.addr h) (SlackTree.popMin T.erase) := by
  induction fuel generalizing T h with
  | zero => exact absurd hfuel (Nat.not_lt_zero _)
  | succ fuel ih =>
    cases T with
    | nil =>
      obtain ⟨references, hn⟩ := hc.terminator
      have hnode : h.nodes (PTree.nil : PTree V).addr = _ := hn
      obtain ⟨h', hrun, hc'⟩ := incref_spec hc (.inl rfl)
      refine ⟨.nil, h', ?_, hc', rfl⟩
      rw [Node.popMinAux, run_bind (deref_eq hnode)]
      show (Node.incref (PTree.nil : PTree V).addr >>= _) h = _
      rw [run_bind hrun]
      rfl
    | node p l v r =>
      obtain ⟨hp, ⟨references, hn⟩, hl, hr⟩ := hc.stored_of_held hT
      have hnode : h.nodes (PTree.node p l v r).addr = _ := hn
      have hright : Held R r := hT.sub (.right (.refl _))
      have hheight : (PTree.node p l v r).height = max l.height r.height + 1 := rfl
      rw [Node.popMinAux, run_bind (deref_eq hnode), PTree.erase, SlackTree.popMin, ← isTerminator_addr hl]
      by_cases hnil : isTerminator l.addr = true
      · rw [if_pos hnil, if_pos hnil]
        obtain ⟨h', hrun, hc'⟩ := incref_spec hc hright
        refine ⟨r, h', ?_, hc', rfl⟩
        rw [run_bind hrun]
        rfl
      · rw [if_neg hnil, if_neg hnil]
        obtain ⟨l', h₁, hrun₁, hc₁, hl'⟩ := ih hc (hT.sub (.left (.refl _))) (by omega)
        obtain ⟨h₂, hrun₂, hc₂⟩ := incref_spec hc₁ hright.mono
        obtain ⟨T', h₃, hrun₃, hc₃, hT'⟩ := balance_spec hc₂.swap v
        refine ⟨T', h₃, ?_, hc₃, by rw [hT', hl']⟩
        rw [run_bind hrun₁]
        show (Node.incref r.addr >>= _) h₁ = _
        rw [run_bind hrun₂, run_bind hrun₃]
        rfl

theorem popMaxAux_spec (fuel : ℕ) {T : PTree V} (hc : Counted h R) (hT : Held R T) (hfuel : T.height < fuel) :
    YieldsPair R (Node.popMaxAux fuel T.addr h) (SlackTree.popMax T.erase) := by
  induction fuel generalizing T h R with
  | zero => exact absurd hfuel (Nat.not_lt_zero _)
  | succ fuel ih =>
    cases T with
    | nil =>
      obtain ⟨references, hn⟩ := hc.terminator
      have hnode : h.nodes (PTree.nil : PTree V).addr = _ := hn
      obtain ⟨h', hrun, hc'⟩ := incref_spec hc (.inl rfl)
      refine ⟨.nil, h', ?_, hc', rfl⟩
      rw [Node.popMaxAux, run_bind (deref_eq hnode)]
      show (Node.incref (PTree.nil : PTree V).addr >>= _) h = _
      rw [run_bind hrun]
      rfl
    | node p l v r =>
      obtain ⟨hp, ⟨references, hn⟩, hl, hr⟩ := hc.stored_of_held hT
      have hnode : h.nodes (PTree.node p l v r).addr = _ := hn
      have hleft : Held R l := hT.sub (.left (.refl _))
      have hheight : (PTree.node p l v r).height = max l.height r.height + 1 := rfl
      rw [Node.popMaxAux, run_bind (deref_eq hnode), PTree.erase, SlackTree.popMax, ← isTerminator_addr hr]
      obtain ⟨h₁, hrun₁, hc₁⟩ := incref_spec hc hleft
      by_cases hnil : isTerminator r.addr = true
      · rw [if_pos hnil, if_pos hnil]
        refine ⟨l, h₁, ?_, hc₁, rfl⟩
        rw [run_bind hrun₁]
        rfl
      · rw [if_neg hnil, if_neg hnil]
        obtain ⟨r', h₂, hrun₂, hc₂, hr'⟩ := ih hc₁ (hT.sub (.right (.refl _))).mono (by omega)
        obtain ⟨T', h₃, hrun₃, hc₃, hT'⟩ := balance_spec hc₂.swap v
        refine ⟨T', h₃, ?_, hc₃, by rw [hT', hr']⟩
        rw [run_bind hrun₁, run_bind hrun₂]
        show (Node.balance l.addr v r'.addr >>= _) h₂ = _
        rw [run_bind hrun₃]
        rfl

/-- **`popMin`**. -/
theorem popMin_spec {T : PTree V} (hc : Counted h R) (hT : Held R T) :
    YieldsPair R (Node.popMin T.addr h) (SlackTree.popMin T.erase) := by
  obtain ⟨n, hn, hheight⟩ := hc.node_of_stored (hc.stored_of_held hT)
  rw [Node.popMin, run_bind (deref_eq hn)]
  exact popMinAux_spec (n.height + 1) hc hT (by omega)

/-- **`popMax`**. -/
theorem popMax_spec {T : PTree V} (hc : Counted h R) (hT : Held R T) :
    YieldsPair R (Node.popMax T.addr h) (SlackTree.popMax T.erase) := by
  obtain ⟨n, hn, hheight⟩ := hc.node_of_stored (hc.stored_of_held hT)
  rw [Node.popMax, run_bind (deref_eq hn)]
  exact popMaxAux_spec (n.height + 1) hc hT (by omega)

/-! ### Updates -/

section Updates

variable {o : KeyOrder K V} {k : K} {absent : TreeM V ℕ} {present : ℕ → Node V → TreeM V ℕ} {absentTree : SlackTree V}
  {presentTree : SlackTree V → V → SlackTree V → SlackTree V}

theorem updateAux_spec (fuel : ℕ) {T : PTree V}
    (habsent : ∀ {h : Heap V} {R : Multiset (PTree V)}, Counted h R → Yields R (absent h) absentTree)
    (hpresent : ∀ {h : Heap V} {R : Multiset (PTree V)} {p references : ℕ} {l r : PTree V} {x : V}, Counted h R →
      Held R (.node p l x r) →
      Yields R (present p ⟨l.addr, r.addr, x, (PTree.node p l x r).height, references⟩ h) (presentTree l.erase x r.erase))
    (hc : Counted h R) (hT : Held R T) (hfuel : T.height < fuel) :
    Yields R (Node.updateAux o k absent present fuel T.addr h) (SlackTree.updateAt o k absentTree presentTree T.erase) := by
  induction fuel generalizing T h R with
  | zero => exact absurd hfuel (Nat.not_lt_zero _)
  | succ fuel ih =>
    have hterm := isTerminator_addr (hc.stored_of_held hT)
    cases T with
    | nil =>
      have hnil : isTerminator (PTree.nil : PTree V).addr = true := hterm
      rw [Node.updateAux, if_pos hnil]
      exact habsent hc
    | node p l x r =>
      obtain ⟨hp, ⟨references, hn⟩, hl, hr⟩ := hc.stored_of_held hT
      have hnode : h.nodes (PTree.node p l x r).addr = _ := hn
      have hleft : Held R l := hT.sub (.left (.refl _))
      have hright : Held R r := hT.sub (.right (.refl _))
      have hheight : (PTree.node p l x r).height = max l.height r.height + 1 := rfl
      have hnot : ¬isTerminator (PTree.node p l x r).addr = true := by
        rw [hterm]
        exact Bool.false_ne_true
      rw [Node.updateAux, if_neg hnot, run_bind (deref_eq hnode), PTree.erase, SlackTree.updateAt]
      by_cases hkx : o.lt k (o.key x) = true
      · rw [if_pos hkx, if_pos hkx]
        obtain ⟨l', h₁, hrun₁, hc₁, hl'⟩ := ih hc hleft (by omega)
        obtain ⟨h₂, hrun₂, hc₂⟩ := incref_spec hc₁ hright.mono
        rw [run_bind hrun₁, run_bind hrun₂, ← hl']
        exact balance_spec hc₂.swap x
      · rw [if_neg hkx, if_neg hkx]
        by_cases hxk : o.lt (o.key x) k = true
        · rw [if_pos hxk, if_pos hxk]
          obtain ⟨h₁, hrun₁, hc₁⟩ := incref_spec hc hleft
          obtain ⟨r', h₂, hrun₂, hc₂, hr'⟩ := ih hc₁ hright.mono (by omega)
          rw [run_bind hrun₁, run_bind hrun₂, ← hr']
          exact balance_spec hc₂.swap x
        · rw [if_neg hxk, if_neg hxk]
          exact hpresent hc hT

theorem update_spec {T : PTree V}
    (habsent : ∀ {h : Heap V} {R : Multiset (PTree V)}, Counted h R → Yields R (absent h) absentTree)
    (hpresent : ∀ {h : Heap V} {R : Multiset (PTree V)} {p references : ℕ} {l r : PTree V} {x : V}, Counted h R →
      Held R (.node p l x r) →
      Yields R (present p ⟨l.addr, r.addr, x, (PTree.node p l x r).height, references⟩ h) (presentTree l.erase x r.erase))
    (hc : Counted h R) (hT : Held R T) :
    Yields R (Node.update o k absent present T.addr h) (SlackTree.updateAt o k absentTree presentTree T.erase) := by
  obtain ⟨n, hn, hheight⟩ := hc.node_of_stored (hc.stored_of_held hT)
  rw [Node.update, run_bind (deref_eq hn)]
  exact updateAux_spec (n.height + 1) habsent hpresent hc hT (by omega)

theorem incref_yields {T : PTree V} (hc : Counted h R) (hT : Held R T) : Yields R (Node.incref T.addr h) T.erase := by
  obtain ⟨h', hrun, hc'⟩ := incref_spec hc hT
  exact ⟨T, h', hrun, hc', rfl⟩

/-- A node of two subtrees that stay. -/
theorem share_yields {l r : PTree V} (hc : Counted h R) (hl : Held R l) (hr : Held R r) (v : V) :
    Yields R ((do Node.newNode (← Node.incref l.addr) (← Node.incref r.addr) v : TreeM V ℕ) h) (.node l.erase v r.erase) := by
  obtain ⟨h₁, hrun₁, hc₁⟩ := incref_spec hc hl
  obtain ⟨h₂, hrun₂, hc₂⟩ := incref_spec hc₁ hr.mono
  rw [run_bind hrun₁, run_bind hrun₂]
  exact newNode_yields hc₂.swap v

theorem single_yields (hc : Counted h R) (v : V) : Yields R (Node.single v h) (.node .nil v .nil) :=
  share_yields (l := .nil) (r := .nil) hc (.inl rfl) (.inl rfl) v

/-- **`insert`**. -/
theorem insert_spec {T : PTree V} (hc : Counted h R) (hT : Held R T) (v : V) :
    Yields R (Node.insert o T.addr v h) (SlackTree.insert o v T.erase) :=
  update_spec (fun hc => single_yields hc v) (fun hc hT => incref_yields hc hT) hc hT

/-- **`replace`**. -/
theorem replace_spec {T : PTree V} (hc : Counted h R) (hT : Held R T) (v : V) :
    Yields R (Node.replace o T.addr v h) (SlackTree.replace o v T.erase) :=
  update_spec (fun hc => single_yields hc v)
    (fun hc hT => share_yields hc (hT.sub (.left (.refl _))) (hT.sub (.right (.refl _))) v) hc hT

theorem removeNode_yields {p height references : ℕ} {l r : PTree V} {x : V} (hc : Counted h R) (hT : Held R (.node p l x r)) :
    Yields R (Node.removeNode ⟨l.addr, r.addr, x, height, references⟩ h) (SlackTree.join l.erase r.erase) := by
  obtain ⟨-, -, hl, hr⟩ := hc.stored_of_held hT
  have hleft : Held R l := hT.sub (.left (.refl _))
  have hright : Held R r := hT.sub (.right (.refl _))
  rw [Node.removeNode, SlackTree.join, ← isTerminator_addr hl, ← isTerminator_addr hr]
  by_cases hlnil : isTerminator l.addr = true
  · rw [if_pos hlnil, if_pos hlnil]
    exact incref_yields hc hright
  · rw [if_neg hlnil, if_neg hlnil]
    by_cases hrnil : isTerminator r.addr = true
    · rw [if_pos hrnil, if_pos hrnil]
      exact incref_yields hc hleft
    · rw [if_neg hrnil, if_neg hrnil]
      obtain ⟨r', h₁, hrun₁, hc₁, hr'⟩ := popMin_spec hc hright
      obtain ⟨h₂, hrun₂, hc₂⟩ := incref_spec hc₁ hleft.mono
      rw [run_bind hrun₁, ← hr']
      show Yields R ((Node.incref l.addr >>= _) h₁) _
      rw [run_bind hrun₂]
      exact balance_spec hc₂ _

/-- **`remove`**. -/
theorem remove_spec {T : PTree V} (hc : Counted h R) (hT : Held R T) (k : K) :
    Yields R (Node.remove o T.addr k h) (SlackTree.remove o k T.erase) :=
  update_spec (fun hc => incref_yields (T := .nil) hc (.inl rfl)) (fun hc hT => removeNode_yields hc hT) hc hT

end Updates

end ImmutableTree

end SymBisect
