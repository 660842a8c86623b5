import SymBisect.Core.AddressResolution
import SymBisect.Core.LoopLimit

/-!
# Successors of branches and switches

The cases `Br` and `Switch` of `executeInstruction`: which states go on, with which path condition, and
where.

* `branchSides`: the part of a conditional branch up to `transferToBasicBlock`.  Which side is tried first is
  random; the condition is negated for it and the two states are swapped back.
* `branchSides_exact`: where forking is permitted, both polarities lead to the same successors, which divide
  the path condition by the branch condition.
* `switch_exact`: where branching is permitted, the successors of a switch divide the path condition by the
  target of the concrete switch.
-/

namespace SymBisect

open Lib Expr ConstraintSet

namespace Executor

section
variable [ExprOptions]

/-! ### The two sides of a branch -/

/-- `Instruction::Br` from `fork` to the two calls of `transferToBasicBlock`; `flip` is `randvalue==1`. -/
def branchSides (env : Env) (p : Ptr) (block : BasicBlock) (c : Expr) (flip : Bool) (succ0 succ1 : BasicBlock) :
    Prog Executor (Option Ptr × Option Ptr) := do
  let branches ← fork env p (if flip then createIsZero c else c) false
  let sides := if flip then branches.swap else branches
  transferTo env succ0 block sides.1
  transferTo env succ1 block sides.2
  pure sides

end

/-- Where the two sides go on, and under which assignments in `D`. -/
def nextStates (D : Assignment → Prop) (t : Executor) (sides : Option Ptr × Option Ptr) :
    Set (ℕ × Set Assignment) :=
  {x | ∃ q state, (sides.1 = some q ∨ sides.2 = some q) ∧ t.heap q = some state ∧
    x = (state.pc, {a | D a ∧ Satisfies a state.constraints})}

/-- The state at `q` goes on at a block, under the models `M`. -/
def GoesOn (D M : Assignment → Prop) (t : Executor) (q : Ptr) (block : BasicBlock) : Prop :=
  ∃ state, t.heap q = some state ∧ state.pc = block.entry ∧ Describes D M state.constraints

section
variable {D M : Assignment → Prop} {s t : Executor} {p q : Ptr} {v : View} {env : Env} {E : Executor → Prop}
  {block succ0 succ1 : BasicBlock}

/-- `transferToBasicBlock` sets the block and nothing that a view shows. -/
theorem transferTo_spec (dst src : BasicBlock) (o : Option Ptr) :
    Prog.wp (transferTo env dst src o)
      (fun _ t => SameViews s t ∧ (∀ q, o = some q → ∀ state, t.heap q = some state → state.pc = dst.entry) ∧
        (∀ x, o ≠ some x → t.heap x = s.heap x) ∧ t.aux = s.aux) E s := by
  cases o with
  | none => exact ⟨.refl s, nofun, fun _ _ => rfl, rfl⟩
  | some q =>
    refine ⟨sameViews_written fun _ => rfl, ?_, fun x hx => ?_, rfl⟩
    · rintro _ ⟨⟩ state hstate
      obtain ⟨state', -, rfl⟩ := Option.map_eq_some_iff.1
        ((((written_heap s q _ q).trans (if_pos rfl)).symm).trans hstate)
      rfl
    · exact (written_heap s q _ x).trans (if_neg fun h => hx (congrArg some h.symm))

/-- The successors of a conditional branch: one on each side that has a model, with the models of that side. -/
structure Sided (D M : Assignment → Prop) (c : Expr) (succ0 succ1 : BasicBlock) (t : Executor)
    (sides : Option Ptr × Option Ptr) : Prop where
  distinct : ∀ q, sides.1 = some q → sides.2 ≠ some q
  onTrue : ∀ q, sides.1 = some q → GoesOn D (fun a => M a ∧ c.Holds a) t q succ0
  onFalse : ∀ q, sides.2 = some q → GoesOn D (fun a => M a ∧ c.Fails a) t q succ1
  noTrue : sides.1 = none → ∀ a, M a → c.Fails a
  noFalse : sides.2 = none → ∀ a, M a → c.Holds a

/-- What the two sides are is determined by the path condition and the branch condition. -/
theorem Sided.nextStates_eq {c : Expr} {sides : Option Ptr × Option Ptr} (h : Sided D M c succ0 succ1 t sides) :
    nextStates D t sides =
      {x | (∃ a, M a ∧ c.Holds a) ∧ x = (succ0.entry, {a | M a ∧ c.Holds a}) ∨
        (∃ a, M a ∧ c.Fails a) ∧ x = (succ1.entry, {a | M a ∧ c.Fails a})} := by
  have hset : ∀ {N : Assignment → Prop} {constraints : ConstraintSet}, Describes D N constraints →
      {a | D a ∧ Satisfies a constraints} = {a | N a} := fun hd => Set.ext hd.satisfies_iff
  ext x
  constructor
  · rintro ⟨q, state, hq | hq, hstate, rfl⟩
    · obtain ⟨state', hstate', hpc, hd⟩ := h.onTrue q hq
      obtain rfl : state = state' := Option.some.inj (hstate.symm.trans hstate')
      exact .inl ⟨hd.feasible, by rw [hpc, hset hd]⟩
    · obtain ⟨state', hstate', hpc, hd⟩ := h.onFalse q hq
      obtain rfl : state = state' := Option.some.inj (hstate.symm.trans hstate')
      exact .inr ⟨hd.feasible, by rw [hpc, hset hd]⟩
  · rintro (⟨⟨a, ha, hh⟩, rfl⟩ | ⟨⟨a, ha, hf⟩, rfl⟩)
    · cases hside : sides.1 with
      | none => exact absurd (h.noTrue hside a ha) (Query.holds_not_fails hh)
      | some q =>
        obtain ⟨state, hstate, hpc, hd⟩ := h.onTrue q hside
        exact ⟨q, state, .inl hside, hstate, by rw [hpc, hset hd]⟩
    · cases hside : sides.2 with
      | none => exact absurd hf (Query.holds_not_fails (h.noFalse hside a ha))
      | some q =>
        obtain ⟨state, hstate, hpc, hd⟩ := h.onFalse q hside
        exact ⟨q, state, .inr hside, hstate, by rw [hpc, hset hd]⟩

/-- The two states of a fork are different. -/
theorem Forked.distinct {condition : Expr} {branches : Option Ptr × Option Ptr} (hp : p < s.nextPtr)
    (h : Forked D M condition s t p v branches) (q : Ptr) (h₁ : branches.1 = some q) :
    branches.2 ≠ some q := by
  intro h₂
  obtain ⟨⟨-, hnone⟩ | ⟨hq, -, -⟩, -⟩ := h.unbound q h₂
  · rw [h₁] at hnone
    cases hnone
  · exact absurd ((h.bound q h₁).1.symm.trans hq) (Nat.ne_of_lt hp)

variable [ExprOptions]

/-- The states of a fork on `c`, or on its negation and swapped, have the models of the sides of `c`. -/
theorem sidesOf_fork {c : Expr} (hc : c.HasWidth 1) (hdef : ∀ a, M a → c.Defined a) (flip : Bool)
    {branches : Option Ptr × Option Ptr}
    (hforked : Forked D M (if flip then createIsZero c else c) s t p v branches)
    (hsplits : Splits M (if flip then createIsZero c else c) branches) :
    let sides := if flip then branches.swap else branches
    (∀ q, sides.1 = some q → PathAt D (fun a => M a ∧ c.Holds a) t q v) ∧
      (∀ q, sides.2 = some q → PathAt D (fun a => M a ∧ c.Fails a) t q v) ∧
      (sides.1 = none → ∀ a, M a → c.Fails a) ∧ (sides.2 = none → ∀ a, M a → c.Holds a) := by
  cases flip with
  | false =>
    exact ⟨fun q hq => (hforked.bound q hq).2, fun q hq => (hforked.unbound q hq).2, hsplits.bound,
      hsplits.unbound⟩
  | true =>
    have hh := fun a (ha : M a) => Query.createIsZero_holds_iff hc (hdef a ha)
    have hf := fun a (ha : M a) => Query.createIsZero_fails_iff hc (hdef a ha)
    refine ⟨fun q hq => ?_, fun q hq => ?_, fun hnone a ha => ?_, fun hnone a ha => ?_⟩
    · exact (hforked.unbound q hq).2.congr fun a => and_congr_right fun ha => hf a ha
    · exact (hforked.bound q hq).2.congr fun a => and_congr_right fun ha => hh a ha
    · exact (hh a ha).1 (hsplits.unbound hnone a ha)
    · exact (hf a ha).1 (hsplits.bound hnone a ha)

theorem branchSides_spec (block succ0 succ1 : BasicBlock) (hright : env.solver.Right D)
    (hans : env.solver.Evaluates) (h : PathAt D M s p v) (hp : p < s.nextPtr) {c : Expr} (hc : c.HasWidth 1) (hdef : ∀ a, M a → c.Defined a)
    (hguide : Unguided env s) (hperm : Permitted env s v) (hdepth : env.config.MaxDepth = 0)
    (hstatic : ∀ n, env.staticLimit n = false) (flip : Bool) :
    Prog.wp (branchSides env p block c flip succ0 succ1)
      (fun sides t => Sided D M c succ0 succ1 t sides) E s := by
  have hcond : (if flip then createIsZero c else c).HasWidth 1 ∧
      ∀ a, M a → (if flip then createIsZero c else c).Defined a := by
    have hzero := createIsZero_computes hc
    cases flip with
    | false => exact ⟨hc, hdef⟩
    | true => exact ⟨hzero.hasWidth, fun a ha => (hzero.denotes (.self (hdef a ha) 1)).defined⟩
  unfold branchSides
  refine Prog.wp.bind (fork_free hright hans h hp hcond.1 hcond.2 hguide hperm hdepth hstatic false)
    fun branches t ht => ?_
  obtain ⟨hforked, hsplits, -⟩ := ht
  have hdistinct := hforked.distinct hp
  obtain ⟨htrue, hfalse, hnoTrue, hnoFalse⟩ := sidesOf_fork hc hdef flip hforked hsplits
  have hne : ∀ q, (if flip then branches.swap else branches).1 = some q →
      (if flip then branches.swap else branches).2 ≠ some q := by
    cases flip with
    | false => exact hdistinct
    | true => exact fun q h₁ h₂ => hdistinct q h₂ h₁
  revert htrue hfalse hnoTrue hnoFalse hne
  generalize (if flip then branches.swap else branches) = sides
  intro htrue hfalse hnoTrue hnoFalse hne
  refine Prog.wp.bind (transferTo_spec succ0 block sides.1) fun _ t₁ h₁ => ?_
  obtain ⟨hviews₁, hpc₁, -⟩ := h₁
  refine Prog.wp.bind (transferTo_spec succ1 block sides.2) fun _ t₂ h₂ => ?_
  obtain ⟨hviews₂, hpc₂, hothers₂, -⟩ := h₂
  refine ⟨hne, fun q hq => ?_, fun q hq => ?_, hnoTrue, hnoFalse⟩
  · obtain ⟨state, hstate, -, hd⟩ := ((htrue q hq).of_view (hviews₁.views q)).state
    refine ⟨state, (hothers₂ q (hne q hq)).trans hstate, hpc₁ q hq state hstate, hd⟩
  · obtain ⟨state, hstate, -, hd⟩ := ((hfalse q hq).of_view ((hviews₁.trans hviews₂).views q)).state
    exact ⟨state, hstate, hpc₂ q hq state hstate, hd⟩

/-- Whichever side a branch tries first, its successors cover the path condition, exclude each other and are
entered only where the condition has their value; and they are the same for both. -/
structure BranchesExactly (env : Env) (D : Assignment → Prop) (s : Executor) (p : Ptr)
    (constraints : ConstraintSet) (c : Expr) (block succ0 succ1 : BasicBlock) : Prop where
  ends : ∀ flip, ∃ sides t, branchSides env p block c flip succ0 succ1 s = (some sides, t)
  covers : ∀ flip sides t, branchSides env p block c flip succ0 succ1 s = (some sides, t) →
    ∀ a, D a → (Satisfies a constraints ↔ ∃ q state, (sides.1 = some q ∨ sides.2 = some q) ∧
      t.heap q = some state ∧ Satisfies a state.constraints)
  disjoint : ∀ flip sides t, branchSides env p block c flip succ0 succ1 s = (some sides, t) →
    ∀ q q' state state', sides.1 = some q → sides.2 = some q' → t.heap q = some state →
      t.heap q' = some state' → ∀ a, D a → ¬(Satisfies a state.constraints ∧ Satisfies a state'.constraints)
  onTrue : ∀ flip sides t, branchSides env p block c flip succ0 succ1 s = (some sides, t) →
    ∀ q state, sides.1 = some q → t.heap q = some state →
      state.pc = succ0.entry ∧ ∀ a, D a → Satisfies a state.constraints → c.Holds a
  onFalse : ∀ flip sides t, branchSides env p block c flip succ0 succ1 s = (some sides, t) →
    ∀ q state, sides.2 = some q → t.heap q = some state →
      state.pc = succ1.entry ∧ ∀ a, D a → Satisfies a state.constraints → c.Fails a
  agree : ∀ sides t sides' t', branchSides env p block c false succ0 succ1 s = (some sides, t) →
    branchSides env p block c true succ0 succ1 s = (some sides', t') →
      nextStates D t sides = nextStates D t' sides'

/-- **Both polarities of a branch lead to the same successors.**  Without seeds, replay, depth limit and
time-outs, and where forking is permitted, the successors divide the path condition by the condition of the
branch. -/
theorem branchSides_exact (env : Env) (D : Assignment → Prop) (hright : env.solver.Right D)
    (hans : env.solver.Evaluates) (s : Executor) (p : Ptr) (hp : p < s.nextPtr) (state : ExecutionState)
    (hstate : s.heap p = some state) (hb : state.constraints.IsBool) (c : Expr) (hc : c.HasWidth 1)
    (hD : ∀ a, D a → Evaluates a state.constraints ∧ c.Defined a)
    (hsat : ∃ a, D a ∧ Satisfies a state.constraints) (hguide : Unguided env s)
    (hdepth : env.config.MaxDepth = 0) (hperm : Permitted env s (viewOf state))
    (hstatic : ∀ n, env.staticLimit n = false) (block succ0 succ1 : BasicBlock) :
    BranchesExactly env D s p state.constraints c block succ0 succ1 := by
  have hpath : PathAt D (fun a => D a ∧ Satisfies a state.constraints) s p (viewOf state) :=
    ⟨state.constraints, view_eq_some.2 ⟨state, hstate, rfl⟩, .start hb (fun a ha => (hD a ha).1) hsat⟩
  have hspec := fun flip => branchSides_spec (E := fun _ => False) block succ0 succ1
    hright hans hpath hp hc (fun a ha => (hD a ha.1).2) hguide hperm hdepth hstatic flip
  refine ⟨fun flip => ?_, fun flip sides t hrun a ha => ?_, fun flip sides t hrun => ?_,
    fun flip sides t hrun q st hq hst => ?_, fun flip sides t hrun q st hq hst => ?_,
    fun sides t sides' t' hrun hrun' => ?_⟩
  · obtain ⟨sides, t, hrun, -⟩ := (hspec flip).exists_result
    exact ⟨sides, t, hrun⟩
  · have hsided := (hspec flip).of_eq hrun
    constructor
    · intro hs
      obtain hh | hf := holds_or_fails (hD a ha).2
      · cases hside : sides.1 with
        | none => exact absurd (hsided.noTrue hside a ⟨ha, hs⟩) (Query.holds_not_fails hh)
        | some q =>
          obtain ⟨st, hst, -, hd⟩ := hsided.onTrue q hside
          exact ⟨q, st, .inl rfl, hst, hd.holds a ⟨⟨ha, hs⟩, hh⟩⟩
      · cases hside : sides.2 with
        | none => exact absurd hf (Query.holds_not_fails (hsided.noFalse hside a ⟨ha, hs⟩))
        | some q =>
          obtain ⟨st, hst, -, hd⟩ := hsided.onFalse q hside
          exact ⟨q, st, .inr rfl, hst, hd.holds a ⟨⟨ha, hs⟩, hf⟩⟩
    · rintro ⟨q, st, hq | hq, hst, hs⟩
      · obtain ⟨st', hst', -, hd⟩ := hsided.onTrue q hq
        obtain rfl : st = st' := Option.some.inj (hst.symm.trans hst')
        exact ((hd.satisfies_iff a).1 ⟨ha, hs⟩).1.2
      · obtain ⟨st', hst', -, hd⟩ := hsided.onFalse q hq
        obtain rfl : st = st' := Option.some.inj (hst.symm.trans hst')
        exact ((hd.satisfies_iff a).1 ⟨ha, hs⟩).1.2
  · have hsided := (hspec flip).of_eq hrun
    rintro q q' st st' hq hq' hst hst' a ha ⟨hs, hs'⟩
    obtain ⟨st₁, hst₁, -, hd⟩ := hsided.onTrue q hq
    obtain ⟨st₂, hst₂, -, hd'⟩ := hsided.onFalse q' hq'
    obtain rfl : st = st₁ := Option.some.inj (hst.symm.trans hst₁)
    obtain rfl : st' = st₂ := Option.some.inj (hst'.symm.trans hst₂)
    exact Query.holds_not_fails ((hd.satisfies_iff a).1 ⟨ha, hs⟩).2 ((hd'.satisfies_iff a).1 ⟨ha, hs'⟩).2
  · obtain ⟨st', hst', hpc, hd⟩ := ((hspec flip).of_eq hrun).onTrue q hq
    obtain rfl : st = st' := Option.some.inj (hst.symm.trans hst')
    exact ⟨hpc, fun a ha hs => ((hd.satisfies_iff a).1 ⟨ha, hs⟩).2⟩
  · obtain ⟨st', hst', hpc, hd⟩ := ((hspec flip).of_eq hrun).onFalse q hq
    obtain rfl : st = st' := Option.some.inj (hst.symm.trans hst')
    exact ⟨hpc, fun a ha hs => ((hd.satisfies_iff a).1 ⟨ha, hs⟩).2⟩
  · rw [((hspec false).of_eq hrun).nextStates_eq, ((hspec true).of_eq hrun').nextStates_eq]

end

/-! ### The cases of a switch -/

section
variable {w : ℕ}

/-- Where the concrete switch goes on. -/
def switchTarget (cases : List (BitVec w × BasicBlock)) (defaultDest : BasicBlock) (value : BitVec w) : BasicBlock :=
  ((cases.find? fun c => c.1 = value).map (·.2)).getD defaultDest

/-- Cases in the order of their values. -/
abbrev Ordered (cases : List (BitVec w × BasicBlock)) : Prop := cases.Pairwise fun c d => c.1.toNat < d.1.toNat

theorem mem_insertCase {c x : BitVec w × BasicBlock} {cases : List (BitVec w × BasicBlock)}
    (h : x ∈ insertCase c cases) : x = c ∨ x ∈ cases := by
  induction cases with
  | nil => exact .inl (List.mem_singleton.1 h)
  | cons d ds ih =>
    unfold insertCase at h
    split at h
    · exact List.mem_cons.1 h
    · split at h
      · exact .inr h
      · obtain rfl | h := List.mem_cons.1 h
        · exact .inr List.mem_cons_self
        · exact (ih h).imp_right (List.mem_cons_of_mem _)

theorem ordered_insertCase {cases : List (BitVec w × BasicBlock)} (h : Ordered cases)
    (c : BitVec w × BasicBlock) : Ordered (insertCase c cases) := by
  induction cases with
  | nil => exact List.pairwise_singleton _ _
  | cons d ds ih =>
    have hd := List.pairwise_cons.1 h
    unfold insertCase
    split
    · rename_i hlt
      refine List.pairwise_cons.2 ⟨fun x hx => ?_, h⟩
      obtain rfl | hx := List.mem_cons.1 hx
      · exact hlt
      · exact hlt.trans (hd.1 x hx)
    · rename_i hle
      split
      · exact h
      · rename_i hne
        refine List.pairwise_cons.2 ⟨fun x hx => ?_, ih hd.2⟩
        obtain rfl | hx := mem_insertCase hx
        · exact lt_of_le_of_ne (not_lt.1 hle) fun heq => hne (BitVec.eq_of_toNat_eq heq.symm)
        · exact hd.1 x hx

/-- Inserting a case changes the target of its value, unless that has one. -/
theorem find_insertCase {cases : List (BitVec w × BasicBlock)} (h : Ordered cases) (c : BitVec w × BasicBlock)
    (value : BitVec w) :
    (insertCase c cases).find? (fun x => x.1 = value) =
      (cases.find? fun x => x.1 = value).or (if c.1 = value then some c else none) := by
  induction cases with
  | nil =>
    show [c].find? _ = _
    by_cases hc : c.1 = value
    · rw [List.find?_cons_of_pos (by simpa using hc), if_pos hc, List.find?_nil, Option.none_or]
    · rw [List.find?_cons_of_neg (by simpa using hc), if_neg hc, List.find?_nil, Option.none_or]
  | cons d ds ih =>
    have hd := List.pairwise_cons.1 h
    unfold insertCase
    split
    · rename_i hlt
      by_cases hc : c.1 = value
      · -- every value of the list is larger than that of the new case
        have hnone : (d :: ds).find? (fun x => decide (x.1 = value)) = none := by
          refine List.find?_eq_none.2 fun x hx => ?_
          have hlt' : c.1.toNat < x.1.toNat := by
            obtain rfl | hx := List.mem_cons.1 hx
            · exact hlt
            · exact hlt.trans (hd.1 x hx)
          rw [decide_eq_true_eq]
          rintro rfl
          rw [hc] at hlt'
          exact lt_irrefl _ hlt'
        rw [List.find?_cons_of_pos (by simpa using hc), hnone, if_pos hc, Option.none_or]
      · rw [List.find?_cons_of_neg (by simpa using hc), if_neg hc, Option.or_none]
    · split
      · rename_i heq
        by_cases hc : c.1 = value
        · rw [List.find?_cons_of_pos (by simpa using heq.symm.trans hc), Option.some_or]
        · rw [if_neg hc, Option.or_none]
      · by_cases hdv : d.1 = value
        · rw [List.find?_cons_of_pos (by simpa using hdv), List.find?_cons_of_pos (by simpa using hdv),
            Option.some_or]
        · rw [List.find?_cons_of_neg (by simpa using hdv), List.find?_cons_of_neg (by simpa using hdv),
            ih hd.2]

/-- The order of the cases does not change their targets. -/
theorem order_spec (cases order : List (BitVec w × BasicBlock)) (h : Ordered order) :
    Ordered (cases.foldl (fun order c => insertCase c order) order) ∧
      ∀ value, (cases.foldl (fun order c => insertCase c order) order).find? (fun x => x.1 = value) =
        (order.find? fun x => x.1 = value).or (cases.find? fun x => x.1 = value) := by
  induction cases generalizing order with
  | nil => exact ⟨h, fun value => by rw [List.find?_nil, Option.or_none]; rfl⟩
  | cons c cases ih =>
    obtain ⟨hord, hfind⟩ := ih (insertCase c order) (ordered_insertCase h c)
    refine ⟨hord, fun value => ?_⟩
    rw [List.foldl_cons, hfind value, find_insertCase h, Option.or_assoc]
    congr 1
    by_cases hc : c.1 = value
    · rw [if_pos hc, List.find?_cons_of_pos (by simpa using hc), Option.some_or]
    · rw [if_neg hc, List.find?_cons_of_neg (by simpa using hc), Option.none_or]

/-- With one case for each value, the target is the block of the case. -/
theorem switchTarget_of_mem {order : List (BitVec w × BasicBlock)} (h : Ordered order) (defaultDest : BasicBlock)
    {c : BitVec w × BasicBlock} (hc : c ∈ order) : switchTarget order defaultDest c.1 = c.2 := by
  have hfind : order.find? (fun x => decide (x.1 = c.1)) = some c := by
    induction order with
    | nil => cases hc
    | cons d ds ih =>
      have hd := List.pairwise_cons.1 h
      obtain rfl | hc := List.mem_cons.1 hc
      · exact List.find?_cons_of_pos (by simp)
      · have hlt := hd.1 c hc
        rw [List.find?_cons_of_neg, ih hd.2 hc]
        rw [decide_eq_true_eq]
        intro heq
        rw [heq] at hlt
        exact lt_irrefl _ hlt
  unfold switchTarget
  rw [hfind]
  rfl

/-- Without a case for the value, the target is the default block. -/
theorem switchTarget_of_forall {order : List (BitVec w × BasicBlock)} {defaultDest : BasicBlock} {value : BitVec w}
    (h : ∀ c ∈ order, c.1 ≠ value) : switchTarget order defaultDest value = defaultDest := by
  unfold switchTarget
  rw [List.find?_eq_none.2 fun c hc => by simpa using h c hc]
  rfl

/-! ### The conditions of the targets -/

/-- A boolean that evaluates under the models and holds under those with a property. -/
structure Says (M : Assignment → Prop) (e : Expr) (P : Assignment → Prop) : Prop where
  hasWidth : e.HasWidth 1
  defined : ∀ a, M a → e.Defined a
  holds_iff : ∀ a, M a → (e.Holds a ↔ P a)

namespace Says

variable {M P P' : Assignment → Prop} {e e' : Expr}

theorem congr (h : Says M e P) (hP : ∀ a, M a → (P a ↔ P' a)) : Says M e P' :=
  ⟨h.hasWidth, h.defined, fun a ha => (h.holds_iff a ha).trans (hP a ha)⟩

/-- A boolean that computes the conjunction, the disjunction or the negation of others. -/
theorem of_denotes (he : e.HasWidth 1) (h : ∀ a, M a → ∃ b : Bool, e.Denotes a (BitVec.ofBool b) ∧ (b = true ↔ P a)) :
    Says M e P := by
  refine ⟨he, fun a ha => ?_, fun a ha => ?_⟩
  · obtain ⟨b, hden, -⟩ := h a ha
    exact hden.defined
  · obtain ⟨b, hden, hiff⟩ := h a ha
    rw [← hiff]
    constructor
    · intro hh
      have hval := hden.value.symm.trans hh.value
      cases b with
      | true => rfl
      | false => exact absurd hval (by decide)
    · rintro rfl
      exact hden

/-- The value of a boolean under a model. -/
theorem denotes (h : Says M e P) {a : Assignment} (ha : M a) :
    ∃ b : Bool, e.Denotes a (BitVec.ofBool b) ∧ (b = true ↔ P a) := by
  obtain hh | hf := holds_or_fails (h.defined a ha)
  · exact ⟨true, hh, iff_of_true rfl ((h.holds_iff a ha).1 hh)⟩
  · refine ⟨false, hf, iff_of_false nofun fun hP => ?_⟩
    exact Query.holds_not_fails ((h.holds_iff a ha).2 hP) hf

theorem and (h : Says M e P) (h' : Says M e' P') : Says M (AndExpr.create e e') fun a => P a ∧ P' a := by
  have hcomp := AndExpr.create_computes h.hasWidth h'.hasWidth
  refine of_denotes hcomp.hasWidth fun a ha => ?_
  obtain ⟨b, hb, hP⟩ := h.denotes ha
  obtain ⟨b', hb', hP'⟩ := h'.denotes ha
  refine ⟨b && b', ?_, by rw [Bool.and_eq_true, hP, hP']⟩
  have hand : ∀ b b' : Bool, BitVec.ofBool b &&& BitVec.ofBool b' = BitVec.ofBool (b && b') := by decide
  have hden := hcomp.denotes hb hb' nofun
  rwa [show BinOp.and.apply (BitVec.ofBool b) (BitVec.ofBool b') = _ from hand b b'] at hden

theorem or (h : Says M e P) (h' : Says M e' P') : Says M (OrExpr.create e e') fun a => P a ∨ P' a := by
  have hcomp := OrExpr.create_computes h.hasWidth h'.hasWidth
  refine of_denotes hcomp.hasWidth fun a ha => ?_
  obtain ⟨b, hb, hP⟩ := h.denotes ha
  obtain ⟨b', hb', hP'⟩ := h'.denotes ha
  refine ⟨b || b', ?_, by rw [Bool.or_eq_true, hP, hP']⟩
  have hor : ∀ b b' : Bool, BitVec.ofBool b ||| BitVec.ofBool b' = BitVec.ofBool (b || b') := by decide
  have hden := hcomp.denotes hb hb' nofun
  rwa [show BinOp.or.apply (BitVec.ofBool b) (BitVec.ofBool b') = _ from hor b b'] at hden

theorem ofBool (b : Bool) : Says M (Expr.ofBool b) fun _ => b = true :=
  .of_denotes (hasWidth_ofBool b) fun _ _ => ⟨b, denotes_ofBool b, Iff.rfl⟩

variable [ExprOptions]

theorem isZero (h : Says M e P) : Says M (createIsZero e) fun a => ¬P a := by
  have hcomp := createIsZero_computes h.hasWidth
  refine ⟨hcomp.hasWidth, fun a ha => (hcomp.denotes (.self (h.defined a ha) 1)).defined, fun a ha => ?_⟩
  rw [Query.createIsZero_holds_iff h.hasWidth (h.defined a ha), ← h.holds_iff a ha]
  constructor
  · exact fun hf hh => Query.holds_not_fails hh hf
  · exact (holds_or_fails (h.defined a ha)).resolve_left

/-- The condition that an expression has a value. -/
theorem eqConst {value : Assignment → BitVec w} (h : Computed M e value) (x : BitVec w) :
    Says M (EqExpr.create e (.const x)) fun a => value a = x := by
  have hcomp := EqExpr.create_computes h.1 (hasWidth_const x)
  refine ⟨hcomp.hasWidth, fun a ha => (hcomp.denotes (h.2 a ha) (denotes_const x)).defined, fun a ha => ?_⟩
  exact eq_holds_iff h.1 (hasWidth_const x) (h.2 a ha) (denotes_const x)

end Says

/-- Some case of the block has the value. -/
def Leads (cases : List (BitVec w × BasicBlock)) (bb : BasicBlock) (x : BitVec w) : Prop := (x, bb) ∈ cases

/-- The targets of the feasible cases among `cases`, with their conditions. -/
structure Targets (M : Assignment → Prop) (value : Assignment → BitVec w) (defaultDest : BasicBlock)
    (cases : List (BitVec w × BasicBlock)) (targets : List (BasicBlock × Expr)) : Prop where
  nodup : (targets.map (·.1)).Nodup
  notDefault : ∀ x ∈ targets, x.1 ≠ defaultDest
  meaning : ∀ x ∈ targets, Says M x.2 fun a => Leads cases x.1 (value a)
  feasible : ∀ x ∈ targets, ∃ a, M a ∧ Leads cases x.1 (value a)
  complete : ∀ c ∈ cases, c.2 ≠ defaultDest → (∃ a, M a ∧ value a = c.1) → c.2 ∈ targets.map (·.1)

section
variable {M : Assignment → Prop} {value : Assignment → BitVec w} {defaultDest bb : BasicBlock}
  {cases : List (BitVec w × BasicBlock)} {targets : List (BasicBlock × Expr)} {x : BitVec w}

theorem leads_append : Leads (cases ++ [(x, bb)]) b y ↔ Leads cases b y ∨ b = bb ∧ y = x := by
  unfold Leads
  rw [List.mem_append, List.mem_singleton, Prod.mk.injEq]
  exact or_congr Iff.rfl and_comm

/-- A case that no model has, or that leads to the default block, changes nothing. -/
theorem Targets.skip (h : Targets M value defaultDest cases targets)
    (hskip : bb = defaultDest ∨ ∀ a, M a → value a ≠ x) :
    Targets M value defaultDest (cases ++ [(x, bb)]) targets where
  nodup := h.nodup
  notDefault := h.notDefault
  meaning y hy := (h.meaning y hy).congr fun a ha => by
    rw [leads_append]
    refine ⟨.inl, fun hor => hor.resolve_right ?_⟩
    rintro ⟨hb, hx⟩
    obtain hd | hno := hskip
    · exact h.notDefault y hy (hb.trans hd)
    · exact hno a ha hx
  feasible y hy := by
    obtain ⟨a, ha, hl⟩ := h.feasible y hy
    exact ⟨a, ha, leads_append.2 (.inl hl)⟩
  complete c hc hne hex := by
    obtain hc | hc := List.mem_append.1 hc
    · exact h.complete c hc hne hex
    · obtain rfl := List.mem_singleton.1 hc
      obtain hd | hno := hskip
      · exact absurd hd hne
      · obtain ⟨a, ha, hx⟩ := hex
        exact absurd hx (hno a ha)

/-- The blocks keep their order; a new one is the last. -/
theorem map_addTarget (bb : BasicBlock) (matched : Expr) (targets : List (BasicBlock × Expr)) :
    (addTarget bb matched targets).map (·.1) =
      if bb ∈ targets.map (·.1) then targets.map (·.1) else targets.map (·.1) ++ [bb] := by
  induction targets with
  | nil => rfl
  | cons y targets ih =>
    obtain ⟨b, e⟩ := y
    unfold addTarget
    rw [List.map_cons]
    by_cases hb : b = bb
    · rw [if_pos hb, if_pos (List.mem_cons.2 (.inl hb.symm))]
      rfl
    · rw [if_neg hb, List.map_cons, ih]
      by_cases hmem : bb ∈ targets.map (·.1)
      · rw [if_pos hmem, if_pos (List.mem_cons_of_mem _ hmem)]
      · have hnot : bb ∉ b :: targets.map (·.1) := by
          intro h
          obtain h | h := List.mem_cons.1 h
          · exact hb h.symm
          · exact hmem h
        rw [if_neg hmem]
        exact (if_neg hnot).symm

/-- The condition of the block has the new match as a disjunct; the other ones stay. -/
theorem mem_addTarget {matched : Expr} {y : BasicBlock × Expr} (hnodup : (targets.map (·.1)).Nodup)
    (h : y ∈ addTarget bb matched targets) :
    (y ∈ targets ∧ y.1 ≠ bb) ∨ (y = (bb, OrExpr.create matched (ofBool false)) ∧ bb ∉ targets.map (·.1)) ∨
      ∃ e, (bb, e) ∈ targets ∧ y = (bb, OrExpr.create matched e) := by
  induction targets with
  | nil => exact .inr (.inl ⟨List.mem_singleton.1 h, List.not_mem_nil⟩)
  | cons z targets ih =>
    obtain ⟨b, e⟩ := z
    obtain ⟨hnot, hnodup⟩ := List.nodup_cons.1 hnodup
    unfold addTarget at h
    by_cases hb : b = bb
    · rw [if_pos hb] at h
      subst hb
      obtain rfl | h := List.mem_cons.1 h
      · exact .inr (.inr ⟨e, List.mem_cons_self, rfl⟩)
      · refine .inl ⟨List.mem_cons_of_mem _ h, fun heq => hnot ?_⟩
        exact List.mem_map.2 ⟨y, h, heq⟩
    · rw [if_neg hb] at h
      obtain rfl | h := List.mem_cons.1 h
      · exact .inl ⟨List.mem_cons_self, hb⟩
      · obtain ⟨hmem, hne⟩ | ⟨rfl, hnew⟩ | ⟨e', hmem, rfl⟩ := ih hnodup h
        · exact .inl ⟨List.mem_cons_of_mem _ hmem, hne⟩
        · refine .inr (.inl ⟨rfl, fun hin => ?_⟩)
          obtain hin | hin := List.mem_cons.1 hin
          · exact hb hin.symm
          · exact hnew hin
        · exact .inr (.inr ⟨e', List.mem_cons_of_mem _ hmem, rfl⟩)

/-- A feasible case adds its value to the condition of its block. -/
theorem Targets.add {matched : Expr} (h : Targets M value defaultDest cases targets) (hbb : bb ≠ defaultDest)
    (hm : Says M matched fun a => value a = x) (hsat : ∃ a, M a ∧ value a = x) :
    Targets M value defaultDest (cases ++ [(x, bb)]) (addTarget bb matched targets) where
  nodup := by
    rw [map_addTarget]
    split
    · exact h.nodup
    · rename_i hnew
      exact List.nodup_append.2 ⟨h.nodup, List.nodup_singleton bb, fun b hb b' hb' heq => hnew (by
        rwa [← List.mem_singleton.1 hb', ← heq])⟩
  notDefault y hy := by
    obtain ⟨hmem, -⟩ | ⟨rfl, -⟩ | ⟨e, -, rfl⟩ := mem_addTarget h.nodup hy
    · exact h.notDefault y hmem
    · exact hbb
    · exact hbb
  meaning y hy := by
    obtain ⟨hmem, hne⟩ | ⟨rfl, hnew⟩ | ⟨e, hmem, rfl⟩ := mem_addTarget h.nodup hy
    · refine (h.meaning y hmem).congr fun a _ => ?_
      rw [leads_append]
      exact (or_iff_left fun hy => hne hy.1).symm
    · refine (hm.or (.ofBool false)).congr fun a ha => ?_
      -- no earlier case of the block is feasible, or the block would have a condition
      have hno : ¬Leads cases bb (value a) := fun hl => hnew (h.complete _ hl hbb ⟨a, ha, rfl⟩)
      rw [leads_append]
      simp [hno]
    · refine (hm.or (h.meaning _ hmem)).congr fun a _ => ?_
      rw [leads_append]
      simp only [true_and]
      exact or_comm
  feasible y hy := by
    obtain ⟨hmem, -⟩ | ⟨rfl, -⟩ | ⟨e, -, rfl⟩ := mem_addTarget h.nodup hy
    · obtain ⟨a, ha, hl⟩ := h.feasible y hmem
      exact ⟨a, ha, leads_append.2 (.inl hl)⟩
    · obtain ⟨a, ha, hx⟩ := hsat
      exact ⟨a, ha, leads_append.2 (.inr ⟨rfl, hx⟩)⟩
    · obtain ⟨a, ha, hx⟩ := hsat
      exact ⟨a, ha, leads_append.2 (.inr ⟨rfl, hx⟩)⟩
  complete c hc hne hex := by
    rw [map_addTarget]
    obtain hc | hc := List.mem_append.1 hc
    · have hmem := h.complete c hc hne hex
      split
      · exact hmem
      · exact List.mem_append_left _ hmem
    · obtain rfl := List.mem_singleton.1 hc
      split
      · assumption
      · exact List.mem_append_right _ (List.mem_singleton.2 rfl)

/-- No case with another block than the default one has the value. -/
def Defaults (cases : List (BitVec w × BasicBlock)) (defaultDest : BasicBlock) (y : BitVec w) : Prop :=
  ∀ c ∈ cases, c.2 ≠ defaultDest → y ≠ c.1

theorem defaults_append : Defaults (cases ++ [(x, bb)]) defaultDest y ↔
    Defaults cases defaultDest y ∧ (bb ≠ defaultDest → y ≠ x) := by
  constructor
  · intro h
    exact ⟨fun c hc => h c (List.mem_append_left _ hc), h _ (List.mem_append_right _ (List.mem_singleton.2 rfl))⟩
  · rintro ⟨h, hx⟩ c hc
    obtain hc | hc := List.mem_append.1 hc
    · exact h c hc
    · obtain rfl := List.mem_singleton.1 hc
      exact hx

/-- A block other than the default one is the target of the values of its cases. -/
theorem leads_iff (h : Ordered cases) (hne : bb ≠ defaultDest) :
    Leads cases bb x ↔ switchTarget cases defaultDest x = bb := by
  constructor
  · exact fun hl => switchTarget_of_mem h defaultDest hl
  · intro htarget
    by_contra hno
    obtain ⟨c, hc, rfl⟩ | hall : (∃ c ∈ cases, c.1 = x) ∨ ∀ c ∈ cases, c.1 ≠ x := by
      by_cases hex : ∃ c ∈ cases, c.1 = x
      · exact .inl hex
      · exact .inr fun c hc heq => hex ⟨c, hc, heq⟩
    · rw [switchTarget_of_mem h defaultDest hc] at htarget
      subst htarget
      exact hno hc
    · exact hne ((switchTarget_of_forall hall).symm.trans htarget).symm

/-- The default block is the target of the other values. -/
theorem defaults_iff (h : Ordered cases) :
    Defaults cases defaultDest x ↔ switchTarget cases defaultDest x = defaultDest := by
  constructor
  · intro hdef
    by_contra hne
    have hl : Leads cases (switchTarget cases defaultDest x) x := (leads_iff h hne).2 rfl
    exact hdef _ hl hne rfl
  · rintro htarget ⟨y, b⟩ hc hb rfl
    exact hb ((switchTarget_of_mem h defaultDest hc).symm.trans htarget)

/-- The blocks that a switch branches to divide the models by the target of the concrete switch. -/
structure Divides (M : Assignment → Prop) (value : Assignment → BitVec w) (target : BitVec w → BasicBlock)
    (targets : List (BasicBlock × Expr)) : Prop where
  nodup : (targets.map (·.1)).Nodup
  meaning : ∀ x ∈ targets, Says M x.2 fun a => target (value a) = x.1
  feasible : ∀ x ∈ targets, ∃ a, M a ∧ target (value a) = x.1
  covers : ∀ a, M a → target (value a) ∈ targets.map (·.1)

/-- The targets of the cases and, if it is feasible, the default block. -/
theorem Targets.divides {order : List (BitVec w × BasicBlock)} (h : Targets M value defaultDest order targets)
    (hord : Ordered order) {d : Expr} (hd : Says M d fun a => Defaults order defaultDest (value a)) {b : Bool}
    (hb : b = true ↔ ∃ a, M a ∧ d.Holds a) :
    Divides M value (switchTarget order defaultDest) (targets ++ if b then [(defaultDest, d)] else []) := by
  have hlast : ∀ x ∈ (if b then [(defaultDest, d)] else []), x = (defaultDest, d) ∧ b = true := by
    cases b with
    | false => exact fun x hx => absurd hx List.not_mem_nil
    | true => exact fun x hx => ⟨List.mem_singleton.1 hx, rfl⟩
  refine ⟨?_, fun x hx => ?_, fun x hx => ?_, fun a ha => ?_⟩
  · rw [List.map_append]
    refine List.nodup_append.2 ⟨h.nodup, ?_, fun y hy z hz heq => ?_⟩
    · cases b with
      | false => exact List.nodup_nil
      | true => exact List.nodup_singleton _
    · obtain ⟨x, hx, rfl⟩ := List.mem_map.1 hy
      obtain ⟨x', hx', rfl⟩ := List.mem_map.1 hz
      rw [(hlast x' hx').1] at heq
      exact h.notDefault x hx heq
  · obtain hx | hx := List.mem_append.1 hx
    · exact (h.meaning x hx).congr fun a _ => leads_iff hord (h.notDefault x hx)
    · rw [(hlast x hx).1]
      exact hd.congr fun a _ => defaults_iff hord
  · obtain hx | hx := List.mem_append.1 hx
    · obtain ⟨a, ha, hl⟩ := h.feasible x hx
      exact ⟨a, ha, (leads_iff hord (h.notDefault x hx)).1 hl⟩
    · obtain ⟨rfl, hb'⟩ := hlast x hx
      obtain ⟨a, ha, hh⟩ := hb.1 hb'
      exact ⟨a, ha, (defaults_iff hord).1 ((hd.holds_iff a ha).1 hh)⟩
  · rw [List.map_append]
    by_cases htarget : switchTarget order defaultDest (value a) = defaultDest
    · have hh := (hd.holds_iff a ha).2 ((defaults_iff hord).2 htarget)
      rw [hb.2 ⟨a, ha, hh⟩, htarget]
      exact List.mem_append_right _ (List.mem_singleton.2 rfl)
    · have hl : Leads order _ (value a) := (leads_iff hord htarget).2 rfl
      exact List.mem_append_left _ (h.complete _ hl htarget ⟨a, ha, rfl⟩)

end

end

/-! ### The states of `branch` -/

section
variable {D M : Assignment → Prop} {s : Executor} {p : Ptr} {v : View} {env : Env} {E : Executor → Prop}
  {e : Expr} {w : ℕ} {addressSpace : AddressSpace}

/-- `branch` makes a new state for every condition but the first. -/
theorem branchStates_spec [ExprOptions] {V : View} (n : ℕ) (result : List Ptr) (hne : result ≠ [])
    (hview : ∀ q ∈ result, s.view q = some V) :
    Prog.wp (branchStates env n result)
      (fun r t => r = result ++ List.range' s.nextPtr n ∧ t.nextPtr = s.nextPtr + n ∧
        (∀ q ∈ r, t.view q = some V) ∧ Carries s t) E s := by
  induction n generalizing s result with
  | zero => exact ⟨by rw [List.range'_zero, List.append_nil], rfl, hview, rfl, rfl⟩
  | succ n ih =>
    unfold branchStates random tick
    simp only [Prog.wp_bind, Prog.wp_gets, wp_modifyAux, Prog.wp_pure, Prog.wp_unwrap, wp_spawn]
    have hlt : env.random s.aux.clock % result.length < result.length :=
      Nat.mod_lt _ (List.length_pos_iff.2 hne)
    refine ⟨fun es hes => ⟨fun state hstate => ?_, fun hnone => ?_⟩, fun hnone => ?_⟩
    · have hes' := hview es (List.mem_of_getElem? hes)
      have hall := view_spawned (s := { s with aux := { s.aux with clock := s.aux.clock + 1 } }) hstate
      have hmem : ∀ q ∈ result ++ [s.nextPtr],
          (spawned { s with aux := { s.aux with clock := s.aux.clock + 1 } } es state).view q = some V := by
        intro q hq
        rw [hall]
        split
        · exact hes'
        · rename_i hnew
          obtain hq | hq := List.mem_append.1 hq
          · exact hview q hq
          · exact absurd (List.mem_singleton.1 hq) hnew
      refine (ih (result ++ [s.nextPtr]) (List.append_ne_nil_of_right_ne_nil _ (List.cons_ne_nil _ _)) hmem).mono
        (fun r t ht => ?_) fun _ => id
      obtain ⟨hr, hnext, hviews, hcarries⟩ := ht
      refine ⟨?_, ?_, hviews, hcarries.seedMap, hcarries.atMemoryLimit⟩
      · rw [hr, List.append_assoc]
        rfl
      · rw [hnext]
        exact Nat.add_right_comm s.nextPtr 1 n
    · obtain ⟨state, hstate, -⟩ := view_eq_some.1 (hview es (List.mem_of_getElem? hes))
      exact absurd (hstate.symm.trans hnone) (Option.some_ne_none _)
    · exact absurd hlt (not_lt.2 (List.getElem?_eq_none_iff.1 hnone))

/-- Every state gets the constraint of its own. -/
theorem addConstraints_spec [ExprOptions] (l : List (Ptr × Expr)) (hnodup : (l.map (·.1)).Nodup)
    (hpath : ∀ x ∈ l, PathAt D M s x.1 v)
    (hcond : ∀ x ∈ l, x.2.HasWidth 1 ∧ (∀ a, M a → x.2.Defined a) ∧ ∃ a, M a ∧ x.2.Holds a)
    (hseeds : ∀ q, s.aux.seedMap q = none) :
    Prog.wp (addConstraints env (l.map fun x => (some x.1, x.2)))
      (fun _ t => (∀ x ∈ l, PathAt D (fun a => M a ∧ x.2.Holds a) t x.1 v) ∧ t.nextPtr = s.nextPtr ∧
        ∀ q ∉ l.map (·.1), t.view q = s.view q) E s := by
  induction l generalizing s with
  | nil => exact ⟨nofun, rfl, fun _ _ => rfl⟩
  | cons x l ih =>
    obtain ⟨hnot, hnodup⟩ := List.nodup_cons.1 hnodup
    obtain ⟨hw, hdef, hsat⟩ := hcond x List.mem_cons_self
    refine Prog.wp.bind (addConstraint_spec (.inl (hseeds x.1)) (hpath x List.mem_cons_self) hw hdef hsat)
      fun _ t ht => ?_
    obtain ⟨honly, hx, haux⟩ := ht
    have hother : ∀ y ∈ l, y.1 ≠ x.1 := fun y hy heq => hnot (List.mem_map.2 ⟨y, hy, heq⟩)
    refine (ih hnodup (fun y hy => ?_) (fun y hy => hcond y (List.mem_cons_of_mem _ hy)) ?_).mono
      (fun _ u hu => ?_) fun _ => id
    · exact (hpath y (List.mem_cons_of_mem _ hy)).of_view (honly.others y.1 (hother y hy))
    · rw [haux (hseeds x.1)]
      exact hseeds
    · obtain ⟨hpaths, hnext, hothers⟩ := hu
      refine ⟨fun y hy => ?_, hnext.trans honly.nextPtr, fun q hq => ?_⟩
      · obtain rfl | hy := List.mem_cons.1 hy
        · exact hx.of_view (hothers _ hnot)
        · exact hpaths y hy
      · rw [hothers q (List.not_mem_of_not_mem_cons hq), honly.others q (List.ne_of_not_mem_cons hq)]

/-- **`branch` without limits.**  The state and the new states divide the path condition by the conditions. -/
theorem branch_free [ExprOptions] (h : PathAt D M s p v) (hp : p < s.nextPtr) (conditions : List Expr)
    (hne : conditions ≠ [])
    (hcond : ∀ c ∈ conditions, c.HasWidth 1 ∧ (∀ a, M a → c.Defined a) ∧ ∃ a, M a ∧ c.Holds a)
    (hseeds : ∀ q, s.aux.seedMap q = none) (hperm : Permitted env s v) :
    Prog.wp (branch env p conditions)
      (fun result t => result = (p :: List.range' s.nextPtr (conditions.length - 1)).map some ∧
        t.nextPtr = s.nextPtr + (conditions.length - 1) ∧
        ∀ x ∈ (p :: List.range' s.nextPtr (conditions.length - 1)).zip conditions,
          PathAt D (fun a => M a ∧ x.2.Holds a) t x.1 v) E s := by
  obtain ⟨constraints, hview, hd⟩ := h
  have hpath : PathAt D M s p v := ⟨constraints, hview, hd⟩
  unfold branch
  rw [Prog.wp_bind, Prog.wp_assert]
  refine ⟨fun _ => ?_, fun hnot => absurd hne hnot⟩
  have hresult : Prog.wp (branchResult env p conditions.length)
      (fun r t => r = (p :: List.range' s.nextPtr (conditions.length - 1)).map some ∧
        t.nextPtr = s.nextPtr + (conditions.length - 1) ∧
        (∀ q ∈ p :: List.range' s.nextPtr (conditions.length - 1), PathAt D M t q v) ∧ Carries s t) E s := by
    unfold branchResult
    refine Prog.wp.bind (branchingPermitted_spec hpath hperm) fun b t ht => ?_
    obtain ⟨rfl, rfl⟩ := ht
    rw [if_pos rfl, Prog.wp_bind, wp_modifyAux]
    refine Prog.wp.bind (branchStates_spec (V := { v with constraints := constraints }) _ [p]
      (List.cons_ne_nil _ _) fun q hq => ?_) fun r u hu => ?_
    · rw [List.mem_singleton.1 hq]
      exact hview
    · obtain ⟨rfl, hnext, hviews, hcarries⟩ := hu
      exact ⟨rfl, hnext, fun q hq => ⟨constraints, hviews q hq, hd⟩, hcarries.seedMap, hcarries.atMemoryLimit⟩
  refine Prog.wp.bind hresult fun r t ht => ?_
  obtain ⟨rfl, hnext, hpaths, hcarries⟩ := ht
  have hseeds' : ∀ q, t.aux.seedMap q = none := fun q => by rw [hcarries.seedMap, hseeds]
  unfold redistributeSeeds seedsOf
  rw [Prog.wp_bind, Prog.wp_bind, Prog.wp_gets, hseeds', Prog.wp_pure]
  rw [List.zip_map_left]
  have hlength : (p :: List.range' s.nextPtr (conditions.length - 1)).length = conditions.length := by
    rw [List.length_cons, List.length_range']
    exact Nat.sub_add_cancel (List.length_pos_iff.2 hne)
  have hmap := List.map_fst_zip hlength.le
  have hnodup : (p :: List.range' s.nextPtr (conditions.length - 1)).Nodup := by
    refine List.nodup_cons.2 ⟨fun hmem => ?_, List.nodup_range'⟩
    exact absurd (List.mem_range'_1.1 hmem).1 (not_le.2 hp)
  refine Prog.wp.bind (addConstraints_spec
    ((p :: List.range' s.nextPtr (conditions.length - 1)).zip conditions) (hmap.symm ▸ hnodup)
    (fun x hx => hpaths x.1 (List.of_mem_zip hx).1) (fun x hx => hcond x.2 (List.of_mem_zip hx).2) hseeds')
    fun _ u hu => ?_
  exact ⟨rfl, hu.2.1.trans hnext, hu.1⟩

/-- Every state goes on in its block. -/
theorem transferAll_spec (src : BasicBlock) (l : List (BasicBlock × Ptr)) (hnodup : (l.map (·.2)).Nodup) :
    Prog.wp (transferAll env src (l.map fun x => (x.1, some x.2)))
      (fun _ t => SameViews s t ∧ (∀ x ∈ l, ∀ state, t.heap x.2 = some state → state.pc = x.1.entry) ∧
        ∀ q ∉ l.map (·.2), t.heap q = s.heap q) E s := by
  induction l generalizing s with
  | nil => exact ⟨.refl s, nofun, fun _ _ => rfl⟩
  | cons x l ih =>
    obtain ⟨hnot, hnodup⟩ := List.nodup_cons.1 hnodup
    refine Prog.wp.bind (transferTo_spec x.1 src (some x.2)) fun _ t ht => ?_
    obtain ⟨hviews, hpc, hothers, -⟩ := ht
    refine (ih hnodup).mono (fun _ u hu => ?_) fun _ => id
    obtain ⟨hviews', hpcs, hothers'⟩ := hu
    refine ⟨hviews.trans hviews', fun y hy state hstate => ?_, fun q hq => ?_⟩
    · obtain rfl | hy := List.mem_cons.1 hy
      · exact hpc _ rfl state ((hothers' _ hnot).symm.trans hstate)
      · exact hpcs y hy state hstate
    · rw [hothers' q (List.not_mem_of_not_mem_cons hq)]
      exact hothers q fun heq => List.ne_of_not_mem_cons hq (Option.some.inj heq).symm

/-! ### The successors of a switch -/

/-- The state itself, and the states made since. -/
def Successor (s t : Executor) (p q : Ptr) : Prop := q = p ∨ s.nextPtr ≤ q ∧ q < t.nextPtr

/-- The successors, each with the block where it goes on. -/
def Switched (D M : Assignment → Prop) (value : Assignment → BitVec w) (target : BitVec w → BasicBlock)
    (s t : Executor) (p : Ptr) : Prop :=
  ∃ l : List (Ptr × BasicBlock), (l.map (·.1)).Nodup ∧ (l.map (·.2)).Nodup ∧
    (∀ q, Successor s t p q ↔ q ∈ l.map (·.1)) ∧
    (∀ x ∈ l, GoesOn D (fun a => M a ∧ target (value a) = x.2) t x.1 x.2) ∧
    ∀ a, M a → target (value a) ∈ l.map (·.2)

/-- Every successor goes on in a block under the models with that target, and every model has one successor. -/
structure SwitchesExactly (D : Assignment → Prop) (constraints : ConstraintSet) (value : Assignment → BitVec w)
    (cases : List (BitVec w × BasicBlock)) (defaultDest : BasicBlock) (s t : Executor) (p : Ptr) : Prop where
  goesOn : ∀ q, Successor s t p q → ∃ state block, t.heap q = some state ∧ state.pc = block.entry ∧
    (∃ a, D a ∧ Satisfies a state.constraints) ∧ ∀ a, D a →
      (Satisfies a state.constraints ↔ Satisfies a constraints ∧ switchTarget cases defaultDest (value a) = block)
  disjoint : ∀ q q' state state', Successor s t p q → Successor s t p q' → q ≠ q' → t.heap q = some state →
    t.heap q' = some state' → ∀ a, D a → ¬(Satisfies a state.constraints ∧ Satisfies a state'.constraints)
  covers : ∀ a, D a → Satisfies a constraints → ∃ q state, Successor s t p q ∧ t.heap q = some state ∧
    state.pc = (switchTarget cases defaultDest (value a)).entry ∧ Satisfies a state.constraints

theorem Switched.exactly {constraints : ConstraintSet} {value : Assignment → BitVec w}
    {cases : List (BitVec w × BasicBlock)} {defaultDest : BasicBlock} {t : Executor}
    (h : Switched D (fun a => D a ∧ Satisfies a constraints) value (switchTarget cases defaultDest) s t p) :
    SwitchesExactly D constraints value cases defaultDest s t p := by
  obtain ⟨l, hptrs, hblocks, hsucc, hgoes, hcovers⟩ := h
  have hiff : ∀ x ∈ l, ∀ state, t.heap x.1 = some state → ∀ a, D a →
      (Satisfies a state.constraints ↔ Satisfies a constraints ∧ switchTarget cases defaultDest (value a) = x.2) := by
    intro x hx state hstate a ha
    obtain ⟨state', hstate', -, hd⟩ := hgoes x hx
    obtain rfl : state = state' := Option.some.inj (hstate.symm.trans hstate')
    have hsat := hd.satisfies_iff a
    exact ⟨fun hs => ⟨(hsat.1 ⟨ha, hs⟩).1.2, (hsat.1 ⟨ha, hs⟩).2⟩, fun hs => (hsat.2 ⟨⟨ha, hs.1⟩, hs.2⟩).2⟩
  refine ⟨fun q hq => ?_, fun q q' state state' hq hq' hne hstate hstate' a ha hboth => ?_, fun a ha hs => ?_⟩
  · obtain ⟨x, hx, rfl⟩ := List.mem_map.1 ((hsucc q).1 hq)
    obtain ⟨state, hstate, hpc, hd⟩ := hgoes x hx
    obtain ⟨a, ha⟩ := hd.feasible
    exact ⟨state, x.2, hstate, hpc, ⟨a, (hd.satisfies_iff a).2 ha⟩, hiff x hx state hstate⟩
  · obtain ⟨x, hx, rfl⟩ := List.mem_map.1 ((hsucc q).1 hq)
    obtain ⟨x', hx', rfl⟩ := List.mem_map.1 ((hsucc q').1 hq')
    have hblock := ((hiff x hx state hstate a ha).1 hboth.1).2.symm.trans
      ((hiff x' hx' state' hstate' a ha).1 hboth.2).2
    exact hne (congrArg Prod.fst (List.inj_on_of_nodup_map hblocks hx hx' hblock))
  · obtain ⟨x, hx, hblock⟩ := List.mem_map.1 (hcovers a ⟨ha, hs⟩)
    obtain ⟨state, hstate, hpc, hd⟩ := hgoes x hx
    refine ⟨x.1, state, (hsucc x.1).2 (List.mem_map_of_mem hx), hstate, hblock ▸ hpc, ?_⟩
    exact (hiff x hx state hstate a ha).2 ⟨hs, hblock.symm⟩

variable [ExprOptions]

/-- `toUnique` gives an expression with the same values, and a constant where there is only one. -/
theorem toUnique_spec {value : Assignment → BitVec w} (hright : env.solver.Right D)
    (h : KnownAt D M s p addressSpace) (he : Computed M e value) :
    Prog.wp (toUnique env p e) (fun e' t => Ticked s t ∧ Computed M e' value ∧
      (env.solver.Total → ∀ y, (∀ a, M a → value a = y) → e'.isConstant = true)) E s := by
  unfold toUnique
  rw [Prog.wp_ite]
  refine ⟨fun hc => ⟨.refl s, he, fun _ _ _ => hc⟩, fun _ => ?_⟩
  refine Prog.wp.bind (getValue_spec hright h he.1.wf fun a ha => (he.2 a ha).defined) fun o t ht => ?_
  obtain ⟨htick, hvalue, hsome⟩ := ht
  cases o with
  | none => exact ⟨htick, he, fun htotal => absurd (hsome htotal) nofun⟩
  | some x =>
    have hw : e.HasWidth e.getWidth := ⟨he.1.wf, rfl⟩
    refine Prog.wp.bind (mustBeTrue_spec hright (h.of_ticked htick) (eqConst_hasWidth x hw)
      fun a ha => eqConst_defined x hw (he.2 a ha).defined) fun b u hu => ?_
    obtain ⟨htick', hmust, hmustSome⟩ := hu
    refine ⟨htick.trans htick', ?_⟩
    obtain rfl := he.1.width
    by_cases hb : b = some true
    · rw [if_pos hb]
      refine ⟨⟨hasWidth_const x, fun a ha => ?_⟩, fun _ _ _ => rfl⟩
      have hden := (eqConst_holds_iff hw (he.2 a ha).defined).1 ((hmust true hb).1 rfl a ha)
      rw [← (he.2 a ha).value, hden.value]
      exact denotes_const x
    · rw [if_neg hb]
      refine ⟨he, fun htotal y hy => absurd ?_ hb⟩
      -- the value that the solver gave is the only one
      obtain ⟨a₀, ha₀, hx⟩ := hvalue x rfl
      obtain ⟨b, rfl⟩ := Option.isSome_iff_exists.1 (hmustSome htotal)
      refine congrArg some ((hmust b rfl).2 fun a ha => (eqConst_holds_iff hw (he.2 a ha).defined).2 ?_)
      rw [← hx.value, (he.2 a₀ ha₀).value, hy a₀ ha₀, ← hy a ha]
      exact he.2 a ha

/-- The loop over the ordered cases. -/
theorem feasibleCases_spec {value : Assignment → BitVec w} {defaultDest : BasicBlock} (hright : env.solver.Right D)
    (htotal : env.solver.Total) (h : KnownAt D M s p addressSpace) (he : Computed M e value)
    (cases : List (BitVec w × BasicBlock)) (processed : List (BitVec w × BasicBlock))
    (targets : List (BasicBlock × Expr)) (defaultValue : Expr) (htargets : Targets M value defaultDest processed targets)
    (hdefault : Says M defaultValue fun a => Defaults processed defaultDest (value a)) :
    Prog.wp (feasibleCases env p e defaultDest cases targets defaultValue)
      (fun r t => Ticked s t ∧ Targets M value defaultDest (processed ++ cases) r.1 ∧
        Says M r.2 fun a => Defaults (processed ++ cases) defaultDest (value a)) E s := by
  induction cases generalizing s processed targets defaultValue with
  | nil =>
    rw [List.append_nil]
    exact ⟨.refl s, htargets, hdefault⟩
  | cons c cases ih =>
    obtain ⟨x, bb⟩ := c
    rw [show processed ++ (x, bb) :: cases = processed ++ [(x, bb)] ++ cases from by simp]
    unfold feasibleCases
    rw [Prog.wp_ite]
    refine ⟨fun hbb => ?_, fun hbb => ?_⟩
    · refine ih h _ _ _ (htargets.skip (.inl hbb)) (hdefault.congr fun a _ => ?_)
      rw [defaults_append]
      exact (and_iff_left fun hne => absurd hbb hne).symm
    · have hmatch := Says.eqConst he x
      refine Prog.wp.bind (mayBeTrue_spec hright htotal h hmatch.hasWidth hmatch.defined) fun b t ht => ?_
      obtain ⟨htick, hb⟩ := ht
      have hex : (∃ a, M a ∧ (EqExpr.create e (.const x)).Holds a) ↔ ∃ a, M a ∧ value a = x :=
        exists_congr fun a => and_congr_right fun ha => hmatch.holds_iff a ha
      rw [hex] at hb
      have hnext : Targets M value defaultDest (processed ++ [(x, bb)])
          (if b then addTarget bb (EqExpr.create e (.const x)) targets else targets) := by
        cases b with
        | true => exact htargets.add hbb hmatch (hb.1 rfl)
        | false => exact htargets.skip (.inr fun a ha hx => absurd (hb.2 ⟨a, ha, hx⟩) nofun)
      have hdefault' : Says M (AndExpr.create defaultValue (createIsZero (EqExpr.create e (.const x))))
          fun a => Defaults (processed ++ [(x, bb)]) defaultDest (value a) := by
        refine (hdefault.and hmatch.isZero).congr fun a _ => ?_
        rw [defaults_append]
        exact and_congr_right fun _ => ⟨fun hne _ => hne, fun hne => hne hbb⟩
      refine (ih (h.of_ticked htick) _ _ _ hnext hdefault').mono (fun r u hu => ?_) fun _ => id
      exact ⟨htick.trans hu.1, hu.2⟩

/-- The states of `branch`, each transferred to its block. -/
theorem transferBranches_spec {value : Assignment → BitVec w} {target : BitVec w → BasicBlock}
    {targets : List (BasicBlock × Expr)} (src : BasicBlock) (h : PathAt D M s p v) (hp : p < s.nextPtr)
    (hseeds : ∀ q, s.aux.seedMap q = none) (hperm : Permitted env s v) (hdiv : Divides M value target targets) :
    Prog.wp (branch env p (targets.map (·.2)) >>= fun branches =>
        transferAll env src ((targets.map (·.1)).zip branches))
      (fun _ t => Switched D M value target s t p) E s := by
  have hne : targets ≠ [] := by
    rintro rfl
    obtain ⟨a, ha⟩ := h.feasible
    exact absurd (hdiv.covers a ha) List.not_mem_nil
  have hcond : ∀ c ∈ targets.map (·.2), c.HasWidth 1 ∧ (∀ a, M a → c.Defined a) ∧ ∃ a, M a ∧ c.Holds a := by
    intro c hc
    obtain ⟨x, hx, rfl⟩ := List.mem_map.1 hc
    have hmeans := hdiv.meaning x hx
    obtain ⟨a, ha, htarget⟩ := hdiv.feasible x hx
    exact ⟨hmeans.hasWidth, hmeans.defined, a, ha, (hmeans.holds_iff a ha).2 htarget⟩
  refine Prog.wp.bind (branch_free h hp _ (by simpa using hne) hcond hseeds hperm) fun branches t ht => ?_
  rw [List.length_map] at ht
  obtain ⟨rfl, hnext, hpaths⟩ := ht
  have hlength : (p :: List.range' s.nextPtr (targets.length - 1)).length = targets.length := by
    rw [List.length_cons, List.length_range']
    exact Nat.sub_add_cancel (List.length_pos_iff.2 hne)
  have hnodup : (p :: List.range' s.nextPtr (targets.length - 1)).Nodup := by
    refine List.nodup_cons.2 ⟨fun hmem => ?_, List.nodup_range'⟩
    exact absurd (List.mem_range'_1.1 hmem).1 (not_le.2 hp)
  have hsucc : ∀ q, Successor s t p q ↔ q ∈ p :: List.range' s.nextPtr (targets.length - 1) := by
    intro q
    unfold Successor
    rw [List.mem_cons, List.mem_range'_1, hnext]
  revert hpaths hlength hnodup hsucc
  generalize p :: List.range' s.nextPtr (targets.length - 1) = ptrs
  intro hpaths hlength hnodup hsucc
  -- the successors with their blocks and conditions
  have hptrs : (ptrs.zip targets).map (·.1) = ptrs := List.map_fst_zip hlength.le
  have htargets : (ptrs.zip targets).map (·.2) = targets := List.map_snd_zip hlength.ge
  have hzip : (targets.map (·.1)).zip (ptrs.map some) =
      ((ptrs.zip targets).map fun z => (z.2.1, z.1)).map fun x => (x.1, some x.2) := by
    rw [List.zip_map, ← List.zip_swap ptrs targets, List.map_map, List.map_map]
    rfl
  rw [hzip]
  have hnodup' : (((ptrs.zip targets).map fun z => (z.2.1, z.1)).map (·.2)).Nodup := by
    rw [List.map_map]
    show ((ptrs.zip targets).map (·.1)).Nodup
    rwa [hptrs]
  refine (transferAll_spec src _ hnodup').mono (fun _ u hu => ?_) fun _ => id
  obtain ⟨hviews, hpcs, -⟩ := hu
  refine ⟨(ptrs.zip targets).map fun z => (z.1, z.2.1), ?_, ?_, fun q => ?_, ?_, fun a ha => ?_⟩
  · rw [List.map_map]
    show ((ptrs.zip targets).map (·.1)).Nodup
    rwa [hptrs]
  · rw [List.map_map]
    show ((ptrs.zip targets).map ((·.1) ∘ (·.2))).Nodup
    rw [← List.map_map, htargets]
    exact hdiv.nodup
  · have hsame : Successor s u p q ↔ Successor s t p q := by
      unfold Successor
      rw [hviews.nextPtr]
    rw [hsame, hsucc q, List.map_map]
    show _ ↔ q ∈ (ptrs.zip targets).map (·.1)
    rw [hptrs]
  · intro x hx
    obtain ⟨z, hz, rfl⟩ := List.mem_map.1 hx
    have hz' : (z.1, z.2.2) ∈ ptrs.zip (targets.map (·.2)) := by
      rw [List.zip_map_right]
      exact List.mem_map.2 ⟨z, hz, rfl⟩
    have hz2 := (List.of_mem_zip hz).2
    have hpath := ((hpaths _ hz').of_view (hviews.views z.1)).congr
      fun a => and_congr_right fun ha => (hdiv.meaning z.2 hz2).holds_iff a ha
    obtain ⟨state, hstate, -, hd⟩ := hpath.state
    exact ⟨state, hstate, hpcs (z.2.1, z.1) (List.mem_map.2 ⟨z, hz, rfl⟩) state hstate, hd⟩
  · rw [List.map_map]
    show _ ∈ (ptrs.zip targets).map ((·.1) ∘ (·.2))
    rw [← List.map_map, htargets]
    exact hdiv.covers a ha

theorem branchSwitch_spec {value : Assignment → BitVec w} (hright : env.solver.Right D) (htotal : env.solver.Total)
    (h : PathAt D M s p v) (hp : p < s.nextPtr) (he : Computed M e value) (hseeds : ∀ q, s.aux.seedMap q = none)
    (hperm : Permitted env s v) (block : BasicBlock) (cases : List (BitVec w × BasicBlock))
    (defaultDest : BasicBlock) :
    Prog.wp (branchSwitch env p block e cases defaultDest)
      (fun _ t => Switched D M value (switchTarget cases defaultDest) s t p) E s := by
  unfold branchSwitch
  rw [Prog.wp_bind, Prog.wp_assert]
  refine ⟨fun _ => ?_, fun hnot => absurd he.1 hnot⟩
  -- the transfers on the way change where the state goes on, and nothing else
  have hloop := Prog.wp.each (σ := Executor) (E := E) (s := s) (I := fun t => SameViews s t ∧ t.aux = s.aux)
    (P := fun _ _ => True)
    (f := fun c : BitVec w × BasicBlock =>
      Prog.when (c.2.name = targetBB env block.name) (transferToBasicBlock env c.2 block p)) cases
    (fun c _ t ht => by
      rw [Prog.wp_when]
      refine ⟨fun _ => ?_, fun _ => ⟨ht, trivial, fun _ _ => trivial⟩⟩
      exact ⟨⟨ht.1.trans (sameViews_written fun _ => rfl), ht.2⟩, trivial, fun _ _ => trivial⟩)
    ⟨.refl s, rfl⟩
  refine Prog.wp.bind hloop fun _ t ht => ?_
  obtain ⟨⟨hviews, haux⟩, -, -⟩ := ht
  have hpath := h.of_view (hviews.views p)
  obtain ⟨hord, hfind⟩ := order_spec cases [] List.Pairwise.nil
  have htarget : switchTarget (cases.foldl (fun order c => insertCase c order) []) defaultDest =
      switchTarget cases defaultDest := by
    funext y
    unfold switchTarget
    rw [hfind y, List.find?_nil, Option.none_or]
  refine Prog.wp.bind (feasibleCases_spec hright htotal hpath.known he
    (cases.foldl (fun order c => insertCase c order) []) [] [] (ofBool true)
    ⟨List.nodup_nil, nofun, nofun, nofun, nofun⟩ ((Says.ofBool true).congr fun _ _ => iff_of_true rfl nofun))
    fun r t₁ ht₁ => ?_
  obtain ⟨htick₁, htargets, hdefault⟩ := ht₁
  rw [List.nil_append] at htargets hdefault
  refine Prog.wp.bind (mayBeTrue_spec hright htotal (hpath.known.of_ticked htick₁) hdefault.hasWidth
    hdefault.defined) fun b t₂ ht₂ => ?_
  obtain ⟨htick₂, hb⟩ := ht₂
  have hdiv := htargets.divides hord hdefault hb
  rw [htarget] at hdiv
  obtain ⟨n, rfl⟩ := htick₁.trans htick₂
  refine (transferBranches_spec block (hpath.of_view (SameViews.aux t _ |>.views p)) ?_ ?_ ?_ hdiv).mono
    (fun _ u hu => ?_) fun _ => id
  rotate_right
  · obtain ⟨l, hptrs, hblocks, hsucc, hrest⟩ := hu
    refine ⟨l, hptrs, hblocks, fun q => ?_, hrest⟩
    rw [← hsucc q]
    unfold Successor
    rw [show s.nextPtr = t.nextPtr from hviews.nextPtr.symm]
  · exact lt_of_lt_of_eq hp hviews.nextPtr.symm
  · exact fun q => by rw [haux, hseeds]
  · rw [haux]
    exact ⟨hperm.memory, hperm.forkDisabled, hperm.inhibitForking, hperm.maxForks⟩

/-- **The successors of a switch.**  Without a target block for its block and without seeds, and where branching
is permitted, a switch ends and its successors divide the path condition by the target of the concrete switch: unless its
condition has more than 64 bits and one value only. -/
theorem switch_exact (env : Env) (D : Assignment → Prop) (hright : env.solver.Right D) (htotal : env.solver.Total)
    (s : Executor) (p : Ptr) (hp : p < s.nextPtr) (state : ExecutionState) (hstate : s.heap p = some state)
    (hb : state.constraints.IsBool) (cond : Operand) (e : Expr) (heval : eval p cond s = (some e, s))
    (he : e.HasWidth w) (hD : ∀ a, D a → Evaluates a state.constraints ∧ e.Defined a)
    (hsat : ∃ a, D a ∧ Satisfies a state.constraints)
    (hnarrow : 64 < w → ∀ x, ∃ a, (D a ∧ Satisfies a state.constraints) ∧ e.eval a w ≠ x)
    (hseeds : ∀ q, s.aux.seedMap q = none) (hperm : Permitted env s (viewOf state)) (block : BasicBlock)
    (htarget : targetBB env block.name = "")
    (cases : List (BitVec w × BasicBlock)) (defaultDest : BasicBlock) :
    ∃ t, executeSwitch env p block cond cases defaultDest s = (some (), t) ∧
      SwitchesExactly D state.constraints (fun a => e.eval a w) cases defaultDest s t p := by
  have hpath : PathAt D (fun a => D a ∧ Satisfies a state.constraints) s p (viewOf state) :=
    ⟨state.constraints, view_eq_some.2 ⟨state, hstate, rfl⟩, .start hb (fun a ha => (hD a ha).1) hsat⟩
  have hcomp : Computed (fun a => D a ∧ Satisfies a state.constraints) e fun a => e.eval a w :=
    ⟨he, fun a ha => .self (hD a ha.1).2 w⟩
  have hspec : Prog.wp (executeSwitch env p block cond cases defaultDest)
      (fun _ t => Switched D (fun a => D a ∧ Satisfies a state.constraints) (fun a => e.eval a w)
        (switchTarget cases defaultDest) s t p) (fun _ => False) s := by
    unfold executeSwitch
    refine Prog.wp.step heval ?_
    have hnone : (cases.find? fun c => decide (targetBB env block.name ≠ "" ∧ c.2.name = targetBB env block.name)) =
        none := List.find?_eq_none.2 fun c _ => by simp [htarget]
    dsimp only
    rw [hnone]
    refine Prog.wp.bind (toUnique_spec hright hpath.known hcomp) fun e' t ht => ?_
    obtain ⟨⟨n, rfl⟩, hcomp', -⟩ := ht
    rw [Prog.wp_ite]
    refine ⟨fun hc => ?_, fun _ => ?_⟩
    · have hval : ∀ a, D a ∧ Satisfies a state.constraints → e.eval a w = e'.eval (fun _ _ => 0) w := by
        intro a ha
        cases e' with
        | const x => exact (hcomp'.2 a ha).value.symm
        | _ => cases hc
      rw [Prog.wp_bind, Prog.wp_assert]
      refine ⟨fun _ => ?_, fun hwide => ?_⟩
      rotate_right
      · obtain ⟨a, ha, hne⟩ := hnarrow (not_le.1 hwide) (e'.eval (fun _ _ => 0) w)
        exact hne (hval a ha)
      refine (transferTo_spec (s := { s with aux := { s.aux with clock := n } })
        (switchTarget cases defaultDest (e'.eval (fun _ _ => 0) w)) block (some p)).mono (fun _ u hu => ?_)
        fun _ => id
      obtain ⟨hviews, hpc, -, -⟩ := hu
      refine ⟨[(p, switchTarget cases defaultDest (e'.eval (fun _ _ => 0) w))], List.nodup_singleton _,
        List.nodup_singleton _, fun q => ?_, fun x hx => ?_, fun a ha => ?_⟩
      · unfold Successor
        rw [hviews.nextPtr]
        refine ⟨fun h => ?_, fun h => .inl (List.mem_singleton.1 h)⟩
        obtain h | h := h
        · exact List.mem_singleton.2 h
        · exact absurd h.1 (not_le.2 h.2)
      · obtain rfl := List.mem_singleton.1 hx
        obtain ⟨state', hstate', -, hd⟩ := (hpath.of_view (hviews.views p)).state
        refine ⟨state', hstate', hpc p rfl state' hstate', hd.congr fun a => (and_iff_left_of_imp fun ha => ?_).symm⟩
        exact congrArg _ (hval a ha)
      · exact List.mem_singleton.2 (congrArg _ (hval a ha))
    · have hpath' := hpath.of_view (t := { s with aux := { s.aux with clock := n } }) (q := p) rfl
      refine (branchSwitch_spec hright htotal hpath' hp hcomp' hseeds ?_ block cases defaultDest).mono
        (fun _ u hu => hu) fun _ => id
      exact ⟨hperm.memory, hperm.forkDisabled, hperm.inhibitForking, hperm.maxForks⟩
  obtain ⟨_, t, hrun, hswitched⟩ := hspec.exists_result
  exact ⟨t, hrun, hswitched.exactly⟩

/-- A condition of more than 64 bits that has one value fails the assertion of `getZExtValue`. -/
theorem switch_wide (hright : env.solver.Right D) (htotal : env.solver.Total) (h : PathAt D M s p v)
    {value : Assignment → BitVec w} (he : Computed M e value) {y : BitVec w} (hy : ∀ a, M a → value a = y) (hwide : 64 < w)
    {cond : Operand} (heval : eval p cond s = (some e, s)) {block : BasicBlock} (htarget : targetBB env block.name = "")
    (cases : List (BitVec w × BasicBlock)) (defaultDest : BasicBlock) :
    Prog.wp (executeSwitch env p block cond cases defaultDest) (fun _ _ => False) (fun _ => True) s := by
  unfold executeSwitch
  refine Prog.wp.step heval ?_
  have hnone : (cases.find? fun c => decide (targetBB env block.name ≠ "" ∧ c.2.name = targetBB env block.name)) =
      none := List.find?_eq_none.2 fun c _ => by simp [htarget]
  dsimp only
  rw [hnone]
  refine Prog.wp.bind (toUnique_spec hright h.known he) fun e' t ht => ?_
  rw [if_pos (ht.2.2 htotal y hy), Prog.wp_bind, Prog.wp_assert]
  exact ⟨fun hle => absurd hwide (not_lt.2 hle), fun _ => trivial⟩

end

section
local instance branchOptions : ExprOptions := .defaults

/-- `x[0] < 7` can be true and can be false. -/
theorem condX_defined (a : Assignment) : condX.Defined a := ⟨⟨trivial, nofun⟩, trivial⟩

theorem condX_unknown : Validity.On (fun a => True ∧ Satisfies a []) condX .Unknown :=
  ⟨⟨fun _ _ => 0, ⟨trivial, List.forall_mem_nil _⟩, condX_defined _, by decide⟩,
    fun _ _ => 9, ⟨trivial, List.forall_mem_nil _⟩, condX_defined _, by decide⟩

theorem condX_hasWidth : condX.HasWidth 1 := by decide

/-- The branch on `x[0] < 7`. -/
theorem branchSides_exact_byte :
    BranchesExactly (exactEnv fun _ => True) (fun _ => True) loopStart 0 [] condX loopBlock loopBlock exitBlock :=
  branchSides_exact (exactEnv fun _ => True) (fun _ => True) (SolverChain.exact_right _)
    (SolverChain.exact_total _).evaluate loopStart 0 (by decide) (.init "f" 0 0) rfl nofun condX condX_hasWidth
    (fun a _ => ⟨nofun, condX_defined a⟩) ⟨fun _ _ => 0, trivial, nofun⟩ ⟨fun _ => rfl, rfl, rfl⟩ rfl
    ⟨rfl, rfl, rfl, rfl⟩ (fun _ => rfl) loopBlock loopBlock exitBlock

/-- Every assignment takes the path to the branch. -/
theorem loopStart_path :
    PathAt (fun _ => True) (fun a => True ∧ Satisfies a []) loopStart 0 (viewOf (.init "f" 0 0)) :=
  ⟨[], view_eq_some.2 ⟨.init "f" 0 0, rfl, rfl⟩, .start (List.forall_mem_nil _) (fun _ _ => List.forall_mem_nil _)
    ⟨fun _ _ => 0, trivial, List.forall_mem_nil _⟩⟩

theorem fork_spec_byte : Prog.wp (fork (exactEnv fun _ => True) 0 condX false)
    (fun branches t => Forked (fun _ => True) (fun a => True ∧ Satisfies a []) condX loopStart t 0 (viewOf (.init "f" 0 0))
      branches) (fun _ => True) loopStart :=
  fork_spec (SolverChain.exact_right _) (SolverChain.exact_total _).evaluate loopStart_path (by decide) condX_hasWidth
    (fun a _ => condX_defined a) false

theorem toConstant_spec_byte : Prog.wp (toConstant (exactEnv fun _ => True) 0 condX)
    (fun e' t => OnlyAt 0 loopStart t ∧ e'.isConstant = true ∧ ∃ M', (∀ a, M' a → True ∧ Satisfies a []) ∧
      Computed M' e' (fun a => condX.eval a 1) ∧ PathAt (fun _ => True) M' t 0 (viewOf (.init "f" 0 0)))
    (fun _ => True) loopStart :=
  toConstant_spec (SolverChain.exact_right _) loopStart_path ⟨condX_hasWidth, fun a _ => .self (condX_defined a) 1⟩

/-- The value of the switch is the first constant of the module. -/
def switchStart : Executor := start (.init "f" 0 0) { constantTable := fun n => if n = 0 then some byteX else none }

/-- The switch on `x[0]` with two cases for one block, and one for the default block. -/
theorem switch_exact_byte :
    ∃ t, executeSwitch (exactEnv fun _ => True) 0 loopBlock (.const 0)
        [(1#8, loopBlock), (2#8, exitBlock), (4#8, loopBlock)] exitBlock switchStart = (some (), t) ∧
      SwitchesExactly (fun _ => True) [] (fun a => byteX.eval a 8)
        [(1#8, loopBlock), (2#8, exitBlock), (4#8, loopBlock)] exitBlock switchStart t 0 :=
  switch_exact (exactEnv fun _ => True) (fun _ => True) (SolverChain.exact_right _) (SolverChain.exact_total _)
    switchStart 0 (by decide) (.init "f" 0 0) rfl nofun (.const 0) byteX rfl (by decide)
    (fun _ _ => ⟨nofun, trivial, nofun⟩) ⟨fun _ _ => 0, trivial, nofun⟩ (fun h => absurd h (by decide)) (fun _ => rfl)
    ⟨rfl, rfl, rfl, rfl⟩ loopBlock rfl _ exitBlock

/-- The path condition `x[0] = 1`. -/
def isOne : Expr := EqExpr.create byteX (.const 1#8)

/-- A state with this path condition; the first constant of the module stands for the value of the switch, `x[0]` in 128 bits. -/
def wideStart : Executor :=
  start { ExecutionState.init "f" 0 0 with constraints := [isOne] }
    { constantTable := fun n => if n = 0 then some (.zext byteX 128) else none }

/-- The switch on 128 bits that can only be 1 fails an assertion. -/
theorem switch_exact_wide_false :
    ¬∃ t, executeSwitch (exactEnv fun _ => True) 0 loopBlock (.const 0) [(1#128, loopBlock)] exitBlock wideStart =
      (some (), t) := by
  have hbyte : byteX.HasWidth 8 := by decide
  have hdef : ∀ a, byteX.Defined a := fun _ => ⟨trivial, nofun⟩
  have hone : ∀ a, isOne.Holds a ↔ byteX.Denotes a 1#8 := fun a => eqConst_holds_iff hbyte (hdef a)
  have hpath : PathAt (fun _ => True) (fun a => True ∧ Satisfies a [isOne]) wideStart 0
      (viewOf { ExecutionState.init "f" 0 0 with constraints := [isOne] }) := by
    refine ⟨_, view_eq_some.2 ⟨_, rfl, rfl⟩, .start ?_ ?_ ⟨fun _ _ => 1, trivial, ?_⟩⟩
    · exact List.forall_mem_singleton.2 (eqConst_hasWidth _ hbyte)
    · exact fun a _ => List.forall_mem_singleton.2 (eqConst_defined _ hbyte (hdef a))
    · exact List.forall_mem_singleton.2 ((hone _).2 (.self (hdef _) 8))
  have hcomp : Computed (fun a => True ∧ Satisfies a [isOne]) (.zext byteX 128) fun a => (Expr.zext byteX 128).eval a 128 :=
    ⟨by decide, fun a _ => .self (e := .zext byteX 128) (hdef a) 128⟩
  have hrun : Prog.wp (executeSwitch (exactEnv fun _ => True) 0 loopBlock (.const 0) [(1#128, loopBlock)] exitBlock)
      (fun _ _ => False) (fun _ => True) wideStart := switch_wide (SolverChain.exact_right _) (SolverChain.exact_total _)
    hpath hcomp (y := 1#128) ?_ (by decide) rfl rfl [(1#128, loopBlock)] exitBlock
  · rintro ⟨t, ht⟩
    rw [Prog.wp, ht] at hrun
    exact hrun
  · intro a ha
    have hvalue : byteX.eval a 8 = 1#8 := ((hone a).1 (List.forall_mem_singleton.1 ha.2)).value
    show BitVec.setWidth 128 (byteX.eval a 8) = _
    rw [hvalue]
    rfl

/-- No more forks are permitted. -/
noncomputable def limitedEnv : Env := .plain { MaxForks := some 0 } loopProgram (fun _ _ => none) (.exact fun _ => True)

/-- The fork takes the false side. -/
theorem fork_limited : Prog.wp (branchSides limitedEnv 0 loopBlock condX false loopBlock exitBlock)
    (fun sides t => sides = (none, some 0) ∧ ∃ state, t.heap 0 = some state ∧
      state.constraints = [createIsZero condX]) (fun _ => False) loopStart := by
  unfold branchSides
  rw [Prog.wp_bind]
  show Prog.wp (fork limitedEnv 0 condX false) _ _ _
  refine .step rfl (.step rfl ?_)
  have hanswer : evaluate limitedEnv 0 condX { loopStart with aux := { loopStart.aux with clock := 1 } } =
      (some (some .Unknown), { loopStart with aux := { loopStart.aux with clock := 2 } }) := by
    show (some ((SolverChain.exact fun _ => True).evaluate 1 [] condX), _) = _
    rw [SolverChain.exact_evaluate_unknown 1 condX_unknown]
  refine .step hanswer ?_
  rw [Prog.wp_bind]
  show Prog.wp (pickSide limitedEnv 0 condX false false .Unknown) _ _ _
  refine .step rfl (.step rfl (.step rfl ?_))
  refine .step rfl ?_
  have hc : (createIsZero condX).isConstant = false := by
    rw [createIsZero_condX]
    rfl
  rw [Prog.wp_bind]
  refine wp_addConstraint hc rfl rfl addConstraint_not_condX ?_
  exact ⟨rfl, _, rfl, rfl⟩

/-- **The fork limit breaks the cover.**  With a solver that answers every query rightly and without seeds,
replay or depth limit, the successors of the branch on `x[0] < 7` do not cover the path condition. -/
theorem forkLimit_not_exact :
    limitedEnv.solver.Right (fun _ => True) ∧ limitedEnv.solver.Total ∧ Unguided limitedEnv loopStart ∧
      limitedEnv.config.MaxDepth = 0 ∧
      ¬BranchesExactly limitedEnv (fun _ => True) loopStart 0 [] condX loopBlock loopBlock exitBlock := by
  refine ⟨SolverChain.exact_right _, SolverChain.exact_total _, ⟨fun _ => rfl, rfl, rfl⟩, rfl, fun h => ?_⟩
  obtain ⟨sides, t, hrun, rfl, state, hstate, hcs⟩ := fork_limited.exists_result
  obtain ⟨q, st, hq, hst, hs⟩ := (h.covers false _ t hrun (fun _ _ => 0) trivial).1 (List.forall_mem_nil _)
  obtain rfl : 0 = q := by simpa using hq
  obtain rfl : state = st := Option.some.inj (hstate.symm.trans hst)
  rw [hcs] at hs
  have hz := hs _ (List.mem_singleton.2 rfl)
  rw [Query.createIsZero_holds_iff condX_hasWidth (condX_defined _)] at hz
  exact absurd hz.value (by decide)

end

end Executor

end SymBisect
