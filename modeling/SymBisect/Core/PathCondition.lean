import SymBisect.Core.ExecutorSpec

/-!
# Path conditions

What `fork` and its callees do to the path condition of a state, for a solver whose answers are right.

The expressions of a state need not evaluate under every assignment, so everything is said about a set `D`
of assignments under which they do.  A path condition is known by its models in `D`.

* `Knows D M constraints`: the assignments in `D` that satisfy the constraints are those in `M`.
* `Describes D M constraints`: among the assignments in `D`, those in `M` satisfy the constraints and the
  others make one of them false; there is one in `M`.
* `SolverChain.Right D`: the answers are right about the assignments in `D`.
* `PathAt D M s p v`: the state at `p` has the stack and the objects of `v` and a path condition with the
  models `M`.
* `fork_spec`: the sides of a fork have the models of the two sides of the condition, in any configuration.
-/

namespace SymBisect

open Lib Expr ConstraintSet

/-! ### Sets of models -/

/-- The assignments in `D` that satisfy the constraints are those in `M`, and there is one. -/
structure Knows (D M : Assignment → Prop) (constraints : ConstraintSet) : Prop where
  isBool : constraints.IsBool
  feasible : ∃ a, M a
  models : ∀ a, D a ∧ Satisfies a constraints ↔ M a

theorem Knows.models_eq {D M : Assignment → Prop} {constraints : ConstraintSet} (h : Knows D M constraints) :
    (fun a => D a ∧ Satisfies a constraints) = M := funext fun a => propext (h.models a)

/-- Among the assignments in `D`, those in `M` satisfy the constraints, and the others make one false. -/
structure Describes (D M : Assignment → Prop) (constraints : ConstraintSet) : Prop where
  isBool : constraints.IsBool
  within : ∀ a, M a → D a
  feasible : ∃ a, M a
  holds : ∀ a, M a → Satisfies a constraints
  fails : ∀ a, D a → ¬M a → FailsSome a constraints

namespace Describes

variable {D M M' : Assignment → Prop} {constraints : ConstraintSet} {e : Expr}

theorem satisfies_iff (h : Describes D M constraints) (a : Assignment) :
    D a ∧ Satisfies a constraints ↔ M a := by
  constructor
  · intro hs
    by_contra hM
    exact not_satisfies_of_failsSome (h.fails a hs.1 hM) hs.2
  · intro hM
    exact ⟨h.within a hM, h.holds a hM⟩

theorem knows (h : Describes D M constraints) : Knows D M constraints :=
  ⟨h.isBool, h.feasible, h.satisfies_iff⟩

theorem congr (h : Describes D M constraints) (hM : ∀ a, M a ↔ M' a) : Describes D M' constraints := by
  obtain rfl : M = M' := funext fun a => propext (hM a)
  exact h

/-- The assignments that evaluate the constraints of a feasible state. -/
theorem start (hb : constraints.IsBool) (hD : ∀ a, D a → Evaluates a constraints)
    (hsat : ∃ a, D a ∧ Satisfies a constraints) :
    Describes D (fun a => D a ∧ Satisfies a constraints) constraints where
  isBool := hb
  within _ h := h.1
  feasible := hsat
  holds _ h := h.2
  fails a ha hM := by
    by_contra hf
    exact hM ⟨ha, ConstraintManager.satisfies_of_not_failsSome (hD a ha) hf⟩

variable [ExprOptions]

/-- A feasible constraint can be added, and cuts the models down to those that satisfy it. -/
theorem add (h : Describes D M constraints) (he : e.HasWidth 1) (hdef : ∀ a, M a → e.Defined a)
    (hsat : ∃ a, M a ∧ e.Holds a) :
    ∃ res, ConstraintManager.addConstraint constraints e = some res ∧
      Describes D (fun a => M a ∧ e.Holds a) res := by
  have hadd := ConstraintManager.addConstraint_preserves_decided h.isBool he
  obtain ⟨a₀, hM₀, hh₀⟩ := hsat
  obtain ⟨res, hres, -⟩ := hadd.satisfies a₀ trivial (satisfies_push_back.2 ⟨h.holds a₀ hM₀, hh₀⟩)
  refine ⟨res, hres, hadd.isBool res hres, fun a ha => h.within a ha.1, ⟨a₀, hM₀, hh₀⟩, ?_, ?_⟩
  · intro a ha
    obtain ⟨res', hres', hs⟩ := hadd.satisfies a trivial (satisfies_push_back.2 ⟨h.holds a ha.1, ha.2⟩)
    obtain rfl : res = res' := Option.some.inj (hres.symm.trans hres')
    exact hs
  · intro a ha hnot
    by_cases hM : M a
    · -- a model that the constraint excludes makes the constraint false
      have hf : e.Fails a := (holds_or_fails (hdef a hM)).resolve_left fun hh => hnot ⟨hM, hh⟩
      exact hadd.failsSome a res hres (.inl (h.holds a hM)) (failsSome_push_back.2 (.inr hf))
    · have hf := h.fails a ha hM
      exact hadd.failsSome a res hres (.inr hf) (failsSome_push_back.2 (.inl hf))

end Describes

/-! ### Right answers -/

/-- The validity of an expression under the assignments in `M`. -/
def Validity.On (M : Assignment → Prop) (e : Expr) : Validity → Prop
  | .True => ∀ a, M a → e.Holds a
  | .False => ∀ a, M a → e.Fails a
  | .Unknown => (∃ a, M a ∧ e.Holds a) ∧ ∃ a, M a ∧ e.Fails a

/-- A query about an expression that evaluates under the models of satisfiable constraints. -/
structure Askable (D : Assignment → Prop) (constraints : ConstraintSet) (e : Expr) : Prop where
  isBool : constraints.IsBool
  feasible : ∃ a, D a ∧ Satisfies a constraints
  wf : e.WF
  defined : ∀ a, D a → Satisfies a constraints → e.Defined a

/-- The answers are right about the assignments in `D`. -/
structure SolverChain.Right (solver : SolverChain) (D : Assignment → Prop) : Prop where
  evaluate : ∀ n constraints e, Askable D constraints e → e.getWidth = 1 →
    ∀ v, solver.evaluate n constraints e = some v → v.On (fun a => D a ∧ Satisfies a constraints) e
  mustBeTrue : ∀ n constraints e, Askable D constraints e → e.getWidth = 1 →
    ∀ b, solver.mustBeTrue n constraints e = some b →
      (b = true ↔ ∀ a, D a ∧ Satisfies a constraints → e.Holds a)
  mayBeTrue : ∀ n constraints e, Askable D constraints e → e.getWidth = 1 →
    ∀ b, solver.mayBeTrue n constraints e = some b →
      (b = true ↔ ∃ a, (D a ∧ Satisfies a constraints) ∧ e.Holds a)
  getValue : ∀ n constraints e, Askable D constraints e →
    ∀ v, solver.getValue n constraints e = some v →
      ∃ a, (D a ∧ Satisfies a constraints) ∧ e.Denotes a v

/-- `evaluate` does not time out. -/
def SolverChain.Evaluates (solver : SolverChain) : Prop :=
  ∀ n constraints e, (solver.evaluate n constraints e).isSome = true

/-- No query times out. -/
structure SolverChain.Total (solver : SolverChain) : Prop where
  evaluate : solver.Evaluates
  mustBeTrue : ∀ n constraints e, (solver.mustBeTrue n constraints e).isSome = true
  mayBeTrue : ∀ n constraints e, (solver.mayBeTrue n constraints e).isSome = true
  getValue : ∀ n constraints e, (solver.getValue n constraints e).isSome = true

section
open Classical

/-- The solver that answers every query, by definition. -/
noncomputable def SolverChain.exact (D : Assignment → Prop) : SolverChain where
  evaluate _ constraints e := some
    (if ∀ a, D a ∧ Satisfies a constraints → e.Holds a then .True
      else if ∀ a, D a ∧ Satisfies a constraints → e.Fails a then .False else .Unknown)
  mustBeTrue _ constraints e := some (decide (∀ a, D a ∧ Satisfies a constraints → e.Holds a))
  mayBeTrue _ constraints e := some (decide (∃ a, (D a ∧ Satisfies a constraints) ∧ e.Holds a))
  getValue _ constraints e := some
    (if h : ∃ a, D a ∧ Satisfies a constraints then e.eval h.choose e.getWidth else 0)

theorem SolverChain.exact_total (D : Assignment → Prop) : (exact D).Total :=
  ⟨fun _ _ _ => rfl, fun _ _ _ => rfl, fun _ _ _ => rfl, fun _ _ _ => rfl⟩

/-- The answer where both sides are feasible. -/
theorem SolverChain.exact_evaluate_unknown {D : Assignment → Prop} {constraints : ConstraintSet} {e : Expr} (n : ℕ)
    (h : Validity.On (fun a => D a ∧ Satisfies a constraints) e .Unknown) :
    (exact D).evaluate n constraints e = some .Unknown := by
  obtain ⟨⟨a, ha, hh⟩, a', ha', hf⟩ := h
  show some (if _ then _ else _) = _
  rw [if_neg fun hall => Query.holds_not_fails (hall a' ha') hf,
    if_neg fun hall => Query.holds_not_fails hh (hall a ha)]

theorem SolverChain.exact_right (D : Assignment → Prop) : (exact D).Right D where
  evaluate n constraints e hask _ v hv := by
    simp only [exact, Option.some.injEq] at hv
    subst hv
    split
    · assumption
    · rename_i hnot
      split
      · assumption
      · rename_i hnot'
        push Not at hnot hnot'
        obtain ⟨a, ha, hh⟩ := hnot
        obtain ⟨a', ha', hf⟩ := hnot'
        exact ⟨⟨a', ha', (holds_or_fails (hask.defined a' ha'.1 ha'.2)).resolve_right hf⟩,
          a, ha, (holds_or_fails (hask.defined a ha.1 ha.2)).resolve_left hh⟩
  mustBeTrue n constraints e _ _ b hb := by
    simp only [exact, Option.some.injEq] at hb
    rw [← hb, decide_eq_true_eq]
  mayBeTrue n constraints e _ _ b hb := by
    simp only [exact, Option.some.injEq] at hb
    rw [← hb, decide_eq_true_eq]
  getValue n constraints e hask v hv := by
    simp only [exact, Option.some.injEq, dif_pos hask.feasible] at hv
    have hmodel := hask.feasible.choose_spec
    exact ⟨_, hmodel, hask.defined _ hmodel.1 hmodel.2, hv⟩

end

theorem Knows.askable {D M : Assignment → Prop} {constraints : ConstraintSet} {e : Expr}
    (h : Knows D M constraints) (he : e.WF) (hdef : ∀ a, M a → e.Defined a) :
    Askable D constraints e where
  isBool := h.isBool
  feasible := by
    obtain ⟨a, ha⟩ := h.feasible
    exact ⟨a, (h.models a).2 ha⟩
  wf := he
  defined a ha hs := hdef a ((h.models a).1 ⟨ha, hs⟩)

/-- A constant is valid under every set of assignments or under none. -/
theorem Validity.on_const {M : Assignment → Prop} {e : Expr} (he : e.HasWidth 1) (hc : e.isConstant = true) :
    Validity.On M e (if e.isTrue then .True else .False) := by
  cases e with
  | const v =>
    obtain rfl := he.const_width
    have hv : ∀ v : BitVec 1, v = 1#1 ∨ v = 0#1 := by decide
    obtain rfl | rfl := hv v
    · exact fun a _ => denotes_const _
    · exact fun a _ => denotes_const _
  | _ => cases hc

namespace Executor

/-! ### Views -/

/-- The part of a state that an access to memory depends on. -/
structure View where
  stack : List StackFrame
  addressSpace : AddressSpace
  forkDisabled : Bool
  constraints : ConstraintSet

/-- The view of a state. -/
def viewOf (state : ExecutionState) : View :=
  ⟨state.stack, state.addressSpace, state.forkDisabled, state.constraints⟩

/-- The view of the state at a pointer. -/
def view (s : Executor) (p : Ptr) : Option View := (s.heap p).map viewOf

variable {α : Type} {s t u : Executor} {p q : Ptr}

theorem view_eq_some {v : View} : s.view p = some v ↔ ∃ state, s.heap p = some state ∧ viewOf state = v :=
  Option.map_eq_some_iff

/-- Only the view of the state at `p` may differ. -/
structure OnlyAt (p : Ptr) (s t : Executor) : Prop where
  nextPtr : t.nextPtr = s.nextPtr
  others : ∀ x, x ≠ p → t.view x = s.view x

/-- No view differs. -/
structure SameViews (s t : Executor) : Prop where
  nextPtr : t.nextPtr = s.nextPtr
  views : ∀ x, t.view x = s.view x

theorem SameViews.refl (s : Executor) : SameViews s s := ⟨rfl, fun _ => rfl⟩

theorem SameViews.trans (h : SameViews s t) (h' : SameViews t u) : SameViews s u :=
  ⟨h'.nextPtr.trans h.nextPtr, fun x => (h'.views x).trans (h.views x)⟩

theorem SameViews.onlyAt (h : SameViews s t) (p : Ptr) : OnlyAt p s t := ⟨h.nextPtr, fun x _ => h.views x⟩

theorem OnlyAt.trans (h : OnlyAt p s t) (h' : OnlyAt p t u) : OnlyAt p s u :=
  ⟨h'.nextPtr.trans h.nextPtr, fun x hx => (h'.others x hx).trans (h.others x hx)⟩

theorem SameViews.aux (s : Executor) (b : Bookkeeping) : SameViews s { s with aux := b } :=
  ⟨rfl, fun _ => rfl⟩

theorem SameStates.sameViews (h : SameStates s t) : SameViews s t := by
  obtain ⟨b, rfl⟩ := h
  exact .aux s b

/-- A program that only changes the bookkeeping changes no view. -/
theorem Quiet.sameViews {m : Prog Executor α} (hm : Quiet m) (s : Executor) :
    Prog.wp m (fun _ t => SameViews s t) (fun _ => True) s :=
  (hm s s ⟨s.aux, rfl⟩).mono (fun _ _ h => SameStates.sameViews h) fun _ _ => trivial

/-- A write that leaves the viewed part alone. -/
theorem sameViews_written {f : ExecutionState → ExecutionState} (hf : ∀ state, viewOf (f state) = viewOf state) :
    SameViews s (s.written p f) := by
  refine ⟨rfl, fun x => ?_⟩
  unfold view
  rw [written_heap]
  split
  · rename_i hx
    subst hx
    rw [Option.map_map]
    exact Option.map_congr fun state _ => hf state
  · rfl

theorem view_spawned {state : ExecutionState} (hstate : s.heap p = some state) (x : Ptr) :
    (s.spawned p state).view x = if x = s.nextPtr then s.view p else s.view x := by
  unfold view
  rw [spawned_heap]
  split
  · rw [hstate]
    rfl
  · split
    · rename_i hx
      rw [hx, hstate]
      rfl
    · rfl

/-- The end of a state does not change the views of the others. -/
theorem onlyAt_terminated : OnlyAt p s (s.terminated p) := by
  unfold terminated
  split
  · exact ⟨rfl, fun x hx => by simp only [view, Function.update_of_ne hx]⟩
  · exact ⟨rfl, fun x hx => by simp only [view, Function.update_of_ne hx]⟩

/-- The end of a state that the searcher knows is put off. -/
theorem sameViews_terminated (h : p ∉ s.addedStates) : SameViews s (s.terminated p) := by
  unfold terminated
  rw [if_neg h]
  have hpc : SameViews s (s.written p fun state => { state with pc := state.prevPC }) := sameViews_written fun _ => rfl
  exact ⟨rfl, hpc.views⟩

theorem addedStates_terminated (h : p ∉ s.addedStates) : (s.terminated p).addedStates = s.addedStates := by
  unfold terminated
  rw [if_neg h]

/-- The state at `p` looks like `v`, but for a path condition with the models `M`. -/
def PathAt (D M : Assignment → Prop) (s : Executor) (p : Ptr) (v : View) : Prop :=
  ∃ constraints, s.view p = some { v with constraints := constraints } ∧ Describes D M constraints

variable {D M M' : Assignment → Prop} {v : View}

theorem PathAt.of_view (h : PathAt D M s p v) (hv : t.view q = s.view p) :
    PathAt D M t q v := by
  obtain ⟨constraints, hview, hd⟩ := h
  exact ⟨constraints, hv.trans hview, hd⟩

theorem PathAt.congr (h : PathAt D M s p v) (hM : ∀ a, M a ↔ M' a) :
    PathAt D M' s p v := by
  obtain ⟨constraints, hview, hd⟩ := h
  exact ⟨constraints, hview, hd.congr hM⟩

theorem PathAt.feasible (h : PathAt D M s p v) : ∃ a, M a := by
  obtain ⟨constraints, -, hd⟩ := h
  exact hd.feasible

/-- The state behind a known path. -/
theorem PathAt.state (h : PathAt D M s p v) : ∃ state, s.heap p = some state ∧
    viewOf state = { v with constraints := state.constraints } ∧ Describes D M state.constraints := by
  obtain ⟨constraints, hview, hd⟩ := h
  obtain ⟨state, hstate, hv⟩ := view_eq_some.1 hview
  obtain rfl : state.constraints = constraints := congrArg View.constraints hv
  exact ⟨state, hstate, hv, hd⟩

/-! ### Questions -/

/-- Only the time differs. -/
def Ticked (s t : Executor) : Prop := ∃ n, t = { s with aux := { s.aux with clock := n } }

/-- The models of the state at `p` are known, and so are its objects. -/
def KnownAt (D M : Assignment → Prop) (s : Executor) (p : Ptr) (addressSpace : AddressSpace) : Prop :=
  ∃ state, s.heap p = some state ∧ state.addressSpace = addressSpace ∧ Knows D M state.constraints

theorem PathAt.known (h : PathAt D M s p v) : KnownAt D M s p v.addressSpace := by
  obtain ⟨state, hstate, hv, hd⟩ := h.state
  exact ⟨state, hstate, congrArg View.addressSpace hv, hd.knows⟩

theorem KnownAt.of_ticked {addressSpace : AddressSpace} (h : KnownAt D M s p addressSpace) (ht : Ticked s t) :
    KnownAt D M t p addressSpace := by
  obtain ⟨b, rfl⟩ := ht
  exact h

variable {env : Env} {e : Expr} {E : Executor → Prop} {addressSpace : AddressSpace}

theorem Ticked.refl (s : Executor) : Ticked s s := ⟨s.aux.clock, rfl⟩

theorem Ticked.trans (h : Ticked s t) (h' : Ticked t u) : Ticked s u := by
  obtain ⟨b, rfl⟩ := h
  obtain ⟨b', rfl⟩ := h'
  exact ⟨b', rfl⟩

theorem Ticked.tick (s : Executor) (n : ℕ) : Ticked s { s with aux := { s.aux with clock := n } } := ⟨n, rfl⟩

theorem Ticked.sameViews (h : Ticked s t) : SameViews s t := by
  obtain ⟨n, rfl⟩ := h
  exact .aux s _

/-- The start of every question: the state is read and the type of the expression is checked. -/
theorem wp_ask {β : Type} {k : ExecutionState → Prog Executor β} {Q : β → Executor → Prop}
    {c : Prop} [Decidable c] (h : KnownAt D M s p addressSpace) (hc : c)
    (hk : ∀ state, Knows D M state.constraints → Prog.wp (k state) Q E s) :
    Prog.wp (read p >>= fun state => Prog.assert c >>= fun _ => k state) Q E s := by
  obtain ⟨state, hstate, -, hd⟩ := h
  rw [Prog.wp_bind, wp_read]
  refine ⟨fun state' hstate' => ?_, fun hnone => absurd (hstate.symm.trans hnone) nofun⟩
  obtain rfl : state = state' := Option.some.inj (hstate.symm.trans hstate')
  rw [Prog.wp_bind, Prog.wp_assert]
  exact ⟨fun _ => hk state hd, fun hn => absurd hc hn⟩

theorem evaluate_spec (hright : env.solver.Right D) (hans : env.solver.Evaluates)
    (h : KnownAt D M s p addressSpace) (he : e.HasWidth 1) (hdef : ∀ a, M a → e.Defined a) :
    Prog.wp (evaluate env p e) (fun v t => Ticked s t ∧ ∃ v', v = some v' ∧ v'.On M e) E s := by
  refine wp_ask h he fun state hd => ?_
  rw [Prog.wp_ite]
  refine ⟨fun hc => ?_, fun _ => ?_⟩
  · exact ⟨.refl s, _, rfl, Validity.on_const he hc⟩
  · show Ticked s _ ∧ _
    obtain ⟨v, hv⟩ := Option.isSome_iff_exists.1 (hans s.aux.clock state.constraints e)
    have hon := hright.evaluate _ _ _ (hd.askable he.wf hdef) he.width v hv
    rw [hd.models_eq] at hon
    exact ⟨.tick s _, v, hv, hon⟩

/-- A constant boolean holds where it is true. -/
theorem isTrue_iff_holds (hfeasible : ∃ a, M a) (he : e.HasWidth 1) (hc : e.isConstant = true) :
    (e.isTrue = true ↔ ∀ a, M a → e.Holds a) ∧ (e.isTrue = true ↔ ∃ a, M a ∧ e.Holds a) := by
  obtain ⟨a₀, ha₀⟩ := hfeasible
  cases e with
  | const v =>
    have hiff := fun a => (ConstraintManager.holds_const_iff (a := a) he).symm
    refine ⟨⟨fun ht a _ => (hiff a).1 ht, fun hall => (hiff a₀).2 (hall a₀ ha₀)⟩,
      fun ht => ⟨a₀, ha₀, (hiff a₀).1 ht⟩, fun hex => ?_⟩
    obtain ⟨a, -, hh⟩ := hex
    exact (hiff a).2 hh
  | _ => cases hc

theorem mustBeTrue_spec (hright : env.solver.Right D) (h : KnownAt D M s p addressSpace)
    (he : e.HasWidth 1) (hdef : ∀ a, M a → e.Defined a) :
    Prog.wp (mustBeTrue env p e)
      (fun o t => Ticked s t ∧ (∀ b, o = some b → (b = true ↔ ∀ a, M a → e.Holds a)) ∧
        (env.solver.Total → o.isSome = true)) E s := by
  refine wp_ask h he fun state hd => ?_
  rw [Prog.wp_ite]
  refine ⟨fun hc => ?_, fun _ => ?_⟩
  · refine ⟨.refl s, fun b hb => ?_, fun _ => rfl⟩
    obtain rfl : e.isTrue = b := Option.some.inj hb
    exact (isTrue_iff_holds hd.feasible he hc).1
  · refine ⟨.tick s _, fun b hb => ?_, fun htotal => htotal.mustBeTrue _ _ _⟩
    have hiff := hright.mustBeTrue _ _ _ (hd.askable he.wf hdef) he.width b hb
    rw [hiff, ← hd.models_eq]

theorem mayBeTrue_spec (hright : env.solver.Right D) (htotal : env.solver.Total) (h : KnownAt D M s p addressSpace)
    (he : e.HasWidth 1) (hdef : ∀ a, M a → e.Defined a) :
    Prog.wp (mayBeTrue env p e) (fun b t => Ticked s t ∧ (b = true ↔ ∃ a, M a ∧ e.Holds a)) E s := by
  refine wp_ask h he fun state hd => ?_
  rw [Prog.wp_ite]
  refine ⟨fun hc => ⟨.refl s, (isTrue_iff_holds hd.feasible he hc).2⟩, fun _ => ?_⟩
  show Prog.wp (Prog.unwrap (env.solver.mayBeTrue s.aux.clock state.constraints e)) _ _ _
  rw [Prog.wp_unwrap]
  refine ⟨fun b hb => ⟨.tick s _, ?_⟩, fun hnone => ?_⟩
  · rw [hright.mayBeTrue _ _ _ (hd.askable he.wf hdef) he.width b hb, ← hd.models_eq]
  · exact absurd (htotal.mayBeTrue s.aux.clock state.constraints e) (by rw [hnone]; exact nofun)

theorem getValue_spec (hright : env.solver.Right D) (h : KnownAt D M s p addressSpace)
    (he : e.WF) (hdef : ∀ a, M a → e.Defined a) :
    Prog.wp (getValue env p e)
      (fun o t => Ticked s t ∧ (∀ v, o = some v → ∃ a, M a ∧ e.Denotes a v) ∧
        (env.solver.Total → o.isSome = true)) E s := by
  refine wp_ask h he fun state hd => ?_
  refine ⟨.tick s _, fun v hv => ?_, fun htotal => htotal.getValue _ _ _⟩
  have hex := hright.getValue _ _ _ (hd.askable he hdef) v hv
  rw [← hd.models_eq]
  exact hex

/-! ### Constraints -/

/-- The write of a new path condition. -/
theorem onlyAt_constrained (constraints : ConstraintSet) :
    OnlyAt p s (s.written p fun state => { state with constraints := constraints }) := by
  refine ⟨rfl, fun x hx => ?_⟩
  unfold view
  rw [written_heap, if_neg hx]

theorem pathAt_constrained {state : ExecutionState} {constraints : ConstraintSet} (hstate : s.heap p = some state)
    (hd : Describes D M constraints) :
    PathAt D M (s.written p fun state => { state with constraints := constraints }) p (viewOf state) := by
  refine ⟨constraints, ?_, hd⟩
  unfold view
  rw [written_heap, if_pos rfl, hstate]
  rfl

theorem PathAt.of_eq {v' : View} (h : PathAt D M s p v) {constraints : ConstraintSet}
    (hv : v = { v' with constraints := constraints }) : PathAt D M s p v' := by
  subst hv
  exact h

/-! ### What is known of a fork -/

variable {condition : Expr}

/-- The value of an expression of width `w` under the models of a path. -/
def Computed (M : Assignment → Prop) (e : Expr) {w : ℕ} (value : Assignment → BitVec w) : Prop :=
  e.HasWidth w ∧ ∀ a, M a → e.Denotes a (value a)

/-- What is known of the state at `p` once its side is chosen. -/
def Chosen (D M : Assignment → Prop) (condition : Expr) (t : Executor) (p : Ptr) (v : View) :
    Validity → Prop
  | .True => PathAt D (fun a => M a ∧ condition.Holds a) t p v
  | .False => PathAt D (fun a => M a ∧ condition.Fails a) t p v
  | .Unknown => PathAt D M t p v ∧ Validity.On M condition .Unknown

/-- A valid answer leaves the state as it is. -/
theorem chosen_of_on {res : Validity} (h : PathAt D M s p v) (hv : res.On M condition) :
    Chosen D M condition s p v res := by
  cases res with
  | True => exact h.congr fun a => (and_iff_left_of_imp (hv a)).symm
  | False => exact h.congr fun a => (and_iff_left_of_imp (hv a)).symm
  | Unknown => exact ⟨h, hv⟩

theorem Chosen.of_views {res : Validity} (h : Chosen D M condition s p v res)
    (ht : SameViews s t) : Chosen D M condition t p v res := by
  cases res with
  | True => exact PathAt.of_view h (ht.views p)
  | False => exact PathAt.of_view h (ht.views p)
  | Unknown => exact ⟨h.1.of_view (ht.views p), h.2⟩

/-- Dividing the seeds changes no view. -/
theorem splitSeeds_spec (seeds : Option (List Seed)) :
    Prog.wp (splitSeeds env p q condition seeds) (fun _ t => SameViews s t) (fun _ => True) s := by
  cases seeds with
  | none => exact .refl s
  | some seeds =>
    unfold splitSeeds
    refine Prog.wp.bind ((Quiet.seedValues env condition seeds).sameViews s) fun values t ht => ?_
    refine Prog.wp.bind ((Quiet.setSeeds p _).sameViews t) fun _ u hu => ?_
    refine Prog.wp.bind ((Quiet.setSeeds q _).sameViews u) fun _ u' hu' => ?_
    have hsame := (ht.trans hu).trans hu'
    rw [Prog.wp_when]
    refine ⟨fun _ => ?_, fun _ => hsame⟩
    unfold swapInfo
    rw [Prog.wp_bind, wp_read]
    refine ⟨fun trueState _ => ?_, fun _ => trivial⟩
    rw [Prog.wp_bind, wp_read]
    refine ⟨fun falseState _ => ?_, fun _ => trivial⟩
    rw [Prog.wp_bind, wp_write, wp_write]
    refine (hsame.trans (sameViews_written ?_)).trans (sameViews_written ?_)
    · exact fun _ => rfl
    · exact fun _ => rfl

/-- The states after a fork of `p`: the sides have the models of the two sides of the condition, and no
view but those of `p` and of the new state differs. -/
structure Forked (D M : Assignment → Prop) (condition : Expr) (s t : Executor) (p : Ptr)
    (v : View) (branches : Option Ptr × Option Ptr) : Prop where
  nextPtr_le : s.nextPtr ≤ t.nextPtr
  others : ∀ x, x ≠ p → x ≠ s.nextPtr → t.view x = s.view x
  bound : ∀ q, branches.1 = some q →
    q = p ∧ PathAt D (fun a => M a ∧ condition.Holds a) t q v
  unbound : ∀ q, branches.2 = some q →
    (q = p ∧ branches.1 = none ∨ q = s.nextPtr ∧ q < t.nextPtr ∧ branches.1 = some p) ∧
      PathAt D (fun a => M a ∧ condition.Fails a) t q v

theorem Forked.of_onlyAt {branches : Option Ptr × Option Ptr}
    (h : Forked D M condition t u p v branches) (ht : OnlyAt p s t) :
    Forked D M condition s u p v branches where
  nextPtr_le := ht.nextPtr ▸ h.nextPtr_le
  others x hx hx' := (h.others x hx (ht.nextPtr ▸ hx')).trans (ht.others x hx)
  bound := h.bound
  unbound := ht.nextPtr ▸ h.unbound

/-- A condition that was fixed to a constant has the value of the constant. -/
theorem fixed_iff {w : ℕ} {value : BitVec w} {x : BitVec 1} {a₁ : Assignment} (hw : w = 1)
    (hx : (Expr.const value).Denotes a₁ x) (a : Assignment) :
    (M a ∧ condition.Denotes a value) ∧ (Expr.const value).Denotes a x ↔ M a ∧ condition.Denotes a x := by
  subst hw
  obtain rfl := hx.const_eq
  exact and_iff_left (denotes_const value)

/-- There are no seeds and nothing is replayed. -/
structure Unguided (env : Env) (s : Executor) : Prop where
  seeds : ∀ x, s.aux.seedMap x = none
  replayPath : env.config.replayPath = none
  replayKTest : env.config.replayKTest = false

/-- `branchingPermitted`. -/
structure Permitted (env : Env) (s : Executor) (v : View) : Prop where
  memory : (env.config.MaxMemoryInhibit && s.aux.atMemoryLimit) = false
  forkDisabled : v.forkDisabled = false
  inhibitForking : env.config.inhibitForking = false
  maxForks : (env.config.MaxForks.any fun m => decide (m ≤ s.aux.forks)) = false

/-- What a fork without limits leaves in the bookkeeping. -/
structure Carries (s t : Executor) : Prop where
  seedMap : t.aux.seedMap = s.aux.seedMap
  atMemoryLimit : t.aux.atMemoryLimit = s.aux.atMemoryLimit

/-- A side is missing only where it has no models. -/
structure Splits (M : Assignment → Prop) (condition : Expr) (branches : Option Ptr × Option Ptr) : Prop where
  bound : branches.1 = none → ∀ a, M a → condition.Fails a
  unbound : branches.2 = none → ∀ a, M a → condition.Holds a

theorem branchingPermitted_spec (h : PathAt D M s p v) (hperm : Permitted env s v) :
    Prog.wp (branchingPermitted env p) (fun b t => t = s ∧ b = true) E s := by
  obtain ⟨state, hstate, hv, -⟩ := h.state
  unfold branchingPermitted
  rw [Prog.wp_bind, wp_read]
  refine ⟨fun state' hstate' => ?_, fun hnone => absurd (hstate.symm.trans hnone) nofun⟩
  obtain rfl : state = state' := Option.some.inj (hstate.symm.trans hstate')
  have hfork : state.forkDisabled = false := (congrArg View.forkDisabled hv).trans hperm.forkDisabled
  refine ⟨rfl, ?_⟩
  rw [hperm.memory, hfork, hperm.inhibitForking, hperm.maxForks]
  rfl

/-! ### Adding constraints -/

variable [ExprOptions]

/-- A feasible constraint cuts the models of the state down to its own.  Only the seeds can make the
executor stop. -/
theorem addConstraint_spec (hE : s.aux.seedMap p = none ∨ ∀ t, E t) (h : PathAt D M s p v)
    (he : e.HasWidth 1) (hdef : ∀ a, M a → e.Defined a) (hsat : ∃ a, M a ∧ e.Holds a) :
    Prog.wp (addConstraint env p e)
      (fun _ t => OnlyAt p s t ∧ PathAt D (fun a => M a ∧ e.Holds a) t p v ∧
        (s.aux.seedMap p = none → t.aux = s.aux)) E s := by
  unfold addConstraint
  rw [Prog.wp_ite]
  refine ⟨fun hc => ?_, fun _ => ?_⟩
  · have htrue := (isTrue_iff_holds h.feasible he hc).2.2 hsat
    rw [Prog.wp_assert]
    refine ⟨fun _ => ⟨(SameViews.refl s).onlyAt p, h.congr fun a => ?_, fun _ => rfl⟩,
      fun hn => absurd htrue hn⟩
    exact (and_iff_left_of_imp ((isTrue_iff_holds h.feasible he hc).1.1 htrue a)).symm
  · have hseeds : Prog.wp (checkSeeds env p e)
        (fun _ t => SameViews s t ∧ (s.aux.seedMap p = none → t.aux = s.aux)) E s := by
      by_cases hnone : s.aux.seedMap p = none
      · unfold checkSeeds seedsOf
        rw [Prog.wp_bind, Prog.wp_gets, hnone]
        exact ⟨.refl s, fun _ => rfl⟩
      · refine ((Quiet.checkSeeds env p e).sameViews s).mono (fun _ t ht => ⟨ht, fun h => absurd h hnone⟩) ?_
        exact fun t _ => hE.resolve_left hnone t
    refine Prog.wp.bind hseeds fun _ t ht => ?_
    obtain ⟨ht, haux⟩ := ht
    obtain ⟨state, hstate, hv, hd⟩ := (h.of_view (ht.views p)).state
    obtain ⟨res, hres, hd'⟩ := hd.add he hdef hsat
    rw [Prog.wp_bind, wp_read]
    refine ⟨fun state' hstate' => ?_, fun hnone => absurd (hstate.symm.trans hnone) nofun⟩
    obtain rfl : state = state' := Option.some.inj (hstate.symm.trans hstate')
    rw [hres]
    exact ⟨(ht.onlyAt p).trans (onlyAt_constrained res), (pathAt_constrained hstate hd').of_eq hv, haux⟩

/-- An equation holds where both sides have the same value. -/
theorem eq_holds_iff {l r : Expr} {w : ℕ} {x y : BitVec w} {a : Assignment} (hl : l.HasWidth w)
    (hr : r.HasWidth w) (dl : l.Denotes a x) (dr : r.Denotes a y) :
    (EqExpr.create l r).Holds a ↔ x = y := by
  have hcomp := (EqExpr.create_computes hl hr).denotes dl dr
  constructor
  · intro hh
    by_contra hne
    have hf : CmpOp.eq.apply x y = false := by simpa [CmpOp.apply] using hne
    rw [hf] at hcomp
    exact absurd (hcomp.value.symm.trans hh.value) (by decide)
  · intro hxy
    subst hxy
    simpa [CmpOp.apply, Expr.Holds] using hcomp

/-- Where an expression evaluates, it is equal to a constant exactly where it has its value. -/
theorem eqConst_holds_iff {w : ℕ} {value : BitVec w} {a : Assignment} (he : e.HasWidth w) (hd : e.Defined a) :
    (EqExpr.create e (.const value)).Holds a ↔ e.Denotes a value :=
  (eq_holds_iff he (hasWidth_const value) (.self hd w) (denotes_const value)).trans
    ⟨fun h => ⟨hd, h⟩, fun h => h.value⟩

theorem constEq_holds_iff {w : ℕ} {value : BitVec w} {a : Assignment} (he : e.HasWidth w) (hd : e.Defined a) :
    (EqExpr.create (.const value) e).Holds a ↔ e.Denotes a value :=
  (eq_holds_iff (hasWidth_const value) he (denotes_const value) (.self hd w)).trans
    ⟨fun h => ⟨hd, h.symm⟩, fun h => h.value.symm⟩

theorem eqConst_hasWidth {w : ℕ} (value : BitVec w) (he : e.HasWidth w) :
    (EqExpr.create e (.const value)).HasWidth 1 :=
  (EqExpr.create_computes he (hasWidth_const value)).hasWidth

theorem eqConst_defined {w : ℕ} (value : BitVec w) {a : Assignment} (he : e.HasWidth w) (hd : e.Defined a) :
    (EqExpr.create e (.const value)).Defined a :=
  ((EqExpr.create_computes he (hasWidth_const value)).denotes (.self hd w) (denotes_const value)).defined

/-- A simplified expression has the same value under the models of the path. -/
theorem Computed.simplifyExpr {w : ℕ} {value : Assignment → BitVec w} {constraints : ConstraintSet}
    (hd : Describes D M constraints) (h : Computed M e value) :
    Computed M (ConstraintManager.simplifyExpr constraints e) value := by
  have href := ConstraintManager.simplifyExpr_refinesOn hd.isBool h.1.wf
  exact ⟨⟨href.hasWidth.wf, href.hasWidth.width.trans h.1.width⟩,
    fun a ha => href.denotes_of (hd.holds a ha) h.1 (h.2 a ha)⟩

/-- `toConstant` picks a value that the expression may have, and keeps the models that give it. -/
theorem toConstant_spec {w : ℕ} {value : Assignment → BitVec w} (hright : env.solver.Right D)
    (h : PathAt D M s p v) (he : Computed M e value) :
    Prog.wp (toConstant env p e)
      (fun e' t => OnlyAt p s t ∧ e'.isConstant = true ∧ ∃ M', (∀ a, M' a → M a) ∧ Computed M' e' value ∧
        PathAt D M' t p v)
      (fun _ => True) s := by
  unfold toConstant
  obtain ⟨state, hstate, -, hd⟩ := h.state
  rw [Prog.wp_bind, wp_read]
  refine ⟨fun state' hstate' => ?_, fun _ => trivial⟩
  obtain rfl : state = state' := Option.some.inj (hstate.symm.trans hstate')
  have hsimp := he.simplifyExpr hd
  revert hsimp
  generalize ConstraintManager.simplifyExpr state.constraints e = e'
  intro hsimp
  rw [Prog.wp_ite]
  refine ⟨fun hc => ?_, fun _ => ?_⟩
  · exact ⟨(SameViews.refl s).onlyAt p, hc, M, fun _ => id, hsimp, h⟩
  · rw [Prog.wp_bind]
    refine Prog.wp.bind (getValue_spec hright h.known hsimp.1.wf fun a ha => (hsimp.2 a ha).defined)
      fun o t ht => ?_
    obtain ⟨hquiet, hv, -⟩ := ht
    have ht := hquiet.sameViews
    rw [Prog.wp_unwrap]
    refine ⟨fun x ho => ?_, fun _ => trivial⟩
    have hw : e'.HasWidth e'.getWidth := ⟨hsimp.1.wf, rfl⟩
    obtain ⟨a₀, ha₀, hden₀⟩ := hv x ho
    have hdef : ∀ a, M a → (EqExpr.create e' (.const x)).Defined a :=
      fun a ha => eqConst_defined x hw (hsimp.2 a ha).defined
    refine Prog.wp.bind (addConstraint_spec (.inr fun _ => trivial) (h.of_view (ht.views p)) (eqConst_hasWidth x hw) hdef
      ⟨a₀, ha₀, (eqConst_holds_iff hw hden₀.defined).2 hden₀⟩) fun _ u hu => ?_
    obtain rfl := hsimp.1.width
    refine ⟨(ht.onlyAt p).trans hu.1, rfl, _, fun a ha => ha.1, ⟨hasWidth_const x, fun a ha => ?_⟩, hu.2.1⟩
    have hden := (eqConst_holds_iff hw (hsimp.2 a ha.1).defined).1 ha.2
    rw [← (hsimp.2 a ha.1).value, hden.value]
    exact denotes_const x

/-! ### `fork` -/

/-- The negation of the condition cuts the models down to those of its false side. -/
theorem addIsZero_spec (hE : s.aux.seedMap p = none ∨ ∀ t, E t) (h : PathAt D M s p v)
    (he : condition.HasWidth 1) (hdef : ∀ a, M a → condition.Defined a)
    (hsat : ∃ a, M a ∧ condition.Fails a) :
    Prog.wp (addConstraint env p (createIsZero condition))
      (fun _ t => OnlyAt p s t ∧ PathAt D (fun a => M a ∧ condition.Fails a) t p v ∧
        (s.aux.seedMap p = none → t.aux = s.aux)) E s := by
  have hzero := createIsZero_computes he
  obtain ⟨a₀, ha₀, hf₀⟩ := hsat
  refine (addConstraint_spec hE h hzero.hasWidth (fun a ha => (hzero.denotes (.self (hdef a ha) 1)).defined)
    ⟨a₀, ha₀, Query.createIsZero_holds he hf₀⟩).mono (fun _ t ht => ⟨ht.1, ht.2.1.congr fun a => ?_, ht.2.2⟩)
    fun _ => id
  exact and_congr_right fun ha => Query.createIsZero_holds_iff he (hdef a ha)

theorem takeSide_spec (h : PathAt D M s p v) (he : condition.HasWidth 1)
    (hdef : ∀ a, M a → condition.Defined a) (hv : Validity.On M condition .Unknown) (timedOut side : Bool) :
    Prog.wp (takeSide env p condition timedOut side)
      (fun res t => OnlyAt p s t ∧ Chosen D M condition t p v res) (fun _ => True) s := by
  unfold takeSide
  have hmark : Prog.wp (Prog.when (timedOut = true) (emit (.mark .unchecked p)))
      (fun _ t => SameViews s t) (fun _ => True) s := by
    rw [Prog.wp_when]
    exact ⟨fun _ => ⟨rfl, fun _ => rfl⟩, fun _ => .refl s⟩
  refine Prog.wp.bind hmark fun _ t ht => ?_
  have hpath := h.of_view (ht.views p)
  cases side with
  | true =>
    refine Prog.wp.bind (addConstraint_spec (.inr fun _ => trivial) hpath he hdef hv.1) fun _ u hu => ?_
    exact ⟨(ht.onlyAt p).trans hu.1, hu.2.1⟩
  | false =>
    refine Prog.wp.bind (addIsZero_spec (.inr fun _ => trivial) hpath he hdef hv.2) fun _ u hu => ?_
    exact ⟨(ht.onlyAt p).trans hu.1, hu.2.1⟩

/-- Between the query and the fork, the condition may be added on one side. -/
theorem chooseSide_spec (h : PathAt D M s p v) (he : condition.HasWidth 1)
    (hdef : ∀ a, M a → condition.Defined a) {res : Validity} (hv : res.On M condition)
    (isInternal : Bool) (seeds : Option (List Seed)) (timedOut : Bool) :
    Prog.wp (chooseSide env p condition isInternal seeds timedOut res)
      (fun res t => OnlyAt p s t ∧ Chosen D M condition t p v res) (fun _ => True) s := by
  have hstay : ∀ t, SameViews s t → OnlyAt p s t ∧ Chosen D M condition t p v res :=
    fun t ht => ⟨ht.onlyAt p, (chosen_of_on h hv).of_views ht⟩
  have htake : ∀ t, SameViews s t → res = .Unknown → ∀ side, Prog.wp (takeSide env p condition timedOut side)
      (fun res t => OnlyAt p s t ∧ Chosen D M condition t p v res) (fun _ => True) t := by
    intro t ht hunknown side
    subst hunknown
    refine (takeSide_spec (h.of_view (ht.views p)) he hdef hv timedOut side).mono (fun _ u hu => ?_)
      fun _ _ => trivial
    exact ⟨(ht.onlyAt p).trans hu.1, hu.2⟩
  cases seeds with
  | none =>
    show Prog.wp (pickSide env p condition isInternal timedOut res) _ _ s
    unfold pickSide
    split
    · -- the replayed path decides
      rw [Prog.wp_bind, Prog.wp_get, Prog.wp_bind, Prog.wp_unwrap]
      refine ⟨fun branch _ => ?_, fun _ => trivial⟩
      rw [Prog.wp_bind, wp_modifyAux]
      have ht := SameViews.aux s { s.aux with replayPosition := s.aux.replayPosition + 1 }
      cases res with
      | True =>
        rw [Prog.wp_bind, Prog.wp_assert]
        exact ⟨fun _ => hstay _ ht, fun _ => trivial⟩
      | False =>
        rw [Prog.wp_bind, Prog.wp_assert]
        exact ⟨fun _ => hstay _ ht, fun _ => trivial⟩
      | Unknown => exact htake _ ht rfl branch
    · rw [Prog.wp_ite]
      refine ⟨fun hunknown => ?_, fun _ => hstay s (.refl s)⟩
      rw [Prog.wp_bind, Prog.wp_assert]
      refine ⟨fun _ => ?_, fun _ => trivial⟩
      refine Prog.wp.bind ((Quiet.branchingPermitted env p).sameViews s) fun permitted t ht => ?_
      rw [Prog.wp_ite]
      refine ⟨fun _ => hstay t ht, fun _ => ?_⟩
      refine Prog.wp.bind ((Quiet.random env).sameViews t) fun n u hu => ?_
      exact htake u (ht.trans hu) hunknown _
  | some seeds =>
    show Prog.wp (fixBySeeds env p condition seeds timedOut res) _ _ s
    unfold fixBySeeds
    refine Prog.wp.bind ((Quiet.read p).sameViews s) fun state t ht => ?_
    rw [Prog.wp_ite]
    refine ⟨fun hc => ?_, fun _ => hstay t ht⟩
    have hunknown : res = .Unknown := by
      rw [Bool.and_eq_true, decide_eq_true_eq] at hc
      exact hc.2
    refine Prog.wp.bind ((Quiet.seedSides env condition seeds false false).sameViews t) fun sides u hu => ?_
    rw [Prog.wp_ite]
    refine ⟨fun _ => hstay u (ht.trans hu), fun _ => ?_⟩
    rw [Prog.wp_bind, Prog.wp_assert]
    exact ⟨fun _ => htake u (ht.trans hu) hunknown _, fun _ => trivial⟩

theorem forkBoth_spec (h : PathAt D M s p v) (hp : p < s.nextPtr) (he : condition.HasWidth 1)
    (hdef : ∀ a, M a → condition.Defined a) (hv : Validity.On M condition .Unknown)
    (seeds : Option (List Seed)) :
    Prog.wp (forkBoth env p condition seeds false)
      (fun branches t => Forked D M condition s t p v branches) (fun _ => True) s := by
  unfold forkBoth
  rw [Prog.wp_bind, wp_modifyAux, Prog.wp_bind, wp_spawn]
  refine ⟨fun state hstate => ?_, fun _ => trivial⟩
  have hview := view_spawned (s := { s with aux := { s.aux with forks := s.aux.forks + 1 } }) hstate
  revert hview
  generalize hs₁ : spawned { s with aux := { s.aux with forks := s.aux.forks + 1 } } p state = s₁
  intro hview
  have hnext : s₁.nextPtr = s.nextPtr + 1 := by
    rw [← hs₁]
    rfl
  refine Prog.wp.bind (splitSeeds_spec seeds) fun _ s₂ hs₂ => ?_
  have hpne : p ≠ s.nextPtr := Nat.ne_of_lt hp
  have hparent : PathAt D M s₂ p v :=
    h.of_view ((hs₂.views p).trans ((hview p).trans (if_neg hpne)))
  have hchild : PathAt D M s₂ s.nextPtr v :=
    h.of_view ((hs₂.views _).trans ((hview _).trans (if_pos rfl)))
  rw [Prog.wp_bind, Prog.wp_when]
  refine ⟨fun _ => ?_, fun hne => absurd rfl hne⟩
  refine Prog.wp.bind (addConstraint_spec (.inr fun _ => trivial) hparent he hdef hv.1) fun _ s₃ hs₃ => ?_
  have hchild₃ := hchild.of_view (hs₃.1.others _ hpne.symm)
  refine (addIsZero_spec (.inr fun _ => trivial) hchild₃ he hdef hv.2).mono (fun _ s₄ hs₄ => ?_) fun _ _ => trivial
  have hnext₄ : s₄.nextPtr = s.nextPtr + 1 :=
    hs₄.1.nextPtr.trans (hs₃.1.nextPtr.trans (hs₂.nextPtr.trans hnext))
  have hothers : ∀ x, x ≠ p → x ≠ s.nextPtr → s₄.view x = s.view x := by
    intro x hx hx'
    rw [hs₄.1.others x hx', hs₃.1.others x hx, hs₂.views, hview, if_neg hx']
    rfl
  rw [Prog.wp_bind, wp_read]
  refine ⟨fun trueState _ => ?_, fun _ => trivial⟩
  rw [Prog.wp_ite]
  refine ⟨fun _ => ?_, fun _ => ?_⟩
  · -- both sides are too deep
    rw [Prog.wp_bind, wp_terminateState, Prog.wp_bind, wp_terminateState]
    have h₁ := onlyAt_terminated (p := p) (s := s₄)
    have h₂ := onlyAt_terminated (p := s.nextPtr) (s := s₄.terminated p)
    refine ⟨?_, fun x hx hx' => ?_, nofun, nofun⟩
    · rw [h₂.nextPtr, h₁.nextPtr, hnext₄]
      exact Nat.le_succ _
    · rw [h₂.others x hx', h₁.others x hx, hothers x hx hx']
  · refine ⟨by rw [hnext₄]; exact Nat.le_succ _, hothers, ?_, ?_⟩
    · rintro q ⟨⟩
      exact ⟨rfl, hs₃.2.1.of_view (hs₄.1.others p hpne)⟩
    · rintro q ⟨⟩
      exact ⟨.inr ⟨rfl, by rw [hnext₄]; exact Nat.lt_succ_self _, rfl⟩, hs₄.2.1⟩

/-- Where the static limits are exceeded, the condition is fixed to a value that it may have. -/
theorem limitStatically_spec (hright : env.solver.Right D) (h : PathAt D M s p v)
    (he : condition.HasWidth 1) (hdef : ∀ a, M a → condition.Defined a) (isSeeding : Bool) :
    Prog.wp (limitStatically env p isSeeding condition)
      (fun condition' t => OnlyAt p s t ∧
        (condition' = condition ∧ PathAt D M t p v ∨
          ∃ value : BitVec condition.getWidth, condition' = .const value ∧
            PathAt D (fun a => M a ∧ condition.Denotes a value) t p v))
      (fun _ => True) s := by
  unfold limitStatically
  refine Prog.wp.bind (Quiet.tick.sameViews s) fun n t ht => ?_
  have hpath := h.of_view (ht.views p)
  rw [Prog.wp_ite]
  refine ⟨fun _ => ?_, fun _ => ⟨ht.onlyAt p, .inl ⟨rfl, hpath⟩⟩⟩
  rw [Prog.wp_bind]
  refine Prog.wp.bind (getValue_spec hright hpath.known he.wf hdef) fun o u hu => ?_
  obtain ⟨hquiet, hval, -⟩ := hu
  have hu := hquiet.sameViews
  rw [Prog.wp_unwrap]
  refine ⟨fun value ho => ?_, fun _ => trivial⟩
  obtain ⟨a₀, ha₀, hden₀⟩ := hval value ho
  have hw : condition.HasWidth condition.getWidth := ⟨he.wf, rfl⟩
  have hiff := fun a (ha : M a) => (constEq_holds_iff hw (hdef a ha) : _ ↔ condition.Denotes a value)
  have hcomp := EqExpr.create_computes (hasWidth_const value) hw
  refine Prog.wp.bind (addConstraint_spec (.inr fun _ => trivial) (hpath.of_view (hu.views p)) hcomp.hasWidth
    (fun a ha => (hcomp.denotes (denotes_const value) (.self (hdef a ha) _)).defined)
    ⟨a₀, ha₀, (hiff a₀ ha₀).2 hden₀⟩) fun _ u' hu' => ?_
  exact ⟨((ht.trans hu).onlyAt p).trans hu'.1,
    .inr ⟨value, rfl, hu'.2.1.congr fun a => and_congr_right fun ha => hiff a ha⟩⟩

/-- **What `fork` does.**  In every configuration, with and without seeds: the state on the true side has
the models of the path and the condition, the state on the false side those of the path and the negated
condition, and no other state changes. -/
theorem fork_spec (hright : env.solver.Right D) (hans : env.solver.Evaluates)
    (h : PathAt D M s p v) (hp : p < s.nextPtr) (he : condition.HasWidth 1)
    (hdef : ∀ a, M a → condition.Defined a) (isInternal : Bool) :
    Prog.wp (fork env p condition isInternal)
      (fun branches t => Forked D M condition s t p v branches) (fun _ => True) s := by
  have hrest : ∀ {M₁ : Assignment → Prop} {condition₁ : Expr} (seeds : Option (List Seed)) (t : Executor),
      OnlyAt p s t → PathAt D M₁ t p v → condition₁.HasWidth 1 →
      (∀ a, M₁ a → condition₁.Defined a) →
      Prog.wp (evaluate env p condition₁ >>= fun answer =>
        chooseSide env p condition₁ isInternal seeds answer.isNone (answer.getD .Unknown) >>= fun res =>
          match res with
          | .True => pure (some p, none)
          | .False => pure (none, some p)
          | .Unknown => forkBoth env p condition₁ seeds answer.isNone)
        (fun branches u => Forked D M₁ condition₁ s u p v branches) (fun _ => True) t := by
    intro M₁ condition₁ seeds t ht hpath he₁ hdef₁
    refine Prog.wp.bind (evaluate_spec hright hans hpath.known he₁ hdef₁) fun answer t₁ h₁ => ?_
    obtain ⟨hquiet, res, rfl, hv⟩ := h₁
    have h₁ := hquiet.sameViews
    refine Prog.wp.bind (chooseSide_spec (hpath.of_view (h₁.views p)) he₁ hdef₁ hv isInternal seeds false)
      fun res t₂ h₂ => ?_
    obtain ⟨h₂, hchosen⟩ := h₂
    have honly := (ht.trans (h₁.onlyAt p)).trans h₂
    have hone : ∀ x, x ≠ p → x ≠ s.nextPtr → t₂.view x = s.view x := fun x hx _ => honly.others x hx
    cases res with
    | True =>
      refine ⟨honly.nextPtr.ge, hone, ?_, nofun⟩
      rintro q ⟨⟩
      exact ⟨rfl, hchosen⟩
    | False =>
      refine ⟨honly.nextPtr.ge, hone, nofun, ?_⟩
      rintro q ⟨⟩
      exact ⟨.inl ⟨rfl, rfl⟩, hchosen⟩
    | Unknown =>
      refine (forkBoth_spec hchosen.1 (honly.nextPtr ▸ hp) he₁ hdef₁ hchosen.2 seeds).mono ?_
        fun _ _ => trivial
      exact fun branches u hu => hu.of_onlyAt honly
  unfold fork
  rw [Prog.wp_bind]
  show Prog.wp _ _ _ s
  refine Prog.wp.bind (limitStatically_spec hright h he hdef _) fun condition₁ t ht => ?_
  obtain ⟨ht, ⟨rfl, hpath⟩ | ⟨value, rfl, hpath⟩⟩ := ht
  · exact hrest _ t ht hpath he hdef
  · have hw : (Expr.const value).HasWidth 1 := ⟨(hasWidth_const value).wf, he.width⟩
    refine (hrest _ t ht hpath hw fun a _ => (denotes_const value).defined).mono (fun branches u hu => ?_)
      fun _ _ => trivial
    refine ⟨hu.nextPtr_le, hu.others, fun q hq => ?_, fun q hq => ?_⟩
    · obtain ⟨hqp, hbound⟩ := hu.bound q hq
      obtain ⟨a₁, ha₁⟩ := hbound.feasible
      exact ⟨hqp, hbound.congr fun a => fixed_iff he.width ha₁.2 a⟩
    · obtain ⟨hqp, hunbound⟩ := hu.unbound q hq
      obtain ⟨a₁, ha₁⟩ := hunbound.feasible
      exact ⟨hqp, hunbound.congr fun a => fixed_iff he.width ha₁.2 a⟩

/-! ### `fork` without limits -/

theorem forkBoth_free (h : PathAt D M s p v) (hp : p < s.nextPtr) (he : condition.HasWidth 1)
    (hdef : ∀ a, M a → condition.Defined a) (hv : Validity.On M condition .Unknown)
    (hseeds : ∀ x, s.aux.seedMap x = none) (hdepth : env.config.MaxDepth = 0) :
    Prog.wp (forkBoth env p condition none false)
      (fun branches t => Forked D M condition s t p v branches ∧ branches = (some p, some s.nextPtr) ∧
        Carries s t) E s := by
  obtain ⟨state, hstate, -, -⟩ := h.state
  unfold forkBoth
  rw [Prog.wp_bind, wp_modifyAux, Prog.wp_bind, wp_spawn]
  refine ⟨fun state' hstate' => ?_, fun hnone => absurd (hstate.symm.trans hnone) nofun⟩
  obtain rfl : state = state' := Option.some.inj (hstate.symm.trans hstate')
  have hview := view_spawned (s := { s with aux := { s.aux with forks := s.aux.forks + 1 } }) hstate
  revert hview
  generalize hs₁ : spawned { s with aux := { s.aux with forks := s.aux.forks + 1 } } p state = s₁
  intro hview
  have hnext : s₁.nextPtr = s.nextPtr + 1 := by
    rw [← hs₁]
    rfl
  have haux : s₁.aux.seedMap = s.aux.seedMap ∧ s₁.aux.atMemoryLimit = s.aux.atMemoryLimit := by
    rw [← hs₁]
    exact ⟨rfl, rfl⟩
  have hpne : p ≠ s.nextPtr := Nat.ne_of_lt hp
  have hparent : PathAt D M s₁ p v := h.of_view ((hview p).trans (if_neg hpne))
  have hchild : PathAt D M s₁ s.nextPtr v := h.of_view ((hview _).trans (if_pos rfl))
  have hseed₁ : ∀ x, s₁.aux.seedMap x = none := fun x => haux.1 ▸ hseeds x
  refine Prog.wp.step (a := ()) (t := s₁) rfl ?_
  rw [Prog.wp_bind, Prog.wp_when]
  refine ⟨fun _ => ?_, fun hne => absurd rfl hne⟩
  refine Prog.wp.bind (addConstraint_spec (.inl (hseed₁ p)) hparent he hdef hv.1) fun _ s₂ hs₂ => ?_
  obtain ⟨honly₂, hpath₂, haux₂⟩ := hs₂
  have hchild₂ := hchild.of_view (honly₂.others _ hpne.symm)
  have hseed₂ : s₂.aux.seedMap s.nextPtr = none := by
    rw [haux₂ (hseed₁ p)]
    exact hseed₁ _
  refine (addIsZero_spec (.inl hseed₂) hchild₂ he hdef hv.2).mono (fun _ s₃ hs₃ => ?_) fun _ => id
  obtain ⟨honly₃, hpath₃, haux₃⟩ := hs₃
  have hparent₃ := hpath₂.of_view (honly₃.others p hpne)
  obtain ⟨state₃, hstate₃, -, -⟩ := hparent₃.state
  rw [Prog.wp_bind, wp_read]
  refine ⟨fun trueState _ => ?_, fun hnone => absurd (hstate₃.symm.trans hnone) nofun⟩
  rw [if_neg (fun hd => hd.1 hdepth)]
  have hnext₃ : s₃.nextPtr = s.nextPtr + 1 := honly₃.nextPtr.trans (honly₂.nextPtr.trans hnext)
  refine ⟨⟨?_, fun x hx hx' => ?_, ?_, ?_⟩, rfl, ?_⟩
  · rw [hnext₃]
    exact Nat.le_succ _
  · rw [honly₃.others x hx', honly₂.others x hx, hview, if_neg hx']
    rfl
  · rintro q ⟨⟩
    exact ⟨rfl, hparent₃⟩
  · rintro q ⟨⟩
    exact ⟨.inr ⟨rfl, by rw [hnext₃]; exact Nat.lt_succ_self _, rfl⟩, hpath₃⟩
  · have hall : s₃.aux = s₁.aux := (haux₃ hseed₂).trans (haux₂ (hseed₁ p))
    exact ⟨hall ▸ haux.1, hall ▸ haux.2⟩

/-- **A fork without limits.**  It ends, and has a state on each side that has a model. -/
theorem fork_free (hright : env.solver.Right D) (hans : env.solver.Evaluates) (h : PathAt D M s p v)
    (hp : p < s.nextPtr) (he : condition.HasWidth 1) (hdef : ∀ a, M a → condition.Defined a)
    (hguide : Unguided env s) (hperm : Permitted env s v) (hdepth : env.config.MaxDepth = 0)
    (hstatic : ∀ n, env.staticLimit n = false) (isInternal : Bool) :
    Prog.wp (fork env p condition isInternal)
      (fun branches t => Forked D M condition s t p v branches ∧ Splits M condition branches ∧ Carries s t)
      E s := by
  unfold fork seedsOf
  rw [Prog.wp_bind, Prog.wp_gets, hguide.seeds p]
  have hlimit : limitStatically env p (none : Option (List Seed)).isSome condition s =
      (some condition, { s with aux := { s.aux with clock := s.aux.clock + 1 } }) := by
    unfold limitStatically
    show (if (!false && !condition.isConstant && env.staticLimit s.aux.clock) = true then _ else _ :
      Prog Executor Expr) _ = _
    rw [hstatic, Bool.and_false]
    rfl
  refine Prog.wp.step hlimit ?_
  refine Prog.wp.bind (evaluate_spec hright hans h.known he hdef) fun answer t ht => ?_
  obtain ⟨htick, res, rfl, hv⟩ := ht
  have hticked : Ticked s t := (Ticked.tick s _).trans htick
  have honly := hticked.sameViews.onlyAt p
  have hpath := h.of_view (hticked.sameViews.views p)
  obtain ⟨n, rfl⟩ := hticked
  show Prog.wp (pickSide env p condition isInternal false res >>= _) _ _ _
  unfold pickSide
  rw [hguide.replayPath]
  cases res with
  | True =>
    refine Prog.wp.step (a := .True) rfl ?_
    refine ⟨⟨le_rfl, fun _ _ _ => rfl, ?_, nofun⟩, ⟨nofun, fun _ => hv⟩, rfl, rfl⟩
    rintro q ⟨⟩
    exact ⟨rfl, chosen_of_on hpath hv⟩
  | False =>
    refine Prog.wp.step (a := .False) rfl ?_
    refine ⟨⟨le_rfl, fun _ _ _ => rfl, nofun, ?_⟩, ⟨fun _ => hv, nofun⟩, rfl, rfl⟩
    rintro q ⟨⟩
    exact ⟨.inl ⟨rfl, rfl⟩, chosen_of_on hpath hv⟩
  | Unknown =>
    rw [Prog.wp_bind]
    show Prog.wp (Prog.assert (env.config.replayKTest = false) >>= _) _ _ _
    rw [Prog.wp_bind, Prog.wp_assert]
    refine ⟨fun _ => ?_, fun hn => absurd hguide.replayKTest hn⟩
    refine Prog.wp.bind (branchingPermitted_spec hpath ⟨hperm.memory, hperm.forkDisabled,
      hperm.inhibitForking, hperm.maxForks⟩) fun permitted t' ht' => ?_
    obtain ⟨rfl, rfl⟩ := ht'
    refine (forkBoth_free hpath hp he hdef hv hguide.seeds hdepth).mono (fun branches u hu => ?_) fun _ => id
    obtain ⟨hforked, rfl, hcarries⟩ := hu
    exact ⟨hforked.of_onlyAt honly, ⟨nofun, nofun⟩, hcarries.seedMap, hcarries.atMemoryLimit⟩

end Executor

end SymBisect
