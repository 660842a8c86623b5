import SymBisect.Expr.Constraints

/-!
# Adding a constraint preserves the path condition

An assignment satisfies a set of constraints when every constraint evaluates to true.  Adding a
constraint `e` keeps exactly the assignments that satisfy the set and `e`.

The forward half carries a satisfying assignment through the rewriting: under it every replacement
is by an equal value.  The backward half carries a *failing constraint* (one that evaluates to
false) instead of an unsatisfied set.  Where an equality used for rewriting is false, the equality
itself, which is pushed, fails; where it has no value, the failing constraint is left alone because
the replaced expression cannot occur in it; where it is true, rewriting keeps the value.
-/

namespace SymBisect

open Expr

/-- `e` evaluates to false. -/
def Expr.Fails (a : Assignment) (e : Expr) : Prop := e.Denotes a 0#1

namespace ConstraintSet

/-- Every constraint is a well-formed boolean. -/
def IsBool (constraints : ConstraintSet) : Prop := ∀ c ∈ constraints, c.HasWidth 1

/-- The assignment satisfies every constraint. -/
def Satisfies (a : Assignment) (constraints : ConstraintSet) : Prop := ∀ c ∈ constraints, c.Holds a

/-- Some constraint evaluates to false. -/
def FailsSome (a : Assignment) (constraints : ConstraintSet) : Prop := ∃ c ∈ constraints, c.Fails a

/-- Every constraint evaluates. -/
def Evaluates (a : Assignment) (constraints : ConstraintSet) : Prop :=
  ∀ c ∈ constraints, c.Defined a

variable {a : Assignment} {constraints : ConstraintSet} {e : Expr}

@[simp] theorem isBool_push_back :
    (constraints.push_back e).IsBool ↔ constraints.IsBool ∧ e.HasWidth 1 := by
  simp [IsBool, mem_push_back, or_imp, forall_and]

@[simp] theorem satisfies_push_back :
    Satisfies a (constraints.push_back e) ↔ Satisfies a constraints ∧ e.Holds a := by
  simp [Satisfies, mem_push_back, or_imp, forall_and]

@[simp] theorem failsSome_push_back :
    FailsSome a (constraints.push_back e) ↔ FailsSome a constraints ∨ e.Fails a := by
  simp [FailsSome, mem_push_back, or_and_right, exists_or]

theorem not_satisfies_of_failsSome (h : FailsSome a constraints) : ¬Satisfies a constraints := by
  rintro hs
  obtain ⟨c, hc, hf⟩ := h
  have := (hs c hc).value.symm.trans hf.value
  exact absurd this (by decide)

/-- An evaluated boolean holds or fails. -/
theorem holds_or_fails (h : e.Defined a) : e.Holds a ∨ e.Fails a := by
  rcases BitVec.eq_one_or_zero_of_width_one (e.eval a 1) with hv | hv
  · exact .inl ⟨h, hv⟩
  · exact .inr ⟨h, hv⟩

end ConstraintSet

namespace ConstraintManager

open ConstraintSet

section Equalities

variable {a : Assignment} {w : ℕ} {c : BitVec w} {src e : Expr}

theorem hasWidth_of_eq_const (h : (Expr.cmp .eq (.const c) src).HasWidth 1) : src.HasWidth w :=
  ⟨h.wf.2.1, h.wf.2.2.symm⟩

/-- Where an equality holds, its constant may stand for its other side. -/
theorem refinesOn_of_eq {P : Assignment → Prop} (hw : (Expr.cmp .eq (.const c) src).HasWidth 1)
    (h : ∀ a, P a → (Expr.cmp .eq (.const c) src).Holds a) : src.RefinesOn P (.const c) := by
  obtain ⟨-, rfl⟩ := hasWidth_of_eq_const hw
  refine ⟨hasWidth_const c, fun {a} hp _ => ?_⟩
  obtain ⟨dc, -, hv⟩ := (h a hp).cmp_inv (hasWidth_const c)
  have heq : c = src.eval a src.getWidth := by
    rw [← dc.const_eq, CmpOp.apply] at hv
    by_contra hne
    rw [beq_eq_false_iff_ne.2 hne] at hv
    exact absurd hv (by decide)
  rw [← heq]
  exact denotes_const c

theorem equality_refinesOn {P : Assignment → Prop} (hw : e.HasWidth 1)
    (h : ∀ a, P a → e.Holds a) : RefinesOn P (equality e).1 (equality e).2 := by
  unfold equality
  split
  · exact refinesOn_of_eq hw h
  · refine ⟨⟨trivial, hw.width.symm⟩, fun {a} hp _ => ?_⟩
    dsimp only
    rw [hw.width, (h a hp).value]
    exact denotes_ofBool true

/-- Every entry of the map of `simplifyExpr` comes from a constraint. -/
theorem mem_equalities {constraints : ConstraintSet} {p : Expr × Expr}
    (h : p ∈ (equalities constraints).entries) : ∃ c ∈ constraints, p = equality c := by
  have hfold : ∀ (cs : ConstraintSet) (repl : Replacements), p ∈ (cs.foldl
      (fun repl c => repl.insert (equality c).1 (equality c).2 (equality_isConstant c))
      repl).entries → p ∈ repl.entries ∨ ∃ c ∈ cs, p = equality c := by
    intro cs
    induction cs with
    | nil => exact fun _ h => .inl h
    | cons c cs ih =>
      intro repl h
      rcases ih _ h with h | ⟨c', hc', rfl⟩
      · rcases Replacements.mem_insert h with h | h
        · exact .inl h
        · exact .inr ⟨c, List.mem_cons_self, h⟩
      · exact .inr ⟨c', List.mem_cons_of_mem _ hc', rfl⟩
  rcases hfold constraints _ h with h | h
  · cases h
  · exact h

variable [ExprOptions]

/-- `simplifyExpr` keeps the value under every assignment that satisfies the set. -/
theorem simplifyExpr_refinesOn {constraints : ConstraintSet} (hb : constraints.IsBool)
    (he : e.WF) : e.RefinesOn (Satisfies · constraints) (simplifyExpr constraints e) := by
  unfold simplifyExpr
  split
  · exact .refl he
  · refine ExprReplaceVisitor2.visit_refinesOn (fun p hp => ?_) he
    obtain ⟨c, hc, rfl⟩ := mem_equalities hp
    exact equality_refinesOn (hb c hc) fun a hs => hs c hc

end Equalities

/-! ### Adding and rewriting -/

/-- `r` keeps the satisfying assignments in `H` of `input`, and keeps, under the assignments in `L`,
that a constraint fails. -/
structure Preserves (H L : Assignment → Prop) (input : ConstraintSet) (r : Option ConstraintSet) :
    Prop where
  isBool : ∀ res, r = some res → res.IsBool
  satisfies : ∀ a, H a → Satisfies a input → ∃ res, r = some res ∧ Satisfies a res
  failsSome : ∀ a res, r = some res → L a → FailsSome a input → FailsSome a res

section Preserves

variable {H L : Assignment → Prop} {input input' : ConstraintSet} {r : Option ConstraintSet}

theorem Preserves.of_some (h : input.IsBool) : Preserves H L input (some input) := by
  refine ⟨?_, fun a _ hs => ⟨input, rfl, hs⟩, ?_⟩
  · rintro res ⟨⟩
    exact h
  · rintro a res ⟨⟩ _ hf
    exact hf

/-- A step that may change the input keeps what the rest keeps. -/
theorem Preserves.of_input (h : Preserves H L input' r)
    (hs : ∀ a, H a → Satisfies a input → Satisfies a input')
    (hf : ∀ a, L a → FailsSome a input → FailsSome a input') : Preserves H L input r :=
  ⟨h.isBool, fun a hH h' => h.satisfies a hH (hs a hH h'),
    fun a res hr hL h' => h.failsSome a res hr hL (hf a hL h')⟩

/-- Running `f` on what `r` returns. -/
theorem Preserves.bind {f : ConstraintSet → Option ConstraintSet} (next : ConstraintSet → ConstraintSet)
    (h : Preserves (fun _ => True) (fun _ => True) input' r)
    (hf : ∀ res, r = some res → res.IsBool → Preserves H L (next res) (f res))
    (hs : ∀ a, H a → Satisfies a input →
      Satisfies a input' ∧ ∀ res, Satisfies a res → Satisfies a (next res))
    (hfail : ∀ a, L a → FailsSome a input →
      (FailsSome a input' ∧ ∀ res, FailsSome a res → FailsSome a (next res)) ∨
        ∀ res, FailsSome a (next res)) :
    Preserves H L input (r.bind f) := by
  refine ⟨?_, ?_, ?_⟩
  · intro res hres
    obtain ⟨mid, hmid, hres⟩ := Option.bind_eq_some_iff.1 hres
    exact (hf mid hmid (h.isBool mid hmid)).isBool res hres
  · intro a hH hsat
    obtain ⟨hin, hnext⟩ := hs a hH hsat
    obtain ⟨mid, hmid, hmids⟩ := h.satisfies a trivial hin
    obtain ⟨res, hres, hsres⟩ :=
      (hf mid hmid (h.isBool mid hmid)).satisfies a hH (hnext mid hmids)
    exact ⟨res, Option.bind_eq_some_iff.2 ⟨mid, hmid, hres⟩, hsres⟩
  · intro a res hres hL hin
    obtain ⟨mid, hmid, hres⟩ := Option.bind_eq_some_iff.1 hres
    refine (hf mid hmid (h.isBool mid hmid)).failsSome a res hres hL ?_
    rcases hfail a hL hin with ⟨hin', hnext⟩ | hnext
    · exact hnext mid (h.failsSome a mid hmid trivial hin')
    · exact hnext mid

end Preserves

section Add

theorem holds_and_iff {a : Assignment} {l r : Expr} :
    (Expr.bin .and l r).Holds a ↔ l.Holds a ∧ r.Holds a := by
  have hval : ∀ x y : BitVec 1, x &&& y = 1#1 ↔ x = 1#1 ∧ y = 1#1 := by decide
  constructor
  · intro h
    obtain ⟨dl, dr, hv⟩ := h.bin_inv
    obtain ⟨hl, hr⟩ := (hval _ _).1 hv
    exact ⟨⟨dl.defined, hl⟩, ⟨dr.defined, hr⟩⟩
  · rintro ⟨hl, hr⟩
    refine ⟨⟨hl.defined, hr.defined, nofun⟩, ?_⟩
    rw [Expr.eval, hl.value, hr.value]
    rfl

theorem fails_of_fails_and {a : Assignment} {l r : Expr} (h : (Expr.bin .and l r).Fails a) :
    l.Fails a ∨ r.Fails a := by
  have hval : ∀ x y : BitVec 1, x &&& y = 0#1 → x = 0#1 ∨ y = 0#1 := by decide
  obtain ⟨dl, dr, hv⟩ := h.bin_inv
  rcases hval _ _ hv with hl | hr
  · exact .inl ⟨dl.defined, hl⟩
  · exact .inr ⟨dr.defined, hr⟩

theorem holds_const_iff {a : Assignment} {w : ℕ} {v : BitVec w} (h : (Expr.const v).HasWidth 1) :
    (Expr.const v).Holds a ↔ (Expr.const v).isTrue = true := by
  obtain rfl := h.const_width
  constructor
  · intro hh
    rw [hh.const_eq]
    rfl
  · intro hh
    have hv : v.toNat = 1 := by simpa [Expr.isTrue] using hh
    obtain rfl : v = 1#1 := BitVec.eq_of_toNat_eq hv
    exact denotes_const _

theorem Expr.not_fails_of_holds {a : Assignment} {e : Expr} (h : e.Holds a) : ¬e.Fails a :=
  fun hf => absurd (h.value.symm.trans hf.value) (by decide)

theorem satisfies_append {a : Assignment} {cs ds : ConstraintSet} :
    Satisfies a (cs ++ ds) ↔ Satisfies a cs ∧ Satisfies a ds := by
  simp [Satisfies, or_imp, forall_and]

theorem failsSome_append {a : Assignment} {cs ds : ConstraintSet} :
    FailsSome a (cs ++ ds) ↔ FailsSome a cs ∨ FailsSome a ds := by
  simp [FailsSome, or_and_right, exists_or]

theorem satisfies_cons {a : Assignment} {c : Expr} {cs : ConstraintSet} :
    Satisfies a (c :: cs) ↔ c.Holds a ∧ Satisfies a cs := by
  simp [Satisfies]

theorem failsSome_cons {a : Assignment} {c : Expr} {cs : ConstraintSet} :
    FailsSome a (c :: cs) ↔ c.Fails a ∨ FailsSome a cs := by
  simp [FailsSome]

/-- Pushing an equality after the constraints were rewritten with it. -/
theorem Preserves.push_eq {e : Expr} {constraints : ConstraintSet} {r : Option ConstraintSet}
    (he : e.HasWidth 1)
    (h : Preserves (fun a => e.Holds a) (fun a => ¬e.Fails a) constraints r) :
    Preserves (fun _ => True) (fun _ => True) (constraints.push_back e)
      (r.map (ConstraintSet.push_back · e)) := by
  refine ⟨?_, ?_, ?_⟩
  · intro res hres
    obtain ⟨mid, hmid, rfl⟩ := Option.map_eq_some_iff.1 hres
    exact isBool_push_back.2 ⟨h.isBool mid hmid, he⟩
  · intro a _ hs
    obtain ⟨hs, hh⟩ := satisfies_push_back.1 hs
    obtain ⟨mid, hmid, hsm⟩ := h.satisfies a hh hs
    exact ⟨mid.push_back e, Option.map_eq_some_iff.2 ⟨mid, hmid, rfl⟩,
      satisfies_push_back.2 ⟨hsm, hh⟩⟩
  · intro a res hres _ hf
    obtain ⟨mid, hmid, rfl⟩ := Option.map_eq_some_iff.1 hres
    by_cases hef : e.Fails a
    · exact failsSome_push_back.2 (.inr hef)
    · have hcs := (failsSome_push_back.1 hf).resolve_right hef
      exact failsSome_push_back.2 (.inl (h.failsSome a mid hmid hef hcs))

/-- An evaluated set in which nothing fails is satisfied. -/
theorem satisfies_of_not_failsSome {a : Assignment} {constraints : ConstraintSet}
    (h : Evaluates a constraints) (hf : ¬FailsSome a constraints) : Satisfies a constraints :=
  fun c hc => (holds_or_fails (h c hc)).resolve_right fun hfail => hf ⟨c, hc, hfail⟩

variable [ExprOptions]

/-- Rewriting a constraint with an equality that does not fail keeps it failing: the equality holds,
or its other side has no value and so does not occur in the constraint. -/
theorem visit_fails {w : ℕ} {src ce : Expr} {c : BitVec w} {a : Assignment}
    (heq : (Expr.cmp .eq (.const c) src).HasWidth 1) (hce : ce.HasWidth 1)
    (hL : ¬(Expr.cmp .eq (.const c) src).Fails a) (hf : ce.Fails a) :
    (ExprReplaceVisitor.visit src (.const c) ce).Fails a := by
  by_cases hd : src.Defined a
  · have hh := (holds_or_fails (e := .cmp .eq (.const c) src) ⟨trivial, hd⟩).resolve_right hL
    have href := ExprReplaceVisitor.visit_refinesOn (P := (· = a))
      (refinesOn_of_eq heq (fun _ h => h ▸ hh)) hce.wf
    exact href.denotes_of rfl hce hf
  · rw [ExprReplaceVisitor.visit_eq_self hd hf.defined]
    exact hf

mutual

theorem addConstraintInternal_preserves {constraints : ConstraintSet} {e : Expr}
    (hb : constraints.IsBool) (he : e.HasWidth 1) :
    Preserves (fun _ => True) (fun _ => True) (constraints.push_back e)
      (addConstraintInternal constraints e) := by
  rw [addConstraintInternal_eq]
  split
  · rename_i v
    split
    · rename_i htrue
      refine (Preserves.of_some hb).of_input (fun a _ hs => (satisfies_push_back.1 hs).1) ?_
      intro a _ hf
      exact (failsSome_push_back.1 hf).resolve_right
        (Expr.not_fails_of_holds ((holds_const_iff he).2 htrue))
    · rename_i hfalse
      refine ⟨nofun, fun a _ hs => ?_, nofun⟩
      exact (hfalse ((holds_const_iff he).1 (satisfies_push_back.1 hs).2)).elim
  · rename_i left right
    have hleft := addConstraintInternal_preserves hb he.bin_left
    refine hleft.bind (fun res => res.push_back right) (fun res hres hbr => ?_) ?_ ?_
    · have hweight := weight_addConstraintInternal_le hres
      exact addConstraintInternal_preserves hbr he.bin_right
    · intro a _ hs
      obtain ⟨hs, hl, hr⟩ := satisfies_push_back.1 hs |>.imp_right holds_and_iff.1
      exact ⟨satisfies_push_back.2 ⟨hs, hl⟩, fun res h => satisfies_push_back.2 ⟨h, hr⟩⟩
    · intro a _ hf
      have hpush : ∀ res, FailsSome a res → FailsSome a (res.push_back right) :=
        fun res h => failsSome_push_back.2 (.inl h)
      rcases failsSome_push_back.1 hf with hf | hf
      · exact .inl ⟨failsSome_push_back.2 (.inl hf), hpush⟩
      rcases fails_of_fails_and hf with hf | hf
      · exact .inl ⟨failsSome_push_back.2 (.inr hf), hpush⟩
      · exact .inr fun res => failsSome_push_back.2 (.inr hf)
  · rename_i c right
    split
    · exact (rewriteConstraints_preserves he (show IsBool [] from nofun) hb).push_eq he
    · exact .of_some (isBool_push_back.2 ⟨hb, he⟩)
  · exact .of_some (isBool_push_back.2 ⟨hb, he⟩)
  termination_by (constraints.weight + e.weight, 0)
  decreasing_by
    all_goals
      refine .left _ _ ?_
      subst_vars
      simp only [Expr.weight, BinOp.weight, CmpOp.weight, ConstraintSet.weight_nil]
      omega

theorem rewriteConstraints_preserves {w : ℕ} {src : Expr} {c : BitVec w}
    {constraints old : ConstraintSet} (heq : (Expr.cmp .eq (.const c) src).HasWidth 1)
    (hb : constraints.IsBool) (ho : old.IsBool) :
    Preserves (fun a => (Expr.cmp .eq (.const c) src).Holds a)
      (fun a => ¬(Expr.cmp .eq (.const c) src).Fails a) (constraints ++ old)
      (rewriteConstraints src c constraints old) := by
  match old, ho with
  | [], _ =>
    rw [rewriteConstraints_nil, List.append_nil]
    exact .of_some hb
  | ce :: old, ho =>
    have hce := ho ce List.mem_cons_self
    have hold : ConstraintSet.IsBool old := fun c hc => ho c (List.mem_cons_of_mem _ hc)
    rw [rewriteConstraints_cons]
    split
    · have h := rewriteConstraints_preserves heq (isBool_push_back.2 ⟨hb, hce⟩) hold
      rw [ConstraintSet.push_back, List.append_assoc] at h
      exact h
    · rename_i hne
      have hlt := (ExprReplaceVisitor.visit_const_kept_or_lighter src c ce).resolve_left hne
      have href := ExprReplaceVisitor.visit_refinesOn
        (refinesOn_of_eq heq (P := fun a => (Expr.cmp .eq (.const c) src).Holds a)
          fun _ h => h) hce.wf
      have hadd := addConstraintInternal_preserves hb
        ⟨href.hasWidth.wf, href.hasWidth.width.trans hce.width⟩
      refine hadd.bind (fun res => res ++ old) (fun res hres hbr => ?_) ?_ ?_
      · have hweight := weight_addConstraintInternal_le hres
        exact rewriteConstraints_preserves heq hbr hold
      · intro a hH hs
        obtain ⟨hs, hsce, hsold⟩ := satisfies_append.1 hs |>.imp_right satisfies_cons.1
        exact ⟨satisfies_push_back.2 ⟨hs, href.denotes_of hH hce hsce⟩,
          fun res h => satisfies_append.2 ⟨h, hsold⟩⟩
      · intro a hL hf
        have happ : ∀ res, FailsSome a res → FailsSome a (res ++ old) :=
          fun res h => failsSome_append.2 (.inl h)
        rcases failsSome_append.1 hf with hf | hf
        · exact .inl ⟨failsSome_push_back.2 (.inl hf), happ⟩
        rcases failsSome_cons.1 hf with hf | hf
        · exact .inl ⟨failsSome_push_back.2 (.inr (visit_fails heq hce hL hf)), happ⟩
        · exact .inr fun res => failsSome_append.2 (.inr hf)
  termination_by (constraints.weight + old.weight, old.length)
  decreasing_by
    · refine .left _ _ ?_
      simp only [ConstraintSet.weight_cons]
      omega
    · refine .left _ _ ?_
      simp only [ConstraintSet.weight_cons]
      omega
    · simp only [ConstraintSet.weight_push_back, ConstraintSet.weight_cons, Nat.add_assoc]
      exact .right _ (by simp)

end

/-- Adding a constraint keeps the satisfying assignments, and keeps that a constraint fails under the
assignments that decide the set. -/
theorem addConstraint_preserves_decided {constraints : ConstraintSet} {e : Expr} (hb : constraints.IsBool)
    (he : e.HasWidth 1) :
    Preserves (fun _ => True) (fun a => Satisfies a constraints ∨ FailsSome a constraints)
      (constraints.push_back e) (addConstraint constraints e) := by
  have href := simplifyExpr_refinesOn hb he.wf
  have hadd := addConstraintInternal_preserves hb
    ⟨href.hasWidth.wf, href.hasWidth.width.trans he.width⟩
  refine ⟨hadd.isBool, fun a _ hs => ?_, fun a res hres hdec hf => ?_⟩
  · obtain ⟨hs, hh⟩ := satisfies_push_back.1 hs
    exact hadd.satisfies a trivial (satisfies_push_back.2 ⟨hs, href.denotes_of hs he hh⟩)
  · refine hadd.failsSome a res hres trivial (failsSome_push_back.2 ?_)
    by_cases hcs : FailsSome a constraints
    · exact .inl hcs
    · have hfail := (failsSome_push_back.1 hf).resolve_left hcs
      exact .inr (href.denotes_of (hdec.resolve_right hcs) he hfail)

theorem addConstraint_preserves {constraints : ConstraintSet} {e : Expr} (hb : constraints.IsBool)
    (he : e.HasWidth 1) :
    Preserves (fun _ => True) (fun a => Evaluates a constraints) (constraints.push_back e)
      (addConstraint constraints e) := by
  have h := addConstraint_preserves_decided hb he
  refine ⟨h.isBool, h.satisfies, fun a res hres hev hf => h.failsSome a res hres ?_ hf⟩
  by_cases hcs : FailsSome a constraints
  · exact .inr hcs
  · exact .inl (satisfies_of_not_failsSome hev hcs)

theorem Built.isBool {constraints : ConstraintSet} (h : Built constraints) :
    constraints.IsBool := by
  induction h with
  | empty => exact nofun
  | add _ he hadd ih => exact (addConstraint_preserves ih he).isBool _ hadd

/-- **The path condition is exact.**  For every set built by `addConstraint` calls: an expression is
simplified to one with the same value under every assignment that satisfies the set, and adding a
constraint consistent with the set returns a set that, among the assignments evaluating all
constraints, exactly those satisfy that satisfied the set and the constraint. -/
theorem addConstraint_exact {constraints : ConstraintSet} (hC : Built constraints) :
    (∀ x : Expr, x.WF → (simplifyExpr constraints x).HasWidth x.getWidth ∧
      ∀ a, Satisfies a constraints → x.Defined a →
        (simplifyExpr constraints x).Denotes a (x.eval a x.getWidth)) ∧
    ∀ e : Expr, e.HasWidth 1 → (∃ a, Satisfies a constraints ∧ e.Holds a) →
      ∃ res, addConstraint constraints e = some res ∧
        ∀ a, Evaluates a constraints → e.Defined a →
          (Satisfies a res ↔ Satisfies a constraints ∧ e.Holds a) := by
  refine ⟨fun x hx => ?_, fun e he hsat => ?_⟩
  · have h := simplifyExpr_refinesOn hC.isBool hx
    exact ⟨h.hasWidth, fun a hs hd => h.denotes hs hd⟩
  · have h := addConstraint_preserves hC.isBool he
    obtain ⟨a₀, hs₀, hh₀⟩ := hsat
    obtain ⟨res, hres, -⟩ := h.satisfies a₀ trivial (satisfies_push_back.2 ⟨hs₀, hh₀⟩)
    refine ⟨res, hres, fun a hev hd => ⟨fun hs => ?_, fun hs => ?_⟩⟩
    · by_contra hnot
      refine not_satisfies_of_failsSome (h.failsSome a res hres hev ?_) hs
      by_contra hfail
      have hall : Evaluates a (constraints.push_back e) := fun c hc =>
        (mem_push_back.1 hc).elim (hev c) fun h => h ▸ hd
      exact hnot (satisfies_push_back.1 (satisfies_of_not_failsSome hall hfail))
    · obtain ⟨res', hres', hs'⟩ := h.satisfies a trivial (satisfies_push_back.2 hs)
      rw [hres] at hres'
      cases hres'
      exact hs'

end Add

/-- The set `{x[0] = 5}`, built by one call, to which `x[0] < 7` is added. -/
theorem addConstraint_exact_eq_ult :
    let _ : ExprOptions := ⟨false, true⟩
    let x : Expr := .read (.root ⟨0, "x", 1, [], by decide, .inl rfl⟩) (.const 0#32)
    let eqn : Expr := .cmp .eq (.const 5#8) x
    let lt : Expr := .cmp .ult x (.const 7#8)
    Built [eqn] ∧ (∃ a, Satisfies a [eqn] ∧ lt.Holds a) ∧
      ∃ res, addConstraint [eqn] lt = some res ∧ ∀ a, Evaluates a [eqn] → lt.Defined a →
        (Satisfies a res ↔ Satisfies a [eqn] ∧ lt.Holds a) := by
  intro _ x eqn lt
  have hx : x.HasWidth 8 := by
    refine ⟨?_, rfl⟩
    simp [x, Expr.WF, UpdateList.WF, getWidth]
  have hbuilt : Built [eqn] := by
    refine .add (e := eqn) .empty ((hasWidth_const 5#8).cmp hx) ?_
    have hsimp : simplifyExpr [] eqn = eqn := by
      simp [simplifyExpr, ExprReplaceVisitor2.visit_of_entries_nil, equalities]
    rw [addConstraint, hsimp, addConstraintInternal_eq]
    simp [eqn, rewriteConstraints_nil, ConstraintSet.push_back]
  have hval : x.Denotes (fun _ _ => 5#8) 5#8 := by
    refine ⟨⟨trivial, ?_⟩, ?_⟩
    · simp [UpdateList.DefinedAt, Array.isConstantArray, Array.isSymbolicArray]
    · simp [x, Expr.eval, UpdateList.evalAt, Array.initialValue]
  have hsat : ∃ a, Satisfies a [eqn] ∧ lt.Holds a := by
    refine ⟨fun _ _ => 5#8, ?_, hval.cmp hx (denotes_const 7#8)⟩
    intro c hc
    rw [List.mem_singleton.1 hc]
    exact (denotes_const 5#8).cmp (hasWidth_const 5#8) hval
  exact ⟨hbuilt, hsat, (addConstraint_exact hbuilt).2 lt (hx.cmp (hasWidth_const 7#8)) hsat⟩

end ConstraintManager

end SymBisect
