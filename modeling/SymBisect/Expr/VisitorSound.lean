import SymBisect.Expr.Visitor

/-!
# The visitors preserve meaning

`Expr.RefinesOn P e e'` says that under the assignments in `P` the expression `e'` may stand for `e`.
It is a preorder that the kids of a node may be replaced along (`mapKids_refinesOn`), so a visitor
whose replacements respect it respects it everywhere.

A replacement whose source has no value under `a` is never made inside an expression that has one
(`ExprReplaceVisitor.visit_eq_self`): an evaluated expression has evaluated kids.
-/

namespace SymBisect

open Expr

/-- `e'` has the width of `e` and, under the assignments in `P`, its value if `e` has one. -/
structure Expr.RefinesOn (P : Assignment → Prop) (e e' : Expr) : Prop where
  hasWidth : e'.HasWidth e.getWidth
  denotes : ∀ {a : Assignment}, P a → e.Defined a → e'.Denotes a (e.eval a e.getWidth)

section RefinesOn

variable {P : Assignment → Prop} {a : Assignment} {e e' e'' : Expr}

theorem Expr.Refines.on (h : e.Refines e') : e.RefinesOn P e' :=
  ⟨h.hasWidth, fun _ => h.denotes⟩

theorem Expr.RefinesOn.refl (h : e.WF) : e.RefinesOn P e := ⟨⟨h, rfl⟩, fun _ hd => .self hd _⟩

theorem Expr.RefinesOn.trans (h : e.RefinesOn P e') (h' : e'.RefinesOn P e'') :
    e.RefinesOn P e'' := by
  have hw := h.hasWidth.width
  refine ⟨hw ▸ h'.hasWidth, fun hp hd => ?_⟩
  obtain ⟨hd', hv⟩ := h.denotes hp hd
  have hd'' := h'.denotes hp hd'
  rw [hw, hv] at hd''
  exact hd''

/-- The value of a refinement at any width the refined expression has. -/
theorem Expr.RefinesOn.denotes_of {w : ℕ} {v : BitVec w} (h : e.RefinesOn P e') (hp : P a)
    (he : e.HasWidth w) (d : e.Denotes a v) : e'.Denotes a v := by
  obtain ⟨-, rfl⟩ := he
  rw [← d.value]
  exact h.denotes hp d.defined

theorem Expr.kids_wf (h : e.WF) : ∀ kid ∈ e.kids, kid.WF := by
  intro kid hk
  cases e <;> simp only [kids, List.mem_cons, List.not_mem_nil, or_false] at hk
  case select => rcases hk with rfl | rfl | rfl; exacts [h.1, h.2.1, h.2.2.1]
  case concat => rcases hk with rfl | rfl; exacts [h.1, h.2]
  case bin => rcases hk with rfl | rfl; exacts [h.1, h.2.1]
  case cmp => rcases hk with rfl | rfl; exacts [h.1, h.2.1]
  case notOptimized => subst hk; exact h
  case read => subst hk; exact h.2.1
  case not => subst hk; exact h
  all_goals subst hk; exact h.1

theorem Expr.kids_defined (h : e.Defined a) : ∀ kid ∈ e.kids, kid.Defined a := by
  intro kid hk
  cases e <;> simp only [kids, List.mem_cons, List.not_mem_nil, or_false] at hk
  case select => rcases hk with rfl | rfl | rfl; exacts [h.1, h.2.1, h.2.2]
  case concat => rcases hk with rfl | rfl; exacts [h.1, h.2]
  case bin => rcases hk with rfl | rfl; exacts [h.1, h.2.1]
  case cmp => rcases hk with rfl | rfl; exacts [h.1, h.2]
  case read => subst hk; exact h.1
  all_goals subst hk; exact h

/-- Refining the operands of an arithmetic node. -/
theorem Expr.RefinesOn.bin {op : BinOp} {l r l' r' : Expr} (h : (Expr.bin op l r).WF) (hl : l.RefinesOn P l')
    (hr : r.RefinesOn P r') : (Expr.bin op l r).RefinesOn P (Expr.bin op l' r') := by
  have hrw : r.HasWidth l.getWidth := ⟨h.2.1, h.2.2.symm⟩
  have hrw' : r'.HasWidth l.getWidth := ⟨hr.hasWidth.wf, hr.hasWidth.width.trans hrw.width⟩
  refine ⟨hl.hasWidth.bin hrw', fun hp hd => ?_⟩
  have hdiv := hd.2.2
  rw [hrw.width] at hdiv
  exact (hl.denotes hp hd.1).bin hrw' (hr.denotes_of hp hrw (.self hd.2.1 _)) hdiv

/-- Refining every kid refines the node. -/
theorem Expr.mapKids_refinesOn (h : e.WF) {f : (kid : Expr) → kid ∈ e.kids → Expr}
    (hf : ∀ kid hk, RefinesOn P kid (f kid hk)) : e.RefinesOn P (e.mapKids f) := by
  cases e with
  | const v => exact .refl h
  | notOptimized src =>
    have hs := hf src (by simp [kids])
    exact ⟨⟨hs.hasWidth.wf, hs.hasWidth.width⟩, fun hp hd => ⟨(hs.denotes hp hd).1, (hs.denotes hp hd).2⟩⟩
  | read ul index =>
    have hi := hf index (by simp [kids])
    have hw : index.HasWidth 32 := ⟨h.2.1, h.2.2⟩
    refine ⟨⟨⟨h.1, hi.hasWidth.wf, hi.hasWidth.width.trans h.2.2⟩, rfl⟩, fun hp hd => ?_⟩
    obtain ⟨hdi, hv⟩ := hi.denotes_of hp hw (.self hd.1 32)
    refine ⟨⟨hdi, ?_⟩, ?_⟩
    · rw [hv]
      exact hd.2
    · simp only [mapKids, Expr.eval, hv]
  | select c t f' =>
    have hc := hf c (by simp [kids])
    have ht := hf t (by simp [kids])
    have hf' := hf f' (by simp [kids])
    have hcw : c.HasWidth 1 := ⟨h.1, h.2.2.2.1⟩
    have hfw : f'.HasWidth t.getWidth := ⟨h.2.2.1, h.2.2.2.2.symm⟩
    refine ⟨(HasWidth.mk hc.hasWidth.wf (hc.hasWidth.width.trans hcw.width)).select ht.hasWidth
      ⟨hf'.hasWidth.wf, hf'.hasWidth.width.trans hfw.width⟩, fun hp hd => ?_⟩
    exact (hc.denotes_of hp hcw (.self hd.1 _)).select (ht.denotes hp hd.2.1)
      (hf'.denotes_of hp hfw (.self hd.2.2 _))
  | concat l r =>
    have hl := hf l (by simp [kids])
    have hr := hf r (by simp [kids])
    refine ⟨hl.hasWidth.concat hr.hasWidth, fun hp hd => ?_⟩
    rw [getWidth, Expr.eval, BitVec.setWidth_eq]
    exact (hl.denotes hp hd.1).concat hl.hasWidth hr.hasWidth (hr.denotes hp hd.2)
  | extract z off w =>
    have hz := hf z (by simp [kids])
    exact ⟨hz.hasWidth.extract h.2, fun hp hd => (hz.denotes hp hd).extract off w hz.hasWidth⟩
  | zext src w =>
    have hs := hf src (by simp [kids])
    exact ⟨hs.hasWidth.zext h.2, fun hp hd => (hs.denotes hp hd).zext w hs.hasWidth⟩
  | sext src w =>
    have hs := hf src (by simp [kids])
    exact ⟨hs.hasWidth.sext h.2, fun hp hd => (hs.denotes hp hd).sext w hs.hasWidth⟩
  | not z =>
    have hz := hf z (by simp [kids])
    exact ⟨hz.hasWidth.not, fun hp hd => (hz.denotes hp hd).not⟩
  | bin op l r =>
    exact RefinesOn.bin h (hf l (by simp [kids])) (hf r (by simp [kids]))
  | cmp op l r =>
    have hl := hf l (by simp [kids])
    have hr := hf r (by simp [kids])
    have hrw : r.HasWidth l.getWidth := ⟨h.2.1, h.2.2.symm⟩
    have hrw' : (f r (by simp [kids])).HasWidth l.getWidth :=
      ⟨hr.hasWidth.wf, hr.hasWidth.width.trans hrw.width⟩
    refine ⟨hl.hasWidth.cmp hrw', fun hp hd => ?_⟩
    rw [getWidth, Expr.eval, BitVec.setWidth_eq]
    exact (hl.denotes hp hd.1).cmp hl.hasWidth (hr.denotes_of hp hrw (.self hd.2 _))

end RefinesOn

/-! ### One replacement -/

section Replace

variable {P : Assignment → Prop} {src dst : Expr}

theorem ExprReplaceVisitor.visitExprPost_refinesOn (h : src.RefinesOn P dst) {e rebuilt : Expr}
    (hr : e.RefinesOn P rebuilt) :
    e.RefinesOn P (ExprReplaceVisitor.visitExprPost src dst rebuilt) := by
  unfold ExprReplaceVisitor.visitExprPost
  split
  · exact hr
  split
  · rename_i heq
    exact (heq ▸ hr).trans h
  · exact hr

variable [ExprOptions]

/-- What both visitors do between the visit of the kids and `visitExprPost`. -/
theorem Expr.rebuilt_refinesOn {e visited : Expr} (h : e.WF) (hv : e.RefinesOn P visited) :
    e.RefinesOn P (if visited = e then e else visited.rebuild) := by
  split
  · exact .refl h
  · exact hv.trans (rebuild_refines hv.hasWidth.wf).on

theorem ExprReplaceVisitor.visit_refinesOn (h : src.RefinesOn P dst) {e : Expr} (hwf : e.WF) :
    e.RefinesOn P (ExprReplaceVisitor.visit src dst e) := by
  rw [ExprReplaceVisitor.visit]
  split
  · exact .refl hwf
  split
  · rename_i heq
    rw [heq]
    exact h
  have hkids := mapKids_refinesOn (P := P) hwf
    (f := fun kid _ => ExprReplaceVisitor.visit src dst kid)
    fun kid hk => ExprReplaceVisitor.visit_refinesOn h (kids_wf hwf kid hk)
  exact ExprReplaceVisitor.visitExprPost_refinesOn h (Expr.rebuilt_refinesOn hwf hkids)
  termination_by sizeOf e
  decreasing_by exact sizeOf_lt_of_mem_kids ‹_›

/-- A source without a value does not occur in an expression that has one. -/
theorem ExprReplaceVisitor.visit_eq_self {a : Assignment} (h : ¬src.Defined a) {e : Expr} (he : e.Defined a) :
    ExprReplaceVisitor.visit src dst e = e := by
  have hne : e ≠ src := by
    rintro rfl
    exact h he
  rw [ExprReplaceVisitor.visit]
  have hkids : (e.mapKids fun kid _ => ExprReplaceVisitor.visit src dst kid) = e :=
    mapKids_eq_self fun kid hk => ExprReplaceVisitor.visit_eq_self h (kids_defined he kid hk)
  simp [hkids, hne, ExprReplaceVisitor.visitExprPost]
  termination_by sizeOf e
  decreasing_by exact sizeOf_lt_of_mem_kids ‹_›

/-- Replacing an expression by a constant makes whatever changes lighter. -/
theorem ExprReplaceVisitor.visit_const_kept_or_lighter (src : Expr) {w : ℕ} (c : BitVec w) (e : Expr) :
    ExprReplaceVisitor.visit src (.const c) e = e ∨
      (ExprReplaceVisitor.visit src (.const c) e).weight < e.weight := by
  have hzero : (Expr.const c).weight = 0 := weight_const c
  rw [ExprReplaceVisitor.visit]
  split
  · exact .inl rfl
  rename_i hc
  have hpos : 0 < e.weight := Expr.weight_pos (by simpa using hc)
  split
  · exact .inr (hzero ▸ hpos)
  have hkids := weight_rebuild_mapKids_lt (e := e)
    (f := fun kid _ => ExprReplaceVisitor.visit src (.const c) kid)
    fun kid hk => ExprReplaceVisitor.visit_const_kept_or_lighter src c kid
  have hpost : ∀ rebuilt : Expr, rebuilt = e ∨ rebuilt.weight < e.weight →
      ExprReplaceVisitor.visitExprPost src (.const c) rebuilt = e ∨
        (ExprReplaceVisitor.visitExprPost src (.const c) rebuilt).weight < e.weight := by
    intro rebuilt hr
    unfold ExprReplaceVisitor.visitExprPost
    split_ifs
    · exact hr
    · exact .inr (hzero ▸ hpos)
    · exact hr
  refine hpost _ ?_
  split
  · exact .inl rfl
  · exact .inr (hkids.resolve_left ‹_›)
  termination_by sizeOf e
  decreasing_by exact sizeOf_lt_of_mem_kids ‹_›

end Replace

/-! ### A map of replacements -/

section ReplaceAll

variable [ExprOptions] {P : Assignment → Prop} {repl : Replacements}

theorem ExprReplaceVisitor2.visit_refinesOn
    (h : ∀ p ∈ repl.entries, Expr.RefinesOn P p.1 p.2) {e : Expr} (hwf : e.WF) :
    e.RefinesOn P (ExprReplaceVisitor2.visit repl e) := by
  rw [ExprReplaceVisitor2.visit_eq]
  split
  · exact .refl hwf
  have hkids := mapKids_refinesOn (P := P) hwf
    (f := fun kid _ => ExprReplaceVisitor2.visit repl kid)
    fun kid hk => ExprReplaceVisitor2.visit_refinesOn h (kids_wf hwf kid hk)
  have hpost : ∀ rebuilt, RefinesOn P e rebuilt → RefinesOn P e (repl.visitExprPost rebuilt) := by
    intro rebuilt hr
    unfold Replacements.visitExprPost
    split
    · exact hr
    cases hfind : repl.find rebuilt with
    | none => exact hr
    | some v => exact hr.trans (h _ (Replacements.mem_of_find hfind))
  dsimp only
  refine hpost _ ?_
  split
  · exact .refl hwf
  · rename_i hne
    have hlt := (weight_rebuild_mapKids_lt (e := e)
      (f := fun kid _ => ExprReplaceVisitor2.visit repl kid)
      fun kid _ => (ExprReplaceVisitor2.visitAux repl kid).2).resolve_left hne
    have hreb := hkids.trans (rebuild_refines hkids.hasWidth.wf).on
    exact hreb.trans (ExprReplaceVisitor2.visit_refinesOn h hreb.hasWidth.wf)
  termination_by (e.weight, sizeOf e)
  decreasing_by
    · exact weight_lex_of_mem_kids ‹_›
    · exact .left _ _ hlt

/-- Without replacements nothing changes. -/
theorem ExprReplaceVisitor2.visit_of_entries_nil (h : repl.entries = []) (e : Expr) :
    ExprReplaceVisitor2.visit repl e = e := by
  have hkids : (e.mapKids fun kid _ => ExprReplaceVisitor2.visit repl kid) = e :=
    mapKids_eq_self fun kid hk => ExprReplaceVisitor2.visit_of_entries_nil h kid
  rw [ExprReplaceVisitor2.visit_eq]
  simp [hkids, Replacements.visitExprPost, Replacements.find, h]
  termination_by sizeOf e
  decreasing_by exact sizeOf_lt_of_mem_kids ‹_›

end ReplaceAll

end SymBisect
