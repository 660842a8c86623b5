import SymBisect.Expr.Weight

/-!
# Replacing subexpressions

The two visitors of `lib/Expr/Constraints.cpp` over `ExprVisitor::visitActual`: visit the kids,
rebuild the expression through its `create` function if a kid changed, and look the result up once
more.

* `ExprReplaceVisitor` replaces one expression, before and after visiting its kids.
* `ExprReplaceVisitor2` looks every expression up in a map, after visiting its kids, and is
  recursive: a rebuilt expression is visited again.

A visitor remembers its results (`--use-visitor-hash`); the result for an expression does not depend
on what was visited before, so the memory is not part of the model.  `visitRead` visits the index
only: the updates are not kids of a read.
-/

namespace SymBisect

open Expr

/-! ### Kids -/

namespace Expr

/-- `getKid(0)`, `getKid(1)`, ... -/
def kids : Expr → List Expr
  | .const _ => []
  | .notOptimized src => [src]
  | .read _ index => [index]
  | .select c t f => [c, t, f]
  | .concat l r => [l, r]
  | .extract e _ _ => [e]
  | .zext src _ => [src]
  | .sext src _ => [src]
  | .not e => [e]
  | .bin _ l r => [l, r]
  | .cmp _ l r => [l, r]

/-- The expression with every kid replaced, before it is rebuilt. -/
def mapKids (e : Expr) (f : (kid : Expr) → kid ∈ e.kids → Expr) : Expr :=
  match e, f with
  | .const v, _ => .const v
  | .notOptimized src, f => .notOptimized (f src (by simp [kids]))
  | .read ul index, f => .read ul (f index (by simp [kids]))
  | .select c t e, f => .select (f c (by simp [kids])) (f t (by simp [kids])) (f e (by simp [kids]))
  | .concat l r, f => .concat (f l (by simp [kids])) (f r (by simp [kids]))
  | .extract e off w, f => .extract (f e (by simp [kids])) off w
  | .zext src w, f => .zext (f src (by simp [kids])) w
  | .sext src w, f => .sext (f src (by simp [kids])) w
  | .not e, f => .not (f e (by simp [kids]))
  | .bin op l r, f => .bin op (f l (by simp [kids])) (f r (by simp [kids]))
  | .cmp op l r, f => .cmp op (f l (by simp [kids])) (f r (by simp [kids]))

theorem sizeOf_lt_of_mem_kids {e kid : Expr} (h : kid ∈ e.kids) : sizeOf kid < sizeOf e := by
  cases e <;> simp only [kids, List.mem_cons, List.not_mem_nil, or_false] at h
  case select => rcases h with rfl | rfl | rfl <;> simp only [Expr.select.sizeOf_spec] <;> omega
  case concat => rcases h with rfl | rfl <;> simp only [Expr.concat.sizeOf_spec] <;> omega
  case bin => rcases h with rfl | rfl <;> simp only [Expr.bin.sizeOf_spec] <;> omega
  case cmp => rcases h with rfl | rfl <;> simp only [Expr.cmp.sizeOf_spec] <;> omega
  all_goals
    subst h
    simp only [Expr.notOptimized.sizeOf_spec, Expr.read.sizeOf_spec, Expr.extract.sizeOf_spec,
      Expr.zext.sizeOf_spec, Expr.sext.sizeOf_spec, Expr.not.sizeOf_spec]
    omega

theorem weight_le_of_mem_kids {e kid : Expr} (h : kid ∈ e.kids) : kid.weight ≤ e.weight := by
  cases e <;> simp only [kids, List.mem_cons, List.not_mem_nil, or_false] at h
  case select => rcases h with rfl | rfl | rfl <;> simp only [weight] <;> omega
  case concat => rcases h with rfl | rfl <;> simp only [weight] <;> omega
  case bin => rcases h with rfl | rfl <;> simp only [weight] <;> omega
  case cmp => rcases h with rfl | rfl <;> simp only [weight] <;> omega
  all_goals
    subst h
    simp only [weight]
    omega

/-- A visit of a kid is a smaller call, in the order on weights and then sizes. -/
theorem weight_lex_of_mem_kids {e kid : Expr} (h : kid ∈ e.kids) :
    Prod.Lex (· < ·) (· < ·) (kid.weight, sizeOf kid) (e.weight, sizeOf e) := by
  rcases (weight_le_of_mem_kids h).lt_or_eq with hlt | heq
  · exact .left _ _ hlt
  · rw [heq]
    exact .right _ (sizeOf_lt_of_mem_kids h)

theorem weight_lt_of_kept_or_lighter {res e : Expr} {n : ℕ} (h : res = e ∨ res.weight < e.weight)
    (hlt : e.weight < n) : res.weight < n := by
  rcases h with rfl | h
  · exact hlt
  · exact h.trans hlt

theorem mapKids_eq_self {e : Expr} {f : (kid : Expr) → kid ∈ e.kids → Expr}
    (h : ∀ kid hk, f kid hk = kid) : e.mapKids f = e := by
  obtain rfl : f = fun kid _ => kid := by
    funext kid hk
    exact h kid hk
  cases e <;> rfl

/-- Lighter kids make a lighter node, unless the node is an extract. -/
theorem weight_mapKids_lt {e : Expr} {f : (kid : Expr) → kid ∈ e.kids → Expr}
    (hext : ∀ z off w, e ≠ .extract z off w) (hle : ∀ kid hk, (f kid hk).weight ≤ kid.weight)
    (hlt : ∃ kid hk, (f kid hk).weight < kid.weight) : (e.mapKids f).weight < e.weight := by
  obtain ⟨kid, hk, hlt⟩ := hlt
  have hmem := hk
  cases e <;> simp only [kids, List.mem_cons, List.not_mem_nil, or_false] at hmem
  case extract => exact (hext _ _ _ rfl).elim
  case select c t f' =>
    have hc := hle c (by simp [kids])
    have ht := hle t (by simp [kids])
    have hf := hle f' (by simp [kids])
    rcases hmem with rfl | rfl | rfl <;> simp only [mapKids, weight] <;> omega
  case concat l r =>
    have hl := hle l (by simp [kids])
    have hr := hle r (by simp [kids])
    rcases hmem with rfl | rfl <;> simp only [mapKids, weight] <;> omega
  case bin op l r =>
    have hl := hle l (by simp [kids])
    have hr := hle r (by simp [kids])
    rcases hmem with rfl | rfl <;> simp only [mapKids, weight] <;> omega
  case cmp op l r =>
    have hl := hle l (by simp [kids])
    have hr := hle r (by simp [kids])
    rcases hmem with rfl | rfl <;> simp only [mapKids, weight] <;> omega
  all_goals
    subst hmem
    simp only [mapKids, weight]
    omega

variable [ExprOptions]

/-- If every kid was kept or made lighter, then either none changed or the rebuilt expression is
lighter. -/
theorem weight_rebuild_mapKids_lt {e : Expr} {f : (kid : Expr) → kid ∈ e.kids → Expr}
    (hf : ∀ kid hk, f kid hk = kid ∨ (f kid hk).weight < kid.weight) :
    e.mapKids f = e ∨ (e.mapKids f).rebuild.weight < e.weight := by
  by_cases hall : ∀ kid hk, f kid hk = kid
  · exact .inl (mapKids_eq_self hall)
  refine .inr ?_
  have hle : ∀ kid hk, (f kid hk).weight ≤ kid.weight := by
    intro kid hk
    rcases hf kid hk with h | h
    · rw [h]
    · exact h.le
  have hlt : ∃ kid hk, (f kid hk).weight < kid.weight := by
    push Not at hall
    obtain ⟨kid, hk, hne⟩ := hall
    exact ⟨kid, hk, (hf kid hk).resolve_left hne⟩
  by_cases hext : ∀ z off w, e ≠ .extract z off w
  · exact (weight_rebuild_le _).trans_lt (weight_mapKids_lt hext hle hlt)
  · -- the rebuilt extract weighs no more than its new operand
    push Not at hext
    obtain ⟨z, off, w, rfl⟩ := hext
    obtain ⟨kid, hk, hlt⟩ := hlt
    obtain rfl : kid = z := by simpa [kids] using hk
    have := ExtractExpr.weight_create_le (f kid hk) off w
    simp only [mapKids, rebuild, weight]
    omega

end Expr

/-! ### The visitors -/

/-- A `std::map` from expressions to constants.  Keys are distinct: `insert` keeps the value that a
key already has. -/
structure Replacements where
  entries : List (Expr × Expr)
  constant : ∀ p ∈ entries, p.2.isConstant = true

/-- `std::map::find`. -/
def Replacements.find (repl : Replacements) (e : Expr) : Option Expr :=
  (repl.entries.find? fun p => p.1 = e).map Prod.snd

/-- `std::map::insert`. -/
def Replacements.insert (repl : Replacements) (key value : Expr) (h : value.isConstant = true) :
    Replacements :=
  if (repl.find key).isSome then repl
  else ⟨repl.entries ++ [(key, value)], by
    intro p hp
    rcases List.mem_append.1 hp with hp | hp
    · exact repl.constant p hp
    · rw [List.mem_singleton.1 hp]
      exact h⟩

theorem Replacements.mem_insert {repl : Replacements} {key value : Expr}
    {h : value.isConstant = true} {p : Expr × Expr} (hp : p ∈ (repl.insert key value h).entries) :
    p ∈ repl.entries ∨ p = (key, value) := by
  unfold Replacements.insert at hp
  split at hp
  · exact .inl hp
  · rcases List.mem_append.1 hp with hp | hp
    · exact .inl hp
    · exact .inr (List.mem_singleton.1 hp)

theorem Replacements.mem_of_find {repl : Replacements} {e v : Expr} (h : repl.find e = some v) :
    (e, v) ∈ repl.entries := by
  simp only [Replacements.find, Option.map_eq_some_iff] at h
  obtain ⟨p, hp, rfl⟩ := h
  have hkey := List.find?_some hp
  simp only [decide_eq_true_eq] at hkey
  subst hkey
  exact List.mem_of_find?_eq_some hp

theorem Replacements.weight_find {repl : Replacements} {e v : Expr} (h : repl.find e = some v) :
    v.weight = 0 := by
  have hv := repl.constant _ (Replacements.mem_of_find h)
  cases v with
  | const v => exact weight_const v
  | _ => cases hv

/-- The lookup after the kids: `visitExprPost`, which is not called on a constant. -/
def Replacements.visitExprPost (repl : Replacements) (e : Expr) : Expr :=
  if e.isConstant then e else (repl.find e).getD e

theorem Replacements.visitExprPost_kept_or_lighter {repl : Replacements} {e res : Expr}
    (hc : e.isConstant = false) (h : res = e ∨ res.weight < e.weight) :
    repl.visitExprPost res = e ∨ (repl.visitExprPost res).weight < e.weight := by
  unfold Replacements.visitExprPost
  split_ifs
  · exact h
  cases hfind : repl.find res with
  | none => exact h
  | some v =>
    refine .inr ?_
    rw [Option.getD_some, Replacements.weight_find hfind]
    exact Expr.weight_pos hc

section Visitors

variable [ExprOptions]

/-- `ExprReplaceVisitor::visitExprPost`, which is not called on a constant. -/
def ExprReplaceVisitor.visitExprPost (src dst e : Expr) : Expr :=
  if e.isConstant then e else if e = src then dst else e

/-- `ExprReplaceVisitor(src, dst).visit(e)`. -/
def ExprReplaceVisitor.visit (src dst e : Expr) : Expr :=
  if e.isConstant then e
  -- visitExpr
  else if e = src then dst
  else
    let visited := e.mapKids fun kid _ => ExprReplaceVisitor.visit src dst kid
    ExprReplaceVisitor.visitExprPost src dst (if visited = e then e else visited.rebuild)
  termination_by sizeOf e
  decreasing_by exact sizeOf_lt_of_mem_kids ‹_›

/-- `ExprReplaceVisitor2(replacements).visit(e)`, with the fact that makes its recursion on the
rebuilt expression terminate: a visit returns the expression itself or a lighter one. -/
def ExprReplaceVisitor2.visitAux (repl : Replacements) (e : Expr) :
    { res : Expr // res = e ∨ res.weight < e.weight } :=
  if hc : e.isConstant then ⟨e, .inl rfl⟩
  else
    let visited := e.mapKids fun kid _ => (ExprReplaceVisitor2.visitAux repl kid).1
    have hvisited : visited = e ∨ visited.rebuild.weight < e.weight :=
      weight_rebuild_mapKids_lt fun kid _ => (ExprReplaceVisitor2.visitAux repl kid).2
    let rebuilt : { res : Expr // res = e ∨ res.weight < e.weight } :=
      if h : visited = e then ⟨e, .inl rfl⟩
      else
        have hlt := hvisited.resolve_left h
        let again := ExprReplaceVisitor2.visitAux repl visited.rebuild
        ⟨again.1, .inr (weight_lt_of_kept_or_lighter again.2 hlt)⟩
    ⟨repl.visitExprPost rebuilt.1, Replacements.visitExprPost_kept_or_lighter (by simpa using hc) rebuilt.2⟩
  termination_by (e.weight, sizeOf e)
  decreasing_by
    · exact weight_lex_of_mem_kids ‹_›
    · exact weight_lex_of_mem_kids ‹_›
    · exact .left _ _ hlt

def ExprReplaceVisitor2.visit (repl : Replacements) (e : Expr) : Expr :=
  (ExprReplaceVisitor2.visitAux repl e).1

theorem ExprReplaceVisitor2.visit_eq (repl : Replacements) (e : Expr) :
    ExprReplaceVisitor2.visit repl e =
      if e.isConstant then e
      else
        let visited := e.mapKids fun kid _ => ExprReplaceVisitor2.visit repl kid
        let rebuilt := if visited = e then e else ExprReplaceVisitor2.visit repl visited.rebuild
        repl.visitExprPost rebuilt := by
  unfold ExprReplaceVisitor2.visit
  rw [ExprReplaceVisitor2.visitAux]
  split
  · rfl
  · dsimp only
    split <;> rfl

end Visitors

end SymBisect
