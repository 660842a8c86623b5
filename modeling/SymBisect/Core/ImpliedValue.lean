import SymBisect.Expr.Compare
import SymBisect.Expr.CreateSound

/-!
# Implied values

`ImpliedValue::getImpliedValues` of `lib/Core/ImpliedValue.cpp`: from the value of an expression, the values of reads below
it, by one inversion rule for each class.  A value is a `ref<ConstantExpr>`, which may be null.

* `Right`: the run ends without a failed assertion, and every pair holds wherever the expression has the value.
* `Invertible`: no rule that goes wrong is reached.
* `getImpliedValues_right_iff`: the pairs are right exactly in that case.

The rule for `Or` hands the operands the literal `0`, which makes a null reference, and the rule for `Ne` casts to
`EqExpr`.  The rule for `Select` tells constant arms apart by address; `SelectExpr::create` never makes a select with
equal arms.
-/

namespace SymBisect

open Expr

/-! ### Operations on constants -/

namespace ConstantExpr

/-- `ConstantExpr::Extract`. -/
def Extract (c : ConstantExpr) (off w : ℕ) : ConstantExpr := ⟨w, (c.value.sshiftRight off).setWidth w⟩

/-- `ConstantExpr::Sub`; the widths have to agree. -/
def Sub (c d : ConstantExpr) : Option ConstantExpr :=
  if d.width = c.width then some ⟨c.width, c.value - d.value.setWidth c.width⟩ else none

/-- `ConstantExpr::Xor`; the widths have to agree. -/
def Xor (c d : ConstantExpr) : Option ConstantExpr :=
  if d.width = c.width then some ⟨c.width, c.value ^^^ d.value.setWidth c.width⟩ else none

/-- `ConstantExpr::Not`. -/
def Not (c : ConstantExpr) : ConstantExpr := ⟨c.width, ~~~c.value⟩

/-- `ConstantExpr::isTrue`. -/
def isTrue (c : ConstantExpr) : Bool := c.width = 1 ∧ c.value ≠ 0

/-- `ConstantExpr::isZero`. -/
def isZero (c : ConstantExpr) : Bool := c.value = 0

end ConstantExpr

/-- `dyn_cast<ConstantExpr>`. -/
def Expr.asConstant : Expr → Option ConstantExpr
  | .const v => some ⟨_, v⟩
  | _ => none

namespace ImpliedValue

/-- `ImpliedValueList`: a read and its value. -/
abbrev ImpliedValueList := List (Expr × Option ConstantExpr)

/-- One call after the other. -/
def both (r r' : Option ImpliedValueList) : Option ImpliedValueList :=
  r.bind fun results => r'.bind fun results' => some (results ++ results')

/-- `getImpliedValues`: the pairs it pushes, or nothing when an assertion fails or a null reference is used. -/
def getImpliedValues : Expr → Placement → Option ConstantExpr → Option ImpliedValueList
  | .const v, _, value => if value = some ⟨_, v⟩ then some [] else none
  | .notOptimized _, _, _ => some []
  | .read updates index, _, value => some [(.read updates index, value)]
  | .select c t f, p, value =>
    match t.asConstant, f.asConstant with
    | some TrueCE, some FalseCE =>
      if (p.below (.kid 1)).addr ≠ (p.below (.kid 2)).addr then
        value.bind fun value =>
          if value = TrueCE then getImpliedValues c (p.below (.kid 0)) (some ⟨1, 1#1⟩)
          else if value = FalseCE then getImpliedValues c (p.below (.kid 0)) (some ⟨1, 0#1⟩)
          else none
      else some []
    | _, _ => some []
  | .concat l r, p, value =>
    value.bind fun value =>
      both (getImpliedValues l (p.below (.kid 0)) (some (value.Extract r.getWidth l.getWidth)))
        (getImpliedValues r (p.below (.kid 1)) (some (value.Extract 0 r.getWidth)))
  | .extract _ _ _, _, _ => some []
  | .zext src _, p, value =>
    value.bind fun value => getImpliedValues src (p.below (.kid 0)) (some (value.Extract 0 src.getWidth))
  | .sext src _, p, value =>
    value.bind fun value => getImpliedValues src (p.below (.kid 0)) (some (value.Extract 0 src.getWidth))
  | .not _, _, _ => some []
  | .bin op l r, p, value =>
    match op with
    | .add =>
      -- C_0 + A = C  =>  A = C - C_0
      match l.asConstant with
      | some CE => value.bind fun value =>
        (value.Sub CE).bind fun d => getImpliedValues r (p.below (.kid 1)) (some d)
      | none => some []
    | .sub =>
      -- C_0 - A = C  =>  A = C_0 - C
      match l.asConstant with
      | some CE => value.bind fun value =>
        (CE.Sub value).bind fun d => getImpliedValues r (p.below (.kid 1)) (some d)
      | none => some []
    | .and =>
      if l.getWidth = 1 then
        value.bind fun value =>
          if value.isTrue then
            both (getImpliedValues l (p.below (.kid 0)) (some value)) (getImpliedValues r (p.below (.kid 1)) (some value))
          else some []
      else some []
    | .or =>
      value.bind fun value =>
        if value.isZero then
          -- the literal 0 is the null pointer
          both (getImpliedValues l (p.below (.kid 0)) none) (getImpliedValues r (p.below (.kid 1)) none)
        else some []
    | .xor =>
      match l.asConstant with
      | some CE => value.bind fun value =>
        (value.Xor CE).bind fun d => getImpliedValues r (p.below (.kid 1)) (some d)
      | none => some []
    | _ => some []
  | .cmp op l r, p, value =>
    match op with
    | .ne => none -- cast<EqExpr> of an NeExpr
    | .eq =>
      value.bind fun value =>
        match l.asConstant with
        | some CE =>
          if value.isTrue then getImpliedValues r (p.below (.kid 1)) (some CE)
          else if CE.width = 1 then getImpliedValues r (p.below (.kid 1)) (some CE.Not)
          else some []
        | none => some []
    | _ => some []

/-! ### What goes wrong -/

/-- The rule does not look at the value and adds no pair. -/
def Inert : Expr → Placement → Prop
  | .notOptimized _, _ | .extract _ _ _, _ | .not _, _ => True
  | .select _ t f, p =>
    t.isConstant = true → f.isConstant = true → (p.below (.kid 1)).addr = (p.below (.kid 2)).addr
  | .bin op l _, _ =>
    match op with
    | .add | .sub | .xor => l.isConstant = false
    | .and => l.getWidth ≠ 1
    | .or => False
    | _ => True
  | .cmp op _ _, _ =>
    match op with
    | .eq | .ne => False
    | _ => True
  | .const _, _ | .read _ _, _ | .concat _ _, _ | .zext _ _, _ | .sext _ _, _ => False

/-- With the values the assignment gives, the rules reach no disjunction of value zero with an operand that is not inert, no
`Ne`, and no select with two equal constants for arms. -/
def Invertible (a : Assignment) : Expr → Placement → Prop
  | .const _, _ | .notOptimized _, _ | .read _ _, _ | .extract _ _ _, _ | .not _, _ => True
  | .select c t f, p =>
    t.isConstant = true → f.isConstant = true → (p.below (.kid 1)).addr ≠ (p.below (.kid 2)).addr →
      t ≠ f ∧ Invertible a c (p.below (.kid 0))
  | .concat l r, p => Invertible a l (p.below (.kid 0)) ∧ Invertible a r (p.below (.kid 1))
  | .zext src _, p => Invertible a src (p.below (.kid 0))
  | .sext src _, p => Invertible a src (p.below (.kid 0))
  | .bin op l r, p =>
    match op with
    | .add | .sub | .xor => l.isConstant = true → Invertible a r (p.below (.kid 1))
    | .and =>
      l.getWidth = 1 → l.eval a 1 &&& r.eval a 1 = 1#1 →
        Invertible a l (p.below (.kid 0)) ∧ Invertible a r (p.below (.kid 1))
    | .or =>
      l.eval a l.getWidth ||| r.eval a l.getWidth = 0 →
        Inert l (p.below (.kid 0)) ∧ Inert r (p.below (.kid 1))
    | _ => True
  | .cmp op l r, p =>
    match op with
    | .ne => False
    | .eq =>
      l.isConstant = true → l.eval a l.getWidth = r.eval a l.getWidth ∨ l.getWidth = 1 →
        Invertible a r (p.below (.kid 1))
    | _ => True

/-- Where both arms of a select are one constant, they are one object. -/
def NoTwin : Expr → Placement → Prop
  | .const _, _ | .read _ _, _ => True
  | .select c t f, p =>
    (t.isConstant = true → t = f → (p.below (.kid 1)).addr = (p.below (.kid 2)).addr) ∧
      NoTwin c (p.below (.kid 0)) ∧ NoTwin t (p.below (.kid 1)) ∧ NoTwin f (p.below (.kid 2))
  | .concat l r, p => NoTwin l (p.below (.kid 0)) ∧ NoTwin r (p.below (.kid 1))
  | .notOptimized src, p => NoTwin src (p.below (.kid 0))
  | .extract e _ _, p => NoTwin e (p.below (.kid 0))
  | .zext src _, p => NoTwin src (p.below (.kid 0))
  | .sext src _, p => NoTwin src (p.below (.kid 0))
  | .not e, p => NoTwin e (p.below (.kid 0))
  | .bin _ l r, p => NoTwin l (p.below (.kid 0)) ∧ NoTwin r (p.below (.kid 1))
  | .cmp _ l r, p => NoTwin l (p.below (.kid 0)) ∧ NoTwin r (p.below (.kid 1))

/-- The pair holds under every assignment of a set. -/
def Holds (S : Set Assignment) (pair : Expr × Option ConstantExpr) : Prop :=
  ∃ c, pair.2 = some c ∧ pair.1.HasWidth c.width ∧ ∀ a ∈ S, pair.1.Denotes a c.value

/-- The run ends, and its pairs hold. -/
def RightOn (S : Set Assignment) (r : Option ImpliedValueList) : Prop :=
  ∃ results, r = some results ∧ ∀ pair ∈ results, Holds S pair

/-- What is claimed of `getImpliedValues`. -/
def Right (o : Object) {w : ℕ} (value : BitVec w) : Prop :=
  RightOn {a | o.expr.Denotes a value} (getImpliedValues o.expr o.placement (some ⟨w, value⟩))

variable {S : Set Assignment} {a₀ : Assignment} {p : Placement} {e l r c t f src : Expr} {w : ℕ} {x : BitVec w}

/-! ### Runs -/

theorem rightOn_nil : RightOn S (some []) := ⟨[], rfl, fun _ hmem => absurd hmem List.not_mem_nil⟩

theorem not_rightOn_none : ¬RightOn S none := by
  rintro ⟨results, hres, -⟩
  cases hres

/-- Two calls are right when each is. -/
theorem rightOn_both {m n : Option ImpliedValueList} : RightOn S (both m n) ↔ RightOn S m ∧ RightOn S n := by
  constructor
  · rintro ⟨results, hres, hall⟩
    obtain ⟨left, hm, hres⟩ := Option.bind_eq_some_iff.1 hres
    obtain ⟨right, hn, hres⟩ := Option.bind_eq_some_iff.1 hres
    obtain rfl := Option.some.inj hres
    exact ⟨⟨left, hm, fun pair hp => hall pair (List.mem_append_left _ hp)⟩,
      ⟨right, hn, fun pair hp => hall pair (List.mem_append_right _ hp)⟩⟩
  · rintro ⟨⟨left, hm, hleft⟩, right, hn, hright⟩
    refine ⟨left ++ right, by rw [hm, hn]; rfl, fun pair hp => ?_⟩
    exact (List.mem_append.1 hp).elim (hleft pair) (hright pair)

theorem asConstant_eq_none (h : e.asConstant = none) : e.isConstant = false := by
  cases e with
  | const v => cases h
  | _ => rfl

/-- A constant below an expression of a known width. -/
theorem asConstant_eq_some {k : ConstantExpr} (h : e.asConstant = some k) (he : e.HasWidth w) :
    ∃ v : BitVec w, k = ⟨w, v⟩ ∧ e = .const v := by
  cases e with
  | const v =>
    obtain rfl := he.const_width
    exact ⟨v, (Option.some.inj h).symm, rfl⟩
  | _ => cases h

/-- **The null value**: a rule that looks at it fails, and a read is paired with it. -/
theorem rightOn_null_iff : RightOn S (getImpliedValues e p none) ↔ Inert e p := by
  cases e with
  | const v => exact iff_of_false not_rightOn_none id
  | notOptimized src => exact iff_of_true rightOn_nil trivial
  | read updates index =>
    refine iff_of_false ?_ id
    rintro ⟨results, hres, hall⟩
    obtain rfl := Option.some.inj hres
    obtain ⟨k, hk, -⟩ := hall _ (List.mem_singleton.2 rfl)
    cases hk
  | select c t f =>
    rw [getImpliedValues, Inert]
    cases ht : t.asConstant with
    | none => exact iff_of_true rightOn_nil fun h => absurd h (by rw [asConstant_eq_none ht]; decide)
    | some TrueCE =>
      cases hf : f.asConstant with
      | none => exact iff_of_true rightOn_nil fun _ h => absurd h (by rw [asConstant_eq_none hf]; decide)
      | some FalseCE =>
        have hct : t.isConstant = true := by cases t <;> first | rfl | cases ht
        have hcf : f.isConstant = true := by cases f <;> first | rfl | cases hf
        by_cases haddr : (p.below (.kid 1)).addr = (p.below (.kid 2)).addr
        · simp only [haddr, ne_eq, not_true_eq_false, if_false]
          exact iff_of_true rightOn_nil fun _ _ => trivial
        · simp only [haddr, ne_eq, not_false_eq_true, if_true]
          exact iff_of_false not_rightOn_none fun h => h hct hcf
  | concat l r => exact iff_of_false not_rightOn_none id
  | extract e off w => exact iff_of_true rightOn_nil trivial
  | zext src w => exact iff_of_false not_rightOn_none id
  | sext src w => exact iff_of_false not_rightOn_none id
  | not e => exact iff_of_true rightOn_nil trivial
  | bin op l r =>
    have hleft : ∀ k : ConstantExpr → Option ImpliedValueList, RightOn S (match l.asConstant with
        | some CE => (none : Option ConstantExpr).bind fun _ => k CE
        | none => some []) ↔ l.isConstant = false := by
      intro k
      cases hl : l.asConstant with
      | none => exact iff_of_true rightOn_nil (asConstant_eq_none hl)
      | some CE =>
        refine iff_of_false not_rightOn_none ?_
        cases l <;> first | exact Bool.noConfusion | cases hl
    cases op with
    | add => exact hleft fun _ => none
    | sub => exact hleft fun _ => none
    | xor => exact hleft fun _ => none
    | or => exact iff_of_false not_rightOn_none id
    | and =>
      show RightOn S (if l.getWidth = 1 then none else some []) ↔ l.getWidth ≠ 1
      by_cases hw : l.getWidth = 1
      · rw [if_pos hw]
        exact iff_of_false not_rightOn_none (not_not.2 hw)
      · rw [if_neg hw]
        exact iff_of_true rightOn_nil hw
    | _ => exact iff_of_true rightOn_nil trivial
  | cmp op l r =>
    cases op with
    | eq => exact iff_of_false not_rightOn_none id
    | ne => exact iff_of_false not_rightOn_none id
    | _ => exact iff_of_true rightOn_nil trivial

/-! ### The rules -/

/-- The pairs of the calls on `e` are right exactly where the rules below `e` can be inverted. -/
def Settled (S : Set Assignment) (a₀ : Assignment) (e : Expr) (p : Placement) : Prop :=
  ∀ (w : ℕ) (x : BitVec w), e.HasWidth w → (∀ a ∈ S, e.Denotes a x) →
    (Invertible a₀ e p → RightOn S (getImpliedValues e p (some ⟨w, x⟩))) ∧
      (NoTwin e p → RightOn S (getImpliedValues e p (some ⟨w, x⟩)) → Invertible a₀ e p)

/-- A rule that adds nothing. -/
theorem settled_of_nil (hres : ∀ value, getImpliedValues e p value = some []) (hinv : Invertible a₀ e p) :
    Settled S a₀ e p := by
  intro w x _ _
  rw [hres]
  exact ⟨fun _ => rightOn_nil, fun _ _ => hinv⟩

theorem settled_const {k : ℕ} {v : BitVec k} (ha₀ : a₀ ∈ S) : Settled S a₀ (.const v) p := by
  intro w x hw hx
  obtain rfl := hw.const_width
  obtain rfl := (hx a₀ ha₀).const_eq
  rw [getImpliedValues, if_pos rfl]
  exact ⟨fun _ => rightOn_nil, fun _ _ => trivial⟩

theorem settled_read {updates : UpdateList} {index : Expr} : Settled S a₀ (.read updates index) p := by
  intro w x hw hx
  refine ⟨fun _ => ⟨_, rfl, fun pair hmem => ?_⟩, fun _ _ => trivial⟩
  obtain rfl := List.mem_singleton.1 hmem
  exact ⟨_, rfl, hw, hx⟩

/-- Constant arms that differ tell which way the condition went. -/
theorem settled_select (ha₀ : a₀ ∈ S) (hc : Settled S a₀ c (p.below (.kid 0))) : Settled S a₀ (.select c t f) p := by
  intro w x hw hx
  obtain ⟨⟨hcwf, htwf, hfwf, hcw, htf⟩, hwidth⟩ := hw
  have hcWidth : c.HasWidth 1 := ⟨hcwf, hcw⟩
  have htWidth : t.HasWidth w := ⟨htwf, hwidth⟩
  have hfWidth : f.HasWidth w := ⟨hfwf, htf.symm.trans hwidth⟩
  rw [getImpliedValues, Invertible, NoTwin]
  cases ht : t.asConstant with
  | none => exact ⟨fun _ => rightOn_nil, fun _ _ h => absurd h (by rw [asConstant_eq_none ht]; decide)⟩
  | some TrueCE =>
    cases hf : f.asConstant with
    | none => exact ⟨fun _ => rightOn_nil, fun _ _ _ h => absurd h (by rw [asConstant_eq_none hf]; decide)⟩
    | some FalseCE =>
      obtain ⟨tv, rfl, rfl⟩ := asConstant_eq_some ht htWidth
      obtain ⟨fv, rfl, rfl⟩ := asConstant_eq_some hf hfWidth
      by_cases haddr : (p.below (.kid 1)).addr = (p.below (.kid 2)).addr
      · dsimp only
        rw [if_neg (not_not.2 haddr)]
        exact ⟨fun _ => rightOn_nil, fun _ _ _ _ h => absurd haddr h⟩
      dsimp only [Option.bind_some]
      rw [if_pos haddr]
      have hvalue : ∀ a ∈ S, x = if c.eval a 1 = 1#1 then tv else fv := by
        intro a ha
        rw [← (hx a ha).value, Expr.eval, (denotes_const tv).value, (denotes_const fv).value]
      have hcdef : ∀ a ∈ S, c.Defined a := fun a ha => (hx a ha).defined.1
      by_cases hne : tv = fv
      · -- twins: neither side of the statement applies
        subst hne
        exact ⟨fun hinv => absurd rfl (hinv rfl rfl haddr).1, fun htwin _ => absurd (htwin.1 rfl rfl) haddr⟩
      have hne' : (Expr.const tv : Expr) ≠ .const fv := by
        intro heq
        cases heq
        exact hne rfl
      by_cases htrue : x = tv
      · rw [if_pos (by rw [htrue])]
        have hone : ∀ a ∈ S, c.Denotes a 1#1 := by
          intro a ha
          refine ⟨hcdef a ha, ?_⟩
          by_contra hnot
          have hxa := hvalue a ha
          rw [if_neg hnot] at hxa
          exact hne (htrue.symm.trans hxa)
        obtain ⟨hto, hfrom⟩ := hc _ _ hcWidth hone
        exact ⟨fun hinv => hto (hinv rfl rfl haddr).2, fun htwin hr _ _ _ => ⟨hne', hfrom htwin.2.1 hr⟩⟩
      · have hxf : x = fv := by
          have hxa := hvalue a₀ ha₀
          by_cases hcond : c.eval a₀ 1 = 1#1
          · rw [if_pos hcond] at hxa
            exact absurd hxa htrue
          · rwa [if_neg hcond] at hxa
        have hzero : ∀ a ∈ S, c.Denotes a 0#1 := by
          intro a ha
          refine ⟨hcdef a ha, ?_⟩
          rcases BitVec.eq_one_or_zero_of_width_one (c.eval a 1) with hcond | hcond
          · have hxa := hvalue a ha
            rw [if_pos hcond] at hxa
            exact absurd hxa htrue
          · exact hcond
        rw [if_neg (by simpa using htrue), if_pos (by rw [hxf])]
        obtain ⟨hto, hfrom⟩ := hc _ _ hcWidth hzero
        exact ⟨fun hinv => hto (hinv rfl rfl haddr).2, fun htwin hr _ _ _ => ⟨hne', hfrom htwin.2.1 hr⟩⟩

/-- Two operands are settled together. -/
theorem settled_both {q q' : Placement} {y : BitVec w} {k : ℕ} {z : BitVec k} (hl : Settled S a₀ l q)
    (hr : Settled S a₀ r q') (hlw : l.HasWidth w) (hrw : r.HasWidth k) (hly : ∀ a ∈ S, l.Denotes a y)
    (hrz : ∀ a ∈ S, r.Denotes a z) :
    (Invertible a₀ l q ∧ Invertible a₀ r q' →
        RightOn S (both (getImpliedValues l q (some ⟨w, y⟩)) (getImpliedValues r q' (some ⟨k, z⟩)))) ∧
      (NoTwin l q ∧ NoTwin r q' →
        RightOn S (both (getImpliedValues l q (some ⟨w, y⟩)) (getImpliedValues r q' (some ⟨k, z⟩))) →
          Invertible a₀ l q ∧ Invertible a₀ r q') := by
  obtain ⟨hlto, hlfrom⟩ := hl _ _ hlw hly
  obtain ⟨hrto, hrfrom⟩ := hr _ _ hrw hrz
  refine ⟨fun h => rightOn_both.2 ⟨hlto h.1, hrto h.2⟩, fun hn h => ?_⟩
  obtain ⟨h1, h2⟩ := rightOn_both.1 h
  exact ⟨hlfrom hn.1 h1, hrfrom hn.2 h2⟩

theorem setWidth_sshiftRight_append {m n : ℕ} (y : BitVec m) (z : BitVec n) :
    ((y ++ z).sshiftRight n).setWidth m = y := by
  apply BitVec.eq_of_getLsbD_eq
  intro i hi
  have hlt : n + i < m + n := by omega
  have hout : ¬m + n ≤ i := by omega
  have hlow : ¬n + i < n := by omega
  rw [BitVec.getLsbD_setWidth, BitVec.getLsbD_sshiftRight, BitVec.getLsbD_append]
  simp [hi, hlt, hout, hlow]

theorem setWidth_append_right {m n : ℕ} (y : BitVec m) (z : BitVec n) :
    ((y ++ z).sshiftRight 0).setWidth n = z := by
  apply BitVec.eq_of_getLsbD_eq
  intro i hi
  simp [BitVec.getLsbD_append, hi]

/-- The operands of a concatenation are the two parts of the value. -/
theorem settled_concat (hl : Settled S a₀ l (p.below (.kid 0)))
    (hr : Settled S a₀ r (p.below (.kid 1))) : Settled S a₀ (.concat l r) p := by
  intro w x hw hx
  obtain ⟨⟨hlwf, hrwf⟩, hwidth⟩ := hw
  obtain rfl : l.getWidth + r.getWidth = w := hwidth
  have hvalue : ∀ a ∈ S, x = l.eval a l.getWidth ++ r.eval a r.getWidth := by
    intro a ha
    rw [← (hx a ha).value, Expr.eval, BitVec.setWidth_eq]
  have hly : ∀ a ∈ S, l.Denotes a ((x.sshiftRight r.getWidth).setWidth l.getWidth) := by
    intro a ha
    refine ⟨(hx a ha).defined.1, ?_⟩
    rw [hvalue a ha, setWidth_sshiftRight_append]
  have hrz : ∀ a ∈ S, r.Denotes a ((x.sshiftRight 0).setWidth r.getWidth) := by
    intro a ha
    refine ⟨(hx a ha).defined.2, ?_⟩
    rw [hvalue a ha, setWidth_append_right]
  exact settled_both hl hr ⟨hlwf, rfl⟩ ⟨hrwf, rfl⟩ hly hrz

/-- The operand of an extension is the low part of the value. -/
theorem settled_zext (hs : Settled S a₀ src (p.below (.kid 0))) (k : ℕ) : Settled S a₀ (.zext src k) p := by
  intro w x hw hx
  obtain ⟨⟨hwf, hle⟩, hwidth⟩ := hw
  obtain rfl : k = w := hwidth
  refine hs src.getWidth ((x.sshiftRight 0).setWidth src.getWidth) ⟨hwf, rfl⟩ fun a ha => ⟨(hx a ha).defined, ?_⟩
  rw [← (hx a ha).value, Expr.eval]
  simp [hle]

theorem settled_sext (hs : Settled S a₀ src (p.below (.kid 0))) (k : ℕ) : Settled S a₀ (.sext src k) p := by
  intro w x hw hx
  obtain ⟨⟨hwf, hle⟩, hwidth⟩ := hw
  obtain rfl : k = w := hwidth
  refine hs src.getWidth ((x.sshiftRight 0).setWidth src.getWidth) ⟨hwf, rfl⟩ fun a ha => ⟨(hx a ha).defined, ?_⟩
  rw [← (hx a ha).value, Expr.eval, BitVec.sshiftRight_zero, BitVec.setWidth_signExtend_self hle]

/-- The operators with an inverse: a constant on the left and the value give the right operand. -/
theorem settled_left {op : BinOp} {g : ConstantExpr → ConstantExpr → Option ConstantExpr} (ha₀ : a₀ ∈ S)
    (hr : Settled S a₀ r (p.below (.kid 1)))
    (hrule : ∀ (w : ℕ) (x : BitVec w), getImpliedValues (.bin op l r) p (some ⟨w, x⟩) =
      match l.asConstant with
      | some CE => (g CE ⟨w, x⟩).bind fun d => getImpliedValues r (p.below (.kid 1)) (some d)
      | none => some [])
    (hinv : Invertible a₀ (.bin op l r) p ↔ (l.isConstant = true → Invertible a₀ r (p.below (.kid 1))))
    (hg : ∀ {w : ℕ} (v y : BitVec w), g ⟨w, v⟩ ⟨w, op.apply v y⟩ = some ⟨w, y⟩) :
    Settled S a₀ (.bin op l r) p := by
  intro w x hw hx
  rw [hrule, hinv]
  cases hl : l.asConstant with
  | none => exact ⟨fun _ => rightOn_nil, fun _ _ h => absurd h (by rw [asConstant_eq_none hl]; decide)⟩
  | some CE =>
    obtain ⟨v, rfl, rfl⟩ := asConstant_eq_some hl hw.bin_left
    have hvalue : ∀ a ∈ S, op.apply v (r.eval a w) = x := by
      intro a ha
      obtain ⟨hleft, -, happ⟩ := (hx a ha).bin_inv
      rwa [← hleft.const_eq] at happ
    have hresult : g ⟨w, v⟩ ⟨w, x⟩ = some ⟨w, r.eval a₀ w⟩ := by
      rw [← hvalue a₀ ha₀]
      exact hg v _
    have hright : ∀ a ∈ S, r.Denotes a (r.eval a₀ w) := by
      intro a ha
      refine ⟨(hx a ha).defined.2.1, ?_⟩
      have hsame : g ⟨w, v⟩ ⟨w, x⟩ = some ⟨w, r.eval a w⟩ := by
        rw [← hvalue a ha]
        exact hg v _
      rw [hresult] at hsame
      injection hsame with hpair
      injection hpair with _ heval
      exact heval.symm
    dsimp only
    rw [hresult]
    obtain ⟨hto, hfrom⟩ := hr _ _ hw.bin_right hright
    exact ⟨fun h => hto (h rfl), fun htwin h _ => hfrom htwin.2 h⟩

theorem sub_get {v y : BitVec w} : ConstantExpr.Sub ⟨w, v + y⟩ ⟨w, v⟩ = some ⟨w, y⟩ := by
  rw [ConstantExpr.Sub, if_pos rfl, BitVec.setWidth_eq, BitVec.add_comm, BitVec.add_sub_cancel]

theorem sub_get_left {v y : BitVec w} : ConstantExpr.Sub ⟨w, v⟩ ⟨w, v - y⟩ = some ⟨w, y⟩ := by
  rw [ConstantExpr.Sub, if_pos rfl, BitVec.setWidth_eq]
  exact congrArg (fun d => some (⟨w, d⟩ : ConstantExpr)) (sub_sub_cancel v y)

theorem xor_get {v y : BitVec w} : ConstantExpr.Xor ⟨w, v ^^^ y⟩ ⟨w, v⟩ = some ⟨w, y⟩ := by
  rw [ConstantExpr.Xor, if_pos rfl, BitVec.setWidth_eq, BitVec.xor_comm v, BitVec.xor_assoc, BitVec.xor_self,
    BitVec.xor_zero]

/-- A true conjunction has true operands. -/
theorem settled_and (ha₀ : a₀ ∈ S) (hl : Settled S a₀ l (p.below (.kid 0))) (hr : Settled S a₀ r (p.below (.kid 1))) :
    Settled S a₀ (.bin .and l r) p := by
  intro w x hw hx
  have hlw : l.getWidth = w := hw.bin_left.width
  show (Invertible a₀ (.bin .and l r) p → RightOn S (if l.getWidth = 1 then _ else _)) ∧
    (_ → RightOn S (if l.getWidth = 1 then _ else _) → _)
  by_cases hone : l.getWidth = 1
  swap
  · rw [if_neg hone]
    exact ⟨fun _ => rightOn_nil, fun _ _ h => absurd h hone⟩
  obtain rfl : w = 1 := hlw.symm.trans hone
  have hvalue : ∀ a ∈ S, l.eval a 1 &&& r.eval a 1 = x := fun a ha => (hx a ha).value
  rw [if_pos hone]
  dsimp only [Option.bind_some]
  rcases BitVec.eq_one_or_zero_of_width_one x with htrue | hfalse
  · have hboth : ∀ a ∈ S, l.eval a 1 = 1#1 ∧ r.eval a 1 = 1#1 := by
      intro a ha
      have hand := (hvalue a ha).trans htrue
      revert hand
      generalize l.eval a 1 = y
      generalize r.eval a 1 = z
      revert y z
      decide
    rw [if_pos (by rw [htrue]; decide)]
    obtain ⟨hto, hfrom⟩ := settled_both (y := x) (z := x) hl hr hw.bin_left hw.bin_right
      (fun a ha => ⟨(hx a ha).defined.1, by rw [htrue]; exact (hboth a ha).1⟩)
      fun a ha => ⟨(hx a ha).defined.2.1, by rw [htrue]; exact (hboth a ha).2⟩
    exact ⟨fun h => hto (h hone ((hvalue a₀ ha₀).trans htrue)), fun htwin h _ _ => hfrom htwin h⟩
  · rw [if_neg (by rw [hfalse]; decide)]
    refine ⟨fun _ => rightOn_nil, fun _ _ _ h => ?_⟩
    rw [hvalue a₀ ha₀, hfalse] at h
    exact absurd h (by decide)

/-- A disjunction of value zero hands its operands the null value. -/
theorem settled_or (ha₀ : a₀ ∈ S) : Settled S a₀ (.bin .or l r) p := by
  intro w x hw hx
  have hlw : l.getWidth = w := hw.bin_left.width
  subst hlw
  have hvalue : l.eval a₀ l.getWidth ||| r.eval a₀ l.getWidth = x := (hx a₀ ha₀).value
  show ((l.eval a₀ l.getWidth ||| r.eval a₀ l.getWidth = 0 → Inert l _ ∧ Inert r _) →
    RightOn S (if ConstantExpr.isZero ⟨l.getWidth, x⟩ then both _ _ else _)) ∧
    (_ → RightOn S (if ConstantExpr.isZero ⟨l.getWidth, x⟩ then both _ _ else _) →
      l.eval a₀ l.getWidth ||| r.eval a₀ l.getWidth = 0 → Inert l _ ∧ Inert r _)
  rw [hvalue]
  by_cases hzero : x = 0
  · have hisZero : ConstantExpr.isZero ⟨l.getWidth, x⟩ = true := decide_eq_true hzero
    rw [if_pos hisZero, rightOn_both, rightOn_null_iff, rightOn_null_iff]
    exact ⟨fun h => h hzero, fun _ h _ => h⟩
  · rw [if_neg (by simpa [ConstantExpr.isZero] using hzero)]
    exact ⟨fun _ => rightOn_nil, fun _ _ h => absurd h hzero⟩

theorem eq_not_of_ne (hw : w = 1) {v y : BitVec w} (h : v ≠ y) : y = ~~~v := by
  subst hw
  revert v y
  decide

/-- An equation with a constant on the left gives the right side when it holds, and over booleans also when it fails. -/
theorem settled_eq (ha₀ : a₀ ∈ S) (hr : Settled S a₀ r (p.below (.kid 1))) : Settled S a₀ (.cmp .eq l r) p := by
  intro w x hw hx
  obtain rfl : 1 = w := hw.width
  have hlw : l.HasWidth l.getWidth := ⟨hw.wf.1, rfl⟩
  have hrw : r.HasWidth l.getWidth := ⟨hw.wf.2.1, hw.wf.2.2.symm⟩
  have hvalue : ∀ a ∈ S, BitVec.ofBool (l.eval a l.getWidth == r.eval a l.getWidth) = x := fun a ha =>
    ((hx a ha).cmp_inv hlw).2.2
  show ((l.isConstant = true → l.eval a₀ l.getWidth = r.eval a₀ l.getWidth ∨ l.getWidth = 1 → _) →
    RightOn S (match l.asConstant with | some CE => _ | none => _)) ∧
    (_ → RightOn S (match l.asConstant with | some CE => _ | none => _) → l.isConstant = true → _)
  cases hl : l.asConstant with
  | none => exact ⟨fun _ => rightOn_nil, fun _ _ h => absurd h (by rw [asConstant_eq_none hl]; decide)⟩
  | some CE =>
    obtain ⟨v, rfl, heq⟩ := asConstant_eq_some hl hlw
    have hleft : ∀ a, l.eval a l.getWidth = v := by
      intro a
      have hconst : (Expr.const v).eval a l.getWidth = v := (denotes_const v).value
      rwa [← heq] at hconst
    have hdef : ∀ a ∈ S, r.Defined a := fun a ha => (hx a ha).defined.2
    have hconst : l.isConstant = true := by rw [heq]; rfl
    simp only [hleft] at hvalue ⊢
    by_cases htrue : x = 1#1
    · have hsame : ∀ a ∈ S, v = r.eval a l.getWidth := by
        intro a ha
        have hbool := (hvalue a ha).trans htrue
        by_contra hne
        rw [beq_eq_false_iff_ne.2 hne] at hbool
        exact absurd hbool (by decide)
      rw [if_pos (by rw [htrue]; decide)]
      obtain ⟨hto, hfrom⟩ := hr _ _ hrw fun a ha => ⟨hdef a ha, (hsame a ha).symm⟩
      exact ⟨fun h => hto (h hconst (.inl (hsame a₀ ha₀))), fun htwin h _ _ => hfrom htwin.2 h⟩
    · have hfalse : x = 0#1 := (BitVec.eq_one_or_zero_of_width_one x).resolve_left htrue
      have hdiffer : ∀ a ∈ S, v ≠ r.eval a l.getWidth := by
        intro a ha hsame
        have hbool := (hvalue a ha).trans hfalse
        rw [beq_iff_eq.2 hsame] at hbool
        exact absurd hbool (by decide)
      rw [if_neg (by rw [hfalse]; decide)]
      by_cases hone : l.getWidth = 1
      · rw [if_pos hone]
        have hnot : ∀ a ∈ S, r.Denotes a (~~~v) := by
          intro a ha
          refine ⟨hdef a ha, ?_⟩
          exact eq_not_of_ne hone (hdiffer a ha)
        obtain ⟨hto, hfrom⟩ := hr _ _ hrw hnot
        exact ⟨fun h => hto (h hconst (.inr hone)), fun htwin h _ _ => hfrom htwin.2 h⟩
      · rw [if_neg hone]
        exact ⟨fun _ => rightOn_nil, fun _ _ _ h => absurd h (not_or.2 ⟨hdiffer a₀ ha₀, hone⟩)⟩

/-- **The rules, composed**: the pairs of a call are right exactly where the rules below can be inverted. -/
theorem settled (ha₀ : a₀ ∈ S) : ∀ (e : Expr) (p : Placement), Settled S a₀ e p
  | .const _, _ => settled_const ha₀
  | .notOptimized _, _ => settled_of_nil (fun _ => rfl) trivial
  | .read _ _, _ => settled_read
  | .select c _ _, _ => settled_select ha₀ (settled ha₀ c _)
  | .concat l r, _ => settled_concat (settled ha₀ l _) (settled ha₀ r _)
  | .extract _ _ _, _ => settled_of_nil (fun _ => rfl) trivial
  | .zext src k, _ => settled_zext (settled ha₀ src _) k
  | .sext src k, _ => settled_sext (settled ha₀ src _) k
  | .not _, _ => settled_of_nil (fun _ => rfl) trivial
  | .bin op l r, p => by
    have hl := settled ha₀ l (p.below (.kid 0))
    have hr := settled ha₀ r (p.below (.kid 1))
    cases op with
    | add => exact settled_left (g := fun CE d => d.Sub CE) ha₀ hr (fun _ _ => rfl) Iff.rfl fun _ _ => sub_get
    | sub => exact settled_left (g := fun CE d => CE.Sub d) ha₀ hr (fun _ _ => rfl) Iff.rfl fun _ _ => sub_get_left
    | xor => exact settled_left (g := fun CE d => d.Xor CE) ha₀ hr (fun _ _ => rfl) Iff.rfl fun _ _ => xor_get
    | and => exact settled_and ha₀ hl hr
    | or => exact settled_or ha₀
    | _ => exact settled_of_nil (fun _ => rfl) trivial
  | .cmp op l r, p => by
    have hr := settled ha₀ r (p.below (.kid 1))
    cases op with
    | eq => exact settled_eq ha₀ hr
    | ne =>
      intro w x _ _
      exact ⟨fun h => h.elim, fun _ h => absurd h not_rightOn_none⟩
    | _ => exact settled_of_nil (fun _ => rfl) trivial

/-- **When `getImpliedValues` is right**, for an expression that has the value under the assignment `a`: if no rule that goes
wrong is reached; and, where equal constant arms of a select are one object, only then. -/
theorem getImpliedValues_right_iff {o : Object} {value : BitVec w} {a : Assignment} (hw : o.expr.HasWidth w)
    (ha : o.expr.Denotes a value) :
    (Invertible a o.expr o.placement → Right o value) ∧
      (NoTwin o.expr o.placement → (Right o value ↔ Invertible a o.expr o.placement)) := by
  have hS : a ∈ {a | o.expr.Denotes a value} := ha
  obtain ⟨hto, hfrom⟩ := settled hS o.expr o.placement w value hw fun _ h => h
  exact ⟨hto, fun htwin => ⟨hfrom htwin, hto⟩⟩

/-- The byte `x[i]`. -/
def byte (i : BitVec 32) : Expr := .read (.root ⟨0, "x", 1, [], Array.oneByte_lt, Array.oneByte_values⟩) (.const i)

/-- `1 + x[0] = 3`, with its objects at the address `0`. -/
def sumObject : Object := ⟨.bin .add (.const 1#8) (byte 0#32), fun _ => 0⟩

theorem byte_defined (a : Assignment) (i : BitVec 32) : (byte i).Defined a := by
  simp [byte, Expr.Defined, UpdateList.DefinedAt, Array.isConstantArray, Array.isSymbolicArray]

theorem sumObject_denotes : sumObject.expr.Denotes (fun _ _ => 2#8) 3#8 := by
  refine ⟨⟨trivial, byte_defined _ _, fun h => absurd h (by decide)⟩, ?_⟩
  decide

/-- From `1 + x[0] = 3` the value of `x[0]` is right. -/
theorem getImpliedValues_right_sum : Right sumObject 3#8 :=
  (getImpliedValues_right_iff (by decide) sumObject_denotes).1 fun _ => trivial

/-- The disjunction of two bytes. -/
def orObject : Object := ⟨.bin .or (byte 0#32) (byte 0#32), fun _ => 0⟩

/-- Both bytes of `x[0] | x[0] = 0` are paired with a null reference. -/
theorem not_right_or : ¬∀ (o : Object) (w : ℕ) (value : BitVec w) (a : Assignment), o.expr.HasWidth w →
    o.expr.Denotes a value → Right o value := by
  intro hall
  have hden : orObject.expr.Denotes (fun _ _ => 0#8) 0#8 := by
    refine ⟨⟨byte_defined _ _, byte_defined _ _, fun h => absurd h (by decide)⟩, ?_⟩
    decide
  obtain ⟨results, hres, hholds⟩ := hall orObject 8 0#8 _ (by decide) hden
  obtain rfl : [(byte 0#32, none), (byte 0#32, none)] = results := Option.some.inj hres
  obtain ⟨k, hk, -⟩ := hholds _ List.mem_cons_self
  cases hk

end ImpliedValue

end SymBisect
