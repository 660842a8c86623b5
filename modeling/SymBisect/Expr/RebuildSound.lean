import SymBisect.Expr.CreateSound

/-!
# Extract, concat, casts, select and read

The remaining `create` functions preserve meaning, and with them `Expr.rebuild`: every class's
`create` applied to its operands evaluates as the unsimplified node does.

The walk of `ReadExpr::create` skips an update only when `EqExpr::create` folded the comparison of
the indices to a constant, so the skipped update cannot be the one that is read.
-/

namespace SymBisect

open Expr

/-! ### Extract and concat -/

section ExtractConcat

/-- `e'` evaluates to the concatenation of the operands' values. -/
structure ConcatExpr.Computes (m n : ℕ) (l r e' : Expr) : Prop where
  hasWidth : e'.HasWidth (m + n)
  denotes : ∀ {a : Assignment} {x : BitVec m} {y : BitVec n}, l.Denotes a x → r.Denotes a y →
    e'.Denotes a (x ++ y)

/-- `e'` evaluates to the `w` bits of `e` from `off` on. -/
abbrev ExtractExpr.Computes (k off w : ℕ) (e e' : Expr) : Prop :=
  e.Computes₁ (fun v : BitVec k => v.extractLsb' off w) e'

theorem ConcatExpr.alloc_computes {m n : ℕ} {l r : Expr} (hl : l.HasWidth m) (hr : r.HasWidth n) :
    ConcatExpr.Computes m n l r (.concat l r) :=
  ⟨hl.concat hr, fun dl dr => dl.concat hl hr dr⟩

/-- Extracting from the operand of an extract. -/
theorem Expr.HasWidth.extract_inv {m o k : ℕ} {z : Expr} (h : (Expr.extract z o k).HasWidth m) :
    k = m ∧ z.HasWidth z.getWidth ∧ o + m ≤ z.getWidth :=
  ⟨h.width, ⟨h.wf.1, rfl⟩, h.width ▸ h.wf.2⟩

/-- `ConcatExpr::create`, given that merging two contiguous extracts of `l` is right. -/
theorem ConcatExpr.create_computes_of {m n : ℕ} {l r : Expr} (hl : l.HasWidth m)
    (hr : r.HasWidth n)
    (hmerge : ∀ z o k, l = .extract z o k → ∀ off w, z.HasWidth z.getWidth →
      off + w ≤ z.getWidth → ExtractExpr.Computes z.getWidth off w z (ExtractExpr.create z off w)) :
    ConcatExpr.Computes m n l r (ConcatExpr.create l r) := by
  unfold ConcatExpr.create
  split
  · obtain rfl := hl.const_width
    obtain rfl := hr.const_width
    refine ⟨hasWidth_const _, fun dl dr => ?_⟩
    rw [← dl.const_eq, ← dr.const_eq]
    exact denotes_const _
  · rename_i z o k z' o' k'
    split_ifs with h
    · obtain ⟨rfl, ho⟩ := h
      obtain ⟨rfl, hz, hle⟩ := hl.extract_inv
      obtain ⟨rfl, -, -⟩ := hr.extract_inv
      have hm := hmerge z o k rfl o' (k + k') hz (by omega)
      refine ⟨hm.hasWidth, fun {a x y} dl dr => ?_⟩
      have hx : (z.eval a z.getWidth).extractLsb' o k = x := dl.value
      have hy : (z.eval a z.getWidth).extractLsb' o' k' = y := dr.value
      rw [← hx, ← hy, BitVec.extractLsb'_append_extractLsb'_eq_extractLsb' ho.symm]
      exact hm.denotes (.self (e := z) dl.defined _)
    · exact ConcatExpr.alloc_computes hl hr
  · exact ConcatExpr.alloc_computes hl hr

/-- The bound that `createAux` carries, for `create`. -/
theorem ExtractExpr.create_operand_le {e z : Expr} {off w o k : ℕ}
    (h : ExtractExpr.create e off w = .extract z o k) : sizeOf z ≤ sizeOf e :=
  (ExtractExpr.createAux e off w).2 z o k h

/-- `ExtractExpr::create` as the source writes it, with `ConcatExpr::create` called by name. -/
theorem ExtractExpr.create_eq (e : Expr) (off w : ℕ) :
    ExtractExpr.create e off w =
      if w = e.getWidth then e
      else match e with
        | .const v => .const (v.extractLsb' off w)
        | .concat l r =>
          if r.getWidth ≤ off then ExtractExpr.create l (off - r.getWidth) w
          else if off + w ≤ r.getWidth then ExtractExpr.create r off w
          else ConcatExpr.create (ExtractExpr.create l 0 (off + w - r.getWidth))
            (ExtractExpr.create r off (r.getWidth - off))
        | e => .extract e off w := by
  unfold ExtractExpr.create
  rw [ExtractExpr.createAux.eq_def]
  by_cases hw : w = e.getWidth
  · simp only [if_pos hw]
  · simp only [if_neg hw]
    cases e with
    | concat l r =>
      dsimp only
      split_ifs with h1 h2
      · rfl
      · rfl
      · unfold ConcatExpr.create
        split
        · rename_i hl hr
          rw [hl, hr]
        · rename_i hl hr
          split_ifs with hz
          · simp only [hl, hr, if_pos hz]
            rfl
          · simp only [hl, hr, if_neg hz]
        · rename_i hconst hextract
          split
          · rename_i hl hr
            exact (hconst _ _ _ _ hl hr).elim
          · rename_i hl hr
            exact (hextract _ _ _ _ _ _ hl hr).elim
          · rfl
    | _ => rfl

theorem ExtractExpr.create_computes {k off w : ℕ} {e : Expr} (he : e.HasWidth k)
    (hle : off + w ≤ k) : ExtractExpr.Computes k off w e (ExtractExpr.create e off w) := by
  rw [ExtractExpr.create_eq]
  split
  · rename_i hw
    obtain rfl : w = k := hw.trans he.width
    obtain rfl : off = 0 := by omega
    exact ⟨he, fun d => by simpa using d⟩
  split
  · obtain rfl := he.const_width
    refine ⟨hasWidth_const _, fun d => ?_⟩
    rw [← d.const_eq]
    exact denotes_const _
  · rename_i l r _
    obtain rfl : l.getWidth + r.getWidth = k := he.width
    have hl : l.HasWidth l.getWidth := ⟨he.wf.1, rfl⟩
    have hr : r.HasWidth r.getWidth := ⟨he.wf.2, rfl⟩
    have hval : ∀ {a : Assignment} {v : BitVec (l.getWidth + r.getWidth)},
        (l.concat r).Denotes a v → l.eval a l.getWidth ++ r.eval a r.getWidth = v := by
      intro a v d
      rw [← d.value, Expr.eval, BitVec.setWidth_eq]
    split_ifs with h1 h2
    · have hoff : off - r.getWidth + w ≤ l.getWidth := by omega
      refine (ExtractExpr.create_computes hl hoff).of_operand
        fun d => ⟨_, .self (e := l) d.defined.1 _, ?_⟩
      rw [← hval d, BitVec.extractLsb'_append_eq_of_le h1]
    · refine (ExtractExpr.create_computes hr h2).of_operand
        fun d => ⟨_, .self (e := r) d.defined.2 _, ?_⟩
      rw [← hval d, BitVec.extractLsb'_append_eq_of_add_le h2]
    · have hel := ExtractExpr.create_computes hl (show 0 + (off + w - r.getWidth) ≤ _ by omega)
      have her := ExtractExpr.create_computes hr (show off + (r.getWidth - off) ≤ _ by omega)
      have hcat := ConcatExpr.create_computes_of hel.hasWidth her.hasWidth
        fun z o k hz off w hzw hzle =>
          have : sizeOf z ≤ sizeOf l := ExtractExpr.create_operand_le hz
          ExtractExpr.create_computes hzw hzle
      have hsum : off + w - r.getWidth + (r.getWidth - off) = w := by omega
      refine ⟨⟨hcat.hasWidth.wf, hcat.hasWidth.width.trans hsum⟩, fun d => ?_⟩
      have dcat := hcat.denotes (hel.denotes (.self (e := l) d.defined.1 _))
        (her.denotes (.self (e := r) d.defined.2 _))
      refine ⟨dcat.defined, ?_⟩
      rw [← hval d, ← BitVec.extractLsb'_append_across _ _ (by omega) hsum, ← dcat.value]
      rw [hsum, BitVec.setWidth_eq]
  · exact ⟨he.extract hle, fun d => d.extract off w he⟩
  termination_by sizeOf e
  decreasing_by
    all_goals
      subst_vars
      simp only [Expr.concat.sizeOf_spec]
      omega

theorem ConcatExpr.create_computes {m n : ℕ} {l r : Expr} (hl : l.HasWidth m)
    (hr : r.HasWidth n) : ConcatExpr.Computes m n l r (ConcatExpr.create l r) :=
  ConcatExpr.create_computes_of hl hr fun _ _ _ _ _ _ hz hle => ExtractExpr.create_computes hz hle

end ExtractConcat

/-! ### Casts and complement -/

section Casts

variable {k w : ℕ} {e : Expr}

theorem NotExpr.create_computes (he : e.HasWidth w) :
    e.Computes₁ (fun x : BitVec w => ~~~ x) (NotExpr.create e) := by
  unfold NotExpr.create
  split
  · obtain rfl := he.const_width
    refine ⟨hasWidth_const _, fun d => ?_⟩
    rw [← d.const_eq]
    exact denotes_const _
  · exact ⟨he.not, fun d => d.not⟩

theorem ZExtExpr.create_computes (he : e.HasWidth k) (hk : k ≤ w) :
    e.Computes₁ (fun x : BitVec k => x.setWidth w) (ZExtExpr.create e w) := by
  unfold ZExtExpr.create
  split_ifs with h1 h2
  · obtain rfl : w = k := h1.trans he.width
    exact ⟨he, fun d => by simpa using d⟩
  · exact absurd (he.width ▸ h2) (by omega)
  split
  · obtain rfl := he.const_width
    refine ⟨hasWidth_const _, fun d => ?_⟩
    rw [← d.const_eq]
    exact denotes_const _
  · exact ⟨he.zext hk, fun d => d.zext w he⟩

theorem SExtExpr.create_computes (he : e.HasWidth k) (hk : k ≤ w) :
    e.Computes₁ (fun x : BitVec k => x.signExtend w) (SExtExpr.create e w) := by
  unfold SExtExpr.create
  split_ifs with h1 h2
  · obtain rfl : w = k := h1.trans he.width
    exact ⟨he, fun d => by simpa using d⟩
  · exact absurd (he.width ▸ h2) (by omega)
  split
  · obtain rfl := he.const_width
    refine ⟨hasWidth_const _, fun d => ?_⟩
    rw [← d.const_eq]
    exact denotes_const _
  · exact ⟨he.sext hk, fun d => d.sext w he⟩

end Casts

/-! ### Select and read -/

section Select

/-- `e'` evaluates to the branch that the condition selects. -/
structure SelectExpr.Computes (w : ℕ) (c t f e' : Expr) : Prop where
  hasWidth : e'.HasWidth w
  denotes : ∀ {a : Assignment} {b : BitVec 1} {x y : BitVec w}, c.Denotes a b → t.Denotes a x →
    f.Denotes a y → e'.Denotes a (if b = 1#1 then x else y)

theorem SelectExpr.alloc_computes {w : ℕ} {c t f : Expr} (hc : c.HasWidth 1) (ht : t.HasWidth w)
    (hf : f.HasWidth w) : SelectExpr.Computes w c t f (.select c t f) :=
  ⟨hc.select ht hf, fun dc dt df => dc.select dt df⟩

variable [ExprOptions]

/-- A select on booleans with a constant branch is one `Or` or `And`. -/
theorem selectExprCreateBool_computes {c t f : Expr} (hc : c.HasWidth 1) (ht : t.HasWidth 1)
    (hf : f.HasWidth 1) : SelectExpr.Computes 1 c t f (selectExprCreateBool c t f) := by
  unfold selectExprCreateBool
  have hz := createIsZero_computes hc
  split
  · rename_i w v
    obtain rfl : w = 1 := ht.const_width
    split_ifs with h1
    · obtain rfl : v = 1#1 := BitVec.eq_of_toNat_eq h1
      have h := OrExpr.create_computes hc hf
      refine ⟨h.hasWidth, fun {a b x y} dc dt df => ?_⟩
      have hsel : ∀ b y : BitVec 1, b ||| y = if b = 1#1 then 1#1 else y := by decide
      rw [← dt.const_eq, ← hsel]
      exact h.denotes dc df fun h => absurd h Bool.false_ne_true
    · obtain rfl : v = 0#1 :=
        (BitVec.eq_one_or_zero_of_width_one v).resolve_left (by rintro rfl; exact h1 rfl)
      have h := AndExpr.create_computes hz.hasWidth hf
      refine ⟨h.hasWidth, fun {a b x y} dc dt df => ?_⟩
      have hsel : ∀ b y : BitVec 1,
          BitVec.ofBool (b == 0) &&& y = if b = 1#1 then 0#1 else y := by decide
      rw [← dt.const_eq, ← hsel]
      exact h.denotes (hz.denotes dc) df fun h => absurd h Bool.false_ne_true
  · rename_i w v _
    obtain rfl : w = 1 := hf.const_width
    split_ifs with h1
    · obtain rfl : v = 1#1 := BitVec.eq_of_toNat_eq h1
      have h := OrExpr.create_computes hz.hasWidth ht
      refine ⟨h.hasWidth, fun {a b x y} dc dt df => ?_⟩
      have hsel : ∀ b x : BitVec 1,
          BitVec.ofBool (b == 0) ||| x = if b = 1#1 then x else 1#1 := by decide
      rw [← df.const_eq, ← hsel]
      exact h.denotes (hz.denotes dc) dt fun h => absurd h Bool.false_ne_true
    · obtain rfl : v = 0#1 :=
        (BitVec.eq_one_or_zero_of_width_one v).resolve_left (by rintro rfl; exact h1 rfl)
      have h := AndExpr.create_computes hc ht
      refine ⟨h.hasWidth, fun {a b x y} dc dt df => ?_⟩
      have hsel : ∀ b x : BitVec 1, b &&& x = if b = 1#1 then x else 0#1 := by decide
      rw [← df.const_eq, ← hsel]
      exact h.denotes dc dt fun h => absurd h Bool.false_ne_true
  · exact SelectExpr.alloc_computes hc ht hf

theorem SelectExpr.create_computes {w : ℕ} {c t f : Expr} (hc : c.HasWidth 1) (ht : t.HasWidth w)
    (hf : f.HasWidth w) : SelectExpr.Computes w c t f (SelectExpr.create c t f) := by
  unfold SelectExpr.create
  split
  · rename_i v
    obtain rfl := hc.const_width
    split_ifs with h1
    · obtain rfl : v = 1#1 := BitVec.eq_of_toNat_eq h1.2
      refine ⟨ht, fun dc dt _ => ?_⟩
      rw [← dc.const_eq, if_pos rfl]
      exact dt
    · have hv : v ≠ 1#1 := by rintro rfl; exact h1 ⟨rfl, rfl⟩
      refine ⟨hf, fun dc _ df => ?_⟩
      rw [← dc.const_eq, if_neg hv]
      exact df
  split
  · rename_i heq
    subst heq
    refine ⟨ht, fun _ dt df => ?_⟩
    have hxy := dt.value.symm.trans df.value
    subst hxy
    rw [ite_self]
    exact dt
  split
  · rename_i h1
    obtain rfl : 1 = w := h1.symm.trans ht.width
    exact selectExprCreateBool_computes hc ht hf
  · exact SelectExpr.alloc_computes hc ht hf

end Select

section Read

/-- What the update loop of `ReadExpr::create` returns: the value written to the index, or a tail
of the list that holds the same byte there.  Only a walk that met no symbolic write ends at the
root. -/
def ReadWalk.Sound (index : Expr) (ul : UpdateList) : ReadWalk → Prop
  | .found v => v.HasWidth 8 ∧ ∀ a, index.Defined a → ul.DefinedAt a (index.eval a 32).toNat →
      v.Denotes a (ul.evalAt a (index.eval a 32).toNat)
  | .stopped un symbolic => un.WF ∧ un.getRoot = ul.getRoot ∧
      (symbolic = false → un = .root ul.getRoot) ∧
      ∀ a, index.Defined a → ul.DefinedAt a (index.eval a 32).toNat →
        un.DefinedAt a (index.eval a 32).toNat ∧
          un.evalAt a (index.eval a 32).toNat = ul.evalAt a (index.eval a 32).toNat

/-- An update whose index is known to differ can be skipped. -/
theorem ReadWalk.Sound.extend {index i v : Expr} {next : UpdateList} {res : ReadWalk}
    (h : res.Sound index next)
    (hne : ∀ a, index.Defined a → i.Defined a → (i.eval a 32).toNat ≠ (index.eval a 32).toNat) :
    res.Sound index (.extend next i v) := by
  have hskip : ∀ a, index.Defined a →
      (UpdateList.extend next i v).DefinedAt a (index.eval a 32).toNat →
      next.DefinedAt a (index.eval a 32).toNat ∧
        (UpdateList.extend next i v).evalAt a (index.eval a 32).toNat =
          next.evalAt a (index.eval a 32).toNat := by
    intro a hidx hdef
    have hn := hne a hidx hdef.1
    refine ⟨?_, by rw [UpdateList.evalAt, if_neg hn]⟩
    have htail := hdef.2
    rwa [if_neg hn] at htail
  cases res with
  | found value =>
    refine ⟨h.1, fun a hidx hdef => ?_⟩
    obtain ⟨hd, hv⟩ := hskip a hidx hdef
    rw [hv]
    exact h.2 a hidx hd
  | stopped un symbolic =>
    refine ⟨h.1, h.2.1, h.2.2.1, fun a hidx hdef => ?_⟩
    obtain ⟨hd, hv⟩ := hskip a hidx hdef
    rw [hv]
    exact h.2.2.2 a hidx hd

/-- `e'` evaluates to the byte that the update list holds at the index. -/
structure ReadExpr.Computes (ul : UpdateList) (index e' : Expr) : Prop where
  hasWidth : e'.HasWidth 8
  denotes : ∀ {a : Assignment}, index.Defined a → ul.DefinedAt a (index.eval a 32).toNat →
    e'.Denotes a (ul.evalAt a (index.eval a 32).toNat)

theorem ReadExpr.alloc_computes {ul : UpdateList} {index : Expr} (hul : ul.WF)
    (hidx : index.HasWidth 32) : ReadExpr.Computes ul index (.read ul index) :=
  ⟨⟨⟨hul, hidx.wf, hidx.width⟩, rfl⟩,
    fun hd hul => ⟨⟨hd, hul⟩, by rw [Expr.eval, BitVec.setWidth_eq]⟩⟩

variable [ExprOptions]

theorem ReadExpr.walk_sound {index : Expr} (hidx : index.HasWidth 32) :
    ∀ ul : UpdateList, ul.WF → (ReadExpr.walk index ul).Sound index ul
  | .root arr, h => ⟨h, rfl, fun _ => rfl, fun _ _ hd => ⟨hd, rfl⟩⟩
  | .extend next i v, h => by
    obtain ⟨hnext, hiwf, hiw, hvwf, hvw⟩ := h
    have heq := EqExpr.create_computes hidx ⟨hiwf, hiw⟩
    unfold ReadExpr.walk
    split
    · rename_i k c hc
      rw [hc] at heq
      obtain rfl := heq.hasWidth.const_width
      have hval : ∀ a, index.Defined a → i.Defined a →
          c = BitVec.ofBool (index.eval a 32 == i.eval a 32) :=
        fun a h1 h2 => (heq.denotes (.self h1 32) (.self h2 32)).const_eq
      split_ifs with h1
      · obtain rfl : c = 1#1 := BitVec.eq_of_toNat_eq h1.2
        refine ⟨⟨hvwf, hvw⟩, fun a hia hdef => ?_⟩
        have hsame : index.eval a 32 = i.eval a 32 := by
          have h := hval a hia hdef.1
          by_contra hne
          rw [beq_eq_false_iff_ne.2 hne] at h
          exact absurd h (by decide)
        have hpos : (i.eval a 32).toNat = (index.eval a 32).toNat := by rw [hsame]
        have hdv := hdef.2
        rw [if_pos hpos] at hdv
        exact ⟨hdv, by rw [UpdateList.evalAt, if_pos hpos]⟩
      · refine (ReadExpr.walk_sound hidx next hnext).extend fun a hia hida hsame => h1 ⟨rfl, ?_⟩
        rw [hval a hia hida, BitVec.eq_of_toNat_eq hsame.symm, beq_self_eq_true]
        rfl
    · exact ⟨⟨hnext, hiwf, hiw, hvwf, hvw⟩, rfl, fun h => absurd h.symm Bool.false_ne_true, fun _ _ hd => ⟨hd, rfl⟩⟩

theorem ReadExpr.create_computes {ul : UpdateList} {index : Expr} (hul : ul.WF)
    (hidx : index.HasWidth 32) : ReadExpr.Computes ul index (ReadExpr.create ul index) := by
  have hwalk := ReadExpr.walk_sound hidx ul hul
  unfold ReadExpr.create
  split
  · rename_i v hfound
    rw [hfound] at hwalk
    exact ⟨hwalk.1, fun hd hdul => hwalk.2 _ hd hdul⟩
  rename_i un symbolic hstop
  rw [hstop] at hwalk
  obtain ⟨hun, -, hroot, hsame⟩ := hwalk
  split
  · rename_i k c
    obtain rfl := hidx.const_width
    split_ifs with hlt
    · split
      · -- a constant array read at a constant index, with no symbolic write in the way
        rename_i v hval
        refine ⟨hasWidth_const v, fun {a} hd hdul => ?_⟩
        rw [← (hsame a hd hdul).2, hroot rfl, UpdateList.evalAt, Array.initialValue, Expr.eval,
          BitVec.setWidth_eq, hval]
        exact denotes_const v
      · have hread := ReadExpr.alloc_computes hun hidx
        refine ⟨hread.hasWidth, fun {a} hd hdul => ?_⟩
        rw [← (hsame a hd hdul).2]
        exact hread.denotes hd (hsame a hd hdul).1
    · exact ReadExpr.alloc_computes hul hidx
  · exact ReadExpr.alloc_computes hul hidx

end Read

/-! ### Every class -/

section Rebuild

/-- `e'` may stand for `e`: it is well formed, of the same width, and has the value of `e` wherever
`e` has one. -/
structure Expr.Refines (e e' : Expr) : Prop where
  hasWidth : e'.HasWidth e.getWidth
  denotes : ∀ {a : Assignment}, e.Defined a → e'.Denotes a (e.eval a e.getWidth)

theorem Expr.Refines.refl {e : Expr} (h : e.WF) : e.Refines e := ⟨⟨h, rfl⟩, fun hd => .self hd _⟩

theorem Expr.Computes₁.refines {w k : ℕ} {operand e e' : Expr} {spec : BitVec w → BitVec k}
    (h : operand.Computes₁ spec e') (hw : e.getWidth = k)
    (hv : ∀ {a : Assignment}, e.Defined a → operand.Defined a ∧ spec (operand.eval a w) = e.eval a k) :
    e.Refines e' := by
  subst hw
  refine ⟨h.hasWidth, fun hd => ?_⟩
  rw [← (hv hd).2]
  exact h.denotes (.self (hv hd).1 _)

theorem BinOp.Computes.refines {op : BinOp} {l r e' : Expr} (hr : r.HasWidth l.getWidth)
    (h : op.Computes l.getWidth l r e') :
    (Expr.bin op l r).Refines e' := by
  refine ⟨h.hasWidth, fun hd => ?_⟩
  have hdiv := hd.2.2
  rw [hr.width] at hdiv
  exact h.denotes (.self hd.1 _) (.self hd.2.1 _) hdiv

theorem CmpOp.Computes.refines {op : CmpOp} {l r e' : Expr} (h : op.Computes l.getWidth l r e') :
    (Expr.cmp op l r).Refines e' := by
  refine ⟨h.hasWidth, fun hd => ?_⟩
  rw [getWidth, Expr.eval, BitVec.setWidth_eq]
  exact h.denotes (.self hd.1 _) (.self hd.2 _)

variable [ExprOptions] {w : ℕ} {l r : Expr}

theorem BinOp.create_computes (op : BinOp) (hl : l.HasWidth w) (hr : r.HasWidth w) :
    op.Computes w l r (op.create l r) := by
  cases op with
  | add => exact AddExpr.create_computes hl hr
  | sub => exact SubExpr.create_computes hl hr
  | mul => exact MulExpr.create_computes hl hr
  | udiv => exact UDivExpr.create_computes hl hr
  | sdiv => exact SDivExpr.create_computes hl hr
  | urem => exact URemExpr.create_computes hl hr
  | srem => exact SRemExpr.create_computes hl hr
  | and => exact AndExpr.create_computes hl hr
  | or => exact OrExpr.create_computes hl hr
  | xor => exact XorExpr.create_computes hl hr
  | shl => exact ShlExpr.create_computes hl hr
  | lshr => exact LShrExpr.create_computes hl hr
  | ashr => exact AShrExpr.create_computes hl hr

theorem CmpOp.create_computes (op : CmpOp) (hl : l.HasWidth w) (hr : r.HasWidth w) :
    op.Computes w l r (op.create l r) := by
  cases op with
  | eq => exact EqExpr.create_computes hl hr
  | ne => exact NeExpr.create_computes hl hr
  | ult => exact UltExpr.create_computes hl hr
  | ule => exact UleExpr.create_computes hl hr
  | slt => exact SltExpr.create_computes hl hr
  | sle => exact SleExpr.create_computes hl hr
  | ugt => exact (UltExpr.create_computes hr hl).swap fun _ _ => rfl
  | uge => exact (UleExpr.create_computes hr hl).swap fun _ _ => rfl
  | sgt => exact (SltExpr.create_computes hr hl).swap fun _ _ => rfl
  | sge => exact (SleExpr.create_computes hr hl).swap fun _ _ => rfl

theorem Expr.rebuild_refines {e : Expr} (h : e.WF) : e.Refines e.rebuild := by
  cases e with
  | const v => exact .refl h
  | notOptimized src => exact .refl h
  | read ul index =>
    have hc := ReadExpr.create_computes h.1 ⟨h.2.1, h.2.2⟩
    refine ⟨hc.hasWidth, fun {a} hd => ?_⟩
    have hval : (Expr.read ul index).eval a 8 = ul.evalAt a (index.eval a 32).toNat := by
      rw [Expr.eval, BitVec.setWidth_eq]
    exact ⟨(hc.denotes hd.1 hd.2).defined, (hc.denotes hd.1 hd.2).value.trans hval.symm⟩
  | select c t f =>
    obtain ⟨hc, ht, hf, hcw, htf⟩ := h
    have hs := SelectExpr.create_computes ⟨hc, hcw⟩ ⟨ht, rfl⟩ ⟨hf, htf.symm⟩
    exact ⟨hs.hasWidth, fun hd => hs.denotes (.self hd.1 _) (.self hd.2.1 _) (.self hd.2.2 _)⟩
  | concat l r =>
    have hc := ConcatExpr.create_computes ⟨h.1, rfl⟩ ⟨h.2, rfl⟩
    refine ⟨hc.hasWidth, fun {a} hd => ?_⟩
    rw [getWidth, Expr.eval, BitVec.setWidth_eq]
    exact hc.denotes (.self hd.1 _) (.self hd.2 _)
  | extract e off w =>
    exact (ExtractExpr.create_computes ⟨h.1, rfl⟩ h.2).refines rfl fun hd => ⟨hd, rfl⟩
  | zext e w => exact (ZExtExpr.create_computes ⟨h.1, rfl⟩ h.2).refines rfl fun hd => ⟨hd, rfl⟩
  | sext e w => exact (SExtExpr.create_computes ⟨h.1, rfl⟩ h.2).refines rfl fun hd => ⟨hd, rfl⟩
  | not e =>
    exact (NotExpr.create_computes (e := e) ⟨h, rfl⟩).refines rfl fun hd => ⟨hd, rfl⟩
  | bin op l r =>
    have hr : r.HasWidth l.getWidth := ⟨h.2.1, h.2.2.symm⟩
    exact (op.create_computes ⟨h.1, rfl⟩ hr).refines hr
  | cmp op l r => exact (op.create_computes ⟨h.1, rfl⟩ ⟨h.2.1, h.2.2.symm⟩).refines

/-- **Construction preserves meaning.**  For every class of expression and all operands of the
right widths, the canonicalising constructor returns an expression of the operator's width which
evaluates, under every assignment that evaluates the operands and no zero divisor, to the value of
the unsimplified operator. -/
theorem Expr.rebuild_preserves_value (e : Expr) (hwf : e.WF) :
    e.rebuild.WF ∧ e.rebuild.getWidth = e.getWidth ∧
      ∀ a : Assignment, e.Defined a →
        e.rebuild.Defined a ∧ e.rebuild.eval a e.getWidth = e.eval a e.getWidth := by
  have h := Expr.rebuild_refines hwf
  exact ⟨h.hasWidth.wf, h.hasWidth.width, fun a hd => ⟨(h.denotes hd).defined, (h.denotes hd).value⟩⟩

end Rebuild

/-- `1 + (2 + x[0])` is rebuilt to `3 + x[0]`, with the value of the sum. -/
theorem Expr.rebuild_preserves_value_add_add :
    let _ : ExprOptions := ⟨true, true⟩
    let x : Array := ⟨0, "x", 1, [], by decide, .inl rfl⟩
    let read : Expr := .read (.root x) (.const 0#32)
    let e : Expr := .bin .add (.const 1#8) (.bin .add (.const 2#8) read)
    let a : Assignment := fun _ _ => 5#8
    e.rebuild = .bin .add (.const 3#8) read ∧ e.rebuild.eval a 8 = 8#8 := by
  intro _ x read e a
  have hwf : e.WF := by simp [e, read, Expr.WF, UpdateList.WF, getWidth, Array.getRange]
  have hd : e.Defined a := by
    simp [e, read, x, Expr.Defined, UpdateList.DefinedAt, BinOp.isDivision, Array.isConstantArray,
      Array.isSymbolicArray]
  refine ⟨?_, ((Expr.rebuild_preserves_value e hwf).2.2 a hd).2.trans rfl⟩
  simp [e, read, Expr.rebuild, BinOp.create, AddExpr.create, AddExpr.createConst,
    addExprCreatePartialR]

end SymBisect
