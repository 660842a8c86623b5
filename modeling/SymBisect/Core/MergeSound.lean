import SymBisect.Core.Merge
import SymBisect.Core.ObjectBytes

/-!
# What a merged state means

* `WellFormed`: what is true of any two states that are merged.
* `mergeConstraints_exact`, `mergeStack_spec`, `mergeObjects_spec`: the three parts of the merged state.
* `merge_preserves`: all of it, for every assignment under which the constraints of both states evaluate.
* `mergeNull_keeps_register`: a register that B has not set keeps what A has in it.
-/

namespace SymBisect

open Lib Expr Memory

namespace ConstraintManager

open ConstraintSet

variable [ExprOptions] {a : Assignment}

/-- A constraint that fails goes on failing. -/
theorem addConstraint_failsSome {constraints res : ConstraintSet} {e : Expr} (hb : constraints.IsBool)
    (he : e.HasWidth 1) (h : addConstraint constraints e = some res) (hf : FailsSome a constraints) :
    FailsSome a res := by
  have href := simplifyExpr_refinesOn hb he.wf
  have hadd := addConstraintInternal_preserves hb ⟨href.hasWidth.wf, href.hasWidth.width.trans he.width⟩
  exact hadd.failsSome a res h trivial (failsSome_push_back.2 (.inl hf))

/-- Constraints that are added one after the other. -/
theorem foldlM_addConstraint (cs : List Expr) : ∀ {constraints res : ConstraintSet}, constraints.IsBool →
    IsBool cs → cs.foldlM addConstraint constraints = some res →
    res.IsBool ∧ (Satisfies a constraints → Satisfies a cs → Satisfies a res) ∧
      (FailsSome a constraints → FailsSome a res) ∧
      (Satisfies a constraints → Evaluates a cs → FailsSome a cs → FailsSome a res) := by
  induction cs with
  | nil =>
    intro constraints res hb _ h
    obtain rfl : constraints = res := Option.some.inj h
    exact ⟨hb, fun h _ => h, fun h => h, fun _ _ hf => hf.elim fun c hc => absurd hc.1 List.not_mem_nil⟩
  | cons e cs ih =>
    intro constraints res hb hcs h
    rw [List.foldlM_cons, Option.bind_eq_bind, Option.bind_eq_some_iff] at h
    obtain ⟨mid, hmid, h⟩ := h
    have he : e.HasWidth 1 := hcs e List.mem_cons_self
    have hadd := addConstraint_preserves hb he
    obtain ⟨hres, hsat, hfail, hnew⟩ := ih (hadd.isBool mid hmid) (fun c hc => hcs c (List.mem_cons_of_mem _ hc)) h
    have hmidsat : Satisfies a constraints → e.Holds a → Satisfies a mid := by
      intro hs hh
      obtain ⟨mid', hmid', hs'⟩ := hadd.satisfies a trivial (satisfies_push_back.2 ⟨hs, hh⟩)
      rw [hmid] at hmid'
      obtain rfl := Option.some.inj hmid'
      exact hs'
    refine ⟨hres, fun hs hcs => ?_, fun hf => hfail (addConstraint_failsSome hb he hmid hf), fun hs hev hf => ?_⟩
    · obtain ⟨hh, hrest⟩ := satisfies_cons.1 hcs
      exact hsat (hmidsat hs hh) hrest
    · obtain hh | hh := holds_or_fails (hev e List.mem_cons_self)
      · refine hnew (hmidsat hs hh) (fun c hc => hev c (List.mem_cons_of_mem _ hc)) ?_
        exact (failsSome_cons.1 hf).resolve_left (Expr.not_fails_of_holds hh)
      · refine hfail (hadd.failsSome a mid hmid (fun c hc => (hs c hc).defined) ?_)
        exact failsSome_push_back.2 (.inr hh)

end ConstraintManager

namespace Merge

open ConstraintSet ConstraintManager

variable {env : Env} {p q : Pair} {a : Assignment}

/-! ### Arrays -/

/-- The byte that is selected, where both are known. -/
def chosen (b : BitVec 1) (mA mB : PlainArray) (i : ℕ) : Option (BitVec 8) :=
  match mA[i]?, mB[i]? with
  | some (some x), some (some y) => some (if b = 1#1 then x else y)
  | _, _ => none

/-- The array of A with some bytes merged. -/
def mergeArray (b : BitVec 1) (mB : PlainArray) : List ℕ → PlainArray → PlainArray
  | [], m => m
  | i :: is, m => mergeArray b mB is (m.set i (chosen b m mB i))

theorem chosen_eq_some {b : BitVec 1} {mA mB : PlainArray} {i : ℕ} {v : BitVec 8} (h : chosen b mA mB i = some v) :
    ∃ x y, mA[i]? = some (some x) ∧ mB[i]? = some (some y) ∧ v = if b = 1#1 then x else y := by
  unfold chosen at h
  split at h
  · rename_i x y hx hy
    exact ⟨x, y, hx, hy, (Option.some.inj h).symm⟩
  · cases h

theorem mergeArray_of_notMem {b : BitVec 1} {mB : PlainArray} {i : ℕ} (is : List ℕ) : ∀ {m : PlainArray}, i ∉ is →
    (mergeArray b mB is m)[i]? = m[i]? := by
  induction is with
  | nil => exact fun _ => rfl
  | cons j is ih =>
    intro m hi
    rw [List.mem_cons, not_or] at hi
    rw [mergeArray, ih hi.2, List.getElem?_set_ne (Ne.symm hi.1)]

theorem mergeArray_of_mem {b : BitVec 1} {mB : PlainArray} {i : ℕ} {x y : BitVec 8} (is : List ℕ) :
    ∀ {m : PlainArray}, is.Nodup → i ∈ is → m[i]? = some (some x) → mB[i]? = some (some y) →
    (mergeArray b mB is m)[i]? = some (some (if b = 1#1 then x else y)) := by
  induction is with
  | nil => exact fun _ hi => absurd hi List.not_mem_nil
  | cons j is ih =>
    intro m hnodup hi hx hy
    obtain ⟨hj, hnodup⟩ := List.nodup_cons.1 hnodup
    rw [mergeArray]
    by_cases hij : i = j
    · subst hij
      have hlt : i < m.length := (List.getElem?_eq_some_iff.1 hx).1
      rw [mergeArray_of_notMem is hj, List.getElem?_set_self hlt, chosen, hx, hy]
    · refine ih hnodup ((List.mem_cons.1 hi).resolve_left hij) ?_ hy
      rw [List.getElem?_set_ne (Ne.symm hij)]
      exact hx

/-- A byte that is written as an expression. -/
theorem represents_store {littleEndian : Bool} {v : Expr} (hv : v.HasWidth 8) {i : ℕ} (hi : i < 2 ^ 32)
    {m : PlainArray} {z : Option (BitVec 8)} (hz : ∀ x, z = some x → v.Denotes a x) {os : ObjectState}
    (h : Represents a os (m.store littleEndian (some (BitVec.ofNat 32 i)) (valueAt a v v.getWidth))) :
    Represents a os (m.set i z) := by
  have hnat : (BitVec.ofNat 32 i).toNat = i := by
    rw [BitVec.toNat_ofNat, Nat.mod_eq_of_lt hi]
  rw [PlainArray.store_one _ _ _ _ (by rw [hv.width]; rfl)] at h
  refine h.below ⟨?_, fun j x hj => ?_⟩
  · rw [List.length_set, PlainArray.length_setByte]
  · show (m.set (BitVec.ofNat 32 i).toNat _)[j]? = _
    rw [hnat]
    rw [List.getElem?_set] at hj ⊢
    split at hj
    · rename_i hij
      rw [if_pos hij]
      split at hj
      · rename_i hlt
        rw [if_pos hlt]
        have hd := hz x (Option.some.inj hj)
        have hval : ∀ n, n = 8 → (v.eval a n).setWidth 8 = x := by
          intro n hn
          subst hn
          rw [BitVec.setWidth_eq]
          exact hd.value
        rw [valueAt_eq_some.2 (Denotes.self hd.defined v.getWidth), Option.map_some, hval _ hv.width]
      · cases hj
    · rename_i hij
      rw [if_neg hij]
      exact hj

/-! ### The heap -/

/-- A program on an object state of the heap. -/
theorem wp_onObject {α : Type} {r : ℕ} {m : Prog ObjectState α} {Q : α → Pair → Prop} {E : Pair → Prop} {o : HeapObject}
    (h : p.heap r = some o) : Prog.wp (onObject r m) Q E p ↔
      Prog.wp m (fun x bytes => Q x (p.setBytes r o bytes)) (fun bytes => E (p.setBytes r o bytes)) o.bytes := by
  unfold Prog.wp onObject
  simp only [h]
  cases m o.bytes with
  | mk x bytes =>
    cases x with
    | none => exact Iff.rfl
    | some x => exact Iff.rfl

/-- The objects of a state are bound to object states of their own. -/
def Bound (env : Env) (p : Pair) (objects : List (ℕ × ℕ)) : Prop :=
  ∀ mo r, (mo, r) ∈ objects → ∃ o, p.heap r = some o ∧ o.object = mo ∧
    o.bytes.size = (env.memoryObject mo).size ∧ Consistent o.bytes

/-- The heap and the maps of both states. -/
structure HeapWF (env : Env) (p : Pair) : Prop where
  boundA : Bound env p p.a.objects
  boundB : Bound env p p.b.objects
  keysA : (p.a.objects.map Prod.fst).Nodup
  keysB : (p.b.objects.map Prod.fst).Nodup
  fresh : ∀ r, p.nextRef ≤ r → p.heap r = none

/-- Under an assignment, the byte of an object is `x`. -/
def IsByte (p : Pair) (objects : List (ℕ × ℕ)) (a : Assignment) (mo i : ℕ) (x : BitVec 8) : Prop :=
  ∃ r o m, (mo, r) ∈ objects ∧ p.heap r = some o ∧ Represents a o.bytes m ∧ m[i]? = some (some x)

/-- A memory object is bound once. -/
theorem eq_of_mem_keys : ∀ {objects : List (ℕ × ℕ)}, (objects.map Prod.fst).Nodup → ∀ {mo r r' : ℕ},
    (mo, r) ∈ objects → (mo, r') ∈ objects → r = r' := by
  intro objects
  induction objects with
  | nil => exact fun _ {mo r r'} h => absurd h List.not_mem_nil
  | cons x objects ih =>
    intro hkeys mo r r' h h'
    obtain ⟨hx, hkeys⟩ := List.nodup_cons.1 hkeys
    have hnot : ∀ {s}, (mo, s) ∈ objects → x.1 ≠ mo := fun hs heq => hx (heq ▸ List.mem_map_of_mem (f := Prod.fst) hs)
    obtain h | h := List.mem_cons.1 h
    · obtain h' | h' := List.mem_cons.1 h'
      · exact (Prod.ext_iff.1 (h.trans h'.symm)).2
      · exact absurd (h ▸ rfl) (hnot h')
    · obtain h' | h' := List.mem_cons.1 h'
      · exact absurd (h' ▸ rfl) (hnot h)
      · exact ih hkeys h h'

theorem findObject_of_mem {objects : List (ℕ × ℕ)} (hkeys : (objects.map Prod.fst).Nodup) {mo r : ℕ}
    (h : (mo, r) ∈ objects) : findObject objects mo = some r := by
  unfold findObject
  cases hfind : objects.find? fun x => x.1 = mo with
  | none =>
    have hnone := List.find?_eq_none.1 hfind (mo, r) h
    simp at hnone
  | some x =>
    obtain ⟨mo', r'⟩ := x
    have hmo : mo' = mo := by simpa using List.find?_some hfind
    subst hmo
    exact congrArg some (eq_of_mem_keys hkeys (List.mem_of_find?_eq_some hfind) h)

theorem mem_replace {objects : List (ℕ × ℕ)} {mo os mo' r : ℕ} :
    (mo', r) ∈ replace objects mo os ↔
      (mo' = mo ∧ r = os ∧ ∃ r', (mo, r') ∈ objects) ∨ mo' ≠ mo ∧ (mo', r) ∈ objects := by
  unfold replace
  rw [List.mem_map]
  constructor
  · intro ⟨x, hx, heq⟩
    split at heq
    · rename_i hmo
      obtain ⟨rfl, rfl⟩ := Prod.mk.inj heq
      exact .inl ⟨rfl, rfl, x.2, hmo ▸ hx⟩
    · rename_i hmo
      subst heq
      exact .inr ⟨hmo, hx⟩
  · intro h
    obtain ⟨rfl, rfl, r', hr'⟩ | ⟨hmo, hr⟩ := h
    · exact ⟨(mo', r'), hr', if_pos rfl⟩
    · exact ⟨(mo', r), hr, if_neg hmo⟩

theorem map_fst_replace (objects : List (ℕ × ℕ)) (mo os : ℕ) :
    (replace objects mo os).map Prod.fst = objects.map Prod.fst := by
  unfold replace
  rw [List.map_map]
  refine List.map_congr_left fun x _ => ?_
  show (if x.1 = mo then (mo, os) else x).1 = x.1
  split
  · rename_i hmo
    exact hmo.symm
  · rfl

theorem HeapWF.lt_nextRef (h : HeapWF env p) {r : ℕ} {o : HeapObject} (hr : p.heap r = some o) : r < p.nextRef := by
  by_contra hge
  rw [h.fresh r (not_lt.1 hge)] at hr
  cases hr

/-- What `getWriteable` gives A: an object state with the bytes of the old one, which may be the old one itself. -/
structure Writeable (env : Env) (mo os : ℕ) (o : HeapObject) (p : Pair) (wos : ℕ) (q : Pair) : Prop where
  wf : HeapWF env q
  a : q.a = { p.a with objects := q.a.objects }
  b : q.b = p.b
  frame : ∀ r u, p.heap r = some u → q.heap r = some u
  bound : (mo, wos) ∈ q.a.objects
  old_or_new : wos = os ∨ p.heap wos = none
  kept : ∀ mo' ≠ mo, ∀ r, (mo', r) ∈ q.a.objects ↔ (mo', r) ∈ p.a.objects
  bytes : ∃ w, q.heap wos = some w ∧ ∀ a m, Represents a o.bytes m → Represents a w.bytes m

theorem getWriteable_spec (hp : HeapWF env p) {mo os : ℕ} {o : HeapObject} (hmo : (mo, os) ∈ p.a.objects)
    (ho : p.heap os = some o) :
    Prog.wp (getWriteable mo os) (fun wos q => Writeable env mo os o p wos q) (fun _ => True) p := by
  obtain ⟨o', ho', hobj, hsize, hcons⟩ := hp.boundA mo os hmo
  obtain rfl : o = o' := Option.some.inj (ho.symm.trans ho')
  unfold getWriteable
  simp only [Prog.wp_bind, Prog.wp_get, Prog.wp_unwrap, Prog.wp_assert, Prog.wp_ite, Prog.wp_modify, Prog.wp_pure]
  refine ⟨fun o₁ ho₁ => ⟨fun hro => ⟨fun _ => ?_, fun _ => ⟨fun copy hcopy => ?_, fun _ => trivial⟩⟩, fun _ => trivial⟩,
    fun _ => trivial⟩
  · exact ⟨hp, rfl, rfl, fun _ _ h => h, hmo, .inl rfl, fun _ _ _ => Iff.rfl, o, ho, fun _ _ h => h⟩
  · obtain rfl : o = o₁ := Option.some.inj (ho.symm.trans ho₁)
    unfold ObjectState.copy at hcopy
    rw [if_neg (by rw [hro]; decide)] at hcopy
    obtain rfl := Option.some.inj hcopy
    have hframe : ∀ r u, p.heap r = some u → (p.bindCopy mo o { o.bytes with readOnly := false }).heap r = some u := by
      intro r u hr
      rw [← hr]
      exact Function.update_of_ne (Nat.ne_of_lt (hp.lt_nextRef hr)) _ _
    have hnew : (p.bindCopy mo o { o.bytes with readOnly := false }).heap p.nextRef =
        some ⟨o.object, p.a.cowKey, { o.bytes with readOnly := false }⟩ := Function.update_self ..
    refine ⟨⟨fun mo' r hr => ?_, fun mo' r hr => ?_, ?_, hp.keysB, fun r hr => ?_⟩, rfl, rfl, hframe, ?_,
      .inr (hp.fresh _ le_rfl), fun mo' hne r => ?_, _, hnew, fun a m h => ⟨h.length, h.concrete, h.known, h.flushed⟩⟩
    · obtain ⟨rfl, rfl, -⟩ | ⟨-, hr⟩ := mem_replace.1 hr
      · exact ⟨_, hnew, hobj, hsize, hcons.known_symbolic, hcons.unflushed, hcons.known_width, hcons.writes⟩
      · obtain ⟨u, hu, hrest⟩ := hp.boundA mo' r hr
        exact ⟨u, hframe r u hu, hrest⟩
    · obtain ⟨u, hu, hrest⟩ := hp.boundB mo' r hr
      exact ⟨u, hframe r u hu, hrest⟩
    · show ((replace p.a.objects mo p.nextRef).map Prod.fst).Nodup
      rw [map_fst_replace]
      exact hp.keysA
    · have hlt : p.nextRef < r := hr
      rw [← hp.fresh r hlt.le]
      exact Function.update_of_ne (Nat.ne_of_gt hlt) _ _
    · exact mem_replace.2 (.inl ⟨rfl, rfl, os, hmo⟩)
    · exact mem_replace.trans ⟨fun h => h.elim (fun h => absurd h.1 hne) fun h => h.2, fun h => .inr ⟨hne, h⟩⟩

/-- From `p` to `q` bytes of the object state `wos` were merged with those of `otherOS`. -/
structure BytesMerged (c : Expr) (is : List ℕ) (wos otherOS : ℕ) (o u : HeapObject) (p q : Pair) : Prop where
  a : q.a = p.a
  b : q.b = p.b
  nextRef : q.nextRef = p.nextRef
  frame : ∀ r, r ≠ wos → r ≠ otherOS → q.heap r = p.heap r
  other : ∃ bytes, q.heap otherOS = some { u with bytes := bytes } ∧ Moves u.bytes bytes
  merged : ∃ bytes, q.heap wos = some { o with bytes := bytes } ∧ Consistent bytes ∧ bytes.size = o.bytes.size ∧
    ∀ a b mA mB, c.Denotes a b → Represents a o.bytes mA → Represents a u.bytes mB →
      Represents a bytes (mergeArray b mB is mA)

/-- Merged bytes leave every object state where it is. -/
theorem BytesMerged.heap {c : Expr} {is : List ℕ} {wos otherOS : ℕ} {o u : HeapObject} (h : BytesMerged c is wos otherOS o u p q)
    (ho : p.heap wos = some o) (hu : p.heap otherOS = some u) {r : ℕ} {w : HeapObject} (hr : p.heap r = some w)
    (hw : Consistent w.bytes) :
    ∃ bytes, q.heap r = some { w with bytes := bytes } ∧ Consistent bytes ∧ bytes.size = w.bytes.size := by
  by_cases hrw : r = wos
  · subst hrw
    obtain rfl := Option.some.inj (ho.symm.trans hr)
    obtain ⟨bytes, hheap, hcons, hsize, -⟩ := h.merged
    exact ⟨bytes, hheap, hcons, hsize⟩
  · by_cases hro : r = otherOS
    · subst hro
      obtain rfl := Option.some.inj (hu.symm.trans hr)
      obtain ⟨bytes, hheap, hmoves⟩ := h.other
      exact ⟨bytes, hheap, hmoves.consistent, hmoves.size⟩
    · exact ⟨w.bytes, (h.frame r hrw hro).trans hr, hw, rfl⟩

theorem BytesMerged.wf {c : Expr} {is : List ℕ} {wos otherOS : ℕ} {o u : HeapObject} (h : BytesMerged c is wos otherOS o u p q)
    (ho : p.heap wos = some o) (hu : p.heap otherOS = some u) (hp : HeapWF env p) : HeapWF env q := by
  have hbound : ∀ {objects}, Bound env p objects → Bound env q objects := by
    intro objects hb mo r hr
    obtain ⟨w, hw, hobj, hsize, hcons⟩ := hb mo r hr
    obtain ⟨bytes, hheap, hcons', hsize'⟩ := h.heap ho hu hw hcons
    exact ⟨_, hheap, hobj, hsize'.trans hsize, hcons'⟩
  refine ⟨?_, ?_, ?_, ?_, fun r hr => ?_⟩
  · rw [h.a]
    exact hbound hp.boundA
  · rw [h.b]
    exact hbound hp.boundB
  · rw [h.a]
    exact hp.keysA
  · rw [h.b]
    exact hp.keysB
  · rw [h.nextRef] at hr
    have hnone := hp.fresh r hr
    rw [h.frame r (fun heq => ?_) fun heq => ?_]
    · exact hnone
    · rw [heq, ho] at hnone
      cases hnone
    · rw [heq, hu] at hnone
      cases hnone

/-- What both maps have in common, and where they differ. -/
theorem mutated_spec : ∀ {as bs : List (ℕ × ℕ)} {mos : List ℕ}, mutated as bs = some mos →
    mos.Sublist (as.map Prod.fst) ∧ (∀ mo ∈ mos, ∃ r r', (mo, r) ∈ as ∧ (mo, r') ∈ bs ∧ r ≠ r') ∧
      ∀ mo r, (mo, r) ∈ as → mo ∉ mos → (mo, r) ∈ bs := by
  intro as bs
  fun_induction mutated as bs with
  | case1 =>
    intro mos h
    obtain rfl := Option.some.inj h
    exact ⟨.slnil, fun mo hmo => absurd hmo List.not_mem_nil, fun mo r hr => absurd hr List.not_mem_nil⟩
  | case2 mo os as mo' os' bs hne => exact fun h => nomatch h
  | case3 mo os as mo' os' bs heq ih =>
    intro mos h
    obtain rfl : mo = mo' := not_not.1 heq
    obtain ⟨rest, hrest, rfl⟩ := Option.map_eq_some_iff.1 h
    obtain ⟨hsub, hdiff, hsame⟩ := ih hrest
    by_cases hos : os = os'
    · rw [if_neg (not_not.2 hos)]
      refine ⟨hsub.cons _, fun k hk => ?_, fun k r hr hk => ?_⟩
      · obtain ⟨r, r', hr, hr', hne⟩ := hdiff k hk
        exact ⟨r, r', List.mem_cons_of_mem _ hr, List.mem_cons_of_mem _ hr', hne⟩
      · obtain hr | hr := List.mem_cons.1 hr
        · rw [hr, hos]
          exact List.mem_cons_self
        · exact List.mem_cons_of_mem _ (hsame k r hr hk)
    · rw [if_pos hos]
      refine ⟨hsub.cons_cons _, fun k hk => ?_, fun k r hr hk => ?_⟩
      · obtain rfl | hk := List.mem_cons.1 hk
        · exact ⟨os, os', List.mem_cons_self, List.mem_cons_self, hos⟩
        · obtain ⟨r, r', hr, hr', hne⟩ := hdiff k hk
          exact ⟨r, r', List.mem_cons_of_mem _ hr, List.mem_cons_of_mem _ hr', hne⟩
      · rw [List.mem_cons, not_or] at hk
        obtain hr | hr := List.mem_cons.1 hr
        · exact absurd (Prod.mk.inj hr).1 hk.1
        · exact List.mem_cons_of_mem _ (hsame k r hr hk.2)
  | case4 as bs h1 h2 => exact fun h => nomatch h

/-! ### Constraints -/

theorem mem_constraintSet {constraints : ConstraintSet} {c : Expr} :
    c ∈ constraintSet env constraints ↔ c ∈ constraints := by
  unfold constraintSet
  rw [List.mem_mergeSort, List.mem_dedup]

theorem mem_commonConstraints {c : Expr} :
    c ∈ commonConstraints env p ↔ c ∈ p.a.constraints ∧ c ∈ p.b.constraints := by
  simp only [commonConstraints, List.mem_filter, decide_eq_true_eq, mem_constraintSet]

theorem mem_aSuffix {c : Expr} : c ∈ aSuffix env p ↔ c ∈ p.a.constraints ∧ c ∉ p.b.constraints := by
  simp only [aSuffix, List.mem_filter, decide_eq_true_eq, mem_constraintSet, mem_commonConstraints]
  tauto

theorem mem_bSuffix {c : Expr} : c ∈ bSuffix env p ↔ c ∈ p.b.constraints ∧ c ∉ p.a.constraints := by
  simp only [bSuffix, List.mem_filter, decide_eq_true_eq, mem_constraintSet, mem_commonConstraints]
  tauto

/-- The constraints of A are the common ones and its suffix. -/
theorem satisfies_a_iff (env : Env) :
    Satisfies a p.a.constraints ↔ Satisfies a (commonConstraints env p) ∧ Satisfies a (aSuffix env p) := by
  refine ⟨fun h => ⟨fun c hc => h c (mem_commonConstraints.1 hc).1, fun c hc => h c (mem_aSuffix.1 hc).1⟩, fun h c hc => ?_⟩
  by_cases hb : c ∈ p.b.constraints
  · exact h.1 c (mem_commonConstraints.2 ⟨hc, hb⟩)
  · exact h.2 c (mem_aSuffix.2 ⟨hc, hb⟩)

/-- The constraints of B are the common ones and its suffix. -/
theorem satisfies_b_iff (env : Env) :
    Satisfies a p.b.constraints ↔ Satisfies a (commonConstraints env p) ∧ Satisfies a (bSuffix env p) := by
  refine ⟨fun h => ⟨fun c hc => h c (mem_commonConstraints.1 hc).2, fun c hc => h c (mem_bSuffix.1 hc).1⟩, fun h c hc => ?_⟩
  by_cases ha : c ∈ p.a.constraints
  · exact h.1 c (mem_commonConstraints.2 ⟨ha, hc⟩)
  · exact h.2 c (mem_bSuffix.2 ⟨hc, ha⟩)

/-- A conjunction holds where all of a suffix does, and fails elsewhere. -/
theorem conjunction_spec {suffix : List Expr} (hb : IsBool suffix) : (conjunction suffix).HasWidth 1 ∧
    ∀ a, Evaluates a suffix → (Satisfies a suffix → (conjunction suffix).Holds a) ∧
      (¬ Satisfies a suffix → (conjunction suffix).Fails a) := by
  have hloop : ∀ (cs : List Expr) (e : Expr), e.HasWidth 1 → IsBool cs → (cs.foldl AndExpr.create e).HasWidth 1 ∧
      ∀ a, Evaluates a cs → (e.Holds a → Satisfies a cs → (cs.foldl AndExpr.create e).Holds a) ∧
        (e.Fails a ∨ e.Holds a ∧ ¬ Satisfies a cs → (cs.foldl AndExpr.create e).Fails a) := by
    intro cs
    induction cs with
    | nil =>
      intro e he _
      refine ⟨he, fun a _ => ⟨fun h _ => h, fun h => h.elim id fun h => ?_⟩⟩
      exact absurd (fun c hc => absurd hc List.not_mem_nil) h.2
    | cons c cs ih =>
      intro e he hcs
      have hc : c.HasWidth 1 := hcs c List.mem_cons_self
      have hand := AndExpr.create_computes he hc
      obtain ⟨hw, hrest⟩ := ih _ hand.hasWidth fun c hc => hcs c (List.mem_cons_of_mem _ hc)
      refine ⟨hw, fun a hev => ?_⟩
      obtain ⟨hholds, hfails⟩ := hrest a fun c hc => hev c (List.mem_cons_of_mem _ hc)
      refine ⟨fun hh hs => ?_, fun h => hfails ?_⟩
      · obtain ⟨hhc, hs⟩ := satisfies_cons.1 hs
        exact hholds (hand.denotes hh hhc nofun) hs
      · obtain hhc | hfc := holds_or_fails (hev c List.mem_cons_self)
        · obtain hf | ⟨hh, hns⟩ := h
          · exact .inl (hand.denotes hf hhc nofun)
          · refine .inr ⟨hand.denotes hh hhc nofun, fun hs => hns (satisfies_cons.2 ⟨hhc, hs⟩)⟩
        · left
          obtain hf | ⟨hh, -⟩ := h
          · exact hand.denotes hf hfc nofun
          · exact hand.denotes hh hfc nofun
  obtain ⟨hw, hval⟩ := hloop suffix (ofBool true) (hasWidth_ofBool true) hb
  refine ⟨hw, fun a hev => ?_⟩
  obtain ⟨hholds, hfails⟩ := hval a hev
  exact ⟨hholds (denotes_ofBool true), fun hns => hfails (.inr ⟨denotes_ofBool true, hns⟩)⟩

theorem isBool_aSuffix (env : Env) (h : p.a.constraints.IsBool) : IsBool (aSuffix env p) := fun c hc => h c (mem_aSuffix.1 hc).1

theorem isBool_bSuffix (env : Env) (h : p.b.constraints.IsBool) : IsBool (bSuffix env p) := fun c hc => h c (mem_bSuffix.1 hc).1

theorem inA_hasWidth (hb : p.a.constraints.IsBool) : (inA env p).HasWidth 1 := (conjunction_spec (isBool_aSuffix env hb)).1

/-- `inA` evaluates to whether the suffix of A holds. -/
theorem inA_denotes (env : Env) (hb : p.a.constraints.IsBool) (hev : Evaluates a p.a.constraints) :
    ∃ b : BitVec 1, (inA env p).Denotes a b ∧ (b = 1#1 ↔ Satisfies a (aSuffix env p)) := by
  obtain ⟨hholds, hfails⟩ := (conjunction_spec (isBool_aSuffix env hb)).2 a fun c hc => hev c (mem_aSuffix.1 hc).1
  by_cases hs : Satisfies a (aSuffix env p)
  · exact ⟨1#1, hholds hs, iff_of_true rfl hs⟩
  · exact ⟨0#1, hfails hs, iff_of_false (by decide) hs⟩

/-- `v` is `x`, the value of A, where the suffix of A holds, and `y`, the value of B, elsewhere. -/
def Picks (env : Env) (p : Pair) (a : Assignment) {w : ℕ} (x y v : BitVec w) : Prop :=
  (Satisfies a (aSuffix env p) → v = x) ∧ (¬ Satisfies a (aSuffix env p) → v = y)

theorem picks_ite {b : BitVec 1} (hb : b = 1#1 ↔ Satisfies a (aSuffix env p)) {w : ℕ} (x y : BitVec w) :
    Picks env p a x y (if b = 1#1 then x else y) :=
  ⟨fun hs => if_pos (hb.2 hs), fun hs => if_neg fun h => hs (hb.1 h)⟩

section

variable [ExprOptions]

/-- The merged constraints hold where those of A or those of B do. -/
theorem mergeConstraints_exact (hA : p.a.constraints.IsBool) (hB : p.b.constraints.IsBool) {res : ConstraintSet}
    (h : mergeConstraints env p = some res) (hevA : Evaluates a p.a.constraints) (hevB : Evaluates a p.b.constraints) :
    Satisfies a res ↔ Satisfies a p.a.constraints ∨ Satisfies a p.b.constraints := by
  unfold mergeConstraints at h
  obtain ⟨mid, hmid, h⟩ := Option.bind_eq_some_iff.1 h
  have hcommon : IsBool (commonConstraints env p) := fun c hc => hA c (mem_commonConstraints.1 hc).1
  obtain ⟨hmidb, hsat, -, hfail⟩ := foldlM_addConstraint (a := a) _ (fun c hc => absurd hc List.not_mem_nil) hcommon
    hmid
  obtain ⟨hwA, hvalA⟩ := conjunction_spec (isBool_aSuffix env hA)
  obtain ⟨hwB, hvalB⟩ := conjunction_spec (isBool_bSuffix env hB)
  obtain ⟨holdsA, failsA⟩ := hvalA a fun c hc => hevA c (mem_aSuffix.1 hc).1
  obtain ⟨holdsB, failsB⟩ := hvalB a fun c hc => hevB c (mem_bSuffix.1 hc).1
  have hor : BinOp.or.Computes 1 (inA env p) (inB env p) _ := OrExpr.create_computes hwA hwB
  have hadd := addConstraint_preserves hmidb hor.hasWidth
  have hnil : Satisfies a [] := fun c hc => absurd hc List.not_mem_nil
  rw [satisfies_a_iff env, satisfies_b_iff env, ← and_or_left]
  by_cases hs : Satisfies a (commonConstraints env p)
  · have hmids := hsat hnil hs
    by_cases hsuf : Satisfies a (aSuffix env p) ∨ Satisfies a (bSuffix env p)
    · refine iff_of_true ?_ ⟨hs, hsuf⟩
      have hholds : (OrExpr.create (inA env p) (inB env p)).Holds a := by
        by_cases hsA : Satisfies a (aSuffix env p)
        · by_cases hsB : Satisfies a (bSuffix env p)
          · exact hor.denotes (holdsA hsA) (holdsB hsB) nofun
          · exact hor.denotes (holdsA hsA) (failsB hsB) nofun
        · exact hor.denotes (failsA hsA) (holdsB (hsuf.resolve_left hsA)) nofun
      obtain ⟨res', hres', hsres⟩ := hadd.satisfies a trivial (satisfies_push_back.2 ⟨hmids, hholds⟩)
      rw [h] at hres'
      obtain rfl := Option.some.inj hres'
      exact hsres
    · refine iff_of_false (fun hres => ?_) fun h => hsuf h.2
      rw [not_or] at hsuf
      have hfails : (OrExpr.create (inA env p) (inB env p)).Fails a :=
        hor.denotes (failsA hsuf.1) (failsB hsuf.2) nofun
      refine not_satisfies_of_failsSome (hadd.failsSome a res h (fun c hc => (hmids c hc).defined) ?_) hres
      exact failsSome_push_back.2 (.inr hfails)
  · refine iff_of_false (fun hres => ?_) fun h => hs h.1
    have hev : Evaluates a (commonConstraints env p) := fun c hc => hevA c (mem_commonConstraints.1 hc).1
    have hsome : FailsSome a (commonConstraints env p) := by
      by_contra hnone
      exact hs (satisfies_of_not_failsSome hev hnone)
    have hmidf := hfail hnil hev hsome
    exact not_satisfies_of_failsSome (addConstraint_failsSome hmidb hor.hasWidth h hmidf) hres

/-! ### Registers -/

/-- The registers of a frame hold well-formed expressions. -/
def LocalsWF (f : StackFrame) : Prop := ∀ i e, f.locals i = some e → e.WF

/-- What a register holds after a merge on `c`: the value that `c` selects if both states have set it, and else what it
was in A. -/
def LocalMerged (c : Expr) (av bv v : Option Expr) : Prop :=
  match av, bv with
  | some av, some bv => ∃ e, v = some e ∧ SelectExpr.Computes av.getWidth c av bv e
  | av, _ => v = av

theorem select_computes {w : ℕ} {c av bv e : Expr} (hc : c.HasWidth 1) (hav : av.HasWidth w) (hbv : bv.WF)
    (h : select c av bv = some e) : SelectExpr.Computes w c av bv e := by
  unfold select at h
  split at h
  · rename_i hwidth
    obtain rfl := Option.some.inj h
    exact SelectExpr.create_computes hc hav ⟨hbv, hwidth.symm.trans hav.width⟩
  · cases h

theorem mergeLocal_spec {c : Expr} (hc : c.HasWidth 1) {av bv v : Option Expr} (hav : ∀ e, av = some e → e.WF)
    (hbv : ∀ e, bv = some e → e.WF) (h : mergeLocal c av bv = some v) : LocalMerged c av bv v := by
  cases av with
  | none => exact (Option.some.inj h).symm
  | some av =>
    cases bv with
    | none => exact (Option.some.inj h).symm
    | some bv =>
      obtain ⟨e, hsel, rfl⟩ := Option.map_eq_some_iff.1 h
      exact ⟨e, rfl, select_computes hc ⟨hav av rfl, rfl⟩ (hbv bv rfl) hsel⟩

/-- Every register of the list is merged once. -/
theorem mergeLocals_spec {c : Expr} (hc : c.HasWidth 1) {bf : ℕ → Option Expr} (hbf : ∀ i e, bf i = some e → e.WF)
    (is : List ℕ) : ∀ {af l : ℕ → Option Expr}, is.Nodup → (∀ i ∈ is, ∀ e, af i = some e → e.WF) →
    mergeLocals c bf is af = some l →
    ∀ i, (i ∈ is → LocalMerged c (af i) (bf i) (l i)) ∧ (i ∉ is → l i = af i) := by
  induction is with
  | nil =>
    intro af l _ _ h i
    obtain rfl : af = l := Option.some.inj h
    exact ⟨fun hi => absurd hi List.not_mem_nil, fun _ => rfl⟩
  | cons j is ih =>
    intro af l hnodup haf h i
    obtain ⟨hj, hnodup⟩ := List.nodup_cons.1 hnodup
    obtain ⟨v, hv, h⟩ := Option.bind_eq_some_iff.1 h
    have hmerged := mergeLocal_spec hc (haf j List.mem_cons_self) (hbf j) hv
    have hrest := ih hnodup (fun k hk e hke => ?_) h
    · by_cases hij : i = j
      · subst hij
        refine ⟨fun _ => ?_, fun hn => absurd List.mem_cons_self hn⟩
        rw [(hrest i).2 hj, Function.update_self]
        exact hmerged
      · have hupd : Function.update af j v i = af i := Function.update_of_ne hij v af
        refine ⟨fun hi => ?_, fun hi => ?_⟩
        · have := (hrest i).1 ((List.mem_cons.1 hi).resolve_left hij)
          rwa [hupd] at this
        · rw [(hrest i).2 fun hn => hi (List.mem_cons_of_mem _ hn), hupd]
    · have hkj : k ≠ j := fun heq => hj (heq ▸ hk)
      rw [Function.update_of_ne hkj] at hke
      exact haf k (List.mem_cons_of_mem _ hk) e hke

/-- A frame of the merged state, between the frames of A and of B. -/
structure FrameMerged (env : Env) (c : Expr) (af bf f : StackFrame) : Prop where
  caller : f.caller = af.caller
  kf : f.kf = af.kf
  locals : ∀ i < env.numRegisters af.kf, LocalMerged c (af.locals i) (bf.locals i) (f.locals i)

theorem mergeFrame_spec {c : Expr} (hc : c.HasWidth 1) {af bf f : StackFrame} (haf : LocalsWF af) (hbf : LocalsWF bf)
    (h : mergeFrame env c af bf = some f) : FrameMerged env c af bf f := by
  obtain ⟨l, hl, rfl⟩ := Option.map_eq_some_iff.1 h
  have hlocals := mergeLocals_spec hc hbf _ List.nodup_range (fun i _ => haf i) hl
  exact ⟨rfl, rfl, fun i hi => (hlocals i).1 (List.mem_range.2 hi)⟩

/-- Every frame is merged with the one at its place. -/
theorem mergeStack_spec {c : Expr} (hc : c.HasWidth 1) : ∀ {as bs fs : List StackFrame}, (∀ f ∈ as, LocalsWF f) →
    (∀ f ∈ bs, LocalsWF f) → sameFrames as bs = true → mergeStack env c as bs = some fs →
    fs.length = as.length ∧ bs.length = as.length ∧ ∀ (k : ℕ) (af bf : StackFrame), as[k]? = some af → bs[k]? = some bf →
      ∃ f, fs[k]? = some f ∧ FrameMerged env c af bf f := by
  intro as
  induction as with
  | nil =>
    intro bs fs _ _ hsame h
    cases bs with
    | nil =>
      obtain rfl : [] = fs := Option.some.inj h
      exact ⟨rfl, rfl, fun k af bf hk => nomatch hk⟩
    | cons bf bs => cases hsame
  | cons af as ih =>
    intro bs fs has hbs hsame h
    cases bs with
    | nil => cases hsame
    | cons bf bs =>
      obtain ⟨f, hf, h⟩ := Option.bind_eq_some_iff.1 h
      obtain ⟨fs, hfs, rfl⟩ := Option.map_eq_some_iff.1 h
      have hsame : sameFrames as bs = true := (Bool.and_eq_true_iff.1 hsame).2
      obtain ⟨hlen, hlenb, hrest⟩ := ih (fun f hf => has f (List.mem_cons_of_mem _ hf))
        (fun f hf => hbs f (List.mem_cons_of_mem _ hf)) hsame hfs
      refine ⟨congrArg (· + 1) hlen, congrArg (· + 1) hlenb, fun k af' bf' hk hk' => ?_⟩
      cases k with
      | zero =>
        obtain rfl : af = af' := Option.some.inj hk
        obtain rfl : bf = bf' := Option.some.inj hk'
        exact ⟨f, rfl, mergeFrame_spec hc (has af List.mem_cons_self) (hbs bf List.mem_cons_self) hf⟩
      | succ k => exact hrest k af' bf' hk hk'

/-! ### Bytes -/

theorem mergeByte_spec {c : Expr} (hc : c.HasWidth 1) {wos otherOS : ℕ} {o u : HeapObject} (hne : wos ≠ otherOS)
    (ho : p.heap wos = some o) (hu : p.heap otherOS = some u) (hoc : Consistent o.bytes) (huc : Consistent u.bytes)
    {i : ℕ} (hi : i < 2 ^ 32) :
    Prog.wp (mergeByte env c wos otherOS i) (fun _ q => BytesMerged c [i] wos otherOS o u p q) (fun _ => True) p := by
  unfold mergeByte
  rw [Prog.wp_bind, wp_onObject ho]
  refine (ObjectState.read8At_spec hoc _).mono (fun av bytes₁ h₁ => ?_) fun _ _ => trivial
  obtain ⟨hmoves₁, hav⟩ := h₁
  have hu₁ : (p.setBytes wos o bytes₁).heap otherOS = some u := by
    rw [← hu]
    exact Function.update_of_ne (Ne.symm hne) _ _
  rw [Prog.wp_bind, wp_onObject hu₁]
  refine (ObjectState.read8At_spec huc _).mono (fun bv bytes₂ h₂ => ?_) fun _ _ => trivial
  obtain ⟨hmoves₂, hbv⟩ := h₂
  rw [Prog.wp_bind, Prog.wp_unwrap]
  refine ⟨fun v hv => ?_, fun _ => trivial⟩
  have hsel := select_computes hc hav.1 hbv.1.wf hv
  have ho₂ : ((p.setBytes wos o bytes₁).setBytes otherOS u bytes₂).heap wos = some { o with bytes := bytes₁ } := by
    show Function.update (Function.update p.heap wos _) otherOS _ wos = _
    rw [Function.update_of_ne hne, Function.update_self]
  rw [wp_onObject ho₂]
  refine (ObjectState.writeAt_spec hmoves₁.consistent _ hsel.hasWidth.wf
    (x := fun a => valueAt a v v.getWidth) fun a x => valueAt_eq_some.1).mono (fun _ bytes₃ hbec => ?_) fun _ _ => trivial
  refine ⟨rfl, rfl, rfl, fun r hr hr' => ?_, ⟨bytes₂, ?_, hmoves₂⟩, bytes₃, ?_, hbec.consistent,
    hbec.size.trans hmoves₁.size, fun a b mA mB hb hmA hmB => ?_⟩
  · show Function.update (Function.update (Function.update p.heap wos _) otherOS _) wos _ r = _
    rw [Function.update_of_ne hr, Function.update_of_ne hr', Function.update_of_ne hr]
  · show Function.update (Function.update (Function.update p.heap wos _) otherOS _) wos _ otherOS = _
    rw [Function.update_of_ne (Ne.symm hne), Function.update_self]
  · exact Function.update_self ..
  · refine represents_store hsel.hasWidth hi (fun x hx => ?_) (hbec.represents (hmoves₁.represents hmA))
    obtain ⟨xa, xb, hxa, hxb, rfl⟩ := chosen_eq_some hx
    have hnat : (BitVec.ofNat 32 i).toNat = i := by
      rw [BitVec.toNat_ofNat, Nat.mod_eq_of_lt hi]
    exact hsel.denotes hb (hav.2 a mA _ xa hmA rfl (hnat.symm ▸ hxa)) (hbv.2 a mB _ xb hmB rfl (hnat.symm ▸ hxb))

/-- The bytes of an object, one after the other. -/
theorem mergeBytes_spec {c : Expr} (hc : c.HasWidth 1) {wos otherOS : ℕ} (hne : wos ≠ otherOS) (is : List ℕ) :
    ∀ {p : Pair} {o u : HeapObject}, p.heap wos = some o → p.heap otherOS = some u → Consistent o.bytes →
    Consistent u.bytes → (∀ i ∈ is, i < 2 ^ 32) →
    Prog.wp (Prog.each (mergeByte env c wos otherOS) is) (fun _ q => BytesMerged c is wos otherOS o u p q)
      (fun _ => True) p := by
  induction is with
  | nil =>
    intro p o u ho hu hoc huc _
    exact ⟨rfl, rfl, rfl, fun _ _ _ => rfl, ⟨u.bytes, hu, .refl huc⟩, o.bytes, ho, hoc, rfl, fun _ _ _ _ _ h _ => h⟩
  | cons i is ih =>
    intro p o u ho hu hoc huc his
    refine (mergeByte_spec hc hne ho hu hoc huc (his i List.mem_cons_self)).bind fun _ q hq => ?_
    obtain ⟨bytesB, hheapB, hmovesB⟩ := hq.other
    obtain ⟨bytesA, hheapA, hconsA, hsizeA, hrepA⟩ := hq.merged
    refine (ih hheapA hheapB hconsA hmovesB.consistent fun j hj => his j (List.mem_cons_of_mem _ hj)).mono
      (fun _ t ht => ?_) fun _ h => h
    obtain ⟨bytesB', hheapB', hmovesB'⟩ := ht.other
    obtain ⟨bytesA', hheapA', hconsA', hsizeA', hrepA'⟩ := ht.merged
    refine ⟨ht.a.trans hq.a, ht.b.trans hq.b, ht.nextRef.trans hq.nextRef,
      fun r hr hr' => (ht.frame r hr hr').trans (hq.frame r hr hr'), ⟨bytesB', hheapB', hmovesB.trans hmovesB'⟩,
      bytesA', hheapA', hconsA', hsizeA'.trans hsizeA, fun a b mA mB hb hmA hmB => ?_⟩
    exact hrepA' a b _ mB hb (hrepA a b mA mB hb hmA hmB) (hmovesB.represents hmB)

/-! ### Objects -/

/-- From `p` to `q` the objects `mos` of A were merged with those of B on `c`. -/
structure ObjectsMerged (env : Env) (c : Expr) (mos : List ℕ) (p q : Pair) : Prop where
  wf : HeapWF env q
  a : q.a = { p.a with objects := q.a.objects }
  b : q.b = p.b
  kept : ∀ mo ∉ mos, ∀ r, (mo, r) ∈ q.a.objects ↔ (mo, r) ∈ p.a.objects
  bytes_kept : ∀ mo ∉ mos, ∀ a i x, (IsByte p p.a.objects a mo i x → IsByte q q.a.objects a mo i x) ∧
    (IsByte p p.b.objects a mo i x → IsByte q q.b.objects a mo i x)
  bytes_merged : ∀ mo ∈ mos, ∀ a b i x y, c.Denotes a b → IsByte p p.a.objects a mo i x →
    IsByte p p.b.objects a mo i y → IsByte q q.a.objects a mo i (if b = 1#1 then x else y)

/-- One object. -/
theorem mergeObject_spec {c : Expr} (hc : c.HasWidth 1) (hp : HeapWF env p) {mo rA rB : ℕ} (hA : (mo, rA) ∈ p.a.objects)
    (hB : (mo, rB) ∈ p.b.objects) (hne : rA ≠ rB) :
    Prog.wp (mergeObject env c mo) (fun _ q => ObjectsMerged env c [mo] p q) (fun _ => True) p := by
  obtain ⟨oA, hoA, hobjA, hsizeA, hconsA⟩ := hp.boundA mo rA hA
  obtain ⟨oB, hoB, hobjB, hsizeB, hconsB⟩ := hp.boundB mo rB hB
  unfold mergeObject
  rw [Prog.wp_bind, Prog.wp_get, findObject_of_mem hp.keysA hA, findObject_of_mem hp.keysB hB]
  refine .step rfl (.step rfl ((getWriteable_spec hp hA hoA).bind fun wos s hs => ?_))
  obtain ⟨w, hw, hrep⟩ := hs.bytes
  obtain ⟨w', hw', hobjw, hsizew, hconsw⟩ := hs.wf.boundA mo wos hs.bound
  obtain rfl : w = w' := Option.some.inj (hw.symm.trans hw')
  have hoB' := hs.frame rB oB hoB
  have hwne : wos ≠ rB := by
    intro heq
    obtain hwos | hwos := hs.old_or_new
    · exact hne (hwos.symm.trans heq)
    · rw [heq, hoB] at hwos
      cases hwos
  refine (mergeBytes_spec hc hwne _ hw hoB' hconsw hconsB fun i hi =>
    (List.mem_range.1 hi).trans (env.memoryObject mo).size_lt).mono (fun _ q hq => ?_) fun _ h => h
  -- an object state of another memory object is neither of the two
  have hother : ∀ {mo' r o}, mo' ≠ mo → p.heap r = some o → o.object = mo' → q.heap r = some o := by
    intro mo' r o hmo hr hobj
    have hr' := hs.frame r o hr
    rw [hq.frame r (fun heq => ?_) fun heq => ?_]
    · exact hr'
    · subst heq
      obtain rfl := Option.some.inj (hw.symm.trans hr')
      exact hmo (hobj.symm.trans hobjw)
    · subst heq
      obtain rfl := Option.some.inj (hoB'.symm.trans hr')
      exact hmo (hobj.symm.trans hobjB)
  refine ⟨hq.wf hw hoB' hs.wf, ?_, hq.b.trans hs.b, fun mo' hmo r => ?_, fun mo' hmo a i x => ⟨?_, ?_⟩, ?_⟩
  · rw [hq.a]
    exact hs.a
  · rw [hq.a]
    exact hs.kept mo' (fun heq => hmo (List.mem_singleton.2 heq)) r
  · intro ⟨r, o, m, hr, ho, hm, hi⟩
    have hmo' : mo' ≠ mo := fun heq => hmo (List.mem_singleton.2 heq)
    obtain ⟨o', ho', hobj, -⟩ := hp.boundA mo' r hr
    obtain rfl := Option.some.inj (ho.symm.trans ho')
    refine ⟨r, o, m, ?_, hother hmo' ho hobj, hm, hi⟩
    rw [hq.a]
    exact (hs.kept mo' hmo' r).2 hr
  · intro ⟨r, o, m, hr, ho, hm, hi⟩
    have hmo' : mo' ≠ mo := fun heq => hmo (List.mem_singleton.2 heq)
    obtain ⟨o', ho', hobj, -⟩ := hp.boundB mo' r hr
    obtain rfl := Option.some.inj (ho.symm.trans ho')
    refine ⟨r, o, m, ?_, hother hmo' ho hobj, hm, hi⟩
    rw [hq.b, hs.b]
    exact hr
  · intro mo' hmo a b i x y hb hx hy
    obtain rfl := List.mem_singleton.1 hmo
    obtain ⟨r, o, mA, hr, ho, hmA, hiA⟩ := hx
    obtain ⟨r', o', mB, hr', ho', hmB, hiB⟩ := hy
    obtain rfl := eq_of_mem_keys hp.keysA hA hr
    obtain rfl := eq_of_mem_keys hp.keysB hB hr'
    obtain rfl := Option.some.inj (hoA.symm.trans ho)
    obtain rfl := Option.some.inj (hoB.symm.trans ho')
    obtain ⟨bytes, hheap, -, -, hmerged⟩ := hq.merged
    refine ⟨wos, _, _, ?_, hheap, hmerged a b mA mB hb (hrep a mA hmA) hmB, ?_⟩
    · rw [hq.a]
      exact hs.bound
    · refine mergeArray_of_mem _ List.nodup_range (List.mem_range.2 ?_) hiA hiB
      rw [← hsizeA]
      exact hmA.lt_size hiA

/-- The objects, one after the other. -/
theorem mergeObjects_spec {c : Expr} (hc : c.HasWidth 1) (mos : List ℕ) : ∀ {p : Pair}, HeapWF env p → mos.Nodup →
    (∀ mo ∈ mos, ∃ r r', (mo, r) ∈ p.a.objects ∧ (mo, r') ∈ p.b.objects ∧ r ≠ r') →
    Prog.wp (Prog.each (mergeObject env c) mos) (fun _ q => ObjectsMerged env c mos p q) (fun _ => True) p := by
  induction mos with
  | nil =>
    intro p hp _ _
    exact ⟨hp, rfl, rfl, fun _ _ _ => Iff.rfl, fun _ _ _ _ _ => ⟨id, id⟩, fun mo hmo => absurd hmo List.not_mem_nil⟩
  | cons mo mos ih =>
    intro p hp hnodup hdiff
    obtain ⟨hmo, hnodup⟩ := List.nodup_cons.1 hnodup
    obtain ⟨rA, rB, hA, hB, hne⟩ := hdiff mo List.mem_cons_self
    have hsingle : ∀ k ∈ mos, k ∉ [mo] := fun k hk heq => hmo (List.mem_singleton.1 heq ▸ hk)
    refine (mergeObject_spec hc hp hA hB hne).bind fun _ s hs => ?_
    refine (ih hs.wf hnodup fun k hk => ?_).mono (fun _ q hq => ?_) fun _ h => h
    · obtain ⟨r, r', hr, hr', hne'⟩ := hdiff k (List.mem_cons_of_mem _ hk)
      refine ⟨r, r', (hs.kept k (hsingle k hk) r).2 hr, ?_, hne'⟩
      rw [hs.b]
      exact hr'
    · refine ⟨hq.wf, ?_, hq.b.trans hs.b, fun k hk r => ?_, fun k hk a i x => ?_, fun k hk a b i x y hb hx hy => ?_⟩
      · rw [hq.a, hs.a]
      · rw [List.mem_cons, not_or] at hk
        exact (hq.kept k hk.2 r).trans (hs.kept k (fun h => hk.1 (List.mem_singleton.1 h)) r)
      · rw [List.mem_cons, not_or] at hk
        have h₁ := hs.bytes_kept k (fun h => hk.1 (List.mem_singleton.1 h)) a i x
        have h₂ := hq.bytes_kept k hk.2 a i x
        exact ⟨fun h => h₂.1 (h₁.1 h), fun h => h₂.2 (h₁.2 h)⟩
      · obtain rfl | hk := List.mem_cons.1 hk
        · exact (hq.bytes_kept k hmo a i _).1 (hs.bytes_merged k List.mem_cons_self a b i x y hb hx hy)
        · have hkept := hs.bytes_kept k (hsingle k hk) a i
          exact hq.bytes_merged k hk a b i x y hb ((hkept x).1 hx) ((hkept y).2 hy)

/-! ### The merged state -/

/-- What is true of two states that are merged: constraints are boolean, registers hold well-formed expressions, and
the maps bind memory objects to object states of theirs. -/
structure WellFormed (env : Env) (p : Pair) : Prop extends HeapWF env p where
  constraintsA : p.a.constraints.IsBool
  constraintsB : p.b.constraints.IsBool
  localsA : ∀ f ∈ p.a.stack, LocalsWF f
  localsB : ∀ f ∈ p.b.stack, LocalsWF f

/-- What a merge that succeeds has done. -/
structure Merged (env : Env) (p q : Pair) : Prop where
  wf : HeapWF env q
  constraints : mergeConstraints env p = some q.a.constraints
  same : sameFrames p.a.stack p.b.stack = true
  stack : mergeStack env (inA env p) p.a.stack p.b.stack = some q.a.stack
  bytes : ∀ mo a b i x y, (inA env p).Denotes a b → IsByte p p.a.objects a mo i x → IsByte p p.b.objects a mo i y →
    IsByte q q.a.objects a mo i (if b = 1#1 then x else y)

/-- A merge that fails changes nothing. -/
theorem merge_spec (hp : WellFormed env p) :
    Prog.wp (merge env) (fun r q => (r = true → Merged env p q) ∧ (r = false → q = p)) (fun _ => True) p := by
  have hfalse : Prog.wp (pure false) (fun r q => (r = true → Merged env p q) ∧ (r = false → q = p)) (fun _ => True) p :=
    ⟨fun h => (nomatch h), fun _ => rfl⟩
  unfold merge
  rw [Prog.wp_bind, Prog.wp_get, Prog.wp_ite]
  refine ⟨fun _ => hfalse, fun _ => ?_⟩
  rw [Prog.wp_ite]
  refine ⟨fun _ => hfalse, fun _ => ?_⟩
  rw [Prog.wp_ite]
  refine ⟨fun _ => hfalse, fun hsame => ?_⟩
  cases hmos : mutated p.a.objects p.b.objects with
  | none => exact hfalse
  | some mos =>
    obtain ⟨hsub, hdiff, hshared⟩ := mutated_spec hmos
    show Prog.wp (Prog.unwrap _ >>= _) _ _ p
    rw [Prog.wp_bind, Prog.wp_unwrap]
    refine ⟨fun stack hstack => ?_, fun _ => trivial⟩
    rw [Prog.wp_bind, Prog.wp_modify]
    have hp₁ : HeapWF env { p with a := { p.a with stack := stack } } :=
      ⟨hp.boundA, hp.boundB, hp.keysA, hp.keysB, hp.fresh⟩
    refine (mergeObjects_spec (inA_hasWidth hp.constraintsA) mos hp₁ (hsub.nodup hp.keysA) hdiff).bind fun _ q hq => ?_
    rw [Prog.wp_bind, Prog.wp_unwrap]
    refine ⟨fun constraints hconstraints => ?_, fun _ => trivial⟩
    refine ⟨fun _ => ⟨⟨hq.wf.boundA, hq.wf.boundB, hq.wf.keysA, hq.wf.keysB, hq.wf.fresh⟩, hconstraints, ?_, ?_, ?_⟩,
      fun h => (nomatch h)⟩
    · exact Bool.eq_true_of_not_eq_false hsame
    · rw [hstack]
      exact congrArg some (congrArg State.stack hq.a).symm
    · intro mo a b i x y hb hx hy
      by_cases hmo : mo ∈ mos
      · exact hq.bytes_merged mo hmo a b i x y hb hx hy
      · have hkept := (hq.bytes_kept mo hmo a i x).1 hx
        obtain ⟨r, o, m, hr, ho, hm, hi⟩ := hx
        obtain ⟨r', o', m', hr', ho', hm', hi'⟩ := hy
        obtain rfl := eq_of_mem_keys hp.keysB (hshared mo r hr hmo) hr'
        obtain rfl := Option.some.inj (ho.symm.trans ho')
        obtain ⟨u, hu, -, -, hcons⟩ := hp.boundA mo r hr
        obtain rfl := Option.some.inj (ho.symm.trans hu)
        obtain rfl := byte_unique hcons hm hm' hi hi'
        rw [ite_self]
        exact hkept

/-- The registers of the merged state: those that both states have set pick a value, and the others are as in A. -/
def RegistersMerged (env : Env) (p q : Pair) (a : Assignment) : Prop :=
  q.a.stack.length = p.a.stack.length ∧ p.b.stack.length = p.a.stack.length ∧
    ∀ (k : ℕ) (af bf : StackFrame), p.a.stack[k]? = some af → p.b.stack[k]? = some bf →
      ∃ f, q.a.stack[k]? = some f ∧ f.caller = af.caller ∧ f.kf = af.kf ∧ ∀ i < env.numRegisters af.kf,
        (∀ av bv, af.locals i = some av → bf.locals i = some bv → ∃ v, f.locals i = some v ∧ v.HasWidth av.getWidth ∧
          ∀ x y : BitVec av.getWidth, av.Denotes a x → bv.Denotes a y → ∃ z, v.Denotes a z ∧ Picks env p a x y z) ∧
        (af.locals i = none ∨ bf.locals i = none → f.locals i = af.locals i)

/-- The bytes of the merged state: every read of a byte returns an expression for the byte that is picked. -/
def BytesRead (env : Env) (p q : Pair) (a : Assignment) : Prop :=
  ∀ mo i x y, IsByte p p.a.objects a mo i x → IsByte p p.b.objects a mo i y →
    ∃ r o z, (mo, r) ∈ q.a.objects ∧ q.heap r = some o ∧ Picks env p a x y z ∧
      ∀ id, Prog.wp (ObjectState.read8At id (BitVec.ofNat 32 i)) (fun e _ => e.Denotes a z) (fun _ => False) o.bytes

theorem Merged.registers {q : Pair} (h : Merged env p q) (hp : WellFormed env p) (hev : Evaluates a p.a.constraints) :
    RegistersMerged env p q a := by
  obtain ⟨b, hb, hiff⟩ := inA_denotes env hp.constraintsA hev
  obtain ⟨hlen, hlenB, hframes⟩ :=
    mergeStack_spec (inA_hasWidth hp.constraintsA) hp.localsA hp.localsB h.same h.stack
  refine ⟨hlen, hlenB, fun k af bf haf hbf => ?_⟩
  obtain ⟨f, hf, hmerged⟩ := hframes k af bf haf hbf
  refine ⟨f, hf, hmerged.caller, hmerged.kf, fun i hi => ⟨fun av bv hav hbv => ?_, fun hnull => ?_⟩⟩
  · have hlocal := hmerged.locals i hi
    rw [hav, hbv] at hlocal
    obtain ⟨v, hv, hsel⟩ := hlocal
    exact ⟨v, hv, hsel.hasWidth, fun x y hx hy => ⟨_, hsel.denotes hb hx hy, picks_ite hiff x y⟩⟩
  · have hlocal := hmerged.locals i hi
    obtain hnull | hnull := hnull
    · rw [hnull] at hlocal ⊢
      exact hlocal
    · rw [hnull] at hlocal
      cases hav : af.locals i with
      | none =>
        rw [hav] at hlocal
        exact hlocal
      | some av =>
        rw [hav] at hlocal
        exact hlocal

theorem Merged.reads {q : Pair} (h : Merged env p q) (hp : WellFormed env p) (hev : Evaluates a p.a.constraints) :
    BytesRead env p q a := by
  intro mo i x y hx hy
  obtain ⟨b, hb, hiff⟩ := inA_denotes env hp.constraintsA hev
  obtain ⟨r, o, m, hr, ho, hm, hi⟩ := h.bytes mo a b i x y hb hx hy
  obtain ⟨o', ho', -, -, hcons⟩ := h.wf.boundA mo r hr
  obtain rfl := Option.some.inj (ho.symm.trans ho')
  refine ⟨r, o, _, hr, ho, picks_ite hiff x y, fun id => ?_⟩
  have hlt := hm.lt_size hi
  have hnat : (BitVec.ofNat 32 i).toNat = i := by
    rw [BitVec.toNat_ofNat, Nat.mod_eq_of_lt (hlt.trans o.bytes.size_lt)]
  refine (ObjectState.read8At_spec hcons (BitVec.ofNat 32 i)).mono (fun e t he => ?_) fun _ hn => hn (hnat.symm ▸ hlt)
  exact he.2.2 a m _ _ hm rfl (hnat.symm ▸ hi)

/-- **A merged state means both states.**  Where the constraints of both states evaluate, the merged constraints hold
exactly where those of A or those of B do, and every register that both states have set and every byte is that of A
where the suffix of A holds, and that of B elsewhere.  A merge that fails changes nothing. -/
theorem merge_preserves (hp : WellFormed env p) :
    (∀ q, merge env p = (some true, q) → ∀ a, Evaluates a p.a.constraints → Evaluates a p.b.constraints →
      (Satisfies a q.a.constraints ↔ Satisfies a p.a.constraints ∨ Satisfies a p.b.constraints) ∧
        RegistersMerged env p q a ∧ BytesRead env p q a) ∧
    ∀ q, merge env p = (some false, q) → q = p := by
  refine ⟨fun q hq a hevA hevB => ?_, fun q hq => ?_⟩
  · have hmerged := ((merge_spec hp).of_eq hq).1 rfl
    exact ⟨mergeConstraints_exact hp.constraintsA hp.constraintsB hmerged.constraints hevA hevB,
      hmerged.registers hp hevA, hmerged.reads hp hevA⟩
  · exact ((merge_spec hp).of_eq hq).2 rfl

end

/-! ### A branch that is merged -/

/-- `x[0] < 7`. -/
def small : Expr := .cmp .ult (.read (.root ⟨0, "x", 1, [], Array.oneByte_lt, Array.oneByte_values⟩) (.const 0#32)) (.const 7#8)

/-- `!(x[0] < 7)`. -/
def large : Expr := .cmp .eq (.const 0#1) small

/-- One function with two registers, and one object of one byte. -/
def branchEnv : Env where
  numRegisters _ := 2
  memoryObject _ := ⟨0x1000#64, 1, none, by decide, by decide, MemoryObject.symsize_none⟩
  compare _ _ := true
  constArrayId r := r
  littleEndian := true

/-- One byte. -/
def byteOf (x : BitVec 8) : ObjectState := ⟨1, fun _ => x, none, none, none, ⟨none, []⟩, false, by decide⟩

/-- Where `x[0] < 7` holds, both registers are set; elsewhere only the first one is. -/
def branches : Pair where
  a := ⟨0, [], [⟨none, "f", fun i => if i = 0 then some (.const 1#8) else some (.const 3#8)⟩], [small], 1, [(0, 0)]⟩
  b := ⟨0, [], [⟨none, "f", fun i => if i = 0 then some (.const 2#8) else none⟩], [large], 1, [(0, 1)]⟩
  heap r := if r = 0 then some ⟨0, 1, byteOf 1#8⟩ else if r = 1 then some ⟨0, 2, byteOf 2#8⟩ else none
  nextRef := 2

theorem constraintSet_branches : constraintSet branchEnv branches.a.constraints = [small] ∧
    constraintSet branchEnv branches.b.constraints = [large] := by
  simp [constraintSet, branches]

theorem commonConstraints_branches : commonConstraints branchEnv branches = [] := by
  unfold commonConstraints
  rw [constraintSet_branches.1, constraintSet_branches.2]
  rfl

theorem aSuffix_branches : aSuffix branchEnv branches = [small] := by
  unfold aSuffix
  rw [constraintSet_branches.1, commonConstraints_branches]
  rfl

theorem bSuffix_branches : bSuffix branchEnv branches = [large] := by
  unfold bSuffix
  rw [constraintSet_branches.2, commonConstraints_branches]
  rfl

theorem inA_branches : inA branchEnv branches = small := by
  unfold inA
  rw [aSuffix_branches]
  rfl

theorem mergeConstraints_branches [ExprOptions] :
    mergeConstraints branchEnv branches = some [.bin .or small large] := by
  have hor : OrExpr.create (inA branchEnv branches) (inB branchEnv branches) = .bin .or small large := by
    unfold inB
    rw [inA_branches, bSuffix_branches]
    rfl
  have hsimp : simplifyExpr [] (.bin .or small large) = .bin .or small large := by
    simp [simplifyExpr, ExprReplaceVisitor2.visit_of_entries_nil, equalities]
  unfold mergeConstraints
  rw [hor, commonConstraints_branches]
  show addConstraint [] (.bin .or small large) = _
  rw [addConstraint, hsimp, addConstraintInternal_eq]
  rfl

/-- The byte that is written. -/
theorem writeAt_select : ∃ os, ObjectState.writeAt true 0#32 (.select small (.const 1#8) (.const 2#8)) (byteOf 1#8) =
    (some ⟨⟩, os) := by
  have hext : ExtractExpr.create (.select small (.const 1#8) (.const 2#8)) 0 8 =
      .select small (.const 1#8) (.const 2#8) := by
    rw [ExtractExpr.create_eq]
    rfl
  have hwrite : ObjectState.writeAt true 0#32 (.select small (.const 1#8) (.const 2#8)) (byteOf 1#8) =
      (ObjectState.write8At 0#32 (ExtractExpr.create (.select small (.const 1#8) (.const 2#8)) 0 8) >>=
        fun _ => pure ⟨⟩) (byteOf 1#8) := rfl
  rw [hext] at hwrite
  exact ⟨_, hwrite⟩

theorem merge_branches [ExprOptions] : ∃ q, merge branchEnv branches = (some true, q) := by
  have hwp : Prog.wp (merge branchEnv) (fun r _ => r = true) (fun _ => False) branches := by
    unfold merge
    refine .step rfl ?_
    show Prog.wp (Prog.unwrap (mergeStack branchEnv (inA branchEnv branches) branches.a.stack branches.b.stack) >>= _) _ _ _
    rw [inA_branches, mergeConstraints_branches]
    refine .step rfl (.step rfl (Prog.wp.bind (Q := fun _ _ => True) ?_ fun _ _ _ => rfl))
    refine Prog.wp.bind (Q := fun _ _ => True) ?_ fun _ _ _ => trivial
    refine .step rfl (.step rfl (.step rfl (.step rfl ?_)))
    refine Prog.wp.bind (Q := fun _ _ => True) ?_ fun _ _ _ => trivial
    refine .step rfl (.step rfl (.step rfl ?_))
    obtain ⟨os, hos⟩ := writeAt_select
    exact (wp_onObject (o := ⟨0, 1, byteOf 1#8⟩) rfl).2 (.of_result hos trivial)
  obtain ⟨r, q, hq, rfl⟩ := hwp.exists_result
  exact ⟨q, hq⟩

theorem small_hasWidth : small.HasWidth 1 := by
  refine HasWidth.cmp (w := 8) ⟨?_, rfl⟩ (hasWidth_const 7#8)
  simp [Expr.WF, UpdateList.WF, getWidth]

/-- `x[0]` under an assignment. -/
theorem small_denotes (a : Assignment) :
    small.Denotes a (BitVec.ofBool ((a ⟨0, "x", 1, [], Array.oneByte_lt, Array.oneByte_values⟩ 0).ult 7#8)) := by
  show (Expr.cmp .ult _ _).Denotes a (BitVec.ofBool (CmpOp.ult.apply _ 7#8))
  refine Denotes.cmp (w := 8) ⟨?_, rfl⟩ ⟨⟨trivial, ?_⟩, ?_⟩ (denotes_const 7#8)
  · simp [Expr.WF, UpdateList.WF, getWidth]
  · simp [UpdateList.DefinedAt, Array.isConstantArray, Array.isSymbolicArray]
  · simp [Expr.eval, UpdateList.evalAt, Array.initialValue]

theorem large_denotes (a : Assignment) :
    large.Denotes a (BitVec.ofBool (!(a ⟨0, "x", 1, [], Array.oneByte_lt, Array.oneByte_values⟩ 0).ult 7#8)) := by
  have h : large.Denotes a (BitVec.ofBool (CmpOp.eq.apply 0#1 _)) :=
    (denotes_const 0#1).cmp (hasWidth_const 0#1) (small_denotes a)
  have hnot : ∀ b : Bool, CmpOp.eq.apply 0#1 (BitVec.ofBool b) = !b := by decide
  rw [hnot] at h
  exact h

theorem consistent_byteOf (x : BitVec 8) : Consistent (byteOf x) :=
  ⟨fun h => (nomatch h), fun _ _ => .inl rfl, fun h => (nomatch h), fun _ h => absurd h List.not_mem_nil⟩

theorem wellFormed_branches : WellFormed branchEnv branches where
  boundA mo r h := by
    obtain ⟨rfl, rfl⟩ := Prod.mk.inj (List.mem_singleton.1 h)
    exact ⟨_, rfl, rfl, rfl, consistent_byteOf _⟩
  boundB mo r h := by
    obtain ⟨rfl, rfl⟩ := Prod.mk.inj (List.mem_singleton.1 h)
    exact ⟨_, rfl, rfl, rfl, consistent_byteOf _⟩
  keysA := List.nodup_singleton 0
  keysB := List.nodup_singleton 0
  fresh r hr := by
    have hr : 2 ≤ r := hr
    simp [branches, show r ≠ 0 by omega, show r ≠ 1 by omega]
  constraintsA c hc := by
    rw [List.mem_singleton.1 hc]
    exact small_hasWidth
  constraintsB c hc := by
    rw [List.mem_singleton.1 hc]
    exact (hasWidth_const 0#1).cmp small_hasWidth
  localsA f hf i e he := by
    obtain rfl := List.mem_singleton.1 hf
    by_cases hi : i = 0
    · obtain rfl : Expr.const 1#8 = e := by simpa [hi] using he
      trivial
    · obtain rfl : Expr.const 3#8 = e := by simpa [hi] using he
      trivial
  localsB f hf i e he := by
    obtain rfl := List.mem_singleton.1 hf
    by_cases hi : i = 0
    · obtain rfl : Expr.const 2#8 = e := by simpa [hi] using he
      trivial
    · simp [hi] at he

theorem evaluates_branches (a : Assignment) :
    Evaluates a branches.a.constraints ∧ Evaluates a branches.b.constraints := by
  refine ⟨fun c hc => ?_, fun c hc => ?_⟩
  · rw [List.mem_singleton.1 hc]
    exact (small_denotes a).defined
  · rw [List.mem_singleton.1 hc]
    exact (large_denotes a).defined

/-- The two sides of a branch are merged. -/
theorem merge_preserves_branches :
    let _ : ExprOptions := ⟨false, true⟩
    ∃ q, merge branchEnv branches = (some true, q) ∧ ∀ a, RegistersMerged branchEnv branches q a ∧
      BytesRead branchEnv branches q a ∧ Satisfies a q.a.constraints := by
  intro _
  obtain ⟨q, hq⟩ := merge_branches
  refine ⟨q, hq, fun a => ?_⟩
  obtain ⟨hevA, hevB⟩ := evaluates_branches a
  obtain ⟨hiff, hregs, hbytes⟩ := (merge_preserves wellFormed_branches).1 q hq a hevA hevB
  refine ⟨hregs, hbytes, hiff.2 ?_⟩
  cases hx : (a ⟨0, "x", 1, [], Array.oneByte_lt, Array.oneByte_values⟩ 0).ult 7#8 with
  | true =>
    refine .inl fun c hc => ?_
    rw [List.mem_singleton.1 hc]
    have h := small_denotes a
    rwa [hx] at h
  | false =>
    refine .inr fun c hc => ?_
    rw [List.mem_singleton.1 hc]
    have h := large_denotes a
    rwa [hx] at h

/-- The second register is not set in B, and where B is meant it holds what A has in it. -/
theorem mergeNull_keeps_register :
    let _ : ExprOptions := ⟨false, true⟩
    ∃ q a f bf, merge branchEnv branches = (some true, q) ∧ Satisfies a q.a.constraints ∧
      Satisfies a branches.b.constraints ∧ ¬ Satisfies a (aSuffix branchEnv branches) ∧ q.a.stack[0]? = some f ∧ branches.b.stack[0]? = some bf ∧
      f.locals 1 = some (.const 3#8) ∧ bf.locals 1 = none := by
  intro _
  obtain ⟨q, hq⟩ := merge_branches
  let a : Assignment := fun _ _ => 9#8
  obtain ⟨hevA, hevB⟩ := evaluates_branches a
  have hB : Satisfies a branches.b.constraints := by
    intro c hc
    rw [List.mem_singleton.1 hc]
    exact large_denotes a
  have hmerged := ((merge_spec wellFormed_branches).of_eq hq).1 rfl
  obtain ⟨-, -, hframes⟩ := hmerged.registers wellFormed_branches hevA
  obtain ⟨f, hf, -, -, hlocals⟩ := hframes 0 _ _ rfl rfl
  refine ⟨q, a, f, _, hq, ?_, hB, fun hs => ?_, hf, rfl, (hlocals 1 (by decide)).2 (.inr rfl), rfl⟩
  · exact (mergeConstraints_exact wellFormed_branches.constraintsA wellFormed_branches.constraintsB hmerged.constraints
      hevA hevB).2 (.inr hB)
  · have hholds := hs small (by rw [aSuffix_branches]; exact List.mem_singleton_self small)
    exact absurd (hholds.value.symm.trans (small_denotes a).value) (by decide)

end Merge

end SymBisect
