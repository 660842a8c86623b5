import SymBisect.Solver.CexCachingSolver

/-!
# The bytes an expression depends on

What `findSymbolicObjects` returns is enough: the value of an expression depends on no byte of another array.

* `Expr.agree_of_readsOnly`: where two assignments agree on the bytes that are read, the value is the same.
* `Expr.readsOnly_symbolicObjects`: the bytes read are those of the symbolic objects.
* `Expr.touches_of_mem_symbolicObjects`: and every symbolic object has a byte that may be read.
-/

namespace SymBisect

open Expr

variable {B B' : Array → ℕ → Prop} {a b : Assignment}

/-! ### Agreement -/

mutual

theorem Expr.agree_of_readsOnly (hB : ∀ arr i, B arr i → b arr i = a arr i) (e : Expr) (h : e.Defined a)
    (hreads : e.ReadsOnly B a) : e.Defined b ∧ ∀ w, e.eval b w = e.eval a w := by
  match e with
  | .const v => exact ⟨trivial, fun w => rfl⟩
  | .notOptimized src =>
    obtain ⟨hd, hv⟩ := Expr.agree_of_readsOnly hB src h hreads
    exact ⟨hd, fun w => by simp only [eval, hv]⟩
  | .read updates index =>
    obtain ⟨hd, hv⟩ := Expr.agree_of_readsOnly hB index h.1 hreads.1
    obtain ⟨hd', hv'⟩ := UpdateList.agree_of_readsOnlyAt hB updates (index.eval a 32).toNat h.2 hreads.2
    refine ⟨⟨hd, by rw [hv]; exact hd'⟩, fun w => ?_⟩
    simp only [eval, hv, hv']
  | .select c t f =>
    obtain ⟨hdc, hvc⟩ := Expr.agree_of_readsOnly hB c h.1 hreads.1
    obtain ⟨hdt, hvt⟩ := Expr.agree_of_readsOnly hB t h.2.1 hreads.2.1
    obtain ⟨hdf, hvf⟩ := Expr.agree_of_readsOnly hB f h.2.2 hreads.2.2
    exact ⟨⟨hdc, hdt, hdf⟩, fun w => by simp only [eval, hvc, hvt, hvf]⟩
  | .concat l r =>
    obtain ⟨hdl, hvl⟩ := Expr.agree_of_readsOnly hB l h.1 hreads.1
    obtain ⟨hdr, hvr⟩ := Expr.agree_of_readsOnly hB r h.2 hreads.2
    exact ⟨⟨hdl, hdr⟩, fun w => by simp only [eval, hvl, hvr]⟩
  | .extract e off w =>
    obtain ⟨hd, hv⟩ := Expr.agree_of_readsOnly hB e h hreads
    exact ⟨hd, fun w => by simp only [eval, hv]⟩
  | .zext src _ =>
    obtain ⟨hd, hv⟩ := Expr.agree_of_readsOnly hB src h hreads
    exact ⟨hd, fun w => by simp only [eval, hv]⟩
  | .sext src _ =>
    obtain ⟨hd, hv⟩ := Expr.agree_of_readsOnly hB src h hreads
    exact ⟨hd, fun w => by simp only [eval, hv]⟩
  | .not e =>
    obtain ⟨hd, hv⟩ := Expr.agree_of_readsOnly hB e h hreads
    exact ⟨hd, fun w => by simp only [eval, hv]⟩
  | .bin op l r =>
    obtain ⟨hdl, hvl⟩ := Expr.agree_of_readsOnly hB l h.1 hreads.1
    obtain ⟨hdr, hvr⟩ := Expr.agree_of_readsOnly hB r h.2.1 hreads.2
    exact ⟨⟨hdl, hdr, fun hop => by rw [hvr]; exact h.2.2 hop⟩, fun w => by simp only [eval, hvl, hvr]⟩
  | .cmp op l r =>
    obtain ⟨hdl, hvl⟩ := Expr.agree_of_readsOnly hB l h.1 hreads.1
    obtain ⟨hdr, hvr⟩ := Expr.agree_of_readsOnly hB r h.2 hreads.2
    exact ⟨⟨hdl, hdr⟩, fun w => by simp only [eval, hvl, hvr]⟩

theorem UpdateList.agree_of_readsOnlyAt (hB : ∀ arr i, B arr i → b arr i = a arr i) (ul : UpdateList) (i : ℕ)
    (h : ul.DefinedAt a i) (hreads : ul.ReadsOnlyAt B a i) : ul.DefinedAt b i ∧ ul.evalAt b i = ul.evalAt a i := by
  match ul with
  | .root arr =>
    refine ⟨h, ?_⟩
    show arr.initialValue b i = arr.initialValue a i
    unfold Array.initialValue
    cases hc : arr.constantValues[i]? with
    | some v => rfl
    | none => exact hB arr i (hreads hc)
  | .extend next index value =>
    obtain ⟨hi, hrest⟩ := h
    obtain ⟨hri, hreads⟩ := hreads
    obtain ⟨hd, hv⟩ := Expr.agree_of_readsOnly hB index hi hri
    simp only [UpdateList.DefinedAt, UpdateList.evalAt, hv]
    by_cases hidx : (index.eval a 32).toNat = i
    · rw [if_pos hidx] at hrest hreads ⊢
      obtain ⟨hd', hv'⟩ := Expr.agree_of_readsOnly hB value hrest hreads
      exact ⟨⟨hd, hd'⟩, by rw [if_pos hidx, if_pos hidx, hv']⟩
    · rw [if_neg hidx] at hrest hreads ⊢
      obtain ⟨hd', hv'⟩ := UpdateList.agree_of_readsOnlyAt hB next i hrest hreads
      exact ⟨⟨hd, hd'⟩, by rw [if_neg hidx, if_neg hidx, hv']⟩

end

theorem Expr.denotes_of_readsOnly {w : ℕ} {e : Expr} {v : BitVec w} (hB : ∀ arr i, B arr i → b arr i = a arr i)
    (hreads : e.ReadsOnly B a) (h : e.Denotes a v) : e.Denotes b v := by
  obtain ⟨hd, hv⟩ := Expr.agree_of_readsOnly hB e h.defined hreads
  exact ⟨hd, (hv w).trans h.value⟩

/-! ### The symbolic objects -/

mutual

theorem Expr.readsOnly_symbolicObjects (e : Expr) (hB : ∀ arr ∈ e.symbolicObjects, ∀ i, B arr i) (h : e.Defined a) :
    e.ReadsOnly B a := by
  match e with
  | .const v => exact trivial
  | .notOptimized src => exact Expr.readsOnly_symbolicObjects src hB h
  | .read updates index =>
    simp only [symbolicObjects, List.mem_append] at hB
    refine ⟨Expr.readsOnly_symbolicObjects index (fun arr harr => hB arr (.inr harr)) h.1,
      UpdateList.readsOnlyAt_symbolicObjects updates (fun arr harr => hB arr (.inl (.inl harr))) (fun hroot => ?_) _ h.2⟩
    exact hB _ (.inl (.inr (by rw [if_pos hroot]; exact List.mem_singleton_self _)))
  | .select c t f =>
    simp only [symbolicObjects, List.mem_append] at hB
    exact ⟨Expr.readsOnly_symbolicObjects c (fun arr harr => hB arr (.inl (.inl harr))) h.1,
      Expr.readsOnly_symbolicObjects t (fun arr harr => hB arr (.inl (.inr harr))) h.2.1,
      Expr.readsOnly_symbolicObjects f (fun arr harr => hB arr (.inr harr)) h.2.2⟩
  | .concat l r =>
    simp only [symbolicObjects, List.mem_append] at hB
    exact ⟨Expr.readsOnly_symbolicObjects l (fun arr harr => hB arr (.inl harr)) h.1,
      Expr.readsOnly_symbolicObjects r (fun arr harr => hB arr (.inr harr)) h.2⟩
  | .extract e off w => exact Expr.readsOnly_symbolicObjects e hB h
  | .zext src _ => exact Expr.readsOnly_symbolicObjects src hB h
  | .sext src _ => exact Expr.readsOnly_symbolicObjects src hB h
  | .not e => exact Expr.readsOnly_symbolicObjects e hB h
  | .bin op l r =>
    simp only [symbolicObjects, List.mem_append] at hB
    exact ⟨Expr.readsOnly_symbolicObjects l (fun arr harr => hB arr (.inl harr)) h.1,
      Expr.readsOnly_symbolicObjects r (fun arr harr => hB arr (.inr harr)) h.2.1⟩
  | .cmp op l r =>
    simp only [symbolicObjects, List.mem_append] at hB
    exact ⟨Expr.readsOnly_symbolicObjects l (fun arr harr => hB arr (.inl harr)) h.1,
      Expr.readsOnly_symbolicObjects r (fun arr harr => hB arr (.inr harr)) h.2⟩

theorem UpdateList.readsOnlyAt_symbolicObjects (ul : UpdateList) (hB : ∀ arr ∈ ul.symbolicObjects, ∀ i, B arr i)
    (hroot : ul.getRoot.isSymbolicArray = true → ∀ i, B ul.getRoot i) (i : ℕ) (h : ul.DefinedAt a i) :
    ul.ReadsOnlyAt B a i := by
  match ul with
  | .root arr =>
    intro hc
    refine hroot ?_ i
    show arr.isSymbolicArray = true
    by_contra hsym
    -- a constant array is read within its values
    have hconst : arr.isConstantArray = true := by simpa [Array.isConstantArray] using hsym
    have hlt : i < arr.size := h hconst
    have hlen : arr.constantValues.length = arr.size := by
      refine arr.constantValues_size.resolve_left fun hnil => hsym ?_
      rw [Array.isSymbolicArray, hnil]
      exact rfl
    rw [List.getElem?_eq_none_iff] at hc
    omega
  | .extend next index value =>
    simp only [UpdateList.symbolicObjects, List.mem_append] at hB
    obtain ⟨hi, hrest⟩ := h
    refine ⟨Expr.readsOnly_symbolicObjects index (fun arr harr => hB arr (.inl (.inl harr))) hi, ?_⟩
    by_cases hidx : (index.eval a 32).toNat = i
    · rw [if_pos hidx] at hrest ⊢
      exact Expr.readsOnly_symbolicObjects value (fun arr harr => hB arr (.inl (.inr harr))) hrest
    · rw [if_neg hidx] at hrest ⊢
      exact UpdateList.readsOnlyAt_symbolicObjects next (fun arr harr => hB arr (.inr harr)) hroot i hrest

end

/-- Assignments that agree on the symbolic objects give the same values. -/
theorem Expr.denotes_of_symbolicObjects {w : ℕ} {e : Expr} {v : BitVec w}
    (hsame : ∀ arr ∈ e.symbolicObjects, ∀ i, b arr i = a arr i) (h : e.Denotes a v) : e.Denotes b v :=
  Expr.denotes_of_readsOnly (B := fun arr i => b arr i = a arr i) (fun _ _ h => h)
    (e.readsOnly_symbolicObjects hsame h.defined) h

/-! ### Every symbolic object may be read -/

mutual

theorem Expr.read_of_mem_symbolicObjects (e : Expr) {arr : Array} (h : arr ∈ e.symbolicObjects) :
    ∃ updates index, Expr.read updates index ∈ e.subexprs ∧ updates.getRoot = arr ∧ arr.isSymbolicArray = true := by
  match e with
  | .const v => exact absurd h List.not_mem_nil
  | .notOptimized src =>
    obtain ⟨updates, index, hread, hroot⟩ := Expr.read_of_mem_symbolicObjects src h
    exact ⟨updates, index, List.mem_cons_of_mem _ hread, hroot⟩
  | .read updates index =>
    simp only [symbolicObjects, List.mem_append] at h
    obtain (h | h) | h := h
    · obtain ⟨updates', index', hread, hroot⟩ := UpdateList.read_of_mem_symbolicObjects updates h
      exact ⟨updates', index', by simp [subexprs, hread], hroot⟩
    · by_cases hsym : updates.getRoot.isSymbolicArray = true
      · rw [if_pos hsym, List.mem_singleton] at h
        subst h
        exact ⟨updates, index, self_mem_subexprs _, rfl, hsym⟩
      · rw [if_neg hsym] at h
        exact absurd h List.not_mem_nil
    · obtain ⟨updates', index', hread, hroot⟩ := Expr.read_of_mem_symbolicObjects index h
      exact ⟨updates', index', by simp [subexprs, hread], hroot⟩
  | .select c t f =>
    simp only [symbolicObjects, List.mem_append] at h
    obtain (h | h) | h := h
    · obtain ⟨updates, index, hread, hroot⟩ := Expr.read_of_mem_symbolicObjects c h
      exact ⟨updates, index, by simp [subexprs, hread], hroot⟩
    · obtain ⟨updates, index, hread, hroot⟩ := Expr.read_of_mem_symbolicObjects t h
      exact ⟨updates, index, by simp [subexprs, hread], hroot⟩
    · obtain ⟨updates, index, hread, hroot⟩ := Expr.read_of_mem_symbolicObjects f h
      exact ⟨updates, index, by simp [subexprs, hread], hroot⟩
  | .concat l r =>
    simp only [symbolicObjects, List.mem_append] at h
    obtain h | h := h
    · obtain ⟨updates, index, hread, hroot⟩ := Expr.read_of_mem_symbolicObjects l h
      exact ⟨updates, index, by simp [subexprs, hread], hroot⟩
    · obtain ⟨updates, index, hread, hroot⟩ := Expr.read_of_mem_symbolicObjects r h
      exact ⟨updates, index, by simp [subexprs, hread], hroot⟩
  | .extract e off w =>
    obtain ⟨updates, index, hread, hroot⟩ := Expr.read_of_mem_symbolicObjects e h
    exact ⟨updates, index, List.mem_cons_of_mem _ hread, hroot⟩
  | .zext src _ =>
    obtain ⟨updates, index, hread, hroot⟩ := Expr.read_of_mem_symbolicObjects src h
    exact ⟨updates, index, List.mem_cons_of_mem _ hread, hroot⟩
  | .sext src _ =>
    obtain ⟨updates, index, hread, hroot⟩ := Expr.read_of_mem_symbolicObjects src h
    exact ⟨updates, index, List.mem_cons_of_mem _ hread, hroot⟩
  | .not e =>
    obtain ⟨updates, index, hread, hroot⟩ := Expr.read_of_mem_symbolicObjects e h
    exact ⟨updates, index, List.mem_cons_of_mem _ hread, hroot⟩
  | .bin op l r =>
    simp only [symbolicObjects, List.mem_append] at h
    obtain h | h := h
    · obtain ⟨updates, index, hread, hroot⟩ := Expr.read_of_mem_symbolicObjects l h
      exact ⟨updates, index, by simp [subexprs, hread], hroot⟩
    · obtain ⟨updates, index, hread, hroot⟩ := Expr.read_of_mem_symbolicObjects r h
      exact ⟨updates, index, by simp [subexprs, hread], hroot⟩
  | .cmp op l r =>
    simp only [symbolicObjects, List.mem_append] at h
    obtain h | h := h
    · obtain ⟨updates, index, hread, hroot⟩ := Expr.read_of_mem_symbolicObjects l h
      exact ⟨updates, index, by simp [subexprs, hread], hroot⟩
    · obtain ⟨updates, index, hread, hroot⟩ := Expr.read_of_mem_symbolicObjects r h
      exact ⟨updates, index, by simp [subexprs, hread], hroot⟩

theorem UpdateList.read_of_mem_symbolicObjects (ul : UpdateList) {arr : Array} (h : arr ∈ ul.symbolicObjects) :
    ∃ updates index, Expr.read updates index ∈ ul.subexprs ∧ updates.getRoot = arr ∧ arr.isSymbolicArray = true := by
  match ul with
  | .root _ => exact absurd h List.not_mem_nil
  | .extend next index value =>
    simp only [UpdateList.symbolicObjects, List.mem_append] at h
    obtain (h | h) | h := h
    · obtain ⟨updates, index', hread, hroot⟩ := Expr.read_of_mem_symbolicObjects index h
      exact ⟨updates, index', by simp [UpdateList.subexprs, hread], hroot⟩
    · obtain ⟨updates, index', hread, hroot⟩ := Expr.read_of_mem_symbolicObjects value h
      exact ⟨updates, index', by simp [UpdateList.subexprs, hread], hroot⟩
    · obtain ⟨updates, index', hread, hroot⟩ := UpdateList.read_of_mem_symbolicObjects next h
      exact ⟨updates, index', by simp [UpdateList.subexprs, hread], hroot⟩

end

theorem Expr.touches_of_mem_symbolicObjects {e : Expr} {arr : Array} (h : arr ∈ e.symbolicObjects) :
    ∃ i, e.Touches arr i := by
  obtain ⟨updates, index, hread, hroot, hsym⟩ := e.read_of_mem_symbolicObjects h
  refine ⟨(index.eval (fun _ _ => 0) 32).toNat, updates, index, hread, hroot, ?_, mayIndex_eval _ index⟩
  rw [Array.isConstantArray, hsym]
  simp

end SymBisect
