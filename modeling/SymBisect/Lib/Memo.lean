import SymBisect.Lib.Prog

/-!
# Memoised programs

A table of results that a recursive program fills as it goes.  `Computes f E m v F`: on a table whose entries are results of `f`
for keys without `E`, the program `m` ends with `v` and such a table, unless `F`, when it aborts.

* `Computes.bind`: one program after the other.
* `Computes.memo`: looking up first makes no difference.
-/

namespace SymBisect.Lib

/-- Results by key; an entry is never replaced. -/
abbrev MemoTable (α β : Type) := List (α × β)

namespace MemoTable

variable {α β γ δ : Type} [DecidableEq α]

/-- Look the key up, and only if it is not there compute its result and insert it. -/
def memo (useTable : Bool) (key : α) (compute : Prog (MemoTable α β) β) : Prog (MemoTable α β) β :=
  if useTable then do
    let table ← Prog.get
    match table.lookup key with
    | some res => pure res
    | none => do
      let res ← compute
      Prog.modify fun table => table ++ [(key, res)]
      pure res
  else compute

/-- The entries are the results of `f`, and their keys are without `E`. -/
def Right (f : α → β) (E : α → Prop) (table : MemoTable α β) : Prop := ∀ key res, table.lookup key = some res → res = f key ∧ ¬E key

/-- The program ends with `v` and a right table, unless `F`, when it aborts. -/
def Computes (f : α → β) (E : α → Prop) (m : Prog (MemoTable α β) γ) (v : γ) (F : Prop) : Prop :=
  ∀ table, Right f E table → Prog.wp m (fun res table' => res = v ∧ ¬F ∧ Right f E table') (fun _ => F) table

variable {f : α → β} {E : α → Prop} {F G : Prop}

theorem Right.nil : Right f E ([] : MemoTable α β) := fun _ _ h => absurd h (by simp)

theorem Right.insert {table : MemoTable α β} {key : α} (h : Right f E table) (hkey : ¬E key) :
    Right f E (table ++ [(key, f key)]) := by
  intro key' res hres
  rw [List.lookup_append] at hres
  cases hold : table.lookup key' with
  | some res' =>
    rw [hold] at hres
    cases hres
    exact h key' res hold
  | none =>
    rw [hold, Option.none_or, List.lookup_cons] at hres
    by_cases hk : key' = key
    · subst hk
      simp only [beq_self_eq_true, Option.some.injEq] at hres
      exact ⟨hres.symm, hkey⟩
    · have hne : (key' == key) = false := beq_eq_false_iff_ne.2 hk
      simp [hne] at hres

theorem Computes.pure (v : γ) : Computes f E (Pure.pure v : Prog (MemoTable α β) γ) v False :=
  fun _ h => ⟨rfl, not_false, h⟩

theorem Computes.abort (v : γ) : Computes f E (Prog.abort : Prog (MemoTable α β) γ) v True := fun _ _ => trivial

theorem Computes.congr {m : Prog (MemoTable α β) γ} {v : γ} (h : Computes f E m v F) (hFG : F ↔ G) : Computes f E m v G :=
  propext hFG ▸ h

/-- One program after the other: it aborts if one of them does. -/
theorem Computes.bind {m : Prog (MemoTable α β) γ} {k : γ → Prog (MemoTable α β) δ} {v : γ} {w : δ} (h : Computes f E m v F)
    (hk : Computes f E (k v) w G) : Computes f E (m >>= k) w (F ∨ G) := by
  intro table ht
  refine ((h table ht).mono (fun _ _ h => h) fun _ hF => Or.inl hF).bind fun res table' hres => ?_
  obtain ⟨rfl, hF, ht'⟩ := hres
  refine (hk table' ht').mono (fun res' table'' hres' => ?_) fun _ hG => .inr hG
  exact ⟨hres'.1, not_or.2 ⟨hF, hres'.2.1⟩, hres'.2.2⟩

/-- **Looking up first makes no difference.** -/
theorem Computes.memo {useTable : Bool} {key : α} {compute : Prog (MemoTable α β) β} (h : Computes f E compute (f key) (E key)) :
    Computes f E (memo useTable key compute) (f key) (E key) := by
  unfold MemoTable.memo
  cases useTable with
  | false => exact h
  | true =>
    intro table ht
    rw [if_pos rfl]
    show Prog.wp (match table.lookup key with
      | some res => Pure.pure res
      | none => compute >>= fun res => Prog.modify (fun table => table ++ [(key, res)]) >>= fun _ => Pure.pure res) _ _ table
    cases hfound : table.lookup key with
    | some res => exact ⟨(ht key res hfound).1, (ht key res hfound).2, ht⟩
    | none =>
      refine (h table ht).bind fun res table' hres => ?_
      obtain ⟨rfl, hE, ht'⟩ := hres
      exact ⟨rfl, hE, ht'.insert hE⟩

end MemoTable

end SymBisect.Lib
