import Mathlib.Logic.Relation

/-!
# Runs of a guarded machine

A machine takes a state and an action to a next state, or to nothing when it gets stuck.  A guarded run
only takes actions that the guard allows in the state they are taken in.  Invariants and
state-to-state relations are proved from one step by the two rules of this file.
-/

namespace SymBisect.Lib

variable {σ α : Type*} {step : σ → α → Option σ} {guard : σ → α → Prop}

/-- `t` is reached from `s` by actions that the guard allows. -/
inductive Run (step : σ → α → Option σ) (guard : σ → α → Prop) (s : σ) : σ → Prop
  | refl : Run step guard s s
  | step {t u : σ} (a : α) : Run step guard s t → guard t a → step t a = some u → Run step guard s u

namespace Run

variable {s t u : σ}

theorem single {a : α} (hg : guard s a) (h : step s a = some t) : Run step guard s t :=
  .step a .refl hg h

theorem trans (hst : Run step guard s t) (htu : Run step guard t u) : Run step guard s u := by
  induction htu with
  | refl => exact hst
  | step a _ hg h ih => exact .step a ih hg h

/-- A run under a guard is a run under a weaker one. -/
theorem weaken {guard' : σ → α → Prop} (hguard : ∀ t a, guard t a → guard' t a) (h : Run step guard s t) :
    Run step guard' s t := by
  induction h with
  | refl => exact .refl
  | step a _ hg h ih => exact .step a ih (hguard _ a hg) h

/-- What holds at the start and survives every allowed step holds in every state reached. -/
theorem invariant {I : σ → Prop} (hstep : ∀ t a u, I t → guard t a → step t a = some u → I u)
    (h : Run step guard s t) (hs : I s) : I t := by
  induction h with
  | refl => exact hs
  | step a _ hg h ih => exact hstep _ a _ ih hg h

/-- A preorder that every allowed step from a state of the invariant respects is respected by runs. -/
theorem relation {I : σ → Prop} {R : σ → σ → Prop} (hrefl : ∀ t, R t t)
    (htrans : ∀ t u v, R t u → R u v → R t v)
    (hstep : ∀ t a u, I t → guard t a → step t a = some u → I u ∧ R t u)
    (h : Run step guard s t) (hs : I s) : R s t := by
  induction h with
  | refl => exact hrefl s
  | step a hrun hg h ih =>
    have ht := hrun.invariant (fun t a u hI hg h => (hstep t a u hI hg h).1) hs
    exact htrans _ _ _ ih (hstep _ a _ ht hg h).2

end Run

/-- The transitions of the run that takes the actions of a list in turn; it ends where the machine gets stuck. -/
def transitions (step : σ → α → Option σ) : σ → List α → List (σ × α × σ)
  | _, [] => []
  | s, a :: as =>
    match step s a with
    | none => []
    | some t => (s, a, t) :: transitions step t as

/-- If an allowed step is one that leads to the invariant, a run stays in it iff all its steps are allowed. -/
theorem transitions_invariant_iff {I : σ → Prop} (hstep : ∀ s a t, I s → step s a = some t → (I t ↔ guard s a))
    {s : σ} (hs : I s) (as : List α) :
    (∀ x ∈ transitions step s as, I x.2.2) ↔ ∀ x ∈ transitions step s as, guard x.1 x.2.1 := by
  induction as generalizing s with
  | nil => exact iff_of_true (fun x hx => absurd hx List.not_mem_nil) fun x hx => absurd hx List.not_mem_nil
  | cons a as ih =>
    rw [transitions]
    cases h : step s a with
    | none => exact iff_of_true (fun x hx => absurd hx List.not_mem_nil) fun x hx => absurd hx List.not_mem_nil
    | some t =>
      rw [List.forall_mem_cons, List.forall_mem_cons]
      have ht := hstep s a t hs h
      constructor
      · rintro ⟨hI, hrest⟩
        exact ⟨ht.1 hI, (ih hI).1 hrest⟩
      · rintro ⟨hg, hrest⟩
        exact ⟨ht.2 hg, (ih (ht.2 hg)).2 hrest⟩

end SymBisect.Lib
