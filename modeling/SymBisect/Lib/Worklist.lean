import Mathlib.Data.Finset.Card
import Mathlib.Data.List.Nodup
import Mathlib.Logic.Relation

/-!
# Exploring with a worklist

A stack of things to look at and a set of things seen: what is taken from the stack goes to the output, and
those of its successors that were not seen yet go on the stack.  When the things that can be reached are
finitely many, the exploration ends, and its output is exactly what can be reached.
-/

namespace SymBisect.Lib.Worklist

variable {α : Type*} [DecidableEq α]

/-- Put what was not seen yet on the stack, and mark it as seen. -/
def push : List α → List α → List α → List α × List α
  | [], stack, visited => (stack, visited)
  | x :: xs, stack, visited =>
    if x ∈ visited then push xs stack visited else push xs (x :: stack) (x :: visited)

/-- Explore from the stack; `none` when the fuel runs out. -/
def explore (succ : α → List α) : ℕ → List α → List α → List α → Option (List α)
  | _, [], _, out => some out
  | 0, _ :: _, _, _ => none
  | fuel + 1, top :: stack, visited, out =>
    let (stack, visited) := push (succ top) stack visited
    explore succ fuel stack visited (out ++ [top])

/-- What is seen is either on the stack or in the output. -/
structure Consistent (stack visited out : List α) : Prop where
  nodup : (stack ++ out).Nodup
  mem : ∀ x, x ∈ visited ↔ x ∈ stack ∨ x ∈ out

variable {succ : α → List α} {stack visited out : List α}

/-- Pushing keeps this, marks everything pushed, and marks nothing else. -/
theorem push_spec (xs : List α) : ∀ {stack visited : List α}, Consistent stack visited out →
    Consistent (push xs stack visited).1 (push xs stack visited).2 out ∧
      ∀ x, x ∈ (push xs stack visited).2 ↔ x ∈ xs ∨ x ∈ visited := by
  induction xs with
  | nil =>
    intro stack visited h
    exact ⟨h, fun x => by simp [push]⟩
  | cons y xs ih =>
    intro stack visited h
    unfold push
    by_cases hy : y ∈ visited
    · rw [if_pos hy]
      obtain ⟨hcons, hmem⟩ := ih h
      refine ⟨hcons, fun x => ?_⟩
      rw [hmem, List.mem_cons]
      constructor
      · intro hx
        exact hx.imp_left .inr
      · intro hx
        obtain (rfl | hx) | hx := hx
        · exact .inr hy
        · exact .inl hx
        · exact .inr hx
    · rw [if_neg hy]
      have hnew : Consistent (y :: stack) (y :: visited) out := by
        refine ⟨List.nodup_cons.2 ⟨fun hin => hy ((h.mem y).2 (List.mem_append.1 hin)), h.nodup⟩, fun x => ?_⟩
        rw [List.mem_cons, List.mem_cons, h.mem, or_assoc]
      obtain ⟨hcons, hmem⟩ := ih hnew
      refine ⟨hcons, fun x => ?_⟩
      rw [hmem, List.mem_cons, List.mem_cons]
      tauto

/-- The exploration, from any point of it on. -/
theorem explore_spec (U : Finset α) (hU : ∀ x ∈ U, ∀ y ∈ succ x, y ∈ U) (fuel : ℕ) :
    ∀ {stack visited out : List α}, Consistent stack visited out → (∀ x ∈ visited, x ∈ U) →
      U.card ≤ fuel + out.length → (∀ x ∈ out, ∀ y ∈ succ x, y ∈ visited) →
      ∃ out', explore succ fuel stack visited out = some out' ∧ (∀ x ∈ visited, x ∈ out') ∧
        (∀ x ∈ out', ∀ y ∈ succ x, y ∈ out') ∧
        ∀ x ∈ out', ∃ y ∈ visited, Relation.ReflTransGen (fun a b => b ∈ succ a) y x := by
  induction fuel with
  | zero =>
    intro stack visited out h hvisited hcard hout
    have hseen : ∀ x, x ∈ visited ↔ x ∈ stack ∨ x ∈ out := h.mem
    cases stack with
    | nil =>
      have hmem : ∀ x, x ∈ visited ↔ x ∈ out := fun x => by simpa using hseen x
      exact ⟨out, by unfold explore; rfl, fun x hx => (hmem x).1 hx,
        fun x hx y hy => (hmem y).1 (hout x hx y hy), fun x hx => ⟨x, (hmem x).2 hx, .refl⟩⟩
    | cons top stack =>
      -- the output already has everything
      have hle : ((top :: stack) ++ out).toFinset.card ≤ U.card := Finset.card_le_card fun x hx =>
        hvisited x ((hseen x).2 (List.mem_append.1 (List.mem_toFinset.1 hx)))
      rw [List.toFinset_card_of_nodup h.nodup, List.length_append, List.length_cons] at hle
      omega
  | succ fuel ih =>
    intro stack visited out h hvisited hcard hout
    cases stack with
    | nil =>
      have hmem : ∀ x, x ∈ visited ↔ x ∈ out := fun x => by simpa using h.mem x
      exact ⟨out, by unfold explore; rfl, fun x hx => (hmem x).1 hx,
        fun x hx y hy => (hmem y).1 (hout x hx y hy), fun x hx => ⟨x, (hmem x).2 hx, .refl⟩⟩
    | cons top stack =>
      have hpop : Consistent stack visited (out ++ [top]) := by
        refine ⟨?_, fun x => ?_⟩
        · have hperm : (stack ++ (out ++ [top])).Perm (top :: stack ++ out) := by
            rw [← List.append_assoc]
            exact List.perm_append_singleton top (stack ++ out)
          exact hperm.nodup_iff.2 h.nodup
        · rw [h.mem, List.mem_cons, List.mem_append, List.mem_singleton]
          tauto
      have htop : top ∈ visited := (h.mem top).2 (.inl List.mem_cons_self)
      obtain ⟨hcons, hmem⟩ := push_spec (succ top) hpop
      obtain ⟨out', hrun, hvis, hclosed, hreach⟩ := ih hcons
        (fun x hx => by
          obtain hx | hx := (hmem x).1 hx
          · exact hU top (hvisited top htop) x hx
          · exact hvisited x hx)
        (by rw [List.length_append, List.length_singleton]; omega)
        (fun x hx y hy => by
          rw [hmem]
          obtain hx | hx := List.mem_append.1 hx
          · exact .inr (hout x hx y hy)
          · exact .inl (List.mem_singleton.1 hx ▸ hy))
      refine ⟨out', hrun, fun x hx => hvis x ((hmem x).2 (.inr hx)), hclosed, fun x hx => ?_⟩
      obtain ⟨y, hy, hyx⟩ := hreach x hx
      obtain hy | hy := (hmem y).1 hy
      · exact ⟨top, htop, .head hy hyx⟩
      · exact ⟨y, hy, hyx⟩

/-- **Exploration.**  From one starting point, within a finite closed set, the output is what can be
reached. -/
theorem explore_reaches (U : Finset α) (hU : ∀ x ∈ U, ∀ y ∈ succ x, y ∈ U) {start : α} (hstart : start ∈ U)
    {fuel : ℕ} (hfuel : U.card ≤ fuel) :
    ∃ out, explore succ fuel [start] [start] [] = some out ∧
      ∀ x, x ∈ out ↔ Relation.ReflTransGen (fun a b => b ∈ succ a) start x := by
  have hinit : Consistent [start] [start] ([] : List α) := ⟨by simp, fun x => by simp⟩
  obtain ⟨out, hrun, hvis, hclosed, hreach⟩ := explore_spec U hU fuel hinit
    (fun x hx => List.mem_singleton.1 hx ▸ hstart) hfuel (fun x hx => absurd hx List.not_mem_nil)
  refine ⟨out, hrun, fun x => ⟨fun hx => ?_, fun hx => ?_⟩⟩
  · obtain ⟨y, hy, hyx⟩ := hreach x hx
    exact List.mem_singleton.1 hy ▸ hyx
  · induction hx with
    | refl => exact hvis start (List.mem_singleton_self start)
    | tail _ hstep ih => exact hclosed _ ih _ hstep

end SymBisect.Lib.Worklist
