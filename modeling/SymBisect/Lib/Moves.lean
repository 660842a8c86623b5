import Mathlib

/-!
# Moves one after another

A list of register moves, executed in order with every result written at once, gives what the simultaneous execution gives
as long as no move reads or writes the destination of an earlier one.

* `moveAll_of_mem`: every destination holds the value of its source before the moves.
* `moveAll_of_not_mem`: every other register is unchanged.
-/

namespace SymBisect.Lib

/-- What a move reads: a register, or something no move writes. -/
inductive Operand (R C : Type*) where
  | reg (r : R)
  | const (c : C)
  deriving DecidableEq

variable {R C V : Type*}

/-- The value of an operand. -/
def Operand.eval (consts : C → V) (regs : R → V) : Operand R C → V
  | .reg r => regs r
  | .const c => consts c

/-- Operands that read unchanged registers keep their value. -/
theorem Operand.eval_congr {consts : C → V} {regs regs' : R → V} {o : Operand R C}
    (h : ∀ r, o = .reg r → regs' r = regs r) : o.eval consts regs' = o.eval consts regs := by
  cases o with
  | reg r => exact h r rfl
  | const c => rfl

variable [DecidableEq R]

/-- The moves in order. -/
def moveAll (consts : C → V) : List (R × Operand R C) → (R → V) → R → V
  | [], regs => regs
  | m :: ms, regs => moveAll consts ms (Function.update regs m.1 (m.2.eval consts regs))

/-- No move reads or writes the destination of an earlier one. -/
def Independent (ms : List (R × Operand R C)) : Prop := ms.Pairwise fun m n => n.1 ≠ m.1 ∧ n.2 ≠ .reg m.1

variable {consts : C → V} {ms : List (R × Operand R C)} {regs : R → V}

theorem moveAll_of_not_mem {r : R} (h : ∀ m ∈ ms, m.1 ≠ r) : moveAll consts ms regs r = regs r := by
  induction ms generalizing regs with
  | nil => rfl
  | cons m ms ih =>
    rw [moveAll, ih fun n hn => h n (List.mem_cons_of_mem _ hn)]
    exact Function.update_of_ne (h m List.mem_cons_self).symm _ _

/-- **Independent moves are simultaneous.** -/
theorem moveAll_of_mem (h : Independent ms) : ∀ {regs : R → V} {m : R × Operand R C}, m ∈ ms →
    moveAll consts ms regs m.1 = m.2.eval consts regs := by
  induction h with
  | nil => exact fun hm => absurd hm List.not_mem_nil
  | @cons m ms hfirst _ ih =>
    intro regs n hn
    rw [moveAll]
    rcases List.mem_cons.1 hn with rfl | hn
    · rw [moveAll_of_not_mem fun k hk => (hfirst k hk).1, Function.update_self]
    · rw [ih hn]
      refine Operand.eval_congr fun r hr => Function.update_of_ne ?_ _ _
      rintro rfl
      exact (hfirst n hn).2 hr

end SymBisect.Lib
