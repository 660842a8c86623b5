import SymBisect.Lib.Prog
import Mathlib

/-!
# Binary search on machine words

`search test lo hi` is the loop that halves `[lo, hi]` until one word is left, where `test` is a program that
says on which side of the middle to go on.

* `wp_search`: for an answer that stays true once it is true, the word found is the least one from `lo` on
  with the answer true.
-/

namespace SymBisect.Lib

variable {σ : Type}

/-- The middle of two words. -/
def middle (lo hi : BitVec 64) : BitVec 64 := lo + (hi - lo) / 2

theorem toNat_sub_of_lt {lo hi : BitVec 64} (h : lo < hi) : (hi - lo).toNat = hi.toNat - lo.toNat :=
  BitVec.toNat_sub_of_le (BitVec.le_of_lt h)

/-- The middle does not overflow, and lies below the upper end. -/
theorem toNat_middle {lo hi : BitVec 64} (h : lo < hi) :
    (middle lo hi).toNat = lo.toNat + (hi.toNat - lo.toNat) / 2 := by
  have hhalf : ((hi - lo) / 2).toNat = (hi.toNat - lo.toNat) / 2 := by
    rw [BitVec.toNat_udiv, toNat_sub_of_lt h]
    rfl
  have hlt : lo.toNat < hi.toNat := h
  have hsize := hi.isLt
  rw [middle, BitVec.toNat_add, hhalf]
  omega

theorem middle_lt {lo hi : BitVec 64} (h : lo < hi) : middle lo hi < hi := by
  have hlt : lo.toNat < hi.toNat := h
  show (middle lo hi).toNat < hi.toNat
  rw [toNat_middle h]
  omega

/-- The word after the middle does not overflow either. -/
theorem toNat_middle_succ {lo hi : BitVec 64} (h : lo < hi) :
    (middle lo hi + 1).toNat = (middle lo hi).toNat + 1 := by
  have hlt : (middle lo hi).toNat < hi.toNat := middle_lt h
  have hsize := hi.isLt
  rw [BitVec.toNat_add]
  show ((middle lo hi).toNat + 1) % 2 ^ 64 = _
  omega

/-- `while (lo < hi)`, with the middle tested and one of the ends moved to it. -/
def search (test : BitVec 64 → Prog σ Bool) (lo hi : BitVec 64) : Prog σ (BitVec 64) :=
  if lo < hi then do
    let res ← test (middle lo hi)
    if res then search test lo (middle lo hi) else search test (middle lo hi + 1) hi
  else pure lo
termination_by hi.toNat - lo.toNat
decreasing_by
  all_goals
    rename_i h
    have hlt : lo.toNat < hi.toNat := h
    have hmid := toNat_middle h
    have hsucc := toNat_middle_succ h
    omega

variable {test : BitVec 64 → Prog σ Bool} {lo hi : BitVec 64} {p : ℕ → Prop} {E : σ → Prop}

/-- **The word found is the least one** from `lo` on with the property tested, where the property stays once
it holds and holds at `hi`. -/
theorem wp_search (hmono : ∀ k l, k ≤ l → p k → p l)
    (htest : ∀ mid, mid < hi → ∀ s, Prog.wp (test mid) (fun b _ => b = true ↔ p mid.toNat) E s)
    (hle : lo ≤ hi) (hlast : p hi.toNat) (s : σ) :
    Prog.wp (search test lo hi)
      (fun m _ => IsLeast {k | lo.toNat ≤ k ∧ p k} m.toNat ∧ m ≤ hi) E s := by
  induction hn : hi.toNat - lo.toNat using Nat.strong_induction_on generalizing lo hi s with
  | _ n ih =>
    have hle' : lo.toNat ≤ hi.toNat := hle
    rw [search]
    by_cases h : lo < hi
    · rw [if_pos h]
      have hlt : lo.toNat < hi.toNat := h
      have hmid := toNat_middle h
      have hsucc := toNat_middle_succ h
      refine (htest _ (middle_lt h) s).bind fun b t hb => ?_
      cases b with
      | true =>
        have hlow : lo ≤ middle lo hi := by
          show lo.toNat ≤ (middle lo hi).toNat
          omega
        refine (ih _ ?_ (fun mid hlt' => htest mid (BitVec.lt_trans hlt' (middle_lt h))) hlow (hb.1 rfl) t
          rfl).mono (fun m _ hm => ⟨hm.1, BitVec.le_trans hm.2 (BitVec.le_of_lt (middle_lt h))⟩) fun _ h => h
        omega
      | false =>
        have hhigh : middle lo hi + 1 ≤ hi := by
          show (middle lo hi + 1).toNat ≤ hi.toNat
          omega
        refine (ih _ ?_ htest hhigh hlast t rfl).mono (fun m _ hm => ⟨?_, hm.2⟩) fun _ h => h
        · omega
        · -- up to the middle the property fails, so the least one lies behind it
          have hmem := hm.1.1
          refine ⟨⟨by have := hmem.1; omega, hmem.2⟩, fun k hk => hm.1.2 ⟨?_, hk.2⟩⟩
          by_contra hbelow
          have hp : p (middle lo hi).toNat := hmono k _ (by omega) hk.2
          exact absurd (hb.2 hp) (by decide)
    · rw [if_neg h]
      have heq : lo.toNat = hi.toNat := by
        have hnot : ¬lo.toNat < hi.toNat := h
        omega
      exact ⟨⟨⟨le_rfl, heq ▸ hlast⟩, fun k hk => hk.1⟩, hle⟩

end SymBisect.Lib
