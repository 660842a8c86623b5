import SymBisect.Lib.Prog
import SymBisect.Lib.Run
import Mathlib.Data.Nat.Basic
import Mathlib.Tactic.Ring

/-!
# The deterministic allocator

`MemoryManager` of `lib/Core/MemoryManager.cpp` with `--allocate-determ`: a pointer is bumped through a reserved space.
The next address, the end of the object and the end of the space are 64-bit numbers, and the sums wrap.  The space is
less than 4 GiB, since its size is computed in `unsigned`.

* `allocate`, `allocateFixed`, `deallocate`, `markFreed`: the requests.
* `Sound`: what the objects that were returned by `allocate` should be.
* `run_sound`: the objects are so in every run in which the check against the end of the space is not fooled.
-/

namespace SymBisect

open Lib

namespace MemoryManager

/-! ### The model -/

/-- `llvm/Support/MathExtras.h`: the next integer, mod 2^64, that is a multiple of the alignment, and the test for a
power of two. -/
structure MathExtras where
  alignTo : BitVec 64 → BitVec 64 → BitVec 64
  isPowerOf2_64 : BitVec 64 → Bool
  isPowerOf2_64_iff : ∀ x, isPowerOf2_64 x = true ↔ ∃ k, x.toNat = 2 ^ k
  alignTo_toNat : ∀ value align, isPowerOf2_64 align = true →
    (alignTo value align).toNat = (value.toNat + align.toNat - 1) / align.toNat * align.toNat % 2 ^ 64

/-- The options, and the space that `mmap` has returned; it is in the lower half of the addresses. -/
structure Config where
  NullOnZeroMalloc : Bool
  RedzoneSize : BitVec 32
  DeterministicAllocationSize : BitVec 32
  NDEBUG : Bool
  deterministicSpace : BitVec 64
  space_pos : 0 < deterministicSpace.toNat
  mapped : deterministicSpace.toNat + (DeterministicAllocationSize * 1024 * 1024).toNat ≤ 2 ^ 47

namespace Config

/-- `spaceSize`; the product is `unsigned`. -/
def spaceSize (config : Config) : BitVec 64 := (config.DeterministicAllocationSize * 1024 * 1024).setWidth 64

/-- The end of the reserved space. -/
def spaceEnd (config : Config) : BitVec 64 := config.deterministicSpace + config.spaceSize

theorem spaceSize_toNat (config : Config) :
    config.spaceSize.toNat = (config.DeterministicAllocationSize * 1024 * 1024).toNat := by
  unfold spaceSize
  rw [BitVec.toNat_setWidth]
  exact Nat.mod_eq_of_lt (by omega)

theorem spaceSize_lt (config : Config) : config.spaceSize.toNat < 2 ^ 32 := by
  rw [spaceSize_toNat]
  omega

theorem spaceEnd_toNat (config : Config) :
    config.spaceEnd.toNat = config.deterministicSpace.toNat + config.spaceSize.toNat := by
  have hmapped := config.mapped
  rw [← spaceSize_toNat] at hmapped
  unfold spaceEnd
  rw [BitVec.toNat_add]
  exact Nat.mod_eq_of_lt (by omega)

theorem spaceEnd_le (config : Config) : config.spaceEnd.toNat ≤ 2 ^ 47 := by
  rw [spaceEnd_toNat, spaceSize_toNat]
  exact config.mapped

end Config

/-- `MemoryObject`; its size is `unsigned`. -/
structure Object where
  address : BitVec 64
  size : BitVec 32
  isLocal : Bool
  isGlobal : Bool
  isFixed : Bool
deriving DecidableEq

/-- An object that `allocate` has returned, with the size and the alignment that it was asked for. -/
structure Grant where
  size : BitVec 64
  alignment : BitVec 64
  object : Object
deriving DecidableEq

/-- The state of the manager, with all objects that `allocate` has returned so far, the last one first. -/
structure Manager where
  nextFreeSlot : BitVec 64
  objects : List Object
  granted : List Grant

/-- The manager after its constructor. -/
def start (config : Config) : Manager := ⟨config.deterministicSpace, [], []⟩

/-- `std::max(size, (uint64_t)1)`. -/
def allocSize (size : BitVec 64) : BitVec 64 := if size.toNat < 1 then 1 else size

variable (M : MathExtras) (config : Config)

/-- The address that an allocation gets, if there is space. -/
def nextAddress (alignment : BitVec 64) (m : Manager) : BitVec 64 :=
  M.alignTo (m.nextFreeSlot + alignment - 1) alignment

/-- The address and the new free slot; the address is 0 when there is no space left. -/
def bump (size alignment : BitVec 64) (m : Manager) : BitVec 64 × BitVec 64 :=
  let address := nextAddress M alignment m
  if (address + allocSize size).toNat < config.spaceEnd.toNat then
    (address, address + allocSize size + config.RedzoneSize.setWidth 64)
  else (0, m.nextFreeSlot)

/-- `allocate`. -/
def allocate (size : BitVec 64) (isLocal isGlobal : Bool) (alignment : BitVec 64) : Prog Manager (Option Object) := do
  let m ← Prog.get
  if (config.NullOnZeroMalloc && decide (size = 0)) = true then pure none
  else if (!M.isPowerOf2_64 alignment) = true then pure none
  else do
    let slot := bump M config size alignment m
    Prog.modify fun m => { m with nextFreeSlot := slot.2 }
    if slot.1 = 0 then pure none
    else do
      let res : Object := ⟨slot.1, size.setWidth 32, isLocal, isGlobal, false⟩
      Prog.modify fun m =>
        { m with objects := res :: m.objects, granted := ⟨size, alignment, res⟩ :: m.granted }
      pure (some res)

/-- The objects overlap, as `allocateFixed` computes it. -/
def overlaps (address size : BitVec 64) (mo : Object) : Bool :=
  decide (mo.address.toNat < (address + size).toNat) &&
    decide (address.toNat < (mo.address + mo.size.setWidth 64).toNat)

/-- `allocateFixed`; an overlap is a fatal error unless assertions are off. -/
def allocateFixed (address size : BitVec 64) : Prog Manager (Option Object) := do
  let m ← Prog.get
  Prog.assert (config.NDEBUG = true ∨ ∀ mo ∈ m.objects, overlaps address size mo = false)
  let res : Object := ⟨address, size.setWidth 32, false, true, true⟩
  Prog.modify fun m => { m with objects := res :: m.objects }
  pure (some res)

/-- `deallocate`. -/
def deallocate : Prog Manager (Option Object) := do
  Prog.assert (config.NDEBUG = true)
  pure none

/-- `markFreed`; nothing is given back. -/
def markFreed (mo : Object) : Prog Manager (Option Object) := do
  Prog.modify fun m => { m with objects := m.objects.erase mo }
  pure none

/-- A request to the manager. -/
inductive Request where
  | allocate (size : BitVec 64) (isLocal isGlobal : Bool) (alignment : BitVec 64)
  | allocateFixed (address size : BitVec 64)
  | deallocate
  | markFreed (mo : Object)

/-- The program of a request. -/
def Request.perform : Request → Prog Manager (Option Object)
  | allocate size isLocal isGlobal alignment => MemoryManager.allocate M config size isLocal isGlobal alignment
  | allocateFixed address size => MemoryManager.allocateFixed config address size
  | deallocate => MemoryManager.deallocate config
  | markFreed mo => MemoryManager.markFreed mo

/-- The manager after a request; nothing where it aborts. -/
def step (m : Manager) (r : Request) : Option Manager := Prog.next (r.perform M config) m

/-! ### The specification -/

/-- The bytes that a granted object takes up: at least one. -/
def Grant.extent (g : Grant) : ℕ := max g.size.toNat 1

/-- The object is as it was asked for, and inside of the space. -/
structure Grant.Right (config : Config) (g : Grant) : Prop where
  size : g.object.size.toNat = g.size.toNat
  aligned : g.object.address.toNat % g.alignment.toNat = 0
  above : config.deterministicSpace.toNat ≤ g.object.address.toNat
  below : g.object.address.toNat + g.extent ≤ config.deterministicSpace.toNat + config.spaceSize.toNat

/-- An object that was returned later is behind an earlier one and its red zone. -/
def Grant.Behind (config : Config) (later earlier : Grant) : Prop :=
  earlier.object.address.toNat + earlier.extent + config.RedzoneSize.toNat ≤ later.object.address.toNat

/-- All objects that `allocate` has returned are as they should be. -/
structure Sound (config : Config) (m : Manager) : Prop where
  right : ∀ g ∈ m.granted, g.Right config
  apart : m.granted.Pairwise (Grant.Behind config)

/-- The address of an allocation, as a number that does not wrap. -/
def exactAddress (alignment : BitVec 64) (m : Manager) : ℕ :=
  (m.nextFreeSlot.toNat + alignment.toNat - 1 + alignment.toNat - 1) / alignment.toNat * alignment.toNat

/-- The check against the end of the space is not fooled, if the request gets as far: where the sum, mod 2^64, is below
the end, it has not wrapped. -/
def Fits (m : Manager) : Request → Prop
  | .allocate size _ _ alignment =>
    (config.NullOnZeroMalloc = true → size ≠ 0) → (∃ k, alignment.toNat = 2 ^ k) →
      (exactAddress alignment m + max size.toNat 1) % 2 ^ 64 < config.spaceEnd.toNat →
        exactAddress alignment m + max size.toNat 1 < 2 ^ 64
  | _ => True

/-! ### Addresses -/

variable {M : MathExtras} {config : Config} {m m' : Manager} {size alignment : BitVec 64}

theorem allocSize_toNat (size : BitVec 64) : (allocSize size).toNat = max size.toNat 1 := by
  unfold allocSize
  split
  · show 1 = _
    omega
  · omega

/-- Rounding up does not see whole turns. -/
theorem roundUp_mod {a n : ℕ} (ha : 0 < a) (hdvd : a ∣ n) (x : ℕ) :
    (x % n + a - 1) / a * a % n = (x + a - 1) / a * a % n := by
  obtain ⟨r, rfl⟩ := hdvd
  have hx : x + a - 1 = x % (a * r) + a - 1 + a * (r * (x / (a * r))) := by
    have := Nat.mod_add_div x (a * r)
    rw [Nat.mul_assoc] at this
    omega
  rw [hx, Nat.add_mul_div_left _ _ ha, Nat.add_mul]
  have hturn : r * (x / (a * r)) * a = a * r * (x / (a * r)) := by ring
  rw [hturn, Nat.add_mul_mod_self_left]

theorem alignment_dvd (h : M.isPowerOf2_64 alignment = true) : 0 < alignment.toNat ∧ alignment.toNat ∣ 2 ^ 64 := by
  obtain ⟨k, hk⟩ := (M.isPowerOf2_64_iff alignment).1 h
  have hlt : 2 ^ k < 2 ^ 64 := hk ▸ alignment.isLt
  rw [hk]
  exact ⟨Nat.two_pow_pos k, Nat.pow_dvd_pow 2 (Nat.le_of_lt ((Nat.pow_lt_pow_iff_right Nat.one_lt_two).1 hlt))⟩

/-- The address is the exact one, mod 2^64. -/
theorem nextAddress_toNat (h : M.isPowerOf2_64 alignment = true) (m : Manager) :
    (nextAddress M alignment m).toNat = exactAddress alignment m % 2 ^ 64 := by
  obtain ⟨hpos, hdvd⟩ := alignment_dvd h
  have hvalue : (m.nextFreeSlot + alignment - 1).toNat = (m.nextFreeSlot.toNat + alignment.toNat - 1) % 2 ^ 64 := by
    rw [BitVec.toNat_sub, BitVec.toNat_add]
    show (2 ^ 64 - 1 + (m.nextFreeSlot.toNat + alignment.toNat) % 2 ^ 64) % 2 ^ 64 = _
    omega
  unfold nextAddress exactAddress
  rw [M.alignTo_toNat _ _ h, hvalue, roundUp_mod hpos hdvd]

theorem end_toNat (h : M.isPowerOf2_64 alignment = true) (size : BitVec 64) (m : Manager) :
    (nextAddress M alignment m + allocSize size).toNat = (exactAddress alignment m + max size.toNat 1) % 2 ^ 64 := by
  rw [BitVec.toNat_add, nextAddress_toNat h, allocSize_toNat, Nat.mod_add_mod]

theorem exactAddress_ge (h : M.isPowerOf2_64 alignment = true) (m : Manager) :
    m.nextFreeSlot.toNat ≤ exactAddress alignment m := by
  have hpos := (alignment_dvd h).1
  have hdiv := Nat.div_add_mod (m.nextFreeSlot.toNat + alignment.toNat - 1 + alignment.toNat - 1) alignment.toNat
  have hmod := Nat.mod_lt (m.nextFreeSlot.toNat + alignment.toNat - 1 + alignment.toNat - 1) hpos
  unfold exactAddress
  rw [Nat.mul_comm] at hdiv
  omega

theorem exactAddress_mod (alignment : BitVec 64) (m : Manager) : exactAddress alignment m % alignment.toNat = 0 :=
  Nat.mul_mod_left _ _

/-! ### One request -/

/-- The free slot is in the space or right behind it, and behind all objects. -/
structure Inv (config : Config) (m : Manager) : Prop where
  sound : Sound config m
  above : config.deterministicSpace.toNat ≤ m.nextFreeSlot.toNat
  behind : ∀ g ∈ m.granted, g.object.address.toNat + g.extent + config.RedzoneSize.toNat ≤ m.nextFreeSlot.toNat

/-- The address and the free slot of an allocation that does not wrap. -/
theorem bump_spec (hpow : M.isPowerOf2_64 alignment = true)
    (hfits : (exactAddress alignment m + max size.toNat 1) % 2 ^ 64 < config.spaceEnd.toNat →
      exactAddress alignment m + max size.toNat 1 < 2 ^ 64) :
    (bump M config size alignment m = (0, m.nextFreeSlot)) ∨
      ((bump M config size alignment m).1.toNat = exactAddress alignment m ∧
        (bump M config size alignment m).2.toNat =
          exactAddress alignment m + max size.toNat 1 + config.RedzoneSize.toNat ∧
        exactAddress alignment m + max size.toNat 1 < config.spaceEnd.toNat) := by
  have hend := end_toNat hpow size m
  have haddr := nextAddress_toNat hpow m
  have hle := config.spaceEnd_le
  have hred := config.RedzoneSize.isLt
  unfold bump
  dsimp only
  rw [hend]
  split
  · rename_i hlt
    have hexact : exactAddress alignment m + max size.toNat 1 < 2 ^ 64 := hfits hlt
    have hmod : (exactAddress alignment m + max size.toNat 1) % 2 ^ 64 = exactAddress alignment m + max size.toNat 1 :=
      Nat.mod_eq_of_lt hexact
    rw [hmod] at hlt hend
    refine .inr ⟨?_, ?_, hlt⟩
    · rw [haddr]
      exact Nat.mod_eq_of_lt (by omega)
    · rw [BitVec.toNat_add, hend, BitVec.toNat_setWidth, Nat.mod_eq_of_lt (by omega : config.RedzoneSize.toNat < 2 ^ 64)]
      exact Nat.mod_eq_of_lt (by omega)
  · exact .inl rfl

/-- A new object behind all others. -/
theorem Inv.grant (h : Inv config m) {g : Grant} (objects : List Object) (hright : g.Right config)
    (hge : m.nextFreeSlot.toNat ≤ g.object.address.toNat) {slot : BitVec 64}
    (hslot : slot.toNat = g.object.address.toNat + g.extent + config.RedzoneSize.toNat) :
    Inv config ⟨slot, objects, g :: m.granted⟩ := by
  refine ⟨⟨fun x hx => ?_, ?_⟩, ?_, fun x hx => ?_⟩
  · obtain rfl | hx := List.mem_cons.1 hx
    · exact hright
    · exact h.sound.right x hx
  · exact List.pairwise_cons.2 ⟨fun x hx => (h.behind x hx).trans hge, h.sound.apart⟩
  · have habove := h.above
    show _ ≤ slot.toNat
    omega
  · show _ ≤ slot.toNat
    obtain rfl | hx := List.mem_cons.1 hx
    · omega
    · have := h.behind x hx
      omega

theorem Inv.of_same (h : Inv config m) (hslot : m'.nextFreeSlot = m.nextFreeSlot) (hgranted : m'.granted = m.granted) :
    Inv config m' := by
  refine ⟨⟨?_, ?_⟩, ?_, ?_⟩
  · rw [hgranted]
    exact h.sound.right
  · rw [hgranted]
    exact h.sound.apart
  · rw [hslot]
    exact h.above
  · rw [hgranted, hslot]
    exact h.behind

/-- **`allocate` keeps the invariant.** -/
theorem allocate_inv (h : Inv config m) (isLocal isGlobal : Bool)
    (hfits : Fits config m (.allocate size isLocal isGlobal alignment)) :
    Prog.wp (allocate M config size isLocal isGlobal alignment) (fun _ t => Inv config t) (fun _ => False) m := by
  unfold allocate
  rw [Prog.wp_bind, Prog.wp_get, Prog.wp_ite]
  refine ⟨fun _ => h, fun hnull => ?_⟩
  rw [Prog.wp_ite]
  refine ⟨fun _ => h, fun hpow => ?_⟩
  have hpow' : M.isPowerOf2_64 alignment = true := by simpa using hpow
  have hfits := hfits (fun hoption hsize => hnull (by simp [hoption, hsize])) ((M.isPowerOf2_64_iff alignment).1 hpow')
  rw [Prog.wp_bind, Prog.wp_modify, Prog.wp_ite]
  obtain hnone | ⟨haddr, hslot, hlt⟩ := bump_spec hpow' hfits
  · -- there is no space
    rw [hnone]
    exact ⟨fun _ => h.of_same rfl rfl, fun hne => absurd rfl hne⟩
  · have hge := exactAddress_ge hpow' m
    have hpos := config.space_pos
    have habove := h.above
    have hend := config.spaceEnd_toNat
    have hsmall := config.spaceSize_lt
    refine ⟨fun hzero => ?_, fun _ => ?_⟩
    · rw [hzero] at haddr
      have : (0 : BitVec 64).toNat = 0 := rfl
      omega
    · rw [Prog.wp_bind, Prog.wp_modify]
      refine h.grant _ ⟨?_, ?_, ?_, ?_⟩ (haddr.symm ▸ hge) ?_
      · show (size.setWidth 32).toNat = size.toNat
        rw [BitVec.toNat_setWidth]
        exact Nat.mod_eq_of_lt (by omega)
      · show (bump M config size alignment m).1.toNat % alignment.toNat = 0
        rw [haddr]
        exact exactAddress_mod alignment m
      · show _ ≤ (bump M config size alignment m).1.toNat
        omega
      · show (bump M config size alignment m).1.toNat + max size.toNat 1 ≤ _
        omega
      · show (bump M config size alignment m).2.toNat = (bump M config size alignment m).1.toNat + max size.toNat 1 + _
        omega

/-- **Every request keeps the invariant.** -/
theorem step_inv (h : Inv config m) (r : Request) (hfits : Fits config m r) (hstep : step M config m r = some m') :
    Inv config m' := by
  cases r with
  | allocate size isLocal isGlobal alignment =>
    obtain ⟨_, hinv⟩ := (allocate_inv h isLocal isGlobal hfits).of_next hstep
    exact hinv
  | allocateFixed address size =>
    have hwp : Prog.wp (allocateFixed config address size) (fun _ t => Inv config t) (fun _ => True) m := by
      unfold allocateFixed
      rw [Prog.wp_bind, Prog.wp_get, Prog.wp_bind, Prog.wp_assert]
      exact ⟨fun _ => h.of_same rfl rfl, fun _ => trivial⟩
    obtain ⟨_, hinv⟩ := hwp.of_next hstep
    exact hinv
  | deallocate =>
    have hwp : Prog.wp (deallocate config) (fun _ t => Inv config t) (fun _ => True) m := by
      unfold deallocate
      rw [Prog.wp_bind, Prog.wp_assert]
      exact ⟨fun _ => h, fun _ => trivial⟩
    obtain ⟨_, hinv⟩ := hwp.of_next hstep
    exact hinv
  | markFreed mo =>
    have hwp : Prog.wp (markFreed mo) (fun _ t => Inv config t) (fun _ => True) m := h.of_same rfl rfl
    obtain ⟨_, hinv⟩ := hwp.of_next hstep
    exact hinv

theorem start_inv (config : Config) : Inv config (start config) :=
  ⟨⟨fun _ h => absurd h List.not_mem_nil, List.Pairwise.nil⟩, Nat.le_refl _, fun _ h => absurd h List.not_mem_nil⟩

/-! ### Runs -/

/-- **The objects are apart, aligned, inside of the space and of their size**, in every state of every run whose requests
do not fool the check against the end of the space. -/
theorem run_sound (M : MathExtras) (config : Config) (m : Manager)
    (hrun : Run (step M config) (Fits config) (start config) m) : Sound config m :=
  (hrun.invariant (fun _ r _ hI hg hs => step_inv hI r hg hs) (start_inv config)).sound

/-- The functions of LLVM. -/
def mathExtras : MathExtras where
  alignTo value align := (value + align - 1) / align * align
  isPowerOf2_64 x := (List.range 64).any fun k => x.toNat == 2 ^ k
  isPowerOf2_64_iff x := by
    rw [List.any_eq_true]
    constructor
    · rintro ⟨k, -, hk⟩
      exact ⟨k, by simpa using hk⟩
    · rintro ⟨k, hk⟩
      have hlt : 2 ^ k < 2 ^ 64 := hk ▸ x.isLt
      exact ⟨k, List.mem_range.2 ((Nat.pow_lt_pow_iff_right Nat.one_lt_two).1 hlt), by simpa using hk⟩
  alignTo_toNat value align h := by
    obtain ⟨k, -, hk⟩ := List.any_eq_true.1 h
    have hk' : align.toNat = 2 ^ k := by simpa using hk
    have hlt : 2 ^ k < 2 ^ 64 := hk' ▸ align.isLt
    obtain ⟨r, hr⟩ : align.toNat ∣ 2 ^ 64 :=
      hk' ▸ Nat.pow_dvd_pow 2 (Nat.le_of_lt ((Nat.pow_lt_pow_iff_right Nat.one_lt_two).1 hlt))
    have hpos : 0 < align.toNat := hk' ▸ Nat.two_pow_pos k
    have hsum : (value + align - 1).toNat = (value.toNat + align.toNat - 1) % 2 ^ 64 := by
      rw [BitVec.toNat_sub, BitVec.toNat_add]
      show (2 ^ 64 - 1 + (value.toNat + align.toNat) % 2 ^ 64) % 2 ^ 64 = _
      omega
    rw [BitVec.toNat_mul, BitVec.toNat_udiv, hsum, hr, Nat.mod_mul_right_div_self, Nat.mul_comm align.toNat r,
      Nat.mul_mod_mul_right, Nat.mul_mod_mul_right, Nat.mod_mod]

/-- The default options. -/
def defaults : Config := ⟨false, 10, 100, false, 0x7ff30000000, by decide, by decide⟩

/-- Sixteen bytes, and then an empty object. -/
theorem run_sound_two : ∃ m, m.granted.length = 2 ∧ Sound defaults m := by
  have hfirst : Fits defaults (start defaults) (.allocate 16#64 false false 8#64) := fun _ _ _ => by decide
  refine ⟨_, ?_, run_sound mathExtras defaults _ (.step (.allocate 0#64 false false 8#64)
    (.step (.allocate 16#64 false false 8#64) .refl hfirst rfl) (fun _ _ _ => by decide) rfl)⟩
  decide

/-- A request of nearly 2^64 bytes after one of sixteen. -/
theorem run_not_sound : ∃ m, Run (step mathExtras defaults) (fun _ _ => True) (start defaults) m ∧ ¬Sound defaults m := by
  refine ⟨_, .step (.allocate (BitVec.ofNat 64 (2 ^ 64 - 32)) false false 8#64)
    (.step (.allocate 16#64 false false 8#64) .refl trivial rfl) trivial rfl, fun h => ?_⟩
  have hsize := (h.right _ List.mem_cons_self).size
  revert hsize
  decide

end MemoryManager

end SymBisect
