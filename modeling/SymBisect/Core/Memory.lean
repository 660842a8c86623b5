import SymBisect.Expr.ConstraintsSound

/-!
# Memory objects and address spaces

`MemoryObject` of `lib/Core/Memory.h` and the constant-address lookup of `AddressSpace`.  The map of an
address space is ordered by the objects' addresses alone (`MemoryObjectLT`), so it is a list with
strictly increasing addresses.

An object has a constant `size`, and `symsize` when `issymsize` is `"True"`.
-/

namespace SymBisect

open Expr

/-- `Context::getPointerWidth`. -/
abbrev pointerWidth : ℕ := 64

/-- `MemoryObject`.  The memory it stands for does not wrap around the end of the address space. -/
structure MemoryObject where
  address : BitVec pointerWidth
  size : ℕ
  symsize : Option Expr
  size_lt : size < 2 ^ 32
  address_add_size : address.toNat + size ≤ 2 ^ pointerWidth
  symsize_hasWidth : ∀ s ∈ symsize, s.HasWidth pointerWidth

namespace MemoryObject

instance : DecidableEq MemoryObject := fun x y =>
  decidable_of_iff (x.address = y.address ∧ x.size = y.size ∧ x.symsize = y.symsize) (by cases x; cases y; simp)

theorem symsize_none : ∀ s ∈ (none : Option Expr), s.HasWidth pointerWidth := fun s hs => absurd hs (Option.not_mem_none s)

theorem sixteen_lt : 16 < 2 ^ 32 := by decide

theorem sixteen_le : (0x200000#64).toNat + 16 ≤ 2 ^ pointerWidth := by decide

/-- `getBaseExpr`. -/
def getBaseExpr (mo : MemoryObject) : Expr := .const mo.address

theorem getBaseExpr_hasWidth (mo : MemoryObject) : mo.getBaseExpr.HasWidth pointerWidth :=
  hasWidth_const mo.address

theorem getBaseExpr_denotes (mo : MemoryObject) (a : Assignment) :
    mo.getBaseExpr.Denotes a mo.address :=
  denotes_const mo.address

/-- The size of the object under an assignment: the value of `symsize` when it has one. -/
def sizeAt (mo : MemoryObject) (a : Assignment) : ℕ :=
  match mo.symsize with
  | some s => (s.eval a pointerWidth).toNat
  | none => mo.size

section
variable [ExprOptions]

/-- `getOffsetExpr`. -/
def getOffsetExpr (mo : MemoryObject) (pointer : Expr) : Expr :=
  SubExpr.create pointer mo.getBaseExpr

/-- `getBoundsCheckOffset(offset, bytes)`; `size - bytes + 1` is computed in `unsigned`. -/
def getBoundsCheckOffset (mo : MemoryObject) (offset : Expr) (bytes : ℕ) : Expr :=
  if bytes ≤ mo.size then
    UltExpr.create offset (.const (BitVec.ofNat pointerWidth ((mo.size - bytes + 1) % 2 ^ 32)))
  else ofBool false

/-- `getBoundsCheckPointer(pointer, bytes)`. -/
def getBoundsCheckPointer (mo : MemoryObject) (pointer : Expr) (bytes : ℕ) : Expr :=
  mo.getBoundsCheckOffset (mo.getOffsetExpr pointer) bytes

theorem getOffsetExpr_computes (mo : MemoryObject) {pointer : Expr}
    (h : pointer.HasWidth pointerWidth) :
    pointer.Computes₁ (fun p : BitVec pointerWidth => p - mo.address) (mo.getOffsetExpr pointer) := by
  have hsub := SubExpr.create_computes h (hasWidth_const mo.address)
  exact ⟨hsub.hasWidth, fun d => hsub.denotes d (denotes_const _) nofun⟩

/-- What the bounds check of a constant-size object evaluates to. -/
theorem getBoundsCheckOffset_computes (mo : MemoryObject) {offset : Expr} (bytes : ℕ)
    (h : offset.HasWidth pointerWidth) :
    offset.Computes₁ (fun o : BitVec pointerWidth => BitVec.ofBool
        (decide (bytes ≤ mo.size ∧ o.toNat < (mo.size - bytes + 1) % 2 ^ 32)))
      (mo.getBoundsCheckOffset offset bytes) := by
  unfold getBoundsCheckOffset
  split
  · rename_i hle
    have hult := UltExpr.create_computes h
      (hasWidth_const (BitVec.ofNat pointerWidth ((mo.size - bytes + 1) % 2 ^ 32)))
    refine ⟨hult.hasWidth, fun d => ?_⟩
    have dult := hult.denotes d (denotes_const _)
    have hlt : (mo.size - bytes + 1) % 2 ^ 32 < 2 ^ pointerWidth :=
      (Nat.mod_lt _ (by decide)).trans (by decide)
    have hbool : ∀ o : BitVec pointerWidth,
        CmpOp.ult.apply o (BitVec.ofNat pointerWidth ((mo.size - bytes + 1) % 2 ^ 32)) =
          decide (bytes ≤ mo.size ∧ o.toNat < (mo.size - bytes + 1) % 2 ^ 32) := by
      intro o
      simp only [CmpOp.apply, BitVec.ult, BitVec.toNat_ofNat, Nat.mod_eq_of_lt hlt, hle, true_and]
    rw [hbool] at dult
    exact dult
  · rename_i hgt
    simp only [hgt, false_and, decide_false]
    exact ⟨hasWidth_ofBool _, fun _ => denotes_ofBool _⟩

end

end MemoryObject

/-- `AddressSpace`: the objects in the order of the map. -/
structure AddressSpace where
  objects : List MemoryObject
  sorted : objects.Pairwise fun x y => x.address.toNat < y.address.toNat

namespace AddressSpace

/-- `lookup_previous`: the last object whose address is not above `address`. -/
def lookup_previous (as : AddressSpace) (address : ℕ) : Option MemoryObject :=
  (as.objects.filter fun mo => mo.address.toNat ≤ address).getLast?

/-- `bindObject`: the map entry of the object's address is replaced. -/
def bindObject (as : AddressSpace) (mo : MemoryObject) : AddressSpace where
  objects := as.objects.filter (fun o => o.address.toNat < mo.address.toNat) ++
    mo :: as.objects.filter fun o => mo.address.toNat < o.address.toNat
  sorted := by
    refine List.pairwise_append.2 ⟨as.sorted.filter _, ?_, ?_⟩
    · exact List.pairwise_cons.2 ⟨fun o ho => by simpa using (List.mem_filter.1 ho).2, as.sorted.filter _⟩
    · intro x hx y hy
      have hlt : x.address.toNat < mo.address.toNat := by simpa using (List.mem_filter.1 hx).2
      rcases List.mem_cons.1 hy with rfl | hy
      · exact hlt
      · have hgt : mo.address.toNat < y.address.toNat := by simpa using (List.mem_filter.1 hy).2
        exact hlt.trans hgt

/-- `resolveOne` on a constant address. -/
def resolveOne (as : AddressSpace) (address : ℕ) : Option MemoryObject :=
  match as.lookup_previous address with
  | some mo =>
    if (mo.size = 0 ∧ address = mo.address.toNat) ∨ address - mo.address.toNat < mo.size then some mo
    else none
  | none => none

theorem lookup_previous_spec {as : AddressSpace} {address : ℕ} {mo : MemoryObject}
    (h : as.lookup_previous address = some mo) : mo ∈ as.objects ∧ mo.address.toNat ≤ address := by
  have hmem := List.mem_of_getLast? h
  simpa using List.mem_filter.1 hmem

/-- A resolved object is bound and holds the address. -/
theorem resolveOne_spec {as : AddressSpace} {address : ℕ} {mo : MemoryObject}
    (h : as.resolveOne address = some mo) :
    mo ∈ as.objects ∧ mo.address.toNat ≤ address ∧ address ≤ mo.address.toNat + mo.size := by
  unfold resolveOne at h
  split at h
  · rename_i mo' hprev
    obtain ⟨hmem, hle⟩ := lookup_previous_spec hprev
    split_ifs at h with hin
    cases h
    exact ⟨hmem, hle, by omega⟩
  · cases h

end AddressSpace

end SymBisect
