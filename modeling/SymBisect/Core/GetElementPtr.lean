import Mathlib
import SymBisect.Core.DataLayout
import SymBisect.Expr.RebuildSound

/-!
# Addresses of elements

A `getelementptr` is computed in two ways.  As an instruction its constant indices are added up at load time
(`computeOffsets`) and the others when it is executed (`executeInstruction`); as a constant expression the types are walked
by `evalConstantExpr`.

* `evalGetElementPtr_eq`: the constant expression adds each index times the allocation size of the type it steps over.
* `instructionAddress_denotes`: the instruction adds each index times the store size.
* `addresses_agree_iff`: they agree exactly when the padding of the types, taken index times, adds up to nothing.
-/

namespace SymBisect

/-- An index of a `getelementptr`: a constant, or the register that holds it. -/
inductive GepOperand where
  | constant {w : ℕ} (value : BitVec w)
  | register (r : ℕ)

/-- The type that an index selects from: the pointer operand's, and then the one inside. -/
inductive Indexed where
  | pointer (pointee : LLVMType)
  | inside (type : LLVMType)

/-- `operator++` of the type iterator: the type that the index selects. -/
def Indexed.next : Indexed → GepOperand → Option LLVMType
  | .pointer pointee, _ => some pointee
  | .inside (.array _ element), _ => some element
  | .inside (.vector _ element), _ => some element
  | .inside (.struct _ fields), .constant v => fields[v.toNat]?
  | _, _ => none

/-- The indices select a type: each is within the type that it selects from. -/
def Indexed.selects : Indexed → List GepOperand → Bool
  | _, [] => true
  | cur, operand :: rest => (cur.next operand).elim false fun t => (Indexed.inside t).selects rest

/-- `KGEPInstruction`: the operands to multiply by a size, and the sum of the others. -/
structure KGEPInstruction where
  indices : List (ℕ × ℕ)
  offset : BitVec 64

/-! ### The instruction -/

/-- `computeOffsetsSeqTy`. -/
def computeOffsetsSeqTy (dl : DataLayout) (index : ℕ) (operand : GepOperand) (element : LLVMType) (k : KGEPInstruction) :
    KGEPInstruction :=
  let elementSize := dl.getTypeStoreSize element
  match operand with
  | .constant v => { k with offset := k.offset + v.signExtend 64 * BitVec.ofNat 64 elementSize }
  | .register _ => { k with indices := k.indices ++ [(index, elementSize)] }

/-- One round of `computeOffsets`. -/
def computeOffset (dl : DataLayout) (index : ℕ) (k : KGEPInstruction) : Indexed → GepOperand → Option KGEPInstruction
  | .inside (.struct packed fields), .constant v =>
    some { k with offset := k.offset + BitVec.ofNat 64 (dl.getElementOffset packed fields v.toNat) }
  | .inside (.array _ element), operand => some (computeOffsetsSeqTy dl index operand element k)
  | .inside (.vector _ element), operand => some (computeOffsetsSeqTy dl index operand element k)
  | .pointer element, operand => some (computeOffsetsSeqTy dl index operand element k)
  | _, _ => none

/-- `computeOffsets`, from the operand with number `index` on. -/
def computeOffsets (dl : DataLayout) : ℕ → KGEPInstruction → Indexed → List GepOperand → Option KGEPInstruction
  | _, k, _, [] => some k
  | index, k, cur, operand :: rest => do
    let k ← computeOffset dl index k cur operand
    let selected ← cur.next operand
    computeOffsets dl (index + 1) k (.inside selected) rest

/-- `eval` of an operand. -/
def GepOperand.eval (regs : ℕ → Expr) : GepOperand → Expr
  | .constant v => .const v
  | .register r => regs r

/-- `createSExtToPointerWidth`. -/
def Expr.createSExtToPointerWidth (e : Expr) : Expr := SExtExpr.create e 64

section

variable [ExprOptions]

/-- The loop of the `GetElementPtr` case; `value` evaluates the operand with a number. -/
def addIndices (value : ℕ → Option Expr) : List (ℕ × ℕ) → Expr → Option Expr
  | [], base => some base
  | (number, elementSize) :: rest, base => do
    let index ← value number
    addIndices value rest
      (AddExpr.create base (MulExpr.create index.createSExtToPointerWidth (.const (BitVec.ofNat 64 elementSize))))

/-- The `GetElementPtr` case of `executeInstruction`. -/
def executeGetElementPtr (kgepi : KGEPInstruction) (value : ℕ → Option Expr) (base : Expr) : Option Expr := do
  let address ← addIndices value kgepi.indices base
  return if kgepi.offset ≠ 0 then AddExpr.create address (.const kgepi.offset) else address

/-- The address of the instruction: the offsets are computed at load time; the operand after the base has number 1. -/
def instructionAddress (dl : DataLayout) (source : LLVMType) (operands : List GepOperand) (regs : ℕ → Expr) (base : Expr) :
    Option Expr := do
  let kgepi ← computeOffsets dl 1 ⟨[], 0⟩ (.pointer source) operands
  executeGetElementPtr kgepi (fun number => operands[number - 1]?.map (GepOperand.eval regs)) base

end

/-! ### The constant expression -/

/-- A constant: a width and a value of that width. -/
abbrev ConstantValue := Σ w, BitVec w

/-- What an index other than zero adds in `evalConstantExpr`; `selected` is the type it selects. -/
def constantAddend (dl : DataLayout) (selected : LLVMType) (v : ConstantValue) : Indexed → BitVec 64
  | .inside (.struct packed fields) => BitVec.ofNat 64 (dl.getElementOffset packed fields v.2.toNat)
  | _ => v.2.signExtend 64 * BitVec.ofNat 64 (dl.getTypeAllocSize selected)

/-- The `GetElementPtr` case of `evalConstantExpr`. -/
def evalGetElementPtr (dl : DataLayout) : Indexed → List ConstantValue → BitVec 64 → Option (BitVec 64)
  | _, [], base => some base
  | cur, v :: rest, base => do
    let selected ← cur.next (.constant v.2)
    evalGetElementPtr dl (.inside selected) rest (if v.2 = 0 then base else base + constantAddend dl selected v cur)

/-! ### The sum -/

/-- What an index adds to the address, with a size for each type. -/
def addend (size : LLVMType → ℕ) (dl : DataLayout) (selected : LLVMType) (v : ConstantValue) : Indexed → ℤ
  | .inside (.struct packed fields) => dl.getElementOffset packed fields v.2.toNat
  | _ => v.2.toInt * size selected

/-- What the indices add to the address: the field offsets, and each index times the size of the type it selects. -/
def offsetSum (size : LLVMType → ℕ) (dl : DataLayout) : Indexed → List ConstantValue → Option ℤ
  | _, [] => some 0
  | cur, v :: rest => do
    let selected ← cur.next (.constant v.2)
    let sum ← offsetSum size dl (.inside selected) rest
    return addend size dl selected v cur + sum

/-- The padding behind a value of the type in an array. -/
def DataLayout.padding (dl : DataLayout) (t : LLVMType) : ℕ := dl.getTypeAllocSize t - dl.getTypeStoreSize t

/-- The padding of the type that an index steps over, taken index times. -/
def paddingAddend (dl : DataLayout) (selected : LLVMType) (v : ConstantValue) : Indexed → ℤ
  | .inside (.struct _ _) => 0
  | _ => v.2.toInt * dl.padding selected

/-- The padding that the indices step over. -/
def paddingSum (dl : DataLayout) : Indexed → List ConstantValue → Option ℤ
  | _, [] => some 0
  | cur, v :: rest => do
    let selected ← cur.next (.constant v.2)
    let sum ← paddingSum dl (.inside selected) rest
    return paddingAddend dl selected v cur + sum

/-- The value of an operand under an assignment. -/
def GepOperand.value (a : Assignment) (regs : ℕ → Expr) : GepOperand → ConstantValue
  | .constant (w := w) v => ⟨w, v⟩
  | .register r => ⟨(regs r).getWidth, (regs r).eval a (regs r).getWidth⟩

/-! ### Lemmas -/

section

variable {dl : DataLayout} {cur : Indexed} {selected : LLVMType} {v : ConstantValue} {vs : List ConstantValue}
  {base : BitVec 64} {sum pad : ℤ} {size : LLVMType → ℕ}

theorem ofInt_zero : BitVec.ofInt 64 0 = 0 := rfl

theorem ofInt_eq_zero_iff {p : ℤ} : BitVec.ofInt 64 p = 0 ↔ (2 ^ 64 : ℤ) ∣ p := by
  have hnonneg : 0 ≤ p % 2 ^ 64 := Int.emod_nonneg p (by decide)
  have htoNat : (BitVec.ofInt 64 p).toNat = (p % 2 ^ 64).toNat := BitVec.toNat_ofInt _
  rw [Int.dvd_iff_emod_eq_zero]
  constructor
  · intro h
    rw [h] at htoNat
    have hzero : (0 : BitVec 64).toNat = 0 := rfl
    omega
  · intro h
    apply BitVec.eq_of_toNat_eq
    rw [htoNat, h]
    rfl

theorem base_add_sum {x : BitVec 64} {sum : ℤ} : BitVec.ofInt 64 (x.toNat + sum) = x + BitVec.ofInt 64 sum := by
  rw [BitVec.ofInt_add, BitVec.ofInt_natCast, BitVec.ofNat_toNat, BitVec.setWidth_eq]

/-- Padding is not seen where it is a multiple of `2^64`. -/
theorem add_padding_iff {x : BitVec 64} {sum pad : ℤ} :
    x + BitVec.ofInt 64 sum = x + BitVec.ofInt 64 (sum + pad) ↔ (2 ^ 64 : ℤ) ∣ pad := by
  rw [BitVec.ofInt_add, ← add_assoc, left_eq_add, ofInt_eq_zero_iff]

theorem ofInt_mul_nat (x : ℤ) (n : ℕ) : BitVec.ofInt 64 (x * n) = BitVec.ofInt 64 x * BitVec.ofNat 64 n := by
  rw [BitVec.ofInt_mul, BitVec.ofInt_natCast]

/-- An index adds to the address of the constant expression what it adds to the sum. -/
theorem constantAddend_eq : constantAddend dl selected v cur = BitVec.ofInt 64 (addend dl.getTypeAllocSize dl selected v cur) := by
  unfold constantAddend addend
  split
  · rw [BitVec.ofInt_natCast]
  · rw [ofInt_mul_nat, BitVec.signExtend]

theorem addend_zero (hv : v.2 = 0) : addend size dl selected v cur = 0 := by
  have hnat : v.2.toNat = 0 := by
    rw [hv]
    exact Nat.zero_mod _
  have hint : v.2.toInt = 0 := by
    rw [hv]
    exact BitVec.toInt_zero
  unfold addend
  split
  · rw [hnat, dl.offset_zero]
    rfl
  · rw [hint, Int.zero_mul]

/-- **The constant expression** adds the indices times the allocation sizes. -/
theorem evalGetElementPtr_eq (h : offsetSum dl.getTypeAllocSize dl cur vs = some sum) :
    evalGetElementPtr dl cur vs base = some (base + BitVec.ofInt 64 sum) := by
  induction vs generalizing cur base sum with
  | nil =>
    cases h
    rw [evalGetElementPtr, ofInt_zero, add_zero]
  | cons v vs ih =>
    rw [offsetSum, Option.bind_eq_bind, Option.bind_eq_some_iff] at h
    obtain ⟨selected, hselected, h⟩ := h
    rw [Option.bind_eq_bind, Option.bind_eq_some_iff] at h
    obtain ⟨rest, hrest, h⟩ := h
    cases h
    rw [evalGetElementPtr, hselected]
    simp only [Option.bind_eq_bind, Option.bind_some]
    rw [ih hrest, BitVec.ofInt_add, ← BitVec.add_assoc]
    by_cases hv : v.2 = 0
    · rw [if_pos hv, addend_zero hv, ofInt_zero, add_zero]
    · rw [if_neg hv, constantAddend_eq]

/-- The sum with the allocation sizes is the sum with the store sizes and the padding. -/
theorem offsetSum_alloc (hsum : offsetSum dl.getTypeStoreSize dl cur vs = some sum) (hpad : paddingSum dl cur vs = some pad) :
    offsetSum dl.getTypeAllocSize dl cur vs = some (sum + pad) := by
  induction vs generalizing cur sum pad with
  | nil =>
    cases hsum
    cases hpad
    rfl
  | cons v vs ih =>
    rw [offsetSum, Option.bind_eq_bind, Option.bind_eq_some_iff] at hsum
    obtain ⟨selected, hselected, hsum⟩ := hsum
    rw [Option.bind_eq_bind, Option.bind_eq_some_iff] at hsum
    obtain ⟨sumRest, hsumRest, hsum⟩ := hsum
    cases hsum
    rw [paddingSum, hselected, Option.bind_eq_bind, Option.bind_some, Option.bind_eq_bind, Option.bind_eq_some_iff] at hpad
    obtain ⟨padRest, hpadRest, hpad⟩ := hpad
    cases hpad
    have haddend : addend dl.getTypeAllocSize dl selected v cur =
        addend dl.getTypeStoreSize dl selected v cur + paddingAddend dl selected v cur := by
      have hle := dl.store_le_alloc selected
      unfold addend paddingAddend
      split
      · rw [Int.add_zero]
      · rw [DataLayout.padding, Int.ofNat_sub hle]
        ring
    rw [offsetSum, hselected, Option.bind_eq_bind, Option.bind_some, ih hsumRest hpadRest, haddend]
    show some _ = some _
    congr 1
    ring

end

/-! ### The sum of the instruction -/

namespace KGEPInstruction

/-- What the instruction adds to the base, when the operands have these values. -/
def total (val : ℕ → BitVec 64) (k : KGEPInstruction) : BitVec 64 :=
  (k.indices.map fun p => val p.1 * BitVec.ofNat 64 p.2).sum + k.offset

end KGEPInstruction

section

variable {dl : DataLayout} {cur : Indexed} {selected : LLVMType} {operand : GepOperand} {operands : List GepOperand}
  {index : ℕ} {k : KGEPInstruction} {a : Assignment} {regs : ℕ → Expr} {val : ℕ → BitVec 64}

/-- Whether an index selects, and what, does not depend on the value of a register. -/
theorem next_value (h : cur.next operand = some selected) : cur.next (.constant (operand.value a regs).2) = some selected := by
  cases operand with
  | constant v => exact h
  | register r =>
    cases cur with
    | pointer pointee => exact h
    | inside t =>
      cases t with
      | array n e => exact h
      | vector n e => exact h
      | integer w => cases h
      | float w => cases h
      | pointer => cases h
      | struct packed fields => cases h

/-- An index that steps over a sequence adds its value times the store size. -/
theorem computeOffsetsSeqTy_total (hval : val index = (operand.value a regs).2.signExtend 64) :
    (computeOffsetsSeqTy dl index operand selected k).total val =
      k.total val + BitVec.ofInt 64 ((operand.value a regs).2.toInt * dl.getTypeStoreSize selected) := by
  rw [ofInt_mul_nat]
  change _ = k.total val + (operand.value a regs).2.signExtend 64 * _
  cases operand with
  | constant v => exact (add_assoc _ _ _).symm
  | register r =>
    have hsum : ((k.indices ++ [(index, dl.getTypeStoreSize selected)]).map fun p => val p.1 * BitVec.ofNat 64 p.2).sum =
        (k.indices.map fun p => val p.1 * BitVec.ofNat 64 p.2).sum +
          val index * BitVec.ofNat 64 (dl.getTypeStoreSize selected) := by
      rw [List.map_append, List.sum_append, List.map_singleton, List.sum_singleton]
    rw [computeOffsetsSeqTy, KGEPInstruction.total, KGEPInstruction.total, hsum, hval]
    ring

/-- **One index** of the instruction. -/
theorem computeOffset_total (dl : DataLayout) (regs : ℕ → Expr) (index : ℕ) (k : KGEPInstruction) (h : cur.next operand = some selected) :
    ∃ k', computeOffset dl index k cur operand = some k' ∧
      ∀ a val, val index = (operand.value a regs).2.signExtend 64 → k'.total val =
        k.total val + BitVec.ofInt 64 (addend dl.getTypeStoreSize dl selected (operand.value a regs) cur) := by
  have hseq : ∀ a val, val index = (operand.value a regs).2.signExtend 64 →
      (computeOffsetsSeqTy dl index operand selected k).total val =
        k.total val + BitVec.ofInt 64 ((operand.value a regs).2.toInt * dl.getTypeStoreSize selected) :=
    fun a val hval => computeOffsetsSeqTy_total hval
  cases cur with
  | pointer pointee =>
    cases h
    exact ⟨_, rfl, hseq⟩
  | inside t =>
    cases t with
    | array n e =>
      cases h
      exact ⟨_, rfl, hseq⟩
    | vector n e =>
      cases h
      exact ⟨_, rfl, hseq⟩
    | struct packed fields =>
      cases operand with
      | register r => cases h
      | constant v =>
        refine ⟨_, rfl, ?_⟩
        intro a val hval
        rw [addend, BitVec.ofInt_natCast, KGEPInstruction.total, KGEPInstruction.total, ← add_assoc]
        rfl
    | integer w => cases h
    | float w => cases h
    | pointer => cases h

/-- The operands that the instruction multiplies are registers. -/
theorem computeOffset_indices {k' : KGEPInstruction} (h : computeOffset dl index k cur operand = some k') :
    ∀ p ∈ k'.indices, p ∈ k.indices ∨ p.1 = index ∧ ∃ r, operand = .register r := by
  have hseq : ∀ e, ∀ p ∈ (computeOffsetsSeqTy dl index operand e k).indices,
      p ∈ k.indices ∨ p.1 = index ∧ ∃ r, operand = .register r := by
    intro e p hp
    cases operand with
    | constant v => exact .inl hp
    | register r =>
      rw [computeOffsetsSeqTy, List.mem_append, List.mem_singleton] at hp
      cases hp with
      | inl hp => exact .inl hp
      | inr hp => exact .inr ⟨by rw [hp], r, rfl⟩
  cases cur with
  | pointer pointee =>
    cases h
    exact hseq _
  | inside t =>
    cases t with
    | array n e =>
      cases h
      exact hseq _
    | vector n e =>
      cases h
      exact hseq _
    | struct packed fields =>
      cases operand with
      | register r => cases h
      | constant v =>
        cases h
        exact fun p hp => .inl hp
    | integer w => cases h
    | float w => cases h
    | pointer => cases h

/-- **The offsets at load time**: the constants are added up, and registers are kept with the store size. -/
theorem computeOffsets_total (dl : DataLayout) (regs : ℕ → Expr) (index : ℕ) (k : KGEPInstruction) (h : cur.selects operands = true) :
    ∃ k', computeOffsets dl index k cur operands = some k' ∧
      (∀ p ∈ k'.indices, p ∈ k.indices ∨ ∃ i r, p.1 = index + i ∧ operands[i]? = some (.register r)) ∧
      ∀ a, ∃ sum pad, offsetSum dl.getTypeStoreSize dl cur (operands.map (GepOperand.value a regs)) = some sum ∧
        paddingSum dl cur (operands.map (GepOperand.value a regs)) = some pad ∧
        ∀ val, (∀ i operand, operands[i]? = some operand → val (index + i) = (operand.value a regs).2.signExtend 64) →
          k'.total val = k.total val + BitVec.ofInt 64 sum := by
  induction operands generalizing cur index k with
  | nil =>
    refine ⟨k, rfl, fun p hp => .inl hp, ?_⟩
    intro a
    refine ⟨0, 0, rfl, rfl, ?_⟩
    intro val hval
    rw [ofInt_zero, add_zero]
  | cons operand rest ih =>
    cases hnext : cur.next operand with
    | none =>
      rw [Indexed.selects, hnext] at h
      cases h
    | some selected =>
      rw [Indexed.selects, hnext] at h
      obtain ⟨k₁, hk₁, htotal₁⟩ := computeOffset_total dl regs index k hnext
      obtain ⟨k', hk', hindices, htotal⟩ := ih (index + 1) k₁ h
      refine ⟨k', ?_, ?_, ?_⟩
      · rw [computeOffsets, hk₁, hnext]
        exact hk'
      · intro p hp
        cases hindices p hp with
        | inl hp =>
          cases computeOffset_indices hk₁ p hp with
          | inl hp => exact .inl hp
          | inr hp =>
            obtain ⟨hp, r, hr⟩ := hp
            exact .inr ⟨0, r, hp, by rw [hr]; rfl⟩
        | inr hp =>
          obtain ⟨i, r, hp, hr⟩ := hp
          exact .inr ⟨i + 1, r, by omega, hr⟩
      · intro a
        obtain ⟨sum, pad, hsum, hpad, hval⟩ := htotal a
        refine ⟨addend dl.getTypeStoreSize dl selected (operand.value a regs) cur + sum,
          paddingAddend dl selected (operand.value a regs) cur + pad, ?_, ?_, ?_⟩
        · rw [List.map_cons, offsetSum, next_value hnext, Option.bind_eq_bind, Option.bind_some, hsum]
          rfl
        · rw [List.map_cons, paddingSum, next_value hnext, Option.bind_eq_bind, Option.bind_some, hpad]
          rfl
        · intro val hvals
          have hrest : k'.total val = k₁.total val + BitVec.ofInt 64 sum := by
            refine hval val ?_
            intro i operand hi
            rw [Nat.add_assoc, Nat.add_comm 1]
            exact hvals (i + 1) operand hi
          rw [hrest, htotal₁ a val (hvals 0 operand rfl), BitVec.ofInt_add, add_assoc]

end

/-! ### The address of the instruction -/

/-- An index of any width: a wider one is cut. -/
theorem createSExtToPointerWidth_computes {e : Expr} {n : ℕ} (he : e.HasWidth n) :
    e.Computes₁ (fun x : BitVec n => x.signExtend 64) e.createSExtToPointerWidth := by
  by_cases hn : n ≤ 64
  · exact SExtExpr.create_computes he hn
  · have hlt : 64 < n := not_le.1 hn
    have hextract := ExtractExpr.create_computes he (show 0 + 64 ≤ n by omega)
    have hcreate : e.createSExtToPointerWidth = ExtractExpr.create e 0 64 := by
      unfold Expr.createSExtToPointerWidth SExtExpr.create
      rw [he.width, if_neg (by omega), if_pos hlt]
    rw [hcreate]
    refine ⟨hextract.hasWidth, ?_⟩
    intro a x hx
    have hden := hextract.denotes hx
    have heq : x.extractLsb' 0 64 = x.signExtend 64 := by
      rw [BitVec.signExtend_eq_setWidth_of_le x hlt.le]
      refine BitVec.eq_of_getLsbD_eq fun i hi => ?_
      simp [hi]
    rwa [heq] at hden

section

variable [ExprOptions] {dl : DataLayout} {base : Expr} {a : Assignment} {regs : ℕ → Expr}

/-- **The loop of the instruction** adds each operand, sign-extended, times the size. -/
theorem addIndices_denotes (value : ℕ → Option Expr) (indices : List (ℕ × ℕ))
    (hvalue : ∀ p ∈ indices, ∃ e, value p.1 = some e ∧ e.WF) (hbase : base.HasWidth 64) :
    ∃ address, addIndices value indices base = some address ∧ address.HasWidth 64 ∧
      ∀ a (val : ℕ → BitVec 64), (∀ p ∈ indices, ∀ e, value p.1 = some e → e.Defined a ∧ val p.1 = (e.eval a e.getWidth).signExtend 64) →
        ∀ x : BitVec 64, base.Denotes a x →
          address.Denotes a (x + (indices.map fun p => val p.1 * BitVec.ofNat 64 p.2).sum) := by
  induction indices generalizing base with
  | nil =>
    refine ⟨base, rfl, hbase, ?_⟩
    intro a val hval x hx
    rw [List.map_nil, List.sum_nil, add_zero]
    exact hx
  | cons p indices ih =>
    obtain ⟨number, elementSize⟩ := p
    obtain ⟨index, hindex, hwf⟩ := hvalue _ List.mem_cons_self
    have hwidth : index.HasWidth index.getWidth := ⟨hwf, rfl⟩
    have hsext := createSExtToPointerWidth_computes hwidth
    have hmul := MulExpr.create_computes hsext.hasWidth (Expr.hasWidth_const (BitVec.ofNat 64 elementSize))
    have hadd := AddExpr.create_computes hbase hmul.hasWidth
    obtain ⟨address, haddress, haw, hden⟩ := ih (fun p hp => hvalue p (List.mem_cons_of_mem _ hp)) hadd.hasWidth
    refine ⟨address, ?_, haw, ?_⟩
    · rw [addIndices, hindex]
      exact haddress
    · intro a val hval x hx
      obtain ⟨hdef, hv⟩ := hval _ List.mem_cons_self index hindex
      have hi := hsext.denotes (Expr.Denotes.self hdef index.getWidth)
      rw [← hv] at hi
      have hprod := hmul.denotes hi (Expr.denotes_const _) fun h => Bool.noConfusion h
      have hsum := hadd.denotes hx hprod fun h => Bool.noConfusion h
      rw [List.map_cons, List.sum_cons, ← add_assoc]
      exact hden a val (fun p hp => hval p (List.mem_cons_of_mem _ hp)) _ hsum

/-- The offset is added when there is one. -/
theorem addOffset_denotes {address : Expr} (offset : BitVec 64) (h : address.HasWidth 64) :
    (if offset ≠ 0 then AddExpr.create address (.const offset) else address).HasWidth 64 ∧
      ∀ a (x : BitVec 64), address.Denotes a x →
        (if offset ≠ 0 then AddExpr.create address (.const offset) else address).Denotes a (x + offset) := by
  have hadd := AddExpr.create_computes h (Expr.hasWidth_const offset)
  by_cases hzero : offset = 0
  · rw [if_neg (not_not.2 hzero)]
    refine ⟨h, ?_⟩
    intro a x hx
    rw [hzero, add_zero]
    exact hx
  · rw [if_pos hzero]
    exact ⟨hadd.hasWidth, fun a x hx => hadd.denotes hx (Expr.denotes_const _) fun h => Bool.noConfusion h⟩

/-- The operands of the instruction have a value. -/
def GepOperand.DefinedIn (a : Assignment) (regs : ℕ → Expr) (operands : List GepOperand) : Prop :=
  ∀ r, GepOperand.register r ∈ operands → (regs r).Defined a

/-- **The instruction** adds the indices times the store sizes. -/
theorem instructionAddress_denotes (dl : DataLayout) {source : LLVMType} {operands : List GepOperand} (hbase : base.HasWidth 64)
    (hregs : ∀ r, GepOperand.register r ∈ operands → (regs r).WF) (hselects : (Indexed.pointer source).selects operands = true) :
    ∃ address, instructionAddress dl source operands regs base = some address ∧ address.HasWidth 64 ∧
      ∀ a, base.Defined a → GepOperand.DefinedIn a regs operands →
        ∃ sum pad, offsetSum dl.getTypeStoreSize dl (.pointer source) (operands.map (GepOperand.value a regs)) = some sum ∧
          paddingSum dl (.pointer source) (operands.map (GepOperand.value a regs)) = some pad ∧
          address.eval a 64 = base.eval a 64 + BitVec.ofInt 64 sum := by
  obtain ⟨k, hk, hindices, htotal⟩ := computeOffsets_total dl regs 1 ⟨[], 0⟩ hselects
  have hregister : ∀ p ∈ k.indices, ∃ r, GepOperand.register r ∈ operands ∧ operands[p.1 - 1]? = some (.register r) := by
    intro p hp
    cases hindices p hp with
    | inl h => cases h
    | inr h =>
      obtain ⟨i, r, hpi, hr⟩ := h
      rw [hpi, Nat.add_sub_cancel_left]
      exact ⟨r, List.mem_of_getElem? hr, hr⟩
  have hvalue : ∀ p ∈ k.indices, ∃ e, operands[p.1 - 1]?.map (GepOperand.eval regs) = some e ∧ e.WF := by
    intro p hp
    obtain ⟨r, hmem, hr⟩ := hregister p hp
    exact ⟨regs r, by rw [hr]; rfl, hregs r hmem⟩
  obtain ⟨address, haddress, hwidth, hden⟩ := addIndices_denotes (fun number => operands[number - 1]?.map (GepOperand.eval regs)) k.indices hvalue hbase
  have hoffset := addOffset_denotes k.offset hwidth
  refine ⟨_, ?_, hoffset.1, ?_⟩
  · rw [instructionAddress, hk, Option.bind_eq_bind, Option.bind_some, executeGetElementPtr, haddress]
    rfl
  · intro a hdef hdefs
    obtain ⟨sum, pad, hsum, hpad, hval⟩ := htotal a
    refine ⟨sum, pad, hsum, hpad, ?_⟩
    -- the values of the operands, by their numbers
    let val : ℕ → BitVec 64 := fun number =>
      (operands[number - 1]?.map fun operand => (operand.value a regs).2.signExtend 64).getD 0
    have hnumber : ∀ i operand, operands[i]? = some operand → val (1 + i) = (operand.value a regs).2.signExtend 64 := by
      intro i operand hi
      show (operands[1 + i - 1]?.map _).getD 0 = _
      rw [Nat.add_sub_cancel_left, hi]
      rfl
    have hsame := hden a val (by
      intro p hp e he
      obtain ⟨r, hmem, hr⟩ := hregister p hp
      rw [hr] at he
      cases he
      refine ⟨hdefs r hmem, ?_⟩
      show (operands[p.1 - 1]?.map _).getD 0 = _
      rw [hr]
      rfl) _ (.self hdef 64)
    rw [(hoffset.2 a _ hsame).value, add_assoc]
    show _ + k.total val = _
    have hempty : (⟨[], 0⟩ : KGEPInstruction).total val = 0 := rfl
    rw [hval val hnumber, hempty, zero_add]

/-! ### Agreement -/

/-- The three addresses are one: that of the instruction, that of the constant expression for the values of the indices, and
the base with the field offsets and the indices times the allocation sizes, modulo `2^64`. -/
def AddressesAgree (dl : DataLayout) (source : LLVMType) (operands : List GepOperand) (regs : ℕ → Expr) (base : Expr) : Prop :=
  ∃ address, instructionAddress dl source operands regs base = some address ∧
    ∀ a, base.Defined a → GepOperand.DefinedIn a regs operands →
      ∃ sum, offsetSum dl.getTypeAllocSize dl (.pointer source) (operands.map (GepOperand.value a regs)) = some sum ∧
        address.eval a 64 = BitVec.ofInt 64 ((base.eval a 64).toNat + sum) ∧
        evalGetElementPtr dl (.pointer source) (operands.map (GepOperand.value a regs)) (base.eval a 64) =
          some (address.eval a 64)

/-- Where the addresses agree the padding does not count. -/
theorem agree_padding {source : LLVMType} {operands : List GepOperand} (hbase : base.HasWidth 64)
    (hregs : ∀ r, GepOperand.register r ∈ operands → (regs r).WF) (hselects : (Indexed.pointer source).selects operands = true)
    (h : AddressesAgree dl source operands regs base) (a : Assignment) (hdef : base.Defined a)
    (hdefs : GepOperand.DefinedIn a regs operands) :
    ∃ pad, paddingSum dl (.pointer source) (operands.map (GepOperand.value a regs)) = some pad ∧ (2 ^ 64 : ℤ) ∣ pad := by
  obtain ⟨address, haddress, -, hden⟩ := instructionAddress_denotes dl hbase hregs hselects
  obtain ⟨address', haddress', hagree⟩ := h
  rw [haddress] at haddress'
  cases haddress'
  obtain ⟨sum, pad, hsum, hpad, hvalue⟩ := hden a hdef hdefs
  obtain ⟨sum', hsum', hspec, -⟩ := hagree a hdef hdefs
  rw [offsetSum_alloc hsum hpad] at hsum'
  cases hsum'
  rw [hvalue, base_add_sum] at hspec
  exact ⟨pad, hpad, add_padding_iff.1 hspec⟩

/-- **The addresses agree** exactly when, under every assignment, the padding that the indices step over adds up to a multiple
of `2^64`: the instruction takes the store size where the constant expression takes the allocation size. -/
theorem addresses_agree_iff {source : LLVMType} {operands : List GepOperand} (hbase : base.HasWidth 64)
    (hregs : ∀ r, GepOperand.register r ∈ operands → (regs r).WF) (hselects : (Indexed.pointer source).selects operands = true) :
    AddressesAgree dl source operands regs base ↔
      ∀ a, base.Defined a → GepOperand.DefinedIn a regs operands →
        ∃ pad, paddingSum dl (.pointer source) (operands.map (GepOperand.value a regs)) = some pad ∧ (2 ^ 64 : ℤ) ∣ pad := by
  constructor
  · exact agree_padding hbase hregs hselects
  · intro h
    obtain ⟨address, haddress, -, hden⟩ := instructionAddress_denotes dl hbase hregs hselects
    refine ⟨address, haddress, ?_⟩
    intro a hdef hdefs
    obtain ⟨sum, pad, hsum, hpad, hvalue⟩ := hden a hdef hdefs
    obtain ⟨pad', hpad', hdvd⟩ := h a hdef hdefs
    rw [hpad] at hpad'
    cases hpad'
    have halloc := offsetSum_alloc hsum hpad
    have hspec : address.eval a 64 = base.eval a 64 + BitVec.ofInt 64 (sum + pad) := hvalue.trans (add_padding_iff.2 hdvd)
    refine ⟨sum + pad, halloc, ?_, ?_⟩
    · rw [base_add_sum, hspec]
    · rw [evalGetElementPtr_eq halloc, hspec]

end

/-- An index, in a register. -/
def indexRegister : Expr := .read (.root ⟨0, "i", 1, [], Array.oneByte_lt, Array.oneByte_values⟩) (.const 0#32)

/-- The indices of a field of an array of structures: `p[i].second`. -/
def fieldOperands : List GepOperand := [.register 0, .constant 1#32]

/-- A structure of a character and a number. -/
def pairType : LLVMType := .struct false [.integer 8, .integer 32]

theorem pairType_agree : let _ : ExprOptions := ⟨false, true⟩
    AddressesAgree .x86_64 pairType fieldOperands (fun _ => indexRegister) (.const 4096#64) := by
  let _ : ExprOptions := ⟨false, true⟩
  refine (addresses_agree_iff (Expr.hasWidth_const _) ?_ rfl).2 ?_
  · intro r hr
    show indexRegister.WF
    decide
  · intro a hdef hdefs
    refine ⟨_, rfl, ?_⟩
    have hpad : DataLayout.x86_64.padding pairType = 0 := by decide
    show (2 ^ 64 : ℤ) ∣ _ * (DataLayout.x86_64.padding pairType : ℤ) + (0 + 0)
    rw [hpad]
    exact ⟨0, by ring⟩

/-- The second of four 24-bit numbers: they are 4 bytes apart, and take 3. -/
theorem oddInteger_differ : let _ : ExprOptions := ⟨false, true⟩
    ¬AddressesAgree .x86_64 (.array 4 (.integer 24)) [.constant 0#64, .constant 1#64] (fun _ => indexRegister)
      (.const 4096#64) := by
  intro _ h
  have hnone : ∀ r, GepOperand.register r ∉ [GepOperand.constant 0#64, GepOperand.constant 1#64] := by
    intro r hr
    simp at hr
  obtain ⟨pad, hpad, hdvd⟩ := agree_padding (Expr.hasWidth_const _) (fun r hr => absurd hr (hnone r)) rfl h (fun _ _ => 0)
    trivial (fun r hr => absurd hr (hnone r))
  cases hpad
  exact absurd hdvd (by decide)

end SymBisect
