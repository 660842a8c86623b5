import SymBisect.Core.SpecialFunctionHandler

/-!
# What `memset` writes

The loop of `handleMemset` stores the whole value at each address of the range.  A store that does not fit into the
object is dropped.  The stores overlap, and only the last one leaves all of its bytes behind.

* `Filled`: the bytes after a number of stores.
* `setBytes_spec`: the loop.
* `memsetLength_spec`: a symbolic length is taken for that of the object.
* `handleMemset_spec`: what `memset` leaves.
* `memset_fills_iff`: when the range, and only the range, is filled with the low byte of the value.
-/

namespace SymBisect

open Lib Expr ConstraintSet

namespace SpecialFunctionHandler

open Machine

variable {s t u : Machine} {p : Ptr} {v : Executor.View} {mo : MemoryObject} {env : MemoryEnv} {E : Machine → Prop}
  {w : ℕ} {value : Expr}

/-! ### Words and contents -/

/-- The byte of a word that is at the `j`-th address of it. -/
def wordByte (littleEndian : Bool) (x : BitVec w) (j : ℕ) : BitVec 8 :=
  x.extractLsb' (8 * PlainArray.bytePosition littleEndian (PlainArray.numBytes w) j) 8

/-- All bytes of the word are the same. -/
def Uniform (x : BitVec w) : Prop := ∀ j < PlainArray.numBytes w, x.extractLsb' (8 * j) 8 = x.extractLsb' 0 8

theorem wordByte_uniform {littleEndian : Bool} {x : BitVec w} (hx : Uniform x) {j : ℕ} (hj : j < PlainArray.numBytes w) :
    wordByte littleEndian x j = x.extractLsb' 0 8 := hx _ (PlainArray.bytePosition_lt littleEndian hj)

theorem uniform_of_numBytes (hw : PlainArray.numBytes w = 1) (x : BitVec w) : Uniform x := by
  intro j hj
  obtain rfl : j = 0 := by omega
  rfl

theorem uniform_of_wordByte (littleEndian : Bool) {x : BitVec w}
    (h : ∀ j < PlainArray.numBytes w, wordByte littleEndian x j = x.extractLsb' 0 8) : Uniform x := by
  intro j hj
  have hbyte := h _ (PlainArray.bytePosition_lt littleEndian hj)
  unfold wordByte at hbyte
  rwa [PlainArray.bytePosition_bytePosition littleEndian hj] at hbyte

/-- An object whose bytes are all `y`. -/
def allBytes (mo : MemoryObject) (y : BitVec 8) : Memory.ObjectState := Memory.ofBytes ⟨mo.size, mo.size_lt⟩ fun _ => y

theorem allBytes_hasByte (a : Assignment) (y : BitVec 8) {j : ℕ} (hj : j < mo.size) :
    Memory.HasByte a (allBytes mo y) j y := Memory.ofBytes_hasByte a ⟨mo.size, mo.size_lt⟩ (fun _ => y) hj

/-- The machine with other bytes in an object. -/
def withBytes (s : Machine) (p : Ptr) (mo : MemoryObject) (os : Memory.ObjectState) : Machine :=
  { s with contents := Function.update s.contents p (Function.update (s.contents p) mo os) }

theorem withBytes_contents (s : Machine) (p : Ptr) (mo : MemoryObject) (os : Memory.ObjectState) :
    (withBytes s p mo os).contents p mo = os := by
  show Function.update s.contents p (Function.update (s.contents p) mo os) p mo = os
  rw [Function.update_self, Function.update_self]

theorem Standing.withBytes (h : Standing s p v) {os : Memory.ObjectState} (hos : Memory.Consistent os)
    (hsize : os.size = mo.size) : Standing (withBytes s p mo os) p v := by
  have hother : ∀ x, x ≠ mo → (SpecialFunctionHandler.withBytes s p mo os).contents p x = s.contents p x := by
    intro x hx
    show Function.update s.contents p (Function.update (s.contents p) mo os) p x = _
    rw [Function.update_self, Function.update_of_ne hx]
  refine ⟨h.alive, h.lt, h.running, h.isBool, h.disjoint, fun x hx => ?_, fun x hx => ?_⟩
  · by_cases hxm : x = mo
    · subst hxm
      rw [withBytes_contents]
      exact hos
    · rw [hother x hxm]
      exact h.consistent x hx
  · by_cases hxm : x = mo
    · subst hxm
      rw [withBytes_contents]
      exact hsize
    · rw [hother x hxm]
      exact h.size x hx

/-! ### The stores -/

/-- The value was stored at `n` offsets, from `o` on. -/
structure Filled (env : MemoryEnv) (p : Ptr) (v : Executor.View) (mo : MemoryObject) (w : ℕ) (value : Expr) (o n : ℕ)
    (s t : Machine) : Prop where
  standing : Standing t p v
  readOnly : (t.contents p mo).readOnly = (s.contents p mo).readOnly
  stored : ∀ a, Sees env v.constraints a → ∀ x : BitVec w, value.Denotes a x → 0 < n →
    ∀ i, i + 1 < n + PlainArray.numBytes w →
      Memory.HasByte a (t.contents p mo) (o + i) (wordByte env.littleEndian x (i + 1 - n))
  kept : ∀ a j y, (j < o ∨ n = 0 ∨ o + n + PlainArray.numBytes w ≤ j + 1) → Memory.HasByte a (s.contents p mo) j y →
    Memory.HasByte a (t.contents p mo) j y

theorem Filled.refl {o : ℕ} (h : Standing s p v) : Filled env p v mo w value o 0 s s :=
  ⟨h, rfl, fun _ _ _ _ hlt => absurd hlt (Nat.lt_irrefl 0), fun _ _ _ _ => id⟩

/-- What leaves the object and the path condition alone. -/
theorem Filled.of_same {v' : Executor.View} {o n : ℕ} (h : Filled env p v mo w value o n s t) (hu : Standing u p v')
    (hcs : v'.constraints = v.constraints) (hsame : u.contents p mo = t.contents p mo) :
    Filled env p v' mo w value o n s u := by
  refine ⟨hu, ?_, ?_, ?_⟩
  · rw [hsame]
    exact h.readOnly
  · rw [hsame, hcs]
    exact h.stored
  · rw [hsame]
    exact h.kept

theorem Filled.after_same {o n : ℕ} (hsame : t.contents p mo = s.contents p mo)
    (h : Filled env p v mo w value o n t u) : Filled env p v mo w value o n s u := by
  refine ⟨h.standing, ?_, h.stored, ?_⟩
  · rw [← hsame]
    exact h.readOnly
  · rw [← hsame]
    exact h.kept

/-! ### When they fit -/

/-- The bytes from an address up to the end of the object. -/
def roomAt (mo : MemoryObject) (d : BitVec pointerWidth) : ℕ := mo.address.toNat + mo.size - d.toNat

/-- The number of stores that fit. -/
def stores (room w count : ℕ) : ℕ := min count (room + 1 - PlainArray.numBytes w)

/-- Under the assignment, the range of `n` bytes at `o` has the low byte of the value, and the other bytes of the object are
as they were. -/
structure RangeFilled (p : Ptr) (mo : MemoryObject) (w : ℕ) (value : Expr) (a : Assignment) (o n : ℕ) (s t : Machine) :
    Prop where
  range : ∀ x : BitVec w, value.Denotes a x → ∀ i < n, Memory.HasByte a (t.contents p mo) (o + i) (x.extractLsb' 0 8)
  others : ∀ j y, (j < o ∨ o + n ≤ j) → Memory.HasByte a (s.contents p mo) j y → Memory.HasByte a (t.contents p mo) j y

/-- So many stores fill `n` bytes: there is none and the range is empty, or they end where the range ends and all bytes of
the value are the same. -/
def Fit (w : ℕ) (value : Expr) (a : Assignment) (count n : ℕ) : Prop :=
  (count = 0 ∧ n = 0) ∨
    (0 < count ∧ count + PlainArray.numBytes w = n + 1 ∧ ∀ x : BitVec w, value.Denotes a x → Uniform x)

/-- Where the stores fit, the range is filled. -/
theorem Filled.rangeFilled {a : Assignment} {o count n : ℕ} (hw : Memory.ObjectState.WidthAllowed w)
    (ha : Sees env v.constraints a) (hfit : Fit w value a count n) (h : Filled env p v mo w value o count s t) :
    RangeFilled p mo w value a o n s t := by
  have hbytes := Memory.numBytes_pos hw
  obtain ⟨rfl, rfl⟩ | ⟨hpos, hend, huni⟩ := hfit
  · exact ⟨fun _ _ i hi => absurd hi (Nat.not_lt_zero i), fun j y _ hy => h.kept a j y (.inr (.inl rfl)) hy⟩
  · refine ⟨fun x hx i hi => ?_, fun j y hj hy => h.kept a j y ?_ hy⟩
    · have hb := h.stored a ha x hx hpos i (by omega)
      rwa [wordByte_uniform (huni x hx) (by omega)] at hb
    · omega

theorem ne_add_one (y : BitVec 8) : y ≠ y + 1 := by bv_omega

/-- Where the range is filled for all contents, the stores fit. -/
theorem fit_of_rangeFilled (env : MemoryEnv) (p : Ptr) {a : Assignment} {o count n : ℕ} {x : BitVec w}
    (hw : Memory.ObjectState.WidthAllowed w) (hx : value.Denotes a x) (hin : o + n ≤ mo.size)
    (hend : 0 < count → o + count + PlainArray.numBytes w ≤ mo.size + 1)
    (h : ∀ y, ∃ s t v, s.contents p mo = allBytes mo y ∧ Sees env v.constraints a ∧ mo ∈ v.addressSpace.objects ∧
      Filled env p v mo w value o count s t ∧ RangeFilled p mo w value a o n s t) : Fit w value a count n := by
  have hpos := Memory.numBytes_pos hw
  by_cases hcount : count = 0
  · refine .inl ⟨hcount, Nat.eq_zero_of_not_pos fun hn => ?_⟩
    -- nothing is stored, and the first byte of the range is as it was
    obtain ⟨s, t, v, hs, -, hmo, hfilled, hrange⟩ := h (x.extractLsb' 0 8 + 1)
    have hold : Memory.HasByte a (s.contents p mo) (o + 0) _ := hs ▸ allBytes_hasByte a _ (by omega)
    have hkept := hfilled.kept a _ _ (.inr (.inl hcount)) hold
    exact ne_add_one _ ((hrange.range x hx 0 hn).unique (hfilled.standing.consistent mo hmo) hkept)
  · have hcount : 0 < count := Nat.pos_of_ne_zero hcount
    have hend := hend hcount
    have hwithin : count + PlainArray.numBytes w ≤ n + 1 := by
      -- the last byte that is written is in the range
      by_contra hlt
      obtain ⟨s, t, v, hs, ha, hmo, hfilled, hrange⟩ :=
        h (wordByte env.littleEndian x (PlainArray.numBytes w - 1) + 1)
      have hold : Memory.HasByte a (s.contents p mo) (o + (count + PlainArray.numBytes w - 2)) _ :=
        hs ▸ allBytes_hasByte a _ (by omega)
      have hstored := hfilled.stored a ha x hx hcount (count + PlainArray.numBytes w - 2) (by omega)
      have hindex : count + PlainArray.numBytes w - 2 + 1 - count = PlainArray.numBytes w - 1 := by omega
      rw [hindex] at hstored
      have hkept := hrange.others _ _ (.inr (by omega)) hold
      exact ne_add_one _ (hstored.unique (hfilled.standing.consistent mo hmo) hkept)
    have hreach : n + 1 ≤ count + PlainArray.numBytes w := by
      -- the last byte of the range is written
      by_contra hlt
      obtain ⟨s, t, v, hs, -, hmo, hfilled, hrange⟩ := h (x.extractLsb' 0 8 + 1)
      have hold : Memory.HasByte a (s.contents p mo) (o + (n - 1)) _ := hs ▸ allBytes_hasByte a _ (by omega)
      have hkept := hfilled.kept a _ _ (.inr (.inr (by omega))) hold
      exact ne_add_one _ ((hrange.range x hx (n - 1) (by omega)).unique (hfilled.standing.consistent mo hmo) hkept)
    refine .inr ⟨hcount, le_antisymm hwithin hreach, fun z hz => uniform_of_wordByte env.littleEndian fun j hj => ?_⟩
    -- the bytes of the last store are at the end of the range
    obtain ⟨s, t, v, -, ha, hmo, hfilled, hrange⟩ := h 0
    have hstored := hfilled.stored a ha z hz hcount (count + j - 1) (by omega)
    have hindex : count + j - 1 + 1 - count = j := by omega
    rw [hindex] at hstored
    exact hstored.unique (hfilled.standing.consistent mo hmo) (hrange.range z hz _ (by omega))

theorem eq_const {e : Expr} (he : e.HasWidth w) (hc : e.isConstant = true) : ∃ c : BitVec w, e = .const c := by
  cases e with
  | const c =>
    obtain rfl := he.const_width
    exact ⟨c, rfl⟩
  | _ => cases hc

/-! ### The loop -/

section

variable [ExprOptions]

/-- One more store. -/
theorem Filled.step {o n : ℕ} (h : Filled env p v mo w value o n s t) (hv : value.HasWidth w)
    (hw : Memory.ObjectState.WidthAllowed w)
    (hc : Changed p mo (Memory.Stores env.littleEndian (o + n) w (storedValue env v.constraints value)) t u) :
    Filled env p v mo w value o (n + 1) s u := by
  have hstores := hc.object
  have hpos := Memory.numBytes_pos hw
  refine ⟨h.standing.of_changed hc fun os os' hr => ⟨hr.consistent, hr.size⟩,
    hstores.readOnly.trans h.readOnly, fun a ha x hx _ i hi => ?_, fun a j y hj hy => ?_⟩
  · by_cases hin : i < n
    · have hold := h.stored a ha x hx (by omega) i (by omega)
      have hzero : i + 1 - n = i + 1 - (n + 1) := by omega
      rw [hzero] at hold
      exact hstores.kept a _ _ (.inl (by omega)) hold
    · obtain ⟨j, rfl⟩ := Nat.exists_eq_add_of_le (Nat.not_lt.1 hin)
      have hj : j < PlainArray.numBytes w := by omega
      have hden := storedValue_denotes h.standing.isBool hv ha hx
      have hplaced := hstores.placed a x hden _ (PlainArray.bytePosition_lt env.littleEndian hj)
      rw [PlainArray.bytePosition_bytePosition env.littleEndian hj] at hplaced
      have hsub : n + j + 1 - (n + 1) = j := by omega
      rw [hsub, ← Nat.add_assoc]
      exact hplaced
  · refine hstores.kept a j y (by omega) (h.kept a j y ?_ hy)
    omega

/-- One turn of the loop, where the value fits. -/
theorem setByte_inside {o n : ℕ} (h : Filled env p v mo w value o n s t) (hmo : mo ∈ v.addressSpace.objects)
    (hro : (s.contents p mo).readOnly = false) (hv : value.HasWidth w) (hw : Memory.ObjectState.WidthAllowed w)
    {dst : BitVec pointerWidth} (hin : Holds mo (dst + BitVec.ofNat pointerWidth n) (PlainArray.numBytes w))
    (hoff : (dst + BitVec.ofNat pointerWidth n).toNat - mo.address.toNat = o + n) :
    Prog.wp (setByte env p dst value n) (fun _ u => Filled env p v mo w value o (n + 1) s u) E t := by
  unfold setByte
  rw [addExpr_const]
  obtain ⟨state, hstate, rfl⟩ := Executor.view_eq_some.1 h.standing.alive
  refine (store_inside hstate h.standing.lt h.standing.isBool h.standing.disjoint hmo hv hw hin
    (h.standing.consistent mo hmo) (h.standing.size mo hmo) (h.readOnly.trans hro)).mono (fun _ u hu => ?_) fun _ => id
  rw [hoff] at hu
  exact h.step hv hw hu

/-- One turn of the loop, where the value does not fit; it may be in another object. -/
theorem setByte_outside {o n i : ℕ} (h : Filled env p v mo w value o n s t) (hmo : mo ∈ v.addressSpace.objects)
    (hv : value.HasWidth w) (hw : Memory.ObjectState.WidthAllowed w) {dst : BitVec pointerWidth}
    (hout : ¬Holds mo (dst + BitVec.ofNat pointerWidth i) (PlainArray.numBytes w)) :
    Prog.wp (setByte env p dst value i) (fun _ u => Filled env p v mo w value o n s u) E t := by
  unfold setByte
  rw [addExpr_const]
  obtain ⟨state, hstate, rfl⟩ := Executor.view_eq_some.1 h.standing.alive
  have hstill : ∀ u, Still t u → Filled env p (Executor.viewOf state) mo w value o n s u := fun u hu =>
    h.of_same (h.standing.of_still hu) rfl (congrFun (hu.contents p h.standing.lt) mo)
  by_cases hex : ∃ x ∈ state.addressSpace.objects, Holds x (dst + BitVec.ofNat pointerWidth i) (PlainArray.numBytes w)
  · obtain ⟨x, hx, hin⟩ := hex
    have hne : mo ≠ x := fun heq => hout (heq ▸ hin)
    cases hro : (t.contents p x).readOnly with
    | true =>
      exact (store_readOnly hstate h.standing.lt h.standing.running h.standing.isBool h.standing.disjoint hx hv hw hin
        hro).mono (fun _ => hstill) fun _ => id
    | false =>
      refine (store_inside hstate h.standing.lt h.standing.isBool h.standing.disjoint hx hv hw hin
        (h.standing.consistent x hx) (h.standing.size x hx) hro).mono (fun _ u hu => ?_) fun _ => id
      exact h.of_same (h.standing.of_changed hu fun _ _ hr => ⟨hr.consistent, hr.size⟩) rfl
        (hu.others p h.standing.lt mo (.inr hne))
  · exact (store_outside hstate h.standing.isBool h.standing.disjoint hv hw fun x hx hin => hex ⟨x, hx, hin⟩).mono
      (fun u hu => fun hi => hstill hu hi.still) fun _ => id

/-- **The loop.**  Stores behind the end of the object may be in other objects. -/
theorem setBytes_spec (h : Standing s p v) (hmo : mo ∈ v.addressSpace.objects)
    (hro : (s.contents p mo).readOnly = false) (hv : value.HasWidth w) (hw : Memory.ObjectState.WidthAllowed w)
    {dst : BitVec pointerWidth} (hdst : mo.Checks dst) {count : ℕ} (hcount : count ≤ mo.size) :
    Prog.wp (Prog.each (setByte env p dst value) (List.range count))
      (fun _ t => Filled env p v mo w value (dst.toNat - mo.address.toNat) (stores (roomAt mo dst) w count) s t) E s := by
  have hpos := Memory.numBytes_pos hw
  have hsize := mo.size_lt
  obtain ⟨hle, hend⟩ := (mo.checks_iff dst).1 hdst
  have hend : dst.toNat ≤ mo.address.toNat + mo.size := by
    obtain h | rfl := hend
    · omega
    · omega
  refine Prog.wp.range (I := fun n t => Filled env p v mo w value (dst.toNat - mo.address.toNat)
    (stores (roomAt mo dst) w n) s t) count (fun i hi t ht => ?_) ?_
  · by_cases hfits : i + PlainArray.numBytes w ≤ roomAt mo dst
    · have hcount : stores (roomAt mo dst) w i = i ∧ stores (roomAt mo dst) w (i + 1) = i + 1 := by
        unfold stores
        omega
      have hholds : Holds mo dst (i + 1) := by
        refine ⟨hle, ?_⟩
        unfold roomAt at hfits
        omega
      have hto : (dst + BitVec.ofNat pointerWidth i).toNat = dst.toNat + i := address_toNat hholds (Nat.lt_succ_self i)
      rw [hcount.1] at ht
      rw [hcount.2]
      refine setByte_inside ht hmo hro hv hw ⟨by omega, ?_⟩ (by omega)
      unfold roomAt at hfits
      omega
    · have hcount : stores (roomAt mo dst) w (i + 1) = stores (roomAt mo dst) w i := by
        unfold stores
        omega
      rw [hcount]
      refine setByte_outside ht hmo hv hw fun hin => ?_
      have hto : (dst + BitVec.ofNat pointerWidth i).toNat = (dst.toNat + i) % 2 ^ 64 := by
        rw [BitVec.toNat_add, BitVec.toNat_ofNat, Nat.add_mod_mod]
      obtain ⟨hlow, hhigh⟩ := hin
      have hlt : dst.toNat < 2 ^ 64 := dst.isLt
      have hmo64 : mo.address.toNat + mo.size ≤ 2 ^ 64 := mo.address_add_size
      rw [hto] at hlow hhigh
      unfold roomAt at hfits
      -- behind the end, or behind the last address and from zero on
      by_cases hwrap : dst.toNat + i < 2 ^ 64
      · rw [Nat.mod_eq_of_lt hwrap] at hlow hhigh
        omega
      · rw [Nat.mod_eq_sub_mod (Nat.not_lt.1 hwrap), Nat.mod_eq_of_lt (by omega)] at hlow hhigh
        omega
  · have hzero : stores (roomAt mo dst) w 0 = 0 := Nat.zero_min _
    rw [hzero]
    exact .refl h

/-! ### The length -/

/-- What the query for a symbolic length needs: a solver that answers, constraints that evaluate, and no seeds. -/
structure Asks (env : MemoryEnv) (s : Machine) (p : Ptr) (v : Executor.View) : Prop where
  right : env.solver.Right fun _ => True
  total : env.solver.Total
  evaluates : ∀ a, Evaluates a v.constraints
  seeds : s.executor.aux.seedMap p = none

/-- A symbolic length that may be that of the object is that of the object. -/
def Narrowed (constraints : ConstraintSet) (mo : MemoryObject) (len : Expr) (a : Assignment) : Prop :=
  len.isConstant = false → (∃ b, Satisfies b constraints ∧ len.Denotes b (BitVec.ofNat pointerWidth mo.size)) →
    len.Denotes a (BitVec.ofNat pointerWidth mo.size)

/-- The state once the length is known: only the path condition may have changed. -/
structure Measured (p : Ptr) (v : Executor.View) (mo : MemoryObject) (len : Expr) (s t : Machine) (v' : Executor.View) :
    Prop where
  standing : Standing t p v'
  objects : v'.addressSpace = v.addressSpace
  contents : t.contents p = s.contents p
  constraints : ∀ a, Satisfies a v'.constraints ↔ Satisfies a v.constraints ∧ Narrowed v.constraints mo len a

/-- A constant length within the object. -/
theorem memsetLength_const (h : Standing s p v) {len : BitVec pointerWidth} (hlen : len.toNat ≤ mo.size) :
    Prog.wp (memsetLength env p mo (.const len)) (fun n t => n = len ∧ ∃ v', Measured p v mo (.const len) s t v') E s := by
  have hpure : memsetLength env p mo (.const len) = pure len := by
    show pure (if mo.size < (len.setWidth 64).toNat then _ else len.setWidth 64) = _
    rw [BitVec.setWidth_eq, if_neg (Nat.not_lt.2 hlen)]
  rw [hpure]
  exact ⟨rfl, v, h, rfl, rfl, fun a => (and_iff_left fun hsym => Bool.noConfusion hsym).symm⟩

/-- `addConstraint` to a state without seeds, with a condition that can hold. -/
theorem addConstraint_measured {M : Assignment → Prop} {e : Expr} {x : Executor}
    (h : Executor.PathAt (fun _ => True) M x p v) (hseeds : x.aux.seedMap p = none) (he : e.HasWidth 1)
    (hdef : ∀ a, M a → e.Defined a) (hsat : ∃ a, M a ∧ e.Holds a) {F : Executor → Prop} :
    Prog.wp (Executor.addConstraint env.toEnv p e) (fun _ t => t.nextPtr = x.nextPtr ∧ t.addedStates = x.addedStates ∧
      Executor.PathAt (fun _ => True) (fun a => M a ∧ e.Holds a) t p v) F x := by
  by_cases hc : e.isConstant = true
  · unfold Executor.addConstraint
    have htrue := (Executor.isTrue_iff_holds h.feasible he hc).2.2 hsat
    rw [if_pos hc, Prog.wp_assert]
    refine ⟨fun _ => ⟨rfl, rfl, h.congr fun a => ?_⟩, fun hn => absurd htrue hn⟩
    exact (and_iff_left_of_imp ((Executor.isTrue_iff_holds h.feasible he hc).1.1 htrue a)).symm
  · obtain ⟨state, hstate, hv, hd⟩ := h.state
    obtain ⟨res, hres, hd'⟩ := hd.add he hdef hsat
    exact Executor.wp_addConstraint (Bool.eq_false_of_not_eq_true hc) hseeds hstate hres
      ⟨rfl, rfl, (Executor.pathAt_constrained hstate hd').of_eq hv⟩

/-- A symbolic length is taken for that of the object. -/
theorem memsetLength_symbolic (h : Standing s p v) (hask : Asks env s p v) (hsat : ∃ a, Satisfies a v.constraints)
    {len : Expr} (hsym : len.isConstant = false) (hlen : len.HasWidth pointerWidth)
    (hdef : ∀ a, Satisfies a v.constraints → len.Defined a) :
    Prog.wp (memsetLength env p mo len)
      (fun n t => n = BitVec.ofNat pointerWidth mo.size ∧ ∃ v', Measured p v mo len s t v') E s := by
  have hdo : memsetLength env p mo len =
      (lift p (Executor.mayBeTrue env.toEnv p (EqExpr.create len (.const (BitVec.ofNat pointerWidth mo.size)))) >>= fun res =>
        Prog.when (res = true) (lift p (Executor.addConstraint env.toEnv p
          (EqExpr.create len (.const (BitVec.ofNat pointerWidth mo.size))))) >>= fun _ =>
          pure (BitVec.ofNat pointerWidth mo.size)) := by
    cases len with
    | const n => cases hsym
    | _ => rfl
  have hpath : Executor.PathAt (fun _ => True) (fun a => Satisfies a v.constraints) s.executor p v :=
    ⟨v.constraints, h.alive, h.isBool, fun _ _ => trivial, hsat, fun _ => id, fun a _ ha => by_contra fun hf =>
      ha (ConstraintManager.satisfies_of_not_failsSome (hask.evaluates a) hf)⟩
  have hw := Executor.eqConst_hasWidth (BitVec.ofNat pointerWidth mo.size) hlen
  have hcond : ∀ a, Satisfies a v.constraints →
      (EqExpr.create len (.const (BitVec.ofNat pointerWidth mo.size))).Defined a := fun a ha =>
    Executor.eqConst_defined _ hlen (hdef a ha)
  have hholds : ∀ a, Satisfies a v.constraints →
      ((EqExpr.create len (.const (BitVec.ofNat pointerWidth mo.size))).Holds a ↔ len.Denotes a _) := fun a ha =>
    Executor.eqConst_holds_iff hlen (hdef a ha)
  rw [hdo]
  refine Prog.wp.bind (lift_question ((Executor.mayBeTrue_spec hask.right hask.total hpath.known hw hcond).mono
    (fun _ _ hb => ⟨hb.2, hb.1⟩) fun _ h => h)) fun res s₁ h₁ => ?_
  obtain ⟨hres, h₁⟩ := h₁
  have hstanding := h.of_still h₁.still
  rw [Prog.wp_bind, Prog.wp_when]
  refine ⟨fun hmay => ?_, fun hmay => ?_⟩
  · have hseeds : s₁.executor.aux.seedMap p = none := by
      obtain ⟨n, heq⟩ := h₁.ticked
      rw [heq]
      exact hask.seeds
    rw [wp_lift]
    refine (addConstraint_measured (hpath.of_view (h₁.ticked.sameViews.views p)) hseeds hw hcond (hres.1 hmay)).mono
      (fun _ t ht => ⟨rfl, ?_⟩) fun _ h => h
    obtain ⟨hnext, hadded, cs, hview, hd⟩ := ht
    refine ⟨{ v with constraints := cs }, ?_, rfl, ?_, fun a => ?_⟩
    · have hlt : p < s₁.executor.nextPtr := hstanding.lt
      have hsame : (s₁.after p t).contents p = s₁.contents p := if_neg (Nat.not_le.2 hlt)
      refine ⟨hview, hnext ▸ hlt, hadded ▸ hstanding.running, hd.isBool, h.disjoint, fun x hx => ?_, fun x hx => ?_⟩
      · rw [hsame]
        exact hstanding.consistent x hx
      · rw [hsame]
        exact hstanding.size x hx
    · exact (if_neg (Nat.not_le.2 hstanding.lt)).trans (h₁.contents p h.lt)
    · have hmodels := hd.satisfies_iff a
      rw [true_and] at hmodels
      rw [hmodels]
      obtain ⟨b, hb, hbholds⟩ := hres.1 hmay
      refine and_congr_right fun ha => ?_
      rw [hholds a ha]
      exact ⟨fun hden _ _ => hden, fun hnarrow => hnarrow hsym ⟨b, hb, (hholds b hb).1 hbholds⟩⟩
  · refine ⟨rfl, v, hstanding, rfl, h₁.contents p h.lt, fun a => (and_iff_left fun _ hex => ?_).symm⟩
    obtain ⟨b, hb, hden⟩ := hex
    exact absurd (hres.2 ⟨b, hb, (hholds b hb).2 hden⟩) hmay

omit [ExprOptions] in
theorem Asks.of_idle (h : Asks env s p v) (hi : Idle s t) : Asks env t p v := by
  obtain ⟨n, heq⟩ := hi.ticked
  refine ⟨h.right, h.total, h.evaluates, ?_⟩
  rw [heq]
  exact h.seeds

/-- The length that the loop is given. -/
def loopLength (mo : MemoryObject) (len : Expr) (n : BitVec pointerWidth) : BitVec pointerWidth :=
  if len.isConstant = true then n else BitVec.ofNat pointerWidth mo.size

omit [ExprOptions] in
theorem loopLength_le {len : Expr} {n : BitVec pointerWidth} (hn : n.toNat ≤ mo.size) :
    (loopLength mo len n).toNat ≤ mo.size := by
  unfold loopLength
  split
  · exact hn
  · exact (BitVec.toNat_ofNat mo.size pointerWidth).trans_le (Nat.mod_le _ _)

/-- A length within the object. -/
theorem memsetLength_spec (h : Standing s p v) {len : Expr} (hlen : len.HasWidth pointerWidth)
    (hask : len.isConstant = false → Asks env s p v) (hsat : ∃ a, Satisfies a v.constraints)
    (hdef : ∀ a, Satisfies a v.constraints → len.Defined a) {a : Assignment} {n : BitVec pointerWidth}
    (hn : len.Denotes a n) (hle : n.toNat ≤ mo.size) :
    Prog.wp (memsetLength env p mo len) (fun m t => m = loopLength mo len n ∧ ∃ v', Measured p v mo len s t v') E s := by
  cases hc : len.isConstant with
  | true =>
    obtain ⟨c, rfl⟩ := eq_const hlen hc
    obtain rfl := hn.const_eq
    rw [loopLength, if_pos hc]
    exact memsetLength_const h hle
  | false =>
    rw [loopLength, if_neg (ne_true_of_eq_false hc)]
    exact memsetLength_symbolic h (hask hc) hsat hc hlen hdef

/-! ### `memset` -/

omit [ExprOptions] in
/-- The value is bound to the target of the instruction. -/
theorem bindLocal_filled {o n : ℕ} (h : Filled env p v mo w value o n s t) (target : ℕ) (e : Option Expr) :
    Prog.wp (bindLocal p target e) (fun _ u => ∃ v', v'.addressSpace = v.addressSpace ∧ v'.constraints = v.constraints ∧
      Filled env p v' mo w value o n s u) E t := by
  have hstanding := h.standing
  obtain ⟨state, hstate, rfl⟩ := Executor.view_eq_some.1 hstanding.alive
  unfold bindLocal
  rw [wp_lift, Executor.wp_write]
  refine ⟨Executor.viewOf (state.bindLocal target e), rfl, rfl, ?_⟩
  have hcontents : (t.after p (t.executor.written p fun state => state.bindLocal target e)).contents p = t.contents p :=
    if_neg (Nat.not_le.2 hstanding.lt)
  have hview : (t.executor.written p fun state => state.bindLocal target e).view p =
      some (Executor.viewOf (state.bindLocal target e)) := by
    show (Function.update t.executor.heap p ((t.executor.heap p).map _) p).map Executor.viewOf = _
    rw [Function.update_self, hstate]
    rfl
  refine h.of_same ⟨hview, hstanding.lt, hstanding.running, hstanding.isBool, hstanding.disjoint, fun x hx => ?_,
    fun x hx => ?_⟩ rfl (congrFun hcontents mo)
  · rw [hcontents]
    exact hstanding.consistent x hx
  · rw [hcontents]
    exact hstanding.size x hx

/-- The number of stores at a range of an object. -/
def storesAt (mo : MemoryObject) (w : ℕ) (dst len : Expr) (d n : BitVec pointerWidth) : ℕ :=
  if dst.isConstant = true then stores (roomAt mo d) w (loopLength mo len n).toNat else 0

/-- What `memset` leaves. -/
def Ran (env : MemoryEnv) (p : Ptr) (v : Executor.View) (mo : MemoryObject) (w : ℕ) (dst value len : Expr)
    (d n : BitVec pointerWidth) (s t : Machine) : Prop :=
  ∃ v', v'.addressSpace = v.addressSpace ∧
    (∀ a, Satisfies a v'.constraints ↔
      Satisfies a v.constraints ∧ (dst.isConstant = true → Narrowed v.constraints mo len a)) ∧
    Filled env p v' mo w value (d.toNat - mo.address.toNat) (storesAt mo w dst len d n) s t

/-- **`handleMemset`**, for a range of an object. -/
theorem handleMemset_spec (h : Standing s p v) (hmo : mo ∈ v.addressSpace.objects)
    (hro : (s.contents p mo).readOnly = false) (hv : value.HasWidth w) (hw : Memory.ObjectState.WidthAllowed w)
    {dst len : Expr} (hdst : dst.HasWidth pointerWidth) (hlen : len.HasWidth pointerWidth)
    (hask : len.isConstant = false → Asks env s p v) (hsat : ∃ a, Satisfies a v.constraints)
    (hdef : ∀ a, Satisfies a v.constraints → len.Defined a) {a : Assignment} {d n : BitVec pointerWidth}
    (hd : dst.Denotes a d) (hn : len.Denotes a n) (hc : mo.Checks d) (hle : n.toNat ≤ mo.size) (target : ℕ) :
    Prog.wp (handleMemset env p target dst value len) (fun _ t => Ran env p v mo w dst value len d n s t) E s := by
  cases hsym : dst.isConstant with
  | false =>
    have hreturn : handleMemset env p target dst value len = pure () := by
      cases dst with
      | const c => cases hsym
      | _ => rfl
    have hzero : storesAt mo w dst len d n = 0 := if_neg (ne_true_of_eq_false hsym)
    rw [hreturn]
    refine ⟨v, rfl, fun a => (and_iff_left fun hc => ?_).symm, ?_⟩
    · rw [hsym] at hc
      cases hc
    · rw [hzero]
      exact .refl h
  | true =>
    obtain ⟨c, rfl⟩ := eq_const hdst hsym
    obtain rfl := hd.const_eq
    unfold handleMemset
    refine Prog.wp.bind (resolveOne_idle h _) fun o s₁ h₁ => ?_
    obtain ⟨rfl, h₁⟩ := h₁
    rw [BitVec.setWidth_eq, (v.addressSpace.resolveOne_eq_some_iff h.disjoint c mo).2 ⟨hmo, hc⟩]
    refine Prog.wp.bind (memsetLength_spec (h.of_still h₁.still) hlen (fun hsym => (hask hsym).of_idle h₁) hsat hdef hn hle)
      fun m s₂ h₂ => ?_
    obtain ⟨rfl, v', h₂⟩ := h₂
    have hsame : s₂.contents p = s.contents p := h₂.contents.trans (h₁.contents p h.lt)
    have hmo' : mo ∈ v'.addressSpace.objects := by
      rw [h₂.objects]
      exact hmo
    have hro₂ : (s₂.contents p mo).readOnly = false := by
      rw [hsame]
      exact hro
    refine (setBytes_spec h₂.standing hmo' hro₂ hv hw hc (loopLength_le hle)).bind fun _ t ht => ?_
    refine (bindLocal_filled (ht.after_same (congrFun hsame mo)) target _).mono (fun _ u hu => ?_) fun _ h => h
    obtain ⟨v'', hobjects, hcs, hfilled⟩ := hu
    have hcount : storesAt mo w (.const c) len c n = stores (roomAt mo c) w (loopLength mo len n).toNat := if_pos hsym
    refine ⟨v'', hobjects.trans h₂.objects, fun b => ?_, ?_⟩
    · rw [hcs, h₂.constraints b]
      exact and_congr_right fun _ => ⟨fun hb _ => hb, fun hb => hb hsym⟩
    · rw [hcount]
      exact hfilled

/-! ### When it is right -/

omit [ExprOptions] in
theorem isConstant_absurd {e : Expr} {P : Prop} (h : e.isConstant = true) (h' : e.isConstant = false) : P :=
  absurd (h'.symm.trans h) Bool.false_ne_true

/-- The address and the length evaluate, and the range is in the object. -/
def Within (mo : MemoryObject) (dst len : Expr) (a : Assignment) : Prop :=
  ∃ d n : BitVec pointerWidth, dst.Denotes a d ∧ len.Denotes a n ∧ mo.Checks d ∧ Holds mo d n.toNat

/-- `memset` of `n` bytes at `d` does what is asked for, under the assignment. -/
inductive StoresFit (mo : MemoryObject) (w : ℕ) (dst value len : Expr) (a : Assignment) (d n : BitVec pointerWidth) : Prop
  /-- Nothing is stored at a symbolic address, and the range is empty. -/
  | symbolicAddress (hdst : dst.isConstant = false) (hn : n.toNat = 0)
  /-- The value has one byte. -/
  | oneByte (hdst : dst.isConstant = true) (hlen : len.isConstant = true) (hw : PlainArray.numBytes w = 1)
  /-- The loop is not entered. -/
  | empty (hdst : dst.isConstant = true) (hlen : len.isConstant = true) (hn : n.toNat = 0)
  /-- The range is empty, and there is no room for the value in the object. -/
  | tooSmall (hdst : dst.isConstant = true) (hlen : len.isConstant = false) (hroom : roomAt mo d < PlainArray.numBytes w)
      (hn : n.toNat = 0)
  /-- The range goes up to the end of the object, and all bytes of the value are the same. -/
  | toTheEnd (hdst : dst.isConstant = true) (hroom : PlainArray.numBytes w ≤ roomAt mo d) (hn : n.toNat = roomAt mo d)
      (hvalue : ∀ x : BitVec w, value.Denotes a x → Uniform x)

omit [ExprOptions] in
/-- The stores fit in one of these cases. -/
theorem storesFit_iff (hw : Memory.ObjectState.WidthAllowed w) {dst len : Expr} {a : Assignment}
    {d n : BitVec pointerWidth} (hin : Holds mo d n.toNat) :
    StoresFit mo w dst value len a d n ↔ Fit w value a (storesAt mo w dst len d n) n.toNat := by
  have hbytes := Memory.numBytes_pos hw
  have hle := hin.1
  have hend := hin.2
  have hsize := mo.size_lt
  cases hdst : dst.isConstant with
  | false =>
    have hzero : storesAt mo w dst len d n = 0 := if_neg (ne_true_of_eq_false hdst)
    rw [hzero]
    constructor
    · rintro (⟨-, hn⟩ | ⟨h, -⟩ | ⟨h, -⟩ | ⟨h, -⟩ | ⟨h, -⟩)
      · exact .inl ⟨rfl, hn⟩
      all_goals exact isConstant_absurd h hdst
    · rintro (⟨-, hn⟩ | ⟨h, -⟩)
      · exact .symbolicAddress hdst hn
      · exact absurd h (Nat.lt_irrefl 0)
  | true =>
    have hcount : storesAt mo w dst len d n = stores (roomAt mo d) w (loopLength mo len n).toNat := if_pos hdst
    rw [hcount]
    cases hlen : len.isConstant with
    | true =>
      have hn : loopLength mo len n = n := if_pos hlen
      rw [hn]
      unfold Fit stores
      constructor
      · rintro (⟨h, -⟩ | ⟨-, -, h⟩ | ⟨-, -, h⟩ | ⟨-, h, -⟩ | ⟨-, hroom, h, hvalue⟩)
        · exact isConstant_absurd hdst h
        · by_cases hn0 : n.toNat = 0
          · exact .inl ⟨by omega, hn0⟩
          · refine .inr ⟨?_, ?_, fun x _ => uniform_of_numBytes h x⟩
            · unfold roomAt
              omega
            · unfold roomAt
              omega
        · exact .inl ⟨by omega, h⟩
        · exact isConstant_absurd hlen h
        · exact .inr ⟨by omega, by omega, hvalue⟩
      · rintro (⟨-, hn0⟩ | ⟨hpos, hlast, hvalue⟩)
        · exact .empty hdst hlen hn0
        · by_cases hone : PlainArray.numBytes w = 1
          · exact .oneByte hdst hlen hone
          · exact .toTheEnd hdst (by omega) (by omega) hvalue
    | false =>
      have hn : (loopLength mo len n).toNat = mo.size := by
        unfold loopLength
        rw [if_neg (ne_true_of_eq_false hlen), BitVec.toNat_ofNat, Nat.mod_eq_of_lt (hsize.trans (by decide))]
      have hroom : roomAt mo d ≤ mo.size := by
        unfold roomAt
        omega
      rw [hn]
      unfold Fit stores
      constructor
      · rintro (⟨h, -⟩ | ⟨-, h, -⟩ | ⟨-, h, -⟩ | ⟨-, -, h, hn0⟩ | ⟨-, h, hn0, hvalue⟩)
        · exact isConstant_absurd hdst h
        · exact isConstant_absurd h hlen
        · exact isConstant_absurd h hlen
        · exact .inl ⟨by omega, hn0⟩
        · exact .inr ⟨by omega, by omega, hvalue⟩
      · rintro (⟨hzero, hn0⟩ | ⟨hpos, hlast, hvalue⟩)
        · exact .tooSmall hdst hlen (by omega) hn0
        · exact .toTheEnd hdst (by omega) (by omega) hvalue

/-- No assignment of the path is lost, and under each the range, and only the range, is filled. -/
structure Fills (P : Assignment → Prop) (p : Ptr) (constraints : ConstraintSet) (mo : MemoryObject) (w : ℕ)
    (dst value len : Expr) (s t : Machine) : Prop where
  lossless : ∀ a, Satisfies a constraints → ∃ v', t.executor.view p = some v' ∧ Satisfies a v'.constraints
  filled : ∀ a, P a → ∀ d n : BitVec pointerWidth, dst.Denotes a d → len.Denotes a n →
    RangeFilled p mo w value a (d.toNat - mo.address.toNat) n.toNat s t

/-- `memset` fills its range, whatever the bytes of the object are. -/
def MemsetFills (P : Assignment → Prop) (env : MemoryEnv) (s : Machine) (p : Ptr) (constraints : ConstraintSet)
    (mo : MemoryObject) (w target : ℕ) (dst value len : Expr) : Prop :=
  ∀ os, Memory.Consistent os → os.size = mo.size → os.readOnly = false →
    ∃ t, handleMemset env p target dst value len (withBytes s p mo os) = (some (), t) ∧
      Fills P p constraints mo w dst value len (withBytes s p mo os) t

omit [ExprOptions] in
theorem Within.of_denotes {dst len : Expr} {a : Assignment} (h : Within mo dst len a) {d n : BitVec pointerWidth}
    (hd : dst.Denotes a d) (hn : len.Denotes a n) : mo.Checks d ∧ Holds mo d n.toNat := by
  obtain ⟨d', n', hd', hn', hc, hh⟩ := h
  obtain rfl : d' = d := hd'.value.symm.trans hd.value
  obtain rfl : n' = n := hn'.value.symm.trans hn.value
  exact ⟨hc, hh⟩

omit [ExprOptions] in
/-- At a constant address with a symbolic length, the number of stores depends on the room only. -/
theorem StoresFit.of_symbolicLength {dst len : Expr} {a : Assignment} {d n : BitVec pointerWidth}
    (h : StoresFit mo w dst value len a d n) (hdst : dst.isConstant = true) (hlen : len.isConstant = false) :
    (roomAt mo d < PlainArray.numBytes w ∧ n.toNat = 0) ∨
      (PlainArray.numBytes w ≤ roomAt mo d ∧ n.toNat = roomAt mo d) := by
  obtain ⟨h, -⟩ | ⟨-, h, -⟩ | ⟨-, h, -⟩ | ⟨-, -, hsmall, hn⟩ | ⟨-, hlarge, hn, -⟩ := h
  · exact isConstant_absurd hdst h
  · exact isConstant_absurd h hlen
  · exact isConstant_absurd h hlen
  · exact .inl ⟨hsmall, hn⟩
  · exact .inr ⟨hlarge, hn⟩

omit [ExprOptions] in
/-- Where `memset` does what is asked for on the path, a symbolic length that may be that of the object is that of the
object. -/
theorem narrowed_of_storesFit {constraints : ConstraintSet} {dst len : Expr} (hdst : dst.HasWidth pointerWidth)
    (hin : ∀ a, Satisfies a constraints → Within mo dst len a)
    (hfit : ∀ a, Satisfies a constraints → ∀ d n : BitVec pointerWidth, dst.Denotes a d → len.Denotes a n →
      StoresFit mo w dst value len a d n)
    {a : Assignment} (ha : Satisfies a constraints) (hconst : dst.isConstant = true) : Narrowed constraints mo len a := by
  intro hsym hex
  obtain ⟨b, hb, hsize⟩ := hex
  obtain ⟨c, rfl⟩ := eq_const hdst hconst
  obtain ⟨d, n, hd, hn, -, hholds⟩ := hin a ha
  obtain ⟨d', n', hd', hn', -, hholds'⟩ := hin b hb
  obtain rfl := hd.const_eq
  obtain rfl := hd'.const_eq
  have hlt : mo.size < 2 ^ pointerWidth := mo.size_lt.trans (by decide)
  have hn'size : n'.toNat = mo.size := by
    rw [← hn'.value, hsize.value, BitVec.toNat_ofNat, Nat.mod_eq_of_lt hlt]
  have hroom : roomAt mo c = mo.size := by
    have hle := hholds'.1
    have hend := hholds'.2
    unfold roomAt
    omega
  have hnsize : n.toNat = mo.size := by
    obtain ⟨hsmall, hzero⟩ | ⟨-, hend⟩ := (hfit a ha c n hd hn).of_symbolicLength hconst hsym
    · -- the other length is not zero unless the object is empty
      obtain ⟨-, hzero'⟩ | ⟨hlarge, -⟩ := (hfit b hb c n' hd' hn').of_symbolicLength hconst hsym
      · omega
      · omega
    · exact hend.trans hroom
  have heq : BitVec.ofNat pointerWidth mo.size = n := by
    refine BitVec.eq_of_toNat_eq ?_
    rw [BitVec.toNat_ofNat, Nat.mod_eq_of_lt hlt, hnsize]
  rw [heq]
  exact hn

/-- **When `memset` fills its range**, for the assignments `P` of the path and for every contents of the object.  For the
other direction the value must have a value at all. -/
theorem memset_fills_iff (env : MemoryEnv) (s : Machine) (p : Ptr) (v : Executor.View) (h : Standing s p v)
    (mo : MemoryObject) (hmo : mo ∈ v.addressSpace.objects) (target : ℕ) (dst value len : Expr) (w : ℕ)
    (hw : Memory.ObjectState.WidthAllowed w) (hv : value.HasWidth w) (hdst : dst.HasWidth pointerWidth)
    (hlen : len.HasWidth pointerWidth) (P : Assignment → Prop) (hpath : ∀ a, Satisfies a v.constraints → P a)
    (hsees : ∀ a, P a → Sees env v.constraints a) (hsat : ∃ a, Satisfies a v.constraints)
    (hin : ∀ a, P a → Within mo dst len a) (hask : len.isConstant = false → Asks env s p v) :
    ((∀ a, P a → ∀ d n : BitVec pointerWidth, dst.Denotes a d → len.Denotes a n →
        StoresFit mo w dst value len a d n) →
      MemsetFills P env s p v.constraints mo w target dst value len) ∧
    (MemsetFills P env s p v.constraints mo w target dst value len →
      ∀ a, P a → (∃ x : BitVec w, value.Denotes a x) → ∀ d n : BitVec pointerWidth, dst.Denotes a d → len.Denotes a n →
        StoresFit mo w dst value len a d n) := by
  have hholds : ∀ a, P a → ∀ d n : BitVec pointerWidth, dst.Denotes a d → len.Denotes a n →
      mo.Checks d ∧ Holds mo d n.toNat := fun a ha _ _ hd hn => (hin a ha).of_denotes hd hn
  have hrun : ∀ os, Memory.Consistent os → os.size = mo.size → os.readOnly = false → ∀ a, P a →
      ∀ d n : BitVec pointerWidth, dst.Denotes a d → len.Denotes a n →
        ∃ t, handleMemset env p target dst value len (withBytes s p mo os) = (some (), t) ∧
          Ran env p v mo w dst value len d n (withBytes s p mo os) t := by
    intro os hos hsize hro a ha d n hd hn
    obtain ⟨hc, hle, hend⟩ := hholds a ha d n hd hn
    have hdef : ∀ b, Satisfies b v.constraints → len.Defined b := fun b hb => by
      obtain ⟨_, _, _, hnb, _⟩ := hin b (hpath b hb)
      exact hnb.defined
    have hwp : Prog.wp (handleMemset env p target dst value len)
        (fun _ t => Ran env p v mo w dst value len d n (withBytes s p mo os) t) (fun _ => False) (withBytes s p mo os) := by
      refine handleMemset_spec (h.withBytes hos hsize) hmo ?_ hv hw hdst hlen
        (fun hsym => ⟨(hask hsym).right, (hask hsym).total, (hask hsym).evaluates, (hask hsym).seeds⟩) hsat hdef hd hn hc
        (by omega) target
      rw [withBytes_contents]
      exact hro
    obtain ⟨_, t, ht, hran⟩ := hwp.exists_result
    exact ⟨t, ht, hran⟩
  constructor
  · intro hfit os hos hsize hro
    obtain ⟨a₀, ha₀⟩ := hsat
    obtain ⟨d₀, n₀, hd₀, hn₀, -⟩ := hin a₀ (hpath a₀ ha₀)
    obtain ⟨t, ht, -⟩ := hrun os hos hsize hro a₀ (hpath a₀ ha₀) d₀ n₀ hd₀ hn₀
    refine ⟨t, ht, fun a ha => ?_, fun a ha d n hd hn => ?_⟩
    · obtain ⟨d, n, hd, hn, -⟩ := hin a (hpath a ha)
      obtain ⟨t', ht', v', -, hcs, hfilled⟩ := hrun os hos hsize hro a (hpath a ha) d n hd hn
      obtain rfl : t = t' := congrArg Prod.snd (ht.symm.trans ht')
      refine ⟨v', hfilled.standing.alive, (hcs a).2 ⟨ha, fun hconst => ?_⟩⟩
      exact narrowed_of_storesFit hdst (fun b hb => hin b (hpath b hb)) (fun b hb => hfit b (hpath b hb)) ha hconst
    · obtain ⟨t', ht', v', -, hcs, hfilled⟩ := hrun os hos hsize hro a ha d n hd hn
      obtain rfl : t = t' := congrArg Prod.snd (ht.symm.trans ht')
      have hsees' : Sees env v'.constraints a := fun hsimplify => by
        have hpa := hsees a ha hsimplify
        exact (hcs a).2 ⟨hpa, narrowed_of_storesFit hdst (fun b hb => hin b (hpath b hb))
          (fun b hb => hfit b (hpath b hb)) hpa⟩
      exact hfilled.rangeFilled hw hsees' ((storesFit_iff hw (hholds a ha d n hd hn).2).1 (hfit a ha d n hd hn))
  · intro hfills a ha hvalue d n hd hn
    obtain ⟨x, hx⟩ := hvalue
    obtain ⟨hc, hh⟩ := hholds a ha d n hd hn
    have hle := hh.1
    have hend := hh.2
    have hwithin : d.toNat - mo.address.toNat + n.toNat ≤ mo.size := by omega
    refine (storesFit_iff hw hh).2 (fit_of_rangeFilled env p hw hx hwithin ?_ fun y => ?_)
    · intro hpos
      unfold storesAt at hpos ⊢
      split at hpos
      · rename_i hconst
        rw [if_pos hconst]
        unfold stores roomAt at hpos ⊢
        omega
      · exact absurd hpos (Nat.lt_irrefl 0)
    · have hos : Memory.Consistent (allBytes mo y) := Memory.ofBytes_consistent _ _
      obtain ⟨t, ht, v', hobjects, hcs, hfilled⟩ := hrun (allBytes mo y) hos rfl rfl a ha d n hd hn
      obtain ⟨t', ht', hall⟩ := hfills (allBytes mo y) hos rfl rfl
      obtain rfl : t = t' := congrArg Prod.snd (ht.symm.trans ht')
      refine ⟨withBytes s p mo (allBytes mo y), t, v', withBytes_contents s p mo _, fun hsimplify => ?_, ?_, hfilled,
        hall.filled a ha d n hd hn⟩
      · obtain ⟨v'', hview, hsat'⟩ := hall.lossless a (hsees a ha hsimplify)
        obtain rfl := Option.some.inj (hfilled.standing.alive.symm.trans hview)
        exact hsat'
      · rw [hobjects]
        exact hmo

end

section
local instance memsetOptions : ExprOptions := .defaults

/-- A word of equal bytes is set up to the end of the object, on a path that says something else. -/
theorem memset_fills_word :
    MemsetFills (fun a => Satisfies a firstIsFive) (copyEnv true) (copyMachine firstIsFive) 0 firstIsFive
      Executor.lowObject 32 0 (.const 0x84#64) (.const 0x5A5A5A5A#32) (.const 12#64) := by
  refine (memset_fills_iff (copyEnv true) (copyMachine firstIsFive) 0 (Executor.viewOf (copyState firstIsFive))
    (copyMachine_standing firstIsFive_isBool) Executor.lowObject List.mem_cons_self 0 (.const 0x84#64)
    (.const 0x5A5A5A5A#32) (.const 12#64) 32 (.inr ⟨rfl, by decide⟩) (hasWidth_const _) (hasWidth_const _)
    (hasWidth_const _) (fun a => Satisfies a firstIsFive) (fun _ => id) (fun _ h _ => h) ?_ ?_ nofun).1 ?_
  · refine ⟨fun _ _ => 5, fun c hc => ?_⟩
    obtain rfl := List.mem_singleton.1 hc
    refine ⟨?_, rfl⟩
    simp [firstByte, Expr.Defined, UpdateList.DefinedAt, sourceArray, Array.isConstantArray, Array.isSymbolicArray]
  · exact fun a _ => ⟨0x84#64, 12#64, denotes_const _, denotes_const _, by decide, by decide⟩
  · intro a _ d n hd hn
    obtain rfl := hd.const_eq
    obtain rfl := hn.const_eq
    refine .toTheEnd rfl (by decide) (by decide) fun x hx => ?_
    obtain rfl := hx.const_eq
    unfold Uniform
    decide

/-- Four bytes are set to zero with an `int`: three more are. -/
theorem memset_spills : ∃ t, handleMemset (copyEnv false) 0 0 (.const 0x80#64) (.const 0#32) (.const 4#64)
      (withBytes (copyMachine []) 0 Executor.lowObject (allBytes Executor.lowObject 0xFF)) = (some (), t) ∧
    ¬Fills (fun _ => True) 0 [] Executor.lowObject 32 (.const 0x80#64) (.const 0#32) (.const 4#64)
      (withBytes (copyMachine []) 0 Executor.lowObject (allBytes Executor.lowObject 0xFF)) t := by
  have hos : Memory.Consistent (allBytes Executor.lowObject 0xFF) := Memory.ofBytes_consistent _ _
  have hstanding : Standing (withBytes (copyMachine []) 0 Executor.lowObject _) 0 _ :=
    (copyMachine_standing (List.forall_mem_nil _)).withBytes hos rfl
  have hwp : Prog.wp (handleMemset (copyEnv false) 0 0 (.const 0x80#64) (.const 0#32) (.const 4#64)) _ (fun _ => False) _ :=
    handleMemset_spec hstanding List.mem_cons_self (by rw [withBytes_contents]; rfl) (hasWidth_const 0#32)
      (.inr ⟨rfl, by decide⟩) (hasWidth_const 0x80#64) (hasWidth_const 4#64) nofun ⟨fun _ _ => 0, nofun⟩
      (fun _ _ => trivial) (denotes_const (a := fun _ _ => 0) _) (denotes_const _) (by decide) (by decide) 0
  obtain ⟨_, t, ht, v', hobjects, -, hfilled⟩ := hwp.exists_result
  refine ⟨t, ht, fun hfills => ?_⟩
  have hzero := hfilled.stored (fun _ _ => 0) (fun h => absurd h Bool.false_ne_true) 0#32 (denotes_const _) (by decide) 4
    (by decide)
  have hrange := hfills.filled (fun _ _ => 0) trivial 0x80#64 4#64 (denotes_const _) (denotes_const _)
  have hkept := hrange.others 4 0xFF (.inr (Nat.le_refl 4)) (by
    rw [withBytes_contents]
    exact allBytes_hasByte _ _ (by decide))
  refine absurd (hzero.unique (hfilled.standing.consistent _ ?_) hkept) (by decide)
  rw [hobjects]
  exact List.mem_cons_self

end

end SpecialFunctionHandler

end SymBisect
