import SymBisect.Core.MemoryOperation

/-!
# The models of `memcpy` and of `memset`

`handleMemcpy` and `handleMemset` of `lib/Core/SpecialFunctionHandler.cpp`.  Both work address by address, through
`executeMemoryOperation`; `handleMemcpy` reads a byte of the source from its object for each.

* `Standing`: what is true of a state whose objects are in order.
* `copyBytes_spec`: the loop of `memcpy`.
* `memcpy_copies`: what `memcpy` does, for every length.
-/

namespace SymBisect

open Lib Expr ConstraintSet

namespace SpecialFunctionHandler

open Machine

/-! ### The handlers -/

section

variable [ExprOptions] (env : MemoryEnv) (p : Ptr)

/-- `state.addressSpace.resolveOne(CE, op)`. -/
def resolveOne (c : BitVec pointerWidth) : Prog Machine (Option MemoryObject) := do
  let state ← lift p (Executor.read p)
  pure (state.addressSpace.resolveOne c.toNat)

/-- `object->address + object->size - addr`. -/
def room (mo : MemoryObject) (addr : BitVec pointerWidth) : BitVec pointerWidth :=
  mo.address + BitVec.ofNat pointerWidth mo.size - addr

/-- `std::min` on `uint64_t`. -/
def stdMin (x y : BitVec pointerWidth) : BitVec pointerWidth := if y.toNat < x.toNat then y else x

/-- One turn of the loop of `handleMemcpy`. -/
def copyByte (targetaddr : BitVec pointerWidth) (object2 : MemoryObject) (baseoffset : BitVec pointerWidth) (i : ℕ) :
    Prog Machine Unit := do
  let value ← onObject p object2 fun id =>
    Memory.ObjectState.read env.littleEndian id (.const (baseoffset + BitVec.ofNat pointerWidth i)) 8
  executeMemoryOperation env p (.store value)
    (AddExpr.create (.const targetaddr) (.const (BitVec.ofNat pointerWidth i)))

/-- The loop of `handleMemcpy`. -/
def copyBytes (targetaddr : BitVec pointerWidth) (object2 : MemoryObject) (srcaddr length : BitVec pointerWidth) :
    Prog Machine Unit :=
  Prog.each (copyByte env p targetaddr object2 (srcaddr - object2.address)) (List.range length.toNat)

/-- The length of `handleMemcpy`, within both objects; a symbolic length is taken for 1024. -/
def memcpyLength (object object2 : MemoryObject) (targetaddr srcaddr : BitVec pointerWidth) (len : Expr) :
    BitVec pointerWidth :=
  stdMin (stdMin (match len with
    | .const ce => ce.setWidth 64
    | _ => 1024) (room object targetaddr)) (room object2 srcaddr)

/-- `handleMemcpy` once the target object is found. -/
def memcpyTo (object : MemoryObject) (targetaddr : BitVec pointerWidth) (srcaddr len : Expr) : Prog Machine Unit :=
  match srcaddr with
  | .const ce2 => do
    match ← resolveOne p (ce2.setWidth 64) with
    | none => pure ()
    | some object2 =>
      copyBytes env p targetaddr object2 (ce2.setWidth 64)
        (memcpyLength object object2 targetaddr (ce2.setWidth 64) len)
  | _ => pure ()

/-- `handleMemcpy`. -/
def handleMemcpy (targetaddr srcaddr len : Expr) : Prog Machine Unit :=
  match targetaddr with
  | .const ce1 => do
    match ← resolveOne p (ce1.setWidth 64) with
    | none => pure ()
    | some object => memcpyTo env p object (ce1.setWidth 64) srcaddr len
  | _ => pure ()

/-- The array of `manual_make_symbolic`. -/
def symbolicArray (id : ℕ) (name : String) (size : Memory.ObjectState.Size) : Array :=
  { Memory.ObjectState.tmpArray size id with name := name }

/-- One turn of the loop of `handleMemset`. -/
def setByte (targetaddr : BitVec pointerWidth) (value : Expr) (i : ℕ) : Prog Machine Unit :=
  executeMemoryOperation env p (.store value) (AddExpr.create (.const targetaddr) (.const (BitVec.ofNat pointerWidth i)))

/-- The length of `handleMemset`: a symbolic one is made that of the object, if it can be.  A query that times out
leaves `res` uninitialised, and aborts here. -/
def memsetLength (object : MemoryObject) (len : Expr) : Prog Machine (BitVec pointerWidth) :=
  match len with
  | .const ce =>
    pure (if object.size < (ce.setWidth 64).toNat then BitVec.ofNat pointerWidth object.size else ce.setWidth 64)
  | len => do
    let condition := EqExpr.create len (.const (BitVec.ofNat pointerWidth object.size))
    let res ← lift p (Executor.mayBeTrue env.toEnv p condition)
    Prog.when (res = true) (lift p (Executor.addConstraint env.toEnv p condition))
    pure (BitVec.ofNat pointerWidth object.size)

/-- `handleMemset`. -/
def handleMemset (target : ℕ) (targetaddr value len : Expr) : Prog Machine Unit :=
  match targetaddr with
  | .const ce1 => do
    match ← resolveOne p (ce1.setWidth 64) with
    | none => bindLocal p target (some targetaddr)
    | some object => do
      let length ← memsetLength env p object len
      Prog.each (setByte env p (ce1.setWidth 64) value) (List.range length.toNat)
      bindLocal p target (some targetaddr)
  | _ => pure ()

end

/-! ### States whose objects are in order -/

/-- The state at `p` is running and looks like `v`; its objects do not overlap and their contents are in order. -/
structure Standing (s : Machine) (p : Ptr) (v : Executor.View) : Prop where
  alive : s.executor.view p = some v
  lt : p < s.executor.nextPtr
  running : p ∉ s.executor.addedStates
  isBool : v.constraints.IsBool
  disjoint : v.addressSpace.Disjoint
  consistent : ∀ mo ∈ v.addressSpace.objects, Memory.Consistent (s.contents p mo)
  size : ∀ mo ∈ v.addressSpace.objects, (s.contents p mo).size = mo.size

variable {s t u : Machine} {p : Ptr} {v : Executor.View} {mo mo' : MemoryObject}

theorem Standing.of_still (h : Standing s p v) (hi : Still s t) : Standing t p v where
  alive := (hi.views.views p).trans h.alive
  lt := hi.views.nextPtr.symm ▸ h.lt
  running := hi.addedStates.symm ▸ h.running
  isBool := h.isBool
  disjoint := h.disjoint
  consistent mo hmo := by
    rw [hi.contents p h.lt]
    exact h.consistent mo hmo
  size mo hmo := by
    rw [hi.contents p h.lt]
    exact h.size mo hmo

/-- A change of one object that keeps it in order. -/
theorem Standing.of_changed {R : Memory.ObjectState → Memory.ObjectState → Prop} (h : Standing s p v)
    (hc : Changed p mo R s t)
    (hR : ∀ os os', R os os' → Memory.Consistent os' ∧ os'.size = os.size) : Standing t p v where
  alive := (hc.ticked.sameViews.views p).trans h.alive
  lt := (Ticked.nextPtr hc.ticked).symm ▸ h.lt
  running := (Ticked.addedStates hc.ticked).symm ▸ h.running
  isBool := h.isBool
  disjoint := h.disjoint
  consistent x hx := by
    by_cases hxm : x = mo
    · subst hxm
      exact (hR _ _ hc.object).1
    · rw [hc.others p h.lt x (.inr hxm)]
      exact h.consistent x hx
  size x hx := by
    by_cases hxm : x = mo
    · subst hxm
      exact (hR _ _ hc.object).2.trans (h.size x hx)
    · rw [hc.others p h.lt x (.inr hxm)]
      exact h.size x hx

/-- An address is in one object. -/
theorem Standing.holds_unique (h : Standing s p v) (hmo : mo ∈ v.addressSpace.objects)
    (hmo' : mo' ∈ v.addressSpace.objects) {c : BitVec pointerWidth} (hc : Holds mo c 1) (hc' : Holds mo' c 1) :
    mo = mo' := by
  by_contra hne
  exact h.disjoint mo hmo mo' hmo' hne c (hc.checks Nat.one_pos) (hc'.checks Nat.one_pos)

variable {env : MemoryEnv} {dst src : MemoryObject} {c : BitVec pointerWidth} {E : Machine → Prop}

/-! ### One byte -/

/-- The byte at `o` of the source was stored at the address `ta`. -/
structure ByteCopied (env : MemoryEnv) (p : Ptr) (v : Executor.View) (src : MemoryObject) (o : ℕ)
    (ta : BitVec pointerWidth) (s t : Machine) : Prop where
  views : Executor.SameViews s.executor t.executor
  standing : Standing t p v
  readOnly : ∀ mo ∈ v.addressSpace.objects, (t.contents p mo).readOnly = (s.contents p mo).readOnly
  placed : ∀ mo ∈ v.addressSpace.objects, Holds mo ta 1 → (s.contents p mo).readOnly = false →
    ∀ a, Sees env v.constraints a → ∀ x, Memory.HasByte a (s.contents p src) o x →
      Memory.HasByte a (t.contents p mo) (ta.toNat - mo.address.toNat) x
  kept : ∀ mo ∈ v.addressSpace.objects, ∀ a j x,
    mo.address.toNat + j ≠ ta.toNat ∨ (s.contents p mo).readOnly = true →
      Memory.HasByte a (s.contents p mo) j x → Memory.HasByte a (t.contents p mo) j x
  others : ∀ q < s.executor.nextPtr, ∀ mo,
    (q ≠ p ∨ mo ≠ src ∧ (mo ∈ v.addressSpace.objects → ¬Holds mo ta 1)) → t.contents q mo = s.contents q mo

/-! ### Many bytes -/

theorem room_toNat (hc : mo.Checks c) : (room mo c).toNat = mo.address.toNat + mo.size - c.toNat := by
  obtain ⟨hle, hin⟩ := (mo.checks_iff c).1 hc
  have hsize := mo.size_lt
  have hend : mo.address.toNat + mo.size ≤ 2 ^ 64 := mo.address_add_size
  have hc' : c.toNat < 2 ^ 64 := c.isLt
  have hle' : c.toNat ≤ mo.address.toNat + mo.size := by
    obtain h | rfl := hin
    · omega
    · omega
  unfold room
  rw [BitVec.toNat_sub, BitVec.toNat_add, BitVec.toNat_ofNat]
  show (2 ^ 64 - c.toNat + (mo.address.toNat + mo.size % 2 ^ 64) % 2 ^ 64) % 2 ^ 64 = _
  omega

theorem stdMin_toNat (x y : BitVec pointerWidth) : (stdMin x y).toNat = min x.toNat y.toNat := by
  unfold stdMin
  split
  · omega
  · omega

/-- The number of bytes that fit. -/
def fitting (dst src : MemoryObject) (target source : BitVec pointerWidth) (len : ℕ) : ℕ :=
  min (min len (dst.address.toNat + dst.size - target.toNat)) (src.address.toNat + src.size - source.toNat)

theorem memcpyLength_toNat {target source : BitVec pointerWidth} (ht : dst.Checks target) (hs : src.Checks source)
    (len : BitVec pointerWidth) :
    (memcpyLength dst src target source (.const len)).toNat = fitting dst src target source len.toNat := by
  unfold memcpyLength fitting
  rw [stdMin_toNat, stdMin_toNat, room_toNat ht, room_toNat hs]
  show min (min (len.setWidth 64).toNat _) _ = _
  rw [BitVec.setWidth_eq]

theorem holds_of_le {n : ℕ} (hc : mo.Checks c) (hn : n ≤ mo.address.toNat + mo.size - c.toNat) : Holds mo c n := by
  obtain ⟨hle, hin⟩ := (mo.checks_iff c).1 hc
  refine ⟨hle, ?_⟩
  obtain h | rfl := hin
  · omega
  · omega

theorem resolveOne_idle (h : Standing s p v) (c : BitVec pointerWidth) :
    Prog.wp (resolveOne p c) (fun o t => o = v.addressSpace.resolveOne c.toNat ∧ Idle s t) E s := by
  unfold resolveOne
  obtain ⟨state, hstate, rfl⟩ := Executor.view_eq_some.1 h.alive
  have hread : Prog.wp (Executor.read p) (fun st t => st = state ∧ Executor.Ticked s.executor t) (fun _ => False)
      s.executor := by
    rw [Executor.wp_read]
    exact ⟨fun st hst => ⟨Option.some.inj (hst.symm.trans hstate), .refl _⟩,
      fun hnone => absurd (hstate.symm.trans hnone) (Option.some_ne_none _)⟩
  refine Prog.wp.bind (lift_question hread) fun st t ht => ?_
  obtain ⟨rfl, ht⟩ := ht
  exact ⟨rfl, ht⟩

/-- `n` bytes of the source, from its offset `o` on, were copied to the offset `d` of the destination. -/
structure Copied (env : MemoryEnv) (p : Ptr) (v : Executor.View) (dst src : MemoryObject) (d o n : ℕ)
    (s t : Machine) : Prop where
  views : Executor.SameViews s.executor t.executor
  standing : Standing t p v
  readOnly : (t.contents p dst).readOnly = (s.contents p dst).readOnly
  copied : ∀ a, Sees env v.constraints a → ∀ i < n, ∀ x, Memory.HasByte a (s.contents p src) (o + i) x →
    Memory.HasByte a (t.contents p dst) (d + i) x
  rest : ∀ a j x, (j < d ∨ d + n ≤ j) → Memory.HasByte a (s.contents p dst) j x →
    Memory.HasByte a (t.contents p dst) j x
  source : ∀ a j x, Memory.HasByte a (s.contents p src) j x → Memory.HasByte a (t.contents p src) j x
  others : ∀ q < s.executor.nextPtr, ∀ mo, (q ≠ p ∨ mo ≠ dst ∧ mo ≠ src) → t.contents q mo = s.contents q mo

theorem Copied.of_still {d o n : ℕ} (hi : Still s t) (hp : p < s.executor.nextPtr)
    (h : Copied env p v dst src d o n t u) : Copied env p v dst src d o n s u := by
  have hsame := hi.contents p hp
  refine ⟨hi.views.trans h.views, h.standing, ?_, ?_, ?_, ?_, fun q hq x hne => ?_⟩
  · rw [← hsame]
    exact h.readOnly
  · rw [← hsame]
    exact h.copied
  · rw [← hsame]
    exact h.rest
  · rw [← hsame]
    exact h.source
  · rw [h.others q (hi.views.nextPtr ▸ hq) x hne, hi.contents q hq]

/-- An address in an object is the address of its offset. -/
theorem toNat_add_of_lt {c : BitVec pointerWidth} {i k : ℕ} (hend : c.toNat + k ≤ 2 ^ pointerWidth) (hi : i < k) :
    (c + BitVec.ofNat pointerWidth i).toNat = c.toNat + i := by
  have hend' : c.toNat + k ≤ 2 ^ 64 := hend
  rw [BitVec.toNat_add, BitVec.toNat_ofNat]
  show (c.toNat + i % 2 ^ 64) % 2 ^ 64 = _
  omega

/-- The offset of a byte in its object. -/
theorem offset_toNat {source : BitVec pointerWidth} {n i : ℕ} (hs : Holds src source n) (hi : i < n) :
    (source - src.address + BitVec.ofNat pointerWidth i).toNat = source.toNat - src.address.toNat + i := by
  have hsub : (source - src.address).toNat = source.toNat - src.address.toNat := hs.toNat_offset
  rw [← hsub]
  refine toNat_add_of_lt ?_ hi
  show _ ≤ 2 ^ 64
  rw [hsub]
  have hsize := src.size_lt
  have := hs.1
  have := hs.2
  omega

theorem offset_lt {source : BitVec pointerWidth} {n i : ℕ} (hs : Holds src source n) (hi : i < n) :
    source.toNat - src.address.toNat + i < src.size := by
  have := hs.1
  have := hs.2
  omega

/-- The address of a byte in its object. -/
theorem address_toNat {target : BitVec pointerWidth} {n i : ℕ} (ht : Holds dst target n) (hi : i < n) :
    (target + BitVec.ofNat pointerWidth i).toNat = target.toNat + i :=
  toNat_add_of_lt (ht.2.trans dst.address_add_size) hi

theorem holds_byte {target : BitVec pointerWidth} {n i : ℕ} (ht : Holds dst target n) (hi : i < n) :
    Holds dst (target + BitVec.ofNat pointerWidth i) 1 := by
  have hta := address_toNat ht hi
  have := ht.1
  have := ht.2
  exact ⟨by omega, by omega⟩

/-- The bytes that fit are in both objects. -/
theorem holds_fitting {target source : BitVec pointerWidth} (ht : dst.Checks target) (hs : src.Checks source)
    (len : ℕ) : Holds dst target (fitting dst src target source len) ∧
      Holds src source (fitting dst src target source len) := by
  unfold fitting
  exact ⟨holds_of_le ht (by omega), holds_of_le hs (by omega)⟩

theorem fitting_eq {target source : BitVec pointerWidth} {len : ℕ} (ht : Holds dst target len)
    (hs : Holds src source len) : fitting dst src target source len = len := by
  have := ht.2
  have := hs.2
  unfold fitting
  omega

/-- One more byte. -/
theorem Copied.step {d o n : ℕ} (hdst : dst ∈ v.addressSpace.objects)
    (hsrc : src ∈ v.addressSpace.objects) (hne : dst ≠ src) (hro : (s.contents p dst).readOnly = false)
    {ta : BitVec pointerWidth} (hta : Holds dst ta 1)
    (hd : ta.toNat = dst.address.toNat + (d + n)) (h : Copied env p v dst src d o n s t)
    (hb : ByteCopied env p v src (o + n) ta t u) : Copied env p v dst src d o (n + 1) s u := by
  have hoff : ta.toNat - dst.address.toNat = d + n := by omega
  -- the address is not in the source
  have hsource : ∀ a j x, Memory.HasByte a (t.contents p src) j x → src.address.toNat + j ≠ ta.toNat := by
    intro a j x hx heq
    have hlt := hx.lt_size
    rw [h.standing.size src hsrc] at hlt
    exact hne (h.standing.holds_unique hdst hsrc hta ⟨by omega, by omega⟩)
  refine ⟨h.views.trans hb.views, hb.standing, (hb.readOnly dst hdst).trans h.readOnly, fun a ha i hi x hx => ?_,
    fun a j x hj hx => ?_, fun a j x hx => ?_, fun q hq x hx => ?_⟩
  · by_cases hin : i = n
    · subst hin
      rw [← hoff]
      exact hb.placed dst hdst hta (h.readOnly.trans hro) a ha x (h.source a _ x hx)
    · exact hb.kept dst hdst a _ x (.inl (by omega)) (h.copied a ha i (by omega) x hx)
  · exact hb.kept dst hdst a j x (.inl (by omega)) (h.rest a j x (by omega) hx)
  · have hx' := h.source a j x hx
    exact hb.kept src hsrc a j x (.inl (hsource a j x hx')) hx'
  · rw [hb.others q (h.views.nextPtr ▸ hq) x (hx.imp id fun hx => ⟨hx.2, fun hmem hin => ?_⟩), h.others q hq x hx]
    exact hx.1 (h.standing.holds_unique hmem hdst hin hta)

section

variable [ExprOptions]

theorem addExpr_const (x y : BitVec pointerWidth) : AddExpr.create (.const x) (.const y) = .const (x + y) := by
  rw [AddExpr.create_const_left, AddExpr.createConst, BitVec.setWidth_eq]

/-- The read of a byte of the source. -/
theorem readByte_spec (h : Standing s p v) (hsrc : src ∈ v.addressSpace.objects) {c : BitVec pointerWidth}
    (hc : c.toNat < src.size) :
    Prog.wp (onObject p src fun id => Memory.ObjectState.read env.littleEndian id (.const c) 8)
      (fun e t => Changed p src (Memory.Reads c.toNat e) s t) E s := by
  rw [wp_onObject]
  exact (Memory.read_byte (h.consistent src hsrc) (h.size src hsrc ▸ hc)).mono (fun _ _ hr => changed_withObject hr)
    fun _ hf => hf.elim

/-- **One turn of the loop**, at any address. -/
theorem copyByte_spec (h : Standing s p v) (hsrc : src ∈ v.addressSpace.objects)
    (targetaddr baseoffset : BitVec pointerWidth) (i : ℕ) {o : ℕ}
    (ho : (baseoffset + BitVec.ofNat pointerWidth i).toNat = o) (hlt : o < src.size) :
    Prog.wp (copyByte env p targetaddr src baseoffset i)
      (fun _ t => ByteCopied env p v src o (targetaddr + BitVec.ofNat pointerWidth i) s t) E s := by
  unfold copyByte
  refine Prog.wp.bind (readByte_spec h hsrc (ho.symm ▸ hlt)) fun e t ht => ?_
  rw [ho] at ht
  rw [addExpr_const]
  generalize targetaddr + BitVec.ofNat pointerWidth i = ta
  have hstand := h.of_changed ht fun os os' hr => ⟨hr.consistent, hr.size⟩
  obtain ⟨state, hstate, rfl⟩ := Executor.view_eq_some.1 hstand.alive
  have hread := ht.object
  have hmoved : ∀ x ∈ state.addressSpace.objects, (t.contents p x).readOnly = (s.contents p x).readOnly ∧
      ∀ a j y, Memory.HasByte a (s.contents p x) j y → Memory.HasByte a (t.contents p x) j y := by
    intro x hx
    by_cases hxs : x = src
    · subst hxs
      exact ⟨hread.readOnly, hread.kept⟩
    · rw [ht.others p h.lt x (.inr hxs)]
      exact ⟨rfl, fun _ _ _ => id⟩
  have hnext : t.executor.nextPtr = s.executor.nextPtr := Ticked.nextPtr ht.ticked
  -- where nothing is stored, what is left is the read
  have hstill : ∀ u, Still t u → (∀ mo ∈ state.addressSpace.objects, Holds mo ta 1 → (s.contents p mo).readOnly = true) →
      ByteCopied env p (Executor.viewOf state) src o ta s u := by
    intro u hu hall
    have hsame := hu.contents p hstand.lt
    refine ⟨ht.ticked.sameViews.trans hu.views, hstand.of_still hu, fun x hx => ?_, fun x hx hxin hro => ?_,
      fun x hx a j y _ hy => ?_, fun q hq x hne => ?_⟩
    · rw [hsame]
      exact (hmoved x hx).1
    · rw [hall x hx hxin] at hro
      cases hro
    · rw [hsame]
      exact (hmoved x hx).2 a j y hy
    · rw [hu.contents q (hnext ▸ hq), ht.others q hq x (hne.imp id And.left)]
  by_cases hex : ∃ mo ∈ state.addressSpace.objects, Holds mo ta 1
  · obtain ⟨mo, hmo, hin⟩ := hex
    cases hro : (t.contents p mo).readOnly with
    | true =>
      refine (store_readOnly hstate hstand.lt hstand.running hstand.isBool hstand.disjoint hmo hread.hasWidth (w := 8)
        (.inr ⟨rfl, by decide⟩) hin hro).mono (fun _ u hu => hstill u hu fun x hx hxin => ?_) fun _ => id
      rw [hstand.holds_unique hx hmo hxin hin, ← (hmoved mo hmo).1]
      exact hro
    | false =>
      refine (store_inside hstate hstand.lt hstand.isBool hstand.disjoint hmo hread.hasWidth (w := 8)
        (.inr ⟨rfl, by decide⟩) hin (hstand.consistent mo hmo) (hstand.size mo hmo) hro).mono (fun _ u hu => ?_)
        fun _ => id
      have hstore := hu.object
      refine ⟨ht.ticked.sameViews.trans hu.ticked.sameViews,
        hstand.of_changed hu fun os os' hr => ⟨hr.consistent, hr.size⟩,
        fun x hx => ?_, fun x hx hxin _ a ha y hy => ?_, fun x hx a j y hne hy => ?_, fun q hq x hne => ?_⟩
      · by_cases hxm : x = mo
        · subst hxm
          exact hstore.readOnly.trans (hmoved x hx).1
        · rw [hu.others p hstand.lt x (.inr hxm)]
          exact (hmoved x hx).1
      · obtain rfl := hstand.holds_unique hx hmo hxin hin
        have hden : (storedValue env state.constraints e).Denotes a y :=
          storedValue_denotes hstand.isBool hread.hasWidth ha (hread.denotes a y hy)
        have hplaced := hstore.placed a y hden 0 (by decide)
        have hpos : PlainArray.bytePosition env.littleEndian (PlainArray.numBytes 8) 0 = 0 := by
          cases env.littleEndian with
          | true => rfl
          | false => rfl
        rw [hpos] at hplaced
        simpa using hplaced
      · by_cases hxm : x = mo
        · subst hxm
          have hne' : x.address.toNat + j ≠ ta.toNat := by
            refine hne.resolve_right fun htrue => ?_
            rw [← (hmoved x hx).1, hro] at htrue
            cases htrue
          refine hstore.kept a j y ?_ ((hmoved x hx).2 a j y hy)
          have hle := hin.1
          show j < ta.toNat - x.address.toNat ∨ ta.toNat - x.address.toNat + 1 ≤ j
          omega
        · rw [hu.others p hstand.lt x (.inr hxm)]
          exact (hmoved x hx).2 a j y hy
      · have hxm : q ≠ p ∨ x ≠ mo := hne.imp id fun hx hxm => hx.2 (hxm ▸ hmo) (hxm ▸ hin)
        rw [hu.others q (hnext ▸ hq) x hxm, ht.others q hq x (hne.imp id And.left)]
  · have hout : ∀ mo ∈ state.addressSpace.objects, ¬Holds mo ta (PlainArray.numBytes 8) :=
      fun mo hmo hin => hex ⟨mo, hmo, hin⟩
    refine (store_outside hstate hstand.isBool hstand.disjoint hread.hasWidth (.inr ⟨rfl, by decide⟩) hout).mono
      (fun _ u hu => hstill u hu.still fun x hx hxin => absurd ⟨x, hx, hxin⟩ hex) fun _ => id

/-! ### `memcpy` -/

/-- The loop of the copy functions, where the bytes are within both objects. -/
theorem copyBytes_spec (h : Standing s p v) (hdst : dst ∈ v.addressSpace.objects)
    (hsrc : src ∈ v.addressSpace.objects) (hne : dst ≠ src) (hro : (s.contents p dst).readOnly = false)
    {target source length : BitVec pointerWidth} (ht : Holds dst target length.toNat)
    (hs : Holds src source length.toNat) :
    Prog.wp (copyBytes env p target src source length)
      (fun _ t => Copied env p v dst src (target.toNat - dst.address.toNat) (source.toNat - src.address.toNat)
        length.toNat s t) E s := by
  refine Prog.wp.range (I := fun n t => Copied env p v dst src (target.toNat - dst.address.toNat)
    (source.toNat - src.address.toNat) n s t) length.toNat (fun i hi t hcop => ?_) ?_
  · refine (copyByte_spec hcop.standing hsrc target (source - src.address) i (offset_toNat hs hi)
      (offset_lt hs hi)).mono (fun _ u hu => ?_) fun _ => id
    have := ht.1
    exact hcop.step hdst hsrc hne hro (holds_byte ht hi) (by rw [address_toNat ht hi]; omega) hu
  · exact ⟨.refl _, h, rfl, fun _ _ i hi => absurd hi (Nat.not_lt_zero i), fun _ _ _ _ => id, fun _ _ _ => id,
      fun _ _ _ _ => rfl⟩

/-- `handleMemcpy` between two objects, up to the loop. -/
theorem handleMemcpy_loop {Q : Unit → Machine → Prop} (h : Standing s p v) (hdst : dst ∈ v.addressSpace.objects)
    (hsrc : src ∈ v.addressSpace.objects) {target source : BitVec pointerWidth} (ht : dst.Checks target)
    (hs : src.Checks source) (len : BitVec pointerWidth)
    (hloop : ∀ t, Still s t → Prog.wp (copyBytes env p target src source
      (memcpyLength dst src target source (.const len))) Q E t) :
    Prog.wp (handleMemcpy env p (.const target) (.const source) (.const len)) Q E s := by
  unfold handleMemcpy
  refine Prog.wp.bind (resolveOne_idle h _) fun o s₁ h₁ => ?_
  obtain ⟨rfl, h₁⟩ := h₁
  rw [BitVec.setWidth_eq, (v.addressSpace.resolveOne_eq_some_iff h.disjoint target dst).2 ⟨hdst, ht⟩]
  show Prog.wp (memcpyTo env p dst target (.const source) (.const len)) _ _ s₁
  unfold memcpyTo
  refine Prog.wp.bind (resolveOne_idle (h.of_still h₁.still) _) fun o s₂ h₂ => ?_
  obtain ⟨rfl, h₂⟩ := h₂
  rw [BitVec.setWidth_eq, (v.addressSpace.resolveOne_eq_some_iff h.disjoint source src).2 ⟨hsrc, hs⟩]
  exact hloop s₂ (h₁.trans h₂).still

/-- **`memcpy` copies**, whatever the length: as many bytes as fit into both objects.  The other bytes of the
destination, the source and all other objects are as they were; and no byte outside of an object is read. -/
theorem memcpy_copies (env : MemoryEnv) (s : Machine) (p : Ptr) (v : Executor.View) (h : Standing s p v)
    (dst src : MemoryObject) (hdst : dst ∈ v.addressSpace.objects) (hsrc : src ∈ v.addressSpace.objects)
    (hne : dst ≠ src) (hro : (s.contents p dst).readOnly = false) (target source : BitVec pointerWidth)
    (ht : dst.Checks target) (hs : src.Checks source) (len : BitVec pointerWidth) :
    ∃ t, handleMemcpy env p (.const target) (.const source) (.const len) s = (some (), t) ∧
      Copied env p v dst src (target.toNat - dst.address.toNat) (source.toNat - src.address.toNat)
        (fitting dst src target source len.toNat) s t ∧
      (Holds dst target len.toNat → Holds src source len.toNat →
        fitting dst src target source len.toNat = len.toNat) := by
  have hlen := memcpyLength_toNat ht hs len
  obtain ⟨htin, hsin⟩ := holds_fitting ht hs len.toNat
  have hwp : Prog.wp (handleMemcpy env p (.const target) (.const source) (.const len))
      (fun _ t => Copied env p v dst src (target.toNat - dst.address.toNat) (source.toNat - src.address.toNat)
        (fitting dst src target source len.toNat) s t) (fun _ => False) s := by
    refine handleMemcpy_loop h hdst hsrc ht hs len fun t hst => ?_
    have hro' : (t.contents p dst).readOnly = false := by
      rw [hst.contents p h.lt]
      exact hro
    refine (copyBytes_spec (h.of_still hst) hdst hsrc hne hro' (hlen.symm ▸ htin) (hlen.symm ▸ hsin)).mono
      (fun _ u hcop => ?_) fun _ => id
    rw [hlen] at hcop
    exact hcop.of_still hst h.lt
  obtain ⟨_, t, hrun, hcop⟩ := hwp.exists_result
  exact ⟨t, hrun, hcop, fitting_eq⟩

end

section
local instance copyOptions : ExprOptions := .defaults

/-- A second object. -/
def highObject : MemoryObject :=
  ⟨0x200000#64, 16, none, MemoryObject.sixteen_lt, MemoryObject.sixteen_le, MemoryObject.symsize_none⟩

theorem copyObjects_sorted :
    [Executor.lowObject, highObject].Pairwise fun x y => x.address.toNat < y.address.toNat := by decide

/-- Two objects of 16 bytes. -/
def copySpace : AddressSpace := ⟨[Executor.lowObject, highObject], copyObjects_sorted⟩

theorem copySpace_disjoint : copySpace.Disjoint := by
  have hlow : ∀ c, Executor.lowObject.Checks c → c.toNat < 0x200000 := by
    intro c hc
    obtain ⟨-, h | rfl⟩ := (Executor.lowObject.checks_iff c).1 hc
    · have hend : Executor.lowObject.address.toNat + Executor.lowObject.size < 0x200000 := by decide
      omega
    · decide
  have hhigh : ∀ c, highObject.Checks c → 0x200000 ≤ c.toNat := fun c hc => ((highObject.checks_iff c).1 hc).1
  intro x hx y hy hne c hxc hyc
  simp only [copySpace, List.mem_cons, List.not_mem_nil, or_false] at hx hy
  obtain rfl | rfl := hx
  · obtain rfl | rfl := hy
    · exact hne rfl
    · exact absurd (hlow c hxc) (Nat.not_lt.2 (hhigh c hyc))
  · obtain rfl | rfl := hy
    · exact absurd (hlow c hyc) (Nat.not_lt.2 (hhigh c hxc))
    · exact hne rfl

/-- The bytes of the second object. -/
def sourceArray : Array := ⟨0, "x", 16, [], MemoryObject.sixteen_lt, .inl rfl⟩

/-- A state with these objects. -/
def copyState (constraints : ConstraintSet) : ExecutionState :=
  { ExecutionState.init "f" 0 0 with addressSpace := copySpace, constraints := constraints }

/-- The first object has zeros, and the second one symbolic bytes. -/
def copyMachine (constraints : ConstraintSet) : Machine where
  executor := Executor.start (copyState constraints) {}
  contents := fun _ mo =>
    if mo = highObject then Memory.ObjectState.newSymbolic ⟨16, MemoryObject.sixteen_lt⟩ sourceArray
    else Memory.ObjectState.new true ⟨16, MemoryObject.sixteen_lt⟩ 0
  nextArray := 1

theorem copyMachine_standing {constraints : ConstraintSet} (hb : constraints.IsBool) :
    Standing (copyMachine constraints) 0 (Executor.viewOf (copyState constraints)) where
  alive := rfl
  lt := Nat.one_pos
  running := List.not_mem_nil
  isBool := hb
  disjoint := copySpace_disjoint
  consistent mo _ := by
    show Memory.Consistent (if mo = highObject then _ else _)
    split
    · exact (Memory.ObjectState.newSymbolic_represents _ _).1
    · exact Memory.ObjectState.consistent_new _ _ _
  size mo hmo := by
    have hsize : mo.size = 16 := by
      simp only [Executor.viewOf, copyState, copySpace, List.mem_cons, List.not_mem_nil, or_false] at hmo
      obtain rfl | rfl := hmo
      · rfl
      · rfl
    show (if mo = highObject then _ else _ : Memory.ObjectState).size = _
    split
    · rw [hsize]
      rfl
    · rw [hsize]
      rfl

/-- An environment in which values are simplified before they are stored, or not. -/
def copyEnv (simplify : Bool) : MemoryEnv where
  toEnv := .plain { SimplifySymIndices := simplify } (fun _ => ⟨.unreachable, ⟨0, "", 0⟩, "f", "", "", none, true⟩)
    (fun _ _ => none) ⟨fun _ _ _ => none, fun _ _ _ => none, fun _ _ _ => none, fun _ _ _ => none⟩
  littleEndian := true
  late := fun _ => false

/-- Four bytes are copied. -/
theorem memcpy_copies_four : ∃ t, handleMemcpy (copyEnv false) 0 (.const 0x84#64) (.const 0x200008#64) (.const 4#64)
      (copyMachine []) = (some (), t) ∧
    Copied (copyEnv false) 0 (Executor.viewOf (copyState [])) Executor.lowObject highObject 4 8 4 (copyMachine []) t := by
  obtain ⟨t, hrun, hcop, -⟩ := memcpy_copies (copyEnv false) (copyMachine []) 0 (Executor.viewOf (copyState []))
    (copyMachine_standing (List.forall_mem_nil _)) Executor.lowObject highObject List.mem_cons_self
    (List.mem_cons_of_mem _ List.mem_cons_self) (by decide) rfl 0x84#64 0x200008#64 (by decide) (by decide) 4#64
  exact ⟨t, hrun, hcop⟩

/-- The first byte of the second object. -/
def firstByte : Expr := .read (.root sourceArray) (.const 0#32)

/-- The path condition says that it is 5. -/
def firstIsFive : ConstraintSet := [.cmp .eq (.const 5#8) firstByte]

theorem firstByte_hasWidth : firstByte.HasWidth 8 := by
  refine ⟨?_, rfl⟩
  simp [firstByte, Expr.WF, UpdateList.WF, getWidth]

theorem firstIsFive_isBool : firstIsFive.IsBool := by
  intro c hc
  obtain rfl := List.mem_singleton.1 hc
  exact (hasWidth_const 5#8).cmp firstByte_hasWidth

/-- It is simplified to the constant. -/
theorem simplify_firstByte : ConstraintManager.simplifyExpr firstIsFive firstByte = .const 5#8 := by
  have hfind : (ConstraintManager.equalities firstIsFive).visitExprPost firstByte = .const 5#8 := by
    simp [ConstraintManager.equalities, firstIsFive, Replacements.visitExprPost, Replacements.insert, Replacements.find,
      ConstraintManager.equality, firstByte, isConstant]
  have hindex : ExprReplaceVisitor2.visit (ConstraintManager.equalities firstIsFive) (.const 0#32) = .const 0#32 := by
    rw [ExprReplaceVisitor2.visit_eq]
    exact if_pos rfl
  show ExprReplaceVisitor2.visit (ConstraintManager.equalities firstIsFive) firstByte = _
  rw [ExprReplaceVisitor2.visit_eq]
  show Replacements.visitExprPost _ (if Expr.read (.root sourceArray) (ExprReplaceVisitor2.visit _ (.const 0#32)) = firstByte
    then firstByte else _) = _
  rw [hindex]
  exact (congrArg _ (if_pos rfl)).trans hfind

/-- Where values are simplified, the copy of a byte is the byte only on the path. -/
theorem memcpy_not_every_assignment : ∃ t, handleMemcpy (copyEnv true) 0 (.const 0x80#64) (.const 0x200000#64)
      (.const 1#64) (copyMachine firstIsFive) = (some (), t) ∧
    Memory.HasByte (fun _ _ => 7) ((copyMachine firstIsFive).contents 0 highObject) 0 7 ∧
    ¬Memory.HasByte (fun _ _ => 7) (t.contents 0 Executor.lowObject) 0 7 := by
  have hstand := copyMachine_standing firstIsFive_isBool
  have hlow : Executor.lowObject ∈ (copyState firstIsFive).addressSpace.objects := List.mem_cons_self
  have hhigh : highObject ∈ (copyState firstIsFive).addressSpace.objects := List.mem_cons_of_mem _ List.mem_cons_self
  have hwp : Prog.wp (handleMemcpy (copyEnv true) 0 (.const 0x80#64) (.const 0x200000#64) (.const 1#64))
      (fun _ t => Memory.Stores true 0 8 (.const 5#8) ((copyMachine firstIsFive).contents 0 Executor.lowObject)
        (t.contents 0 Executor.lowObject)) (fun _ => False) (copyMachine firstIsFive) := by
    refine handleMemcpy_loop hstand hlow hhigh (by decide) (by decide) 1#64 fun t hst => ?_
    have hcontents := hst.contents 0 Nat.one_pos
    have hbyte : Memory.ObjectState.read true t.nextArray (.const 0#64) 8 (t.contents 0 highObject) =
        (some firstByte, t.contents 0 highObject) := by
      rw [hcontents]
      exact Memory.read_newSymbolic _ _ (by decide)
    have hstand' := hstand.of_still hst
    have hlen : memcpyLength Executor.lowObject highObject 0x80#64 0x200000#64 (.const 1#64) = 1#64 := by decide
    rw [hlen]
    show Prog.wp (copyByte (copyEnv true) 0 0x80#64 highObject 0#64 0 >>= fun _ => pure ()) _ _ t
    unfold copyByte
    rw [Prog.bind_assoc, Prog.wp_bind, wp_onObject]
    refine Prog.wp.of_result hbyte ?_
    -- the read changes nothing
    have hchanged : Changed 0 highObject (fun os os' => Memory.Consistent os' ∧ os'.size = os.size) t
        (t.withObject 0 highObject (t.contents 0 highObject)) :=
      changed_withObject ⟨hstand'.consistent highObject hhigh, rfl⟩
    have hlow' := hchanged.others 0 hstand'.lt Executor.lowObject (.inr (by decide))
    have hstand'' := hstand'.of_changed hchanged fun _ _ => id
    obtain ⟨state, hstate, hview⟩ := Executor.view_eq_some.1 hstand''.alive
    have hconstraints : state.constraints = firstIsFive := congrArg Executor.View.constraints hview
    have hspace : state.addressSpace = copySpace := congrArg Executor.View.addressSpace hview
    rw [addExpr_const]
    refine (store_inside (c := 0x80#64) (w := 8) hstate hstand''.lt (hconstraints ▸ firstIsFive_isBool)
      (hspace ▸ copySpace_disjoint) (hspace ▸ hlow) firstByte_hasWidth (.inr ⟨rfl, by decide⟩) (by decide)
      (hstand''.consistent _ hlow) (hstand''.size _ hlow) ?_).bind fun _ u hu => ?_
    · rw [hlow', hcontents]
      rfl
    · have hstores := hu.object
      have hvalue : storedValue (copyEnv true) firstIsFive firstByte = .const 5#8 := simplify_firstByte
      rw [hconstraints, hvalue, hlow', hcontents] at hstores
      exact hstores
  obtain ⟨_, t, hrun, hstores⟩ := hwp.exists_result
  refine ⟨t, hrun, ⟨_, (Memory.ObjectState.newSymbolic_represents _ sourceArray).2 _, rfl⟩, fun h => ?_⟩
  · have hfive := hstores.placed (fun _ _ => 7) 5#8 (denotes_const 5#8) 0 Nat.one_pos
    exact absurd (hfive.unique hstores.consistent h) (by decide)

end

end SpecialFunctionHandler

end SymBisect
