import SymBisect.Core.ObjectStateSound

/-!
# The bytes of an object, one by one

What a read or a write at a constant offset does, said about single bytes.

* `HasByte a os i v`: under `a` the byte of the object at `i` is `v`.
* `Stores`: a word was written at an offset; its bytes are in place and the others are kept.
* `write_stores`, `read_byte`: one lemma for each access.
-/

namespace SymBisect.Memory

open Lib Expr PlainArray

/-! ### Single bytes -/

/-- Under the assignment the byte of the object at `i` is `v`. -/
def HasByte (a : Assignment) (os : ObjectState) (i : ℕ) (v : BitVec 8) : Prop :=
  ∃ m, Represents a os m ∧ m[i]? = some (some v)

variable {a : Assignment} {os os' : ObjectState} {i : ℕ} {v : BitVec 8}

theorem HasByte.lt_size (h : HasByte a os i v) : i < os.size := by
  obtain ⟨m, hr, hi⟩ := h
  exact hr.lt_size hi

/-- An object state has one byte at every place. -/
theorem byte_unique (hos : Consistent os) {m m' : PlainArray} (h : Represents a os m) (h' : Represents a os m')
    {x y : BitVec 8} (hx : m[i]? = some (some x)) (hy : m'[i]? = some (some y)) : x = y := by
  let _ : ExprOptions := .defaults
  have hlt := h.lt_size hx
  have hnat : (BitVec.ofNat 32 i).toNat = i := by
    rw [BitVec.toNat_ofNat, Nat.mod_eq_of_lt (hlt.trans os.size_lt)]
  have hread : Prog.wp (ObjectState.read8At 0 (BitVec.ofNat 32 i)) (fun e t => Moves os t ∧ ObjectState.ReadsByte os _ e)
      (fun _ => False) os :=
    (ObjectState.read8At_spec hos (BitVec.ofNat 32 i)).mono (fun _ _ h => h) fun _ hn => hn (hnat.symm ▸ hlt)
  obtain ⟨e, t, -, -, he⟩ := hread.exists_result
  have hex := he.2 a m _ x h rfl (hnat.symm ▸ hx)
  have hey := he.2 a m' _ y h' rfl (hnat.symm ▸ hy)
  exact hex.value.symm.trans hey.value

theorem HasByte.unique (hos : Consistent os) {x y : BitVec 8} (hx : HasByte a os i x) (hy : HasByte a os i y) : x = y := by
  obtain ⟨m, hm, hi⟩ := hx
  obtain ⟨m', hm', hi'⟩ := hy
  exact byte_unique hos hm hm' hi hi'

/-- A change of the array is a change of its bytes. -/
theorem Becomes.hasByte {f : Assignment → PlainArray → PlainArray} (h : Becomes f os os') (hb : HasByte a os i v)
    (hf : ∀ m : PlainArray, m[i]? = some (some v) → (f a m)[i]? = some (some v)) : HasByte a os' i v := by
  obtain ⟨m, hm, hi⟩ := hb
  exact ⟨f a m, h.represents hm, hf m hi⟩

theorem Moves.hasByte (h : Moves os os') (hb : HasByte a os i v) : HasByte a os' i v := Becomes.hasByte h hb fun _ => id

/-- Nothing need be known of an object. -/
theorem represents_unknown (a : Assignment) (os : ObjectState) : Represents a os (List.replicate os.size none) := by
  have hnone : ∀ {i : ℕ} {v : BitVec 8}, (List.replicate os.size (none : Option (BitVec 8)))[i]? ≠ some (some v) := by
    intro i v h
    rw [List.getElem?_replicate] at h
    split at h
    · cases h
    · cases h
  exact ⟨List.length_replicate, fun h => absurd h hnone, fun h => absurd h hnone, fun h => absurd h hnone⟩

/-- An object with concrete bytes. -/
def ofBytes (size : ObjectState.Size) (bytes : ℕ → BitVec 8) : ObjectState :=
  { ObjectState.new true size 0 with concreteStore := bytes }

theorem ofBytes_consistent (size : ObjectState.Size) (bytes : ℕ → BitVec 8) : Consistent (ofBytes size bytes) :=
  ⟨fun h => (nomatch h), fun _ _ => .inl rfl, fun h => (nomatch h), fun _ h => absurd h List.not_mem_nil⟩

theorem ofBytes_hasByte (a : Assignment) (size : ObjectState.Size) (bytes : ℕ → BitVec 8) {j : ℕ} (hj : j < size) :
    HasByte a (ofBytes size bytes) j (bytes j) := by
  refine ⟨(List.range size).map fun i => some (bytes i), ⟨?_, fun {i v} hi _ => ?_, fun _ h => (nomatch h),
    fun _ h => (nomatch h)⟩, ?_⟩
  · rw [List.length_map, List.length_range]
    rfl
  · rw [List.getElem?_map, Option.map_eq_some_iff] at hi
    obtain ⟨k, hk, hv⟩ := hi
    obtain ⟨hlt, rfl⟩ := List.getElem?_eq_some_iff.1 hk
    rw [List.getElem_range] at hv
    exact Option.some.inj hv
  · rw [List.getElem?_map, List.getElem?_range hj]
    rfl

/-! ### Accesses at a constant offset -/

namespace ObjectState

variable {littleEndian : Bool} {id : ℕ} {b : Bool}

theorem getUpdates_readOnly : Prog.Keeps (fun os : ObjectState => os.readOnly = b) (getUpdates id) := by
  intro os h
  unfold getUpdates
  rw [Prog.wp_bind, Prog.wp_get]
  cases os.updates.root with
  | some root => exact h
  | none => exact h

theorem write8Const_readOnly (o : BitVec 32) (value : BitVec 8) :
    Prog.Keeps (fun os : ObjectState => os.readOnly = b) (write8Const o value) :=
  Prog.Keeps.get.bind fun _ => Prog.Keeps.assert.bind fun _ => Prog.Keeps.modify fun _ h => h

theorem write8At_readOnly (o : BitVec 32) (value : Expr) :
    Prog.Keeps (fun os : ObjectState => os.readOnly = b) (write8At o value) := by
  unfold write8At
  split
  · exact write8Const_readOnly o _
  · exact Prog.Keeps.get.bind fun _ => Prog.Keeps.assert.bind fun _ => Prog.Keeps.modify fun _ h => h

theorem writeConst_readOnly {w : ℕ} (n : ℕ) (o : BitVec 32) (value : BitVec w) :
    Prog.Keeps (fun os : ObjectState => os.readOnly = b) (writeConst littleEndian n o value) :=
  Prog.Keeps.each (fun _ => write8Const_readOnly _ _) _

theorem writeGeneral_readOnly (o : BitVec 32) (value : Expr) :
    Prog.Keeps (fun os : ObjectState => os.readOnly = b) (writeGeneral littleEndian o value) :=
  (write8At_readOnly o _).ite (Prog.Keeps.assert.bind fun _ => Prog.Keeps.each (fun _ => write8At_readOnly _ _) _)

theorem writeAt_readOnly (o : BitVec 32) (value : Expr) :
    Prog.Keeps (fun os : ObjectState => os.readOnly = b) (writeAt littleEndian o value) := by
  unfold writeAt
  split
  · refine Prog.Keeps.ite ?_ (writeGeneral_readOnly o _)
    refine (write8Const_readOnly o _).ite ?_
    refine (writeConst_readOnly 2 o _).ite ?_
    refine (writeConst_readOnly 4 o _).ite ?_
    exact (writeConst_readOnly 8 o _).ite Prog.Keeps.abort
  · exact writeGeneral_readOnly o _

theorem zext_const (c : BitVec 64) : ZExtExpr.create (.const c) 32 = .const (c.setWidth 32) := by
  have hext : ZExtExpr.create (.const c) 32 = .const (c.extractLsb' 0 32) := by
    simp [ZExtExpr.create, ExtractExpr.create, ExtractExpr.createAux, getWidth]
  rw [hext]
  congr 1

theorem toNat_setWidth_of_lt {c : BitVec 64} (h : c.toNat < 2 ^ 32) : (c.setWidth 32).toNat = c.toNat := by
  rw [BitVec.toNat_setWidth]
  exact Nat.mod_eq_of_lt h

variable [ExprOptions]

/-- A byte is read at its offset. -/
theorem read_byte_eq (c : BitVec 64) : read littleEndian id (.const c) 8 = read8At id (c.setWidth 32) := by
  unfold read
  rw [zext_const]
  show readAt littleEndian id ((c.setWidth 32).setWidth 32) 8 = _
  rw [BitVec.setWidth_eq]
  show read8At id (byteIndex littleEndian 1 (c.setWidth 32) 0) = _
  rw [byteIndex_one]

theorem write_const_eq (c : BitVec 64) (value : Expr) :
    write littleEndian (.const c) value = writeAt littleEndian (c.setWidth 32) value := by
  unfold write
  rw [zext_const]
  show writeAt littleEndian ((c.setWidth 32).setWidth 32) value = _
  rw [BitVec.setWidth_eq]

theorem read8At_readOnly (o : BitVec 32) : Prog.Keeps (fun os : ObjectState => os.readOnly = b) (read8At id o) := by
  unfold read8At
  refine Prog.Keeps.get.bind fun os => Prog.Keeps.assert.bind fun _ => (Prog.Keeps.pure _).ite ?_
  cases os.knownSymbolic o.toNat with
  | some value => exact Prog.Keeps.pure _
  | none => exact Prog.Keeps.assert.bind fun _ => getUpdates_readOnly.bind fun _ => Prog.Keeps.pure _

end ObjectState

/-! ### Words -/

/-- A word of the width `w` was written at an offset. -/
structure Stores (littleEndian : Bool) (o w : ℕ) (value : Expr) (os os' : ObjectState) : Prop where
  consistent : Consistent os'
  size : os'.size = os.size
  readOnly : os'.readOnly = os.readOnly
  placed : ∀ (a : Assignment) (v : BitVec w), value.Denotes a v → ∀ i < numBytes w,
    HasByte a os' (o + bytePosition littleEndian (numBytes w) i) (v.extractLsb' (8 * i) 8)
  kept : ∀ (a : Assignment) (j : ℕ) (x : BitVec 8), (j < o ∨ o + numBytes w ≤ j) → HasByte a os j x → HasByte a os' j x

/-- What was read of an object: the byte at an offset. -/
structure Reads (o : ℕ) (e : Expr) (os os' : ObjectState) : Prop where
  consistent : Consistent os'
  size : os'.size = os.size
  readOnly : os'.readOnly = os.readOnly
  kept : ∀ (a : Assignment) (j : ℕ) (x : BitVec 8), HasByte a os j x → HasByte a os' j x
  hasWidth : e.HasWidth 8
  denotes : ∀ (a : Assignment) (x : BitVec 8), HasByte a os o x → e.Denotes a x

theorem numBytes_pos {w : ℕ} (hw : ObjectState.WidthAllowed w) : 0 < numBytes w := by
  unfold numBytes
  obtain h | h := hw
  · rw [if_pos h]
    exact Nat.one_pos
  · split
    · exact Nat.one_pos
    · omega

variable [ExprOptions] {littleEndian : Bool} {id : ℕ}

/-- **A write at a constant offset.** -/
theorem write_stores (hos : Consistent os) {value : Expr} {w : ℕ} (hv : value.HasWidth w)
    (hw : ObjectState.WidthAllowed w) {c : BitVec 64} (hend : c.toNat + numBytes w ≤ os.size) :
    Prog.wp (ObjectState.write littleEndian (.const c) value) (fun _ t => Stores littleEndian c.toNat w value os t)
      (fun _ => False) os := by
  obtain rfl := hv.width
  have hsize := os.size_lt
  have hpos := numBytes_pos hw
  have hc : (c.setWidth 32).toNat = c.toNat := ObjectState.toNat_setWidth_of_lt (by omega)
  have hend' : (c.setWidth 32).toNat + numBytes value.getWidth ≤ os.size := hc ▸ hend
  rw [ObjectState.write_const_eq]
  have hspec : Prog.wp (ObjectState.writeAt littleEndian (c.setWidth 32) value) _ _ os :=
    ObjectState.writeAt_spec hos (c.setWidth 32) hv.wf (x := fun a => valueAt a value value.getWidth)
      fun a v => valueAt_eq_some.1
  refine (hspec.and (ObjectState.writeAt_readOnly (c.setWidth 32) value os rfl)).mono (fun _ t ht => ?_)
    fun _ h => h.1 ⟨hw, fun i hi => ?_⟩
  · obtain ⟨hbec, hro⟩ := ht
    refine ⟨hbec.consistent, hbec.size, hro, fun a v hden i hi => ?_, fun a j x hj hx => ?_⟩
    · -- nothing need be known of the object for the bytes of the word
      refine ⟨_, hbec.represents (represents_unknown a os), ?_⟩
      have hlen : (List.replicate os.size (none : Option (BitVec 8))).length = os.size := List.length_replicate
      rw [← hc, getElem?_store littleEndian _ _ (hlen.symm ▸ hend') (by omega) hi, valueAt_eq_some.2 hden]
      rfl
    · refine hbec.hasByte hx fun m hm => ?_
      rw [getElem?_store_of_outside littleEndian m _ (by omega) (by rwa [hc])]
      exact hm
  · have hlt := bytePosition_lt littleEndian hi
    rw [toNat_byteIndex littleEndian (by omega) hi]
    omega

/-- **A read of a byte at a constant offset.** -/
theorem read_byte (hos : Consistent os) {c : BitVec 64} (hlt : c.toNat < os.size) :
    Prog.wp (ObjectState.read littleEndian id (.const c) 8) (fun e t => Reads c.toNat e os t) (fun _ => False) os := by
  have hc : (c.setWidth 32).toNat = c.toNat := ObjectState.toNat_setWidth_of_lt (hlt.trans os.size_lt)
  rw [ObjectState.read_byte_eq]
  refine ((ObjectState.read8At_spec hos (c.setWidth 32)).and (ObjectState.read8At_readOnly (c.setWidth 32) os rfl)).mono
    (fun e t ht => ?_) fun _ h => h.1 (hc ▸ hlt)
  obtain ⟨⟨hmoves, hwidth, hread⟩, hro⟩ := ht
  refine ⟨hmoves.consistent, hmoves.size, hro, fun a j x hx => Moves.hasByte hmoves hx, hwidth, fun a x hx => ?_⟩
  obtain ⟨m, hm, hi⟩ := hx
  exact hread a m _ x hm rfl (hc.symm ▸ hi)

/-- A byte of a new symbolic object is read from its array. -/
theorem read_newSymbolic (size : ObjectState.Size) (arr : Array) {c : BitVec 64} (hc : c.toNat < size) :
    ObjectState.read littleEndian id (.const c) 8 (ObjectState.newSymbolic size arr) =
      (some (ReadExpr.create (.root arr) (.const (c.setWidth 32))), ObjectState.newSymbolic size arr) := by
  have hc' : (c.setWidth 32).toNat = c.toNat := ObjectState.toNat_setWidth_of_lt (hc.trans size.2)
  obtain ⟨hk, hu, hs, -, his⟩ := ObjectState.makeBytesSymbolic_spec (List.range size)
    ⟨size, fun _ => 0, none, none, none, ⟨some arr, []⟩, false, size.2⟩ (fun _ => rfl)
  obtain ⟨hf, hcon⟩ := his (c.setWidth 32).toNat (List.mem_range.2 (hc'.symm ▸ hc))
  have hwp : Prog.wp (ObjectState.read8At id (c.setWidth 32))
      (fun e t => e = ReadExpr.create (.root arr) (.const (c.setWidth 32)) ∧ t = ObjectState.newSymbolic size arr)
      (fun _ => False) (ObjectState.newSymbolic size arr) := by
    unfold ObjectState.read8At
    rw [Prog.wp_bind, Prog.wp_get, Prog.wp_bind, Prog.wp_assert]
    refine ⟨fun _ => ?_, fun hn => hn ?_⟩
    · rw [if_neg (by rw [ObjectState.newSymbolic, hcon]; exact Bool.false_ne_true), ObjectState.newSymbolic, hk]
      show Prog.wp (Prog.assert _ >>= _) _ _ _
      rw [Prog.wp_bind, Prog.wp_assert]
      refine ⟨fun _ => ?_, fun hn => hn hf⟩
      unfold ObjectState.getUpdates
      rw [Prog.wp_bind, Prog.wp_bind, Prog.wp_get, hu]
      exact ⟨rfl, rfl⟩
    · rw [ObjectState.newSymbolic, hs]
      exact hc'.symm ▸ hc
  rw [ObjectState.read_byte_eq]
  obtain ⟨e, t, hrun, rfl, rfl⟩ := hwp.exists_result
  exact hrun

/-- A boolean or a word that is as large as a new symbolic object can be read from it. -/
theorem read_newSymbolic_word (size : ObjectState.Size) (arr : Array) {width : ℕ}
    (h : (width = 1 ∧ size.1 = 1) ∨ (width = size.1 * 8 ∧ 0 < size.1)) :
    ∃ e, (ObjectState.read littleEndian id (.const 0#64) width (ObjectState.newSymbolic size arr)).1 = some e := by
  obtain ⟨-, -, hs, -, -⟩ := ObjectState.makeBytesSymbolic_spec (List.range size)
    ⟨size, fun _ => 0, none, none, none, ⟨some arr, []⟩, false, size.2⟩ (fun _ => rfl)
  have hsize : (ObjectState.newSymbolic size arr).size = size := hs
  have hread : ObjectState.read littleEndian id (.const 0#64) width = ObjectState.readAt littleEndian id 0#32 width := by
    unfold ObjectState.read
    rw [ObjectState.zext_const]
    rfl
  have hbytes : numBytes width = size.1 ∧ ObjectState.WidthAllowed width := by
    obtain ⟨rfl, hone⟩ | ⟨rfl, hpos⟩ := h
    · exact ⟨hone.symm, .inl rfl⟩
    · refine ⟨?_, .inr ⟨by omega, by omega⟩⟩
      unfold numBytes
      split <;> omega
  have hwp : Prog.wp (ObjectState.readAt littleEndian id 0#32 width) _ _ (ObjectState.newSymbolic size arr) :=
    ObjectState.readAt_spec (ObjectState.newSymbolic_represents size arr).1 0#32 width
  have hinside : ∀ i < numBytes width,
      (byteIndex littleEndian (numBytes width) 0#32 i).toNat < (ObjectState.newSymbolic size arr).size := by
    intro i hi
    have hlt := size.2
    rw [hbytes.1] at hi ⊢
    have hpos := bytePosition_lt littleEndian hi
    rw [toNat_byteIndex littleEndian (by simpa using hlt.le) hi, hsize]
    simpa using hpos
  obtain ⟨e, t, hrun, -⟩ := (hwp.mono (fun _ _ ht => ht) fun _ hn => hn ⟨hbytes.2, hinside⟩).exists_result
  exact ⟨e, by rw [hread, hrun]⟩

end SymBisect.Memory
