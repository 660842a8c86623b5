import SymBisect.Core.Memory
import SymBisect.Lib.Run

/-!
# Copy-on-write address spaces

The ownership of object states in `lib/Core/AddressSpace.cpp`.  Address spaces share object states; a space
writes to an object state in place if its `cowKey` is the owner of the object state, and to a copy otherwise.
A copy of an address space bumps the key of its source and takes the new key over.

* `AddressSpaces`: all live address spaces over one heap of object states, with the operations.
* `Plain`: what they are for, one separate map of contents for every space.
* `Isolated`: the invariant that links the keys of all spaces and owners.
* `read_eq_plain`: as long as no key wraps around, every space reads what its own map holds.

The content of an object state is a parameter, a write any function on it.
-/

namespace SymBisect

open Lib

namespace CopyOnWrite

/-- `ObjectState *`. -/
abbrev Ref := ℕ

/-- `ObjectState`: its owner and its content. -/
structure ObjectState (β : Type) where
  copyOnWriteOwner : UInt32
  readOnly : Bool
  content : β

/-- `AddressSpace`: the map is ordered by the addresses of the memory objects. -/
structure AddressSpace where
  cowKey : UInt32
  objects : BitVec pointerWidth → Option Ref

/-- The address spaces of all states, and the object states that they share. -/
structure AddressSpaces (β : Type) where
  heap : Ref → Option (ObjectState β)
  nextRef : Ref
  spaces : ℕ → Option AddressSpace
  nextSpace : ℕ

variable {β : Type}

namespace AddressSpaces

/-! ### Operations -/

/-- No address space. -/
def start : AddressSpaces β := ⟨fun _ => none, 0, fun _ => none, 0⟩

/-- `AddressSpace()`. -/
def create (s : AddressSpaces β) : AddressSpaces β :=
  { s with
    spaces := Function.update s.spaces s.nextSpace (some ⟨1, fun _ => none⟩)
    nextSpace := s.nextSpace + 1 }

/-- `AddressSpace(b)`: `cowKey(++b.cowKey), objects(b.objects)`. -/
def copy (s : AddressSpaces β) (b : ℕ) : Option (AddressSpaces β) := do
  let space ← s.spaces b
  let bumped := { space with cowKey := space.cowKey + 1 }
  pure { s with
    spaces := Function.update (Function.update s.spaces b (some bumped)) s.nextSpace (some bumped)
    nextSpace := s.nextSpace + 1 }

/-- `~AddressSpace()`. -/
def destroy (s : AddressSpaces β) (i : ℕ) : AddressSpaces β :=
  { s with spaces := Function.update s.spaces i none }

/-- `new ObjectState(..)`. -/
def allocate (s : AddressSpaces β) (owner : UInt32) (content : β) : AddressSpaces β :=
  { s with
    heap := Function.update s.heap s.nextRef (some ⟨owner, false, content⟩)
    nextRef := s.nextRef + 1 }

/-- `objects = objects.replace(std::make_pair(mo, os))`. -/
def replace (s : AddressSpaces β) (i : ℕ) (space : AddressSpace) (mo : MemoryObject) (os : Option Ref) :
    AddressSpaces β :=
  { s with
    spaces := Function.update s.spaces i
      (some { space with objects := Function.update space.objects mo.address os }) }

/-- A change of an object state. -/
def change (s : AddressSpaces β) (os : Ref) (f : ObjectState β → ObjectState β) : AddressSpaces β :=
  { s with heap := Function.update s.heap os ((s.heap os).map f) }

/-- `bindObject`, with its assertion. -/
def bindObject (s : AddressSpaces β) (i : ℕ) (mo : MemoryObject) (os : Ref) : Option (AddressSpaces β) := do
  let space ← s.spaces i
  let o ← s.heap os
  if o.copyOnWriteOwner = 0 then
    pure ((s.change os fun o => { o with copyOnWriteOwner := space.cowKey }).replace i space mo (some os))
  else none

/-- `Executor::bindObjectInState`: a new object state is bound. -/
def bindObjectInState (s : AddressSpaces β) (i : ℕ) (mo : MemoryObject) (content : β) :
    Option (AddressSpaces β) :=
  (s.allocate 0 content).bindObject i mo s.nextRef

/-- `unbindObject`. -/
def unbindObject (s : AddressSpaces β) (i : ℕ) (mo : MemoryObject) : Option (AddressSpaces β) := do
  let space ← s.spaces i
  pure (s.replace i space mo none)

/-- `findObject`. -/
def findObject (s : AddressSpaces β) (i : ℕ) (mo : MemoryObject) : Option Ref := do
  let space ← s.spaces i
  space.objects mo.address

/-- `getWriteable`, with its assertion. -/
def getWriteable (s : AddressSpaces β) (i : ℕ) (mo : MemoryObject) (os : Ref) :
    Option (Ref × AddressSpaces β) := do
  let space ← s.spaces i
  let o ← s.heap os
  if o.readOnly then none
  else if space.cowKey = o.copyOnWriteOwner then pure (os, s)
  else pure (s.nextRef, (s.allocate space.cowKey o.content).replace i space mo (some s.nextRef))

/-- A write through an address space: to the writeable object state of the current binding. -/
def write (s : AddressSpaces β) (i : ℕ) (mo : MemoryObject) (f : β → β) : Option (AddressSpaces β) := do
  let os ← s.findObject i mo
  let wos ← s.getWriteable i mo os
  pure (wos.2.change wos.1 fun o => { o with content := f o.content })

/-- The content that a space reads for an object. -/
def read (s : AddressSpaces β) (i : ℕ) (mo : MemoryObject) : Option β := do
  let os ← s.findObject i mo
  let o ← s.heap os
  pure o.content

end AddressSpaces

/-- An operation on one of the address spaces. -/
inductive Action (β : Type) where
  | create
  | copy (b : ℕ)
  | destroy (i : ℕ)
  | setReadOnly (os : Ref) (readOnly : Bool)
  | bindObject (i : ℕ) (mo : MemoryObject) (content : β)
  | unbindObject (i : ℕ) (mo : MemoryObject)
  | write (i : ℕ) (mo : MemoryObject) (f : β → β)

/-- One operation, or nothing where an assertion fails or the space does not exist. -/
def AddressSpaces.step (s : AddressSpaces β) : Action β → Option (AddressSpaces β)
  | .create => some s.create
  | .copy b => s.copy b
  | .destroy i => some (s.destroy i)
  | .setReadOnly os readOnly => some (s.change os fun o => { o with readOnly := readOnly })
  | .bindObject i mo content => s.bindObjectInState i mo content
  | .unbindObject i mo => s.unbindObject i mo
  | .write i mo f => s.write i mo f

/-! ### Separate maps -/

/-- What the address spaces are for: a map of its own for each. -/
structure Plain (β : Type) where
  maps : ℕ → Option (BitVec pointerWidth → Option β)
  nextSpace : ℕ

namespace Plain

def start : Plain β := ⟨fun _ => none, 0⟩

/-- A new space. -/
def insert (m : Plain β) (c : Option (BitVec pointerWidth → Option β)) : Plain β :=
  ⟨Function.update m.maps m.nextSpace c, m.nextSpace + 1⟩

/-- Change the map of one space. -/
def change (m : Plain β) (i : ℕ) (mo : MemoryObject) (f : Option β → Option β) : Plain β :=
  { m with
    maps := Function.update m.maps i
      ((m.maps i).map fun c => Function.update c mo.address (f (c mo.address))) }

/-- A copy starts with the map of its source; every other operation changes the map of its own space. -/
def step (m : Plain β) : Action β → Plain β
  | .create => m.insert (some fun _ => none)
  | .copy b => m.insert (m.maps b)
  | .destroy i => { m with maps := Function.update m.maps i none }
  | .setReadOnly _ _ => m
  | .bindObject i mo content => m.change i mo fun _ => some content
  | .unbindObject i mo => m.change i mo fun _ => none
  | .write i mo f => m.change i mo (Option.map f)

/-- The content that a space reads for an object. -/
def read (m : Plain β) (i : ℕ) (mo : MemoryObject) : Option β := do
  let c ← m.maps i
  c mo.address

end Plain

/-! ### What an operation changes -/

namespace AddressSpaces

variable {s : AddressSpaces β} {i : ℕ} {space : AddressSpace}

/-- The object state that a space holds at an address. -/
def find (s : AddressSpaces β) (i : ℕ) (address : BitVec pointerWidth) : Option Ref :=
  (s.spaces i).bind fun space => space.objects address

/-- The key of a space. -/
def key (s : AddressSpaces β) (i : ℕ) : Option UInt32 := (s.spaces i).map (·.cowKey)

/-- The content of an object state. -/
def content (s : AddressSpaces β) (r : Ref) : Option β := (s.heap r).map (·.content)

/-- A new object state that the space owns, held at the address of `mo`. -/
def install (s : AddressSpaces β) (i : ℕ) (space : AddressSpace) (mo : MemoryObject) (content : β) :
    AddressSpaces β :=
  (s.allocate space.cowKey content).replace i space mo (some s.nextRef)

theorem read_eq (s : AddressSpaces β) (i : ℕ) (mo : MemoryObject) :
    s.read i mo = (s.find i mo.address).bind s.content := by
  unfold read findObject find
  cases s.spaces i with
  | none => rfl
  | some space =>
    show (space.objects mo.address).bind _ = (space.objects mo.address).bind _
    cases space.objects mo.address with
    | none => rfl
    | some r => cases hr : s.heap r <;> simp [content, hr]

theorem find_replace (h : s.spaces i = some space) (mo : MemoryObject) (os : Option Ref) (j : ℕ)
    (address : BitVec pointerWidth) :
    (s.replace i space mo os).find j address =
      if j = i ∧ address = mo.address then os else s.find j address := by
  unfold find replace
  by_cases hj : j = i
  · subst hj
    by_cases ha : address = mo.address
    · simp [ha]
    · simp [ha, h]
  · simp [hj]

theorem key_replace (h : s.spaces i = some space) (mo : MemoryObject) (os : Option Ref) (j : ℕ) :
    (s.replace i space mo os).key j = s.key j := by
  unfold key replace
  by_cases hj : j = i
  · subst hj
    simp [h]
  · simp [hj]

theorem isSome_replace (h : s.spaces i = some space) (mo : MemoryObject) (os : Option Ref) (j : ℕ) :
    ((s.replace i space mo os).spaces j).isSome = (s.spaces j).isSome := by
  unfold replace
  by_cases hj : j = i
  · subst hj
    simp [h]
  · simp [hj]

theorem copy_eq (h : s.spaces i = some space) :
    s.copy i = some { s with
      spaces := Function.update
        (Function.update s.spaces i (some { space with cowKey := space.cowKey + 1 })) s.nextSpace
        (some { space with cowKey := space.cowKey + 1 })
      nextSpace := s.nextSpace + 1 } := by
  unfold copy
  rw [h]
  rfl

theorem content_change (s : AddressSpaces β) (os : Ref) (f : ObjectState β → ObjectState β) (r : Ref) :
    (s.change os f).content r = if r = os then (s.heap os).map fun o => (f o).content else s.content r := by
  unfold content change
  by_cases hr : r = os
  · simp [hr, Function.comp_def]
  · simp [hr]

end AddressSpaces

open AddressSpaces

theorem Plain.get_change (m : Plain β) (i : ℕ) (mo : MemoryObject) (f : Option β → Option β) (j : ℕ)
    (address : BitVec pointerWidth) (h : (m.maps i).isSome = true) :
    ((m.change i mo f).maps j).bind (· address) =
      if j = i ∧ address = mo.address then f ((m.maps i).bind (· mo.address))
      else (m.maps j).bind (· address) := by
  obtain ⟨c, hc⟩ := Option.isSome_iff_exists.1 h
  unfold change
  by_cases hj : j = i
  · subst hj
    by_cases ha : address = mo.address
    · simp [ha, hc]
    · simp [ha, hc]
  · simp [hj]

theorem Plain.isSome_change (m : Plain β) (i : ℕ) (mo : MemoryObject) (f : Option β → Option β) (j : ℕ) :
    ((m.change i mo f).maps j).isSome = (m.maps j).isSome := by
  unfold change
  by_cases hj : j = i
  · subst hj
    simp
  · simp [hj]

/-! ### The invariant -/

/-- The keys of the spaces and the owners of the object states.  A space that owns an object state is the
only one that holds it, and an object state is held under one address. -/
structure Owned (s : AddressSpaces β) : Prop where
  freshRef : ∀ r, s.nextRef ≤ r → s.heap r = none
  owner : ∀ i address r, s.find i address = some r →
    ∃ o k, s.heap r = some o ∧ s.key i = some k ∧ o.copyOnWriteOwner.toNat ≤ k.toNat
  address : ∀ i j address address' r, s.find i address = some r → s.find j address' = some r →
    address = address'
  holder : ∀ i j address address' r o, s.find i address = some r → s.find j address' = some r →
    s.heap r = some o → s.key i = some o.copyOnWriteOwner → i = j

/-- Every space also holds what its plain map does. -/
structure Isolated (s : AddressSpaces β) (m : Plain β) : Prop extends Owned s where
  freshSpace : ∀ i, s.nextSpace ≤ i → (s.spaces i).isSome = false
  nextSpace : m.nextSpace = s.nextSpace
  spaces : ∀ i, (m.maps i).isSome = (s.spaces i).isSome
  held : ∀ i address, (m.maps i).bind (· address) = (s.find i address).bind s.content

namespace Owned

variable {s t : AddressSpaces β}

/-- A held object state is older than the next one. -/
theorem lt_nextRef (h : Owned s) {i : ℕ} {address : BitVec pointerWidth} {r : Ref}
    (hr : s.find i address = some r) : r < s.nextRef := by
  by_contra hge
  obtain ⟨o, k, ho, -⟩ := h.owner i address r hr
  rw [h.freshRef r (not_lt.1 hge)] at ho
  cases ho

/-- Spaces that hold less. -/
theorem restrict (h : Owned s) (hheap : t.heap = s.heap) (hnext : t.nextRef = s.nextRef)
    (hfind : ∀ {i address r}, t.find i address = some r →
      s.find i address = some r ∧ t.key i = s.key i) : Owned t := by
  refine ⟨fun r hr => ?_, fun i address r hr => ?_, fun i j _ _ r hi hj => ?_,
    fun i j _ _ r o hi hj ho hk => ?_⟩
  · rw [hheap]
    exact h.freshRef r (hnext ▸ hr)
  · rw [hheap, (hfind hr).2]
    exact h.owner i address r (hfind hr).1
  · exact h.address i j _ _ r (hfind hi).1 (hfind hj).1
  · rw [hheap] at ho
    rw [(hfind hi).2] at hk
    exact h.holder i j _ _ r o (hfind hi).1 (hfind hj).1 ho hk

end Owned

namespace Isolated

variable {s : AddressSpaces β} {m : Plain β} {i : ℕ} {space : AddressSpace}

theorem start : Isolated (AddressSpaces.start : AddressSpaces β) Plain.start where
  freshRef _ _ := rfl
  owner _ _ _ h := absurd h nofun
  address _ _ _ _ _ h := absurd h nofun
  holder _ _ _ _ _ _ h := absurd h nofun
  freshSpace _ _ := rfl
  nextSpace := rfl
  spaces _ := rfl
  held _ _ := rfl

theorem isSome_maps (h : Isolated s m) (hi : s.spaces i = some space) : (m.maps i).isSome = true := by
  rw [h.spaces, hi]
  rfl

theorem unbindObject (h : Isolated s m) (hi : s.spaces i = some space) (mo : MemoryObject) :
    Isolated (s.replace i space mo none) (m.change i mo fun _ => none) := by
  refine ⟨h.toOwned.restrict rfl rfl fun {j address r} hr => ?_, fun j hj => ?_, h.nextSpace, fun j => ?_,
    fun j address => ?_⟩
  · rw [find_replace hi] at hr
    split at hr
    · cases hr
    · exact ⟨hr, key_replace hi mo none j⟩
  · rw [isSome_replace hi]
    exact h.freshSpace j hj
  · rw [isSome_replace hi, Plain.isSome_change]
    exact h.spaces j
  · rw [Plain.get_change m i mo _ j address (h.isSome_maps hi), find_replace hi]
    split
    · rfl
    · exact h.held j address

/-- A new object state is held by its owner alone. -/
theorem install (h : Isolated s m) (hi : s.spaces i = some space) (mo : MemoryObject) {content : β}
    {f : Option β → Option β} (hf : f ((s.find i mo.address).bind s.content) = some content) :
    Isolated (s.install i space mo content) (m.change i mo f) := by
  have hi' : (s.allocate space.cowKey content).spaces i = some space := hi
  have hfind : ∀ j address, (s.install i space mo content).find j address =
      if j = i ∧ address = mo.address then some s.nextRef else s.find j address :=
    fun j address => find_replace hi' mo (some s.nextRef) j address
  have hkey : ∀ j, (s.install i space mo content).key j = s.key j :=
    fun j => key_replace hi' mo (some s.nextRef) j
  have hsome : ∀ j, ((s.install i space mo content).spaces j).isSome = (s.spaces j).isSome :=
    fun j => isSome_replace hi' mo (some s.nextRef) j
  have hheap : ∀ r, (s.install i space mo content).heap r =
      if r = s.nextRef then some ⟨space.cowKey, false, content⟩ else s.heap r :=
    fun r => Function.update_apply ..
  -- an object state is the new one, held at `mo` by the space `i`, or an old one
  have hcases : ∀ {j address r}, (s.install i space mo content).find j address = some r →
      (j = i ∧ address = mo.address ∧ r = s.nextRef) ∨ (s.find j address = some r ∧ r ≠ s.nextRef) := by
    intro j address r hr
    rw [hfind] at hr
    split at hr
    · rename_i hja
      cases hr
      exact .inl ⟨hja.1, hja.2, rfl⟩
    · exact .inr ⟨hr, (h.lt_nextRef hr).ne⟩
  refine ⟨⟨fun r hr => ?_, fun j address r hr => ?_, fun j l _ _ r hj hl => ?_,
    fun j l _ _ r o hj hl ho hk => ?_⟩, fun j hj => ?_, h.nextSpace, fun j => ?_, fun j address => ?_⟩
  · have hlt : s.nextRef < r := hr
    rw [hheap, if_neg hlt.ne']
    exact h.freshRef r hlt.le
  · rcases hcases hr with ⟨rfl, rfl, rfl⟩ | ⟨hold, hne⟩
    · refine ⟨_, space.cowKey, (hheap _).trans (if_pos rfl), ?_, le_rfl⟩
      rw [hkey, key, hi]
      rfl
    · obtain ⟨o, k, ho, hk, hle⟩ := h.owner j address r hold
      exact ⟨o, k, by rw [hheap, if_neg hne, ho], by rw [hkey, hk], hle⟩
  · rcases hcases hj with ⟨-, rfl, rfl⟩ | ⟨hj, hne⟩
    · rcases hcases hl with ⟨-, rfl, -⟩ | ⟨-, hne⟩
      · rfl
      · exact absurd rfl hne
    · rcases hcases hl with ⟨-, -, rfl⟩ | ⟨hl, -⟩
      · exact absurd rfl hne
      · exact h.address j l _ _ r hj hl
  · rcases hcases hj with ⟨rfl, -, rfl⟩ | ⟨hj, hne⟩
    · rcases hcases hl with ⟨rfl, -, -⟩ | ⟨-, hne⟩
      · rfl
      · exact absurd rfl hne
    · rcases hcases hl with ⟨-, -, rfl⟩ | ⟨hl, -⟩
      · exact absurd rfl hne
      · rw [hheap, if_neg hne] at ho
        rw [hkey] at hk
        exact h.holder j l _ _ r o hj hl ho hk
  · rw [hsome]
    exact h.freshSpace j hj
  · rw [hsome, Plain.isSome_change]
    exact h.spaces j
  · rw [Plain.get_change m i mo f j address (h.isSome_maps hi), hfind]
    split
    · rw [h.held, hf]
      simp [AddressSpaces.content, hheap]
    · rw [h.held]
      cases hr : s.find j address with
      | none => rfl
      | some r => simp [AddressSpaces.content, hheap, (h.lt_nextRef hr).ne]

/-- A write in place is seen by the owner alone. -/
theorem change (h : Isolated s m) (hi : s.spaces i = some space) {mo : MemoryObject} {r : Ref}
    {o : ObjectState β} (hr : s.find i mo.address = some r) (ho : s.heap r = some o)
    (howner : space.cowKey = o.copyOnWriteOwner) (f : β → β) :
    Isolated (s.change r fun o => { o with content := f o.content }) (m.change i mo (Option.map f)) := by
  have hheap : ∀ x, (s.change r fun o => { o with content := f o.content }).heap x =
      if x = r then some { o with content := f o.content } else s.heap x := by
    intro x
    show Function.update s.heap r _ x = _
    rw [Function.update_apply, ho]
    rfl
  have hkeyi : s.key i = some o.copyOnWriteOwner := by
    rw [key, hi, ← howner]
    rfl
  refine ⟨⟨fun x hx => ?_, fun j address x hx => ?_, h.address, fun j l _ _ x o' hj hl ho' hk => ?_⟩,
    h.freshSpace, h.nextSpace, fun j => ?_, fun j address => ?_⟩
  · rw [hheap, if_neg (lt_of_lt_of_le (h.lt_nextRef hr) hx).ne']
    exact h.freshRef x hx
  · obtain ⟨o', k, ho', hk, hle⟩ := h.owner j address x hx
    rw [hheap]
    split
    · rename_i hxr
      obtain rfl : o = o' := Option.some.inj (ho.symm.trans (hxr ▸ ho'))
      exact ⟨_, k, rfl, hk, hle⟩
    · exact ⟨o', k, ho', hk, hle⟩
  · rw [hheap] at ho'
    split at ho'
    · rename_i hxr
      cases ho'
      exact h.holder j l _ _ x o hj hl (hxr ▸ ho) hk
    · exact h.holder j l _ _ x o' hj hl ho' hk
  · rw [Plain.isSome_change]
    exact h.spaces j
  · have hfind : (s.change r fun o => { o with content := f o.content }).find j address =
      s.find j address := rfl
    rw [Plain.get_change m i mo _ j address (h.isSome_maps hi), hfind, h.held, h.held]
    split
    · rename_i hja
      rw [hja.1, hja.2, hr]
      simp [AddressSpaces.content, hheap, ho]
    · rename_i hja
      cases hx : s.find j address with
      | none => rfl
      | some x =>
        have hne : x ≠ r := by
          rintro rfl
          exact hja ⟨(h.holder i j _ _ x o hr hx ho hkeyi).symm, (h.address i j _ _ x hr hx).symm⟩
        simp [AddressSpaces.content, hheap, hne]

/-- A new, empty space. -/
theorem create (h : Isolated s m) : Isolated s.create (m.step .create) := by
  have hspaces : ∀ j, s.create.spaces j = if j = s.nextSpace then some ⟨1, fun _ => none⟩ else s.spaces j :=
    fun j => Function.update_apply ..
  have hmaps : ∀ j, (m.step .create).maps j = if j = s.nextSpace then some fun _ => none else m.maps j := by
    intro j
    rw [← h.nextSpace]
    exact Function.update_apply ..
  refine ⟨h.toOwned.restrict rfl rfl fun {j address r} hr => ?_, fun j hj => ?_,
    congrArg (· + 1) h.nextSpace, fun j => ?_, fun j address => ?_⟩
  · unfold find key at *
    rw [hspaces] at hr ⊢
    split at hr
    · cases hr
    · rename_i hj
      exact ⟨hr, by rw [if_neg hj]⟩
  · have hlt : s.nextSpace < j := hj
    rw [hspaces, if_neg hlt.ne']
    exact h.freshSpace j hlt.le
  · rw [hspaces, hmaps]
    split
    · rfl
    · exact h.spaces j
  · rw [hmaps]
    unfold find
    rw [hspaces]
    split
    · rfl
    · exact h.held j address

/-- A space that is gone. -/
theorem destroy (h : Isolated s m) (i : ℕ) : Isolated (s.destroy i) (m.step (.destroy i)) := by
  have hspaces : ∀ j, (s.destroy i).spaces j = if j = i then none else s.spaces j :=
    fun j => Function.update_apply ..
  have hmaps : ∀ j, (m.step (.destroy i)).maps j = if j = i then none else m.maps j :=
    fun j => Function.update_apply ..
  refine ⟨h.toOwned.restrict rfl rfl fun {j address r} hr => ?_, fun j hj => ?_, h.nextSpace, fun j => ?_,
    fun j address => ?_⟩
  · unfold find key at *
    rw [hspaces] at hr ⊢
    split at hr
    · cases hr
    · rename_i hj
      exact ⟨hr, by rw [if_neg hj]⟩
  · rw [hspaces]
    split
    · rfl
    · exact h.freshSpace j hj
  · rw [hspaces, hmaps]
    split
    · rfl
    · exact h.spaces j
  · rw [hmaps]
    unfold find
    rw [hspaces]
    split
    · rfl
    · exact h.held j address

/-- The flag `readOnly` is neither owner nor content. -/
theorem setReadOnly (h : Isolated s m) (os : Ref) (readOnly : Bool) :
    Isolated (s.change os fun o => { o with readOnly := readOnly }) m := by
  have hheap : ∀ x, (s.change os fun o => { o with readOnly := readOnly }).heap x =
      if x = os then (s.heap os).map fun o => { o with readOnly := readOnly } else s.heap x :=
    fun x => Function.update_apply ..
  have hcontent : (s.change os fun o => { o with readOnly := readOnly }).content = s.content := by
    funext x
    rw [content_change]
    split
    · rename_i hx
      rw [hx]
      rfl
    · rfl
  refine ⟨⟨fun x hx => ?_, fun j address x hx => ?_, h.address, fun j l _ _ x o hj hl ho hk => ?_⟩,
    h.freshSpace, h.nextSpace, h.spaces, fun j address => ?_⟩
  · rw [hheap]
    split
    · rename_i hxos
      rw [h.freshRef os (hxos ▸ hx)]
      rfl
    · exact h.freshRef x hx
  · obtain ⟨o, k, ho, hk, hle⟩ := h.owner j address x hx
    rw [hheap]
    split
    · rename_i hxos
      rw [← hxos, ho]
      exact ⟨_, k, rfl, hk, hle⟩
    · exact ⟨o, k, ho, hk, hle⟩
  · rw [hheap] at ho
    split at ho
    · rename_i hxos
      obtain ⟨o', ho', rfl⟩ := Option.map_eq_some_iff.1 ho
      exact h.holder j l _ _ x o' hj hl (hxos ▸ ho') hk
    · exact h.holder j l _ _ x o hj hl ho hk
  · rw [hcontent]
    exact h.held j address

/-- A copy: neither the source nor the copy owns anything, as long as the bumped key is new. -/
theorem copy (h : Isolated s m) {b : ℕ} (hb : s.spaces b = some space)
    (hwrap : space.cowKey.toNat + 1 < 2 ^ 32) {t : AddressSpaces β} (ht : s.copy b = some t) :
    Isolated t (m.step (.copy b)) := by
  have hnew : b ≠ s.nextSpace := by
    intro heq
    have hnone := h.freshSpace b heq.ge
    rw [hb] at hnone
    cases hnone
  have hbump : (space.cowKey + 1).toNat = space.cowKey.toNat + 1 := by
    rw [UInt32.toNat_add]
    exact Nat.mod_eq_of_lt hwrap
  rw [copy_eq hb] at ht
  cases ht
  set bumped : AddressSpace := { space with cowKey := space.cowKey + 1 } with hbumped
  set t : AddressSpaces β := { s with
    spaces := Function.update (Function.update s.spaces b (some bumped)) s.nextSpace (some bumped)
    nextSpace := s.nextSpace + 1 } with htdef
  have hspaces : ∀ j, t.spaces j =
      if j = s.nextSpace then some bumped else if j = b then some bumped else s.spaces j := by
    intro j
    rw [htdef]
    show Function.update _ _ _ j = _
    rw [Function.update_apply, Function.update_apply]
  have hmaps : ∀ j, (m.step (.copy b)).maps j = if j = s.nextSpace then m.maps b else m.maps j := by
    intro j
    rw [← h.nextSpace]
    exact Function.update_apply ..
  -- the source of an object state that the copy or any old space holds
  have hfind : ∀ j address, t.find j address = if j = s.nextSpace then s.find b address else s.find j address := by
    intro j address
    unfold find
    rw [hspaces]
    split
    · rw [hb]
      rfl
    · split
      · rename_i hjb
        rw [hjb, hb]
        rfl
      · rfl
  have hkey : ∀ j, t.key j = if j = s.nextSpace ∨ j = b then some (space.cowKey + 1) else s.key j := by
    intro j
    unfold key
    rw [hspaces]
    by_cases hj : j = s.nextSpace
    · simp [hj, hbumped]
    · by_cases hjb : j = b
      · simp [hjb, hbumped]
      · simp [hj, hjb]
  have hold : ∀ {address r}, s.find b address = some r →
      ∃ o, s.heap r = some o ∧ o.copyOnWriteOwner.toNat ≤ space.cowKey.toNat := by
    intro address r hr
    obtain ⟨o, k, ho, hk, hle⟩ := h.owner b address r hr
    rw [key, hb] at hk
    cases hk
    exact ⟨o, ho, hle⟩
  -- what the source or the copy holds has an older owner
  have hshared : ∀ {j address r}, j = s.nextSpace ∨ j = b → t.find j address = some r →
      s.find b address = some r := by
    intro j address r hj hr
    rw [hfind] at hr
    split at hr
    · exact hr
    · rename_i hne
      rwa [hj.resolve_left hne] at hr
  refine ⟨⟨h.freshRef, fun j address r hr => ?_, fun j l _ _ r hj hl => ?_,
    fun j l _ _ r o hj hl ho hk => ?_⟩, fun j hj => ?_, congrArg (· + 1) h.nextSpace, fun j => ?_,
    fun j address => ?_⟩
  · rw [hkey]
    by_cases hj : j = s.nextSpace ∨ j = b
    · obtain ⟨o, ho, hle⟩ := hold (hshared hj hr)
      exact ⟨o, _, ho, if_pos hj, by omega⟩
    · rw [hfind, if_neg fun heq => hj (.inl heq)] at hr
      rw [if_neg hj]
      exact h.owner j address r hr
  · rw [hfind] at hj hl
    split at hj <;> split at hl <;> exact h.address _ _ _ _ r hj hl
  · rw [hkey] at hk
    by_cases hjb : j = s.nextSpace ∨ j = b
    · obtain ⟨o', ho', hle⟩ := hold (hshared hjb hj)
      obtain rfl : o = o' := Option.some.inj (ho.symm.trans ho')
      rw [if_pos hjb] at hk
      have := congrArg UInt32.toNat (Option.some.inj hk)
      omega
    · rw [if_neg hjb] at hk
      rw [hfind, if_neg fun heq => hjb (.inl heq)] at hj
      rw [hfind] at hl
      split at hl
      · exact absurd (h.holder j b _ _ r o hj hl ho hk) fun heq => hjb (.inr heq)
      · exact h.holder j l _ _ r o hj hl ho hk
  · have hlt : s.nextSpace < j := hj
    have hjb : j ≠ b := by
      rintro rfl
      have hnone := h.freshSpace j hlt.le
      rw [hb] at hnone
      cases hnone
    rw [hspaces, if_neg hlt.ne', if_neg hjb]
    exact h.freshSpace j hlt.le
  · rw [hspaces, hmaps]
    split
    · exact h.isSome_maps hb
    · split
      · rename_i hjb
        rw [hjb]
        exact h.isSome_maps hb
      · exact h.spaces j
  · rw [hmaps, hfind]
    split
    · exact h.held b address
    · exact h.held j address

end Isolated

/-! ### Whole runs -/

section
variable {s t : AddressSpaces β} {m : Plain β} {i : ℕ} {mo : MemoryObject}

/-- The new object state is allocated without an owner and owned when it is bound. -/
theorem AddressSpaces.bindObjectInState_cases {content : β} (h : s.bindObjectInState i mo content = some t) :
    ∃ space, s.spaces i = some space ∧ t = s.install i space mo content := by
  unfold bindObjectInState bindObject at h
  have hspaces : (s.allocate 0 content).spaces i = s.spaces i := rfl
  cases hi : s.spaces i with
  | none => simp [hspaces, hi] at h
  | some space =>
    refine ⟨space, rfl, ?_⟩
    simp only [hi, allocate, Function.update_self, Option.bind_eq_bind, Option.bind_some,
      if_true, Option.pure_def, Option.some.injEq] at h
    rw [← h]
    simp [install, allocate, replace, AddressSpaces.change]

/-- A write: in place for the owner, to a new object state otherwise. -/
theorem AddressSpaces.write_cases {f : β → β} (h : s.write i mo f = some t) :
    ∃ space r o, s.spaces i = some space ∧ s.find i mo.address = some r ∧ s.heap r = some o ∧
      ((space.cowKey = o.copyOnWriteOwner ∧ t = s.change r fun o => { o with content := f o.content }) ∨
        t = s.install i space mo (f o.content)) := by
  unfold AddressSpaces.write findObject getWriteable at h
  cases hi : s.spaces i with
  | none => simp [hi] at h
  | some space =>
    cases hr : space.objects mo.address with
    | none => simp [hi, hr] at h
    | some r =>
      cases ho : s.heap r with
      | none => simp [hi, hr, ho] at h
      | some o =>
        refine ⟨space, r, o, rfl, by simp [find, hi, hr], ho, ?_⟩
        simp only [hi, hr, ho, Option.bind_eq_bind, Option.bind_some, Option.pure_def] at h
        cases hro : o.readOnly with
        | true => simp [hro] at h
        | false =>
          by_cases hkey : space.cowKey = o.copyOnWriteOwner
          · simp only [hro, hkey, Bool.false_eq_true, if_false, if_true, Option.bind_some,
              Option.some.injEq] at h
            exact .inl ⟨hkey, h.symm⟩
          · simp only [hro, hkey, Bool.false_eq_true, if_false, Option.bind_some,
              Option.some.injEq] at h
            refine .inr (h.symm.trans ?_)
            simp [install, allocate, replace, AddressSpaces.change]

/-- The key of the source of a copy does not wrap around. -/
def NoWrap (s : AddressSpaces β) : Action β → Prop
  | .copy b => ∀ k, s.key b = some k → k.toNat + 1 < 2 ^ 32
  | _ => True

theorem Isolated.write (h : Isolated s m) {f : β → β} (ht : s.write i mo f = some t) :
    Isolated t (m.step (.write i mo f)) := by
  obtain ⟨space, r, o, hi, hr, ho, hcases⟩ := write_cases ht
  rcases hcases with ⟨howner, rfl⟩ | rfl
  · exact h.change hi hr ho howner f
  · refine h.install hi mo ?_
    simp [hr, AddressSpaces.content, ho]

/-- **One operation.** -/
theorem Isolated.step (h : Isolated s m) {action : Action β} (hguard : NoWrap s action)
    (ht : s.step action = some t) : Isolated t (m.step action) := by
  cases action with
  | create =>
    cases ht
    exact h.create
  | copy b =>
    have hsome : s.copy b = some t := ht
    unfold AddressSpaces.copy at hsome
    cases hb : s.spaces b with
    | none => simp [hb] at hsome
    | some space =>
      have hkey : s.key b = some space.cowKey := by
        rw [key, hb]
        rfl
      exact h.copy hb (hguard _ hkey) ht
  | destroy i =>
    cases ht
    exact h.destroy i
  | setReadOnly os readOnly =>
    cases ht
    exact h.setReadOnly os readOnly
  | bindObject i mo content =>
    obtain ⟨space, hi, rfl⟩ := bindObjectInState_cases ht
    exact h.install hi mo (f := fun _ => some content) rfl
  | unbindObject i mo =>
    have hsome : s.unbindObject i mo = some t := ht
    unfold AddressSpaces.unbindObject at hsome
    cases hi : s.spaces i with
    | none => simp [hi] at hsome
    | some space =>
      simp only [hi, Option.bind_eq_bind, Option.bind_some, Option.pure_def, Option.some.injEq] at hsome
      rw [← hsome]
      exact h.unbindObject hi mo
  | write i mo f => exact h.write ht

/-- What a space reads is what its plain map holds. -/
theorem Isolated.read_eq (h : Isolated s m) (i : ℕ) (mo : MemoryObject) : s.read i mo = m.read i mo := by
  rw [AddressSpaces.read_eq]
  exact (h.held i mo.address).symm

/-- The address spaces and their plain maps, side by side. -/
def stepBoth (sm : AddressSpaces β × Plain β) (action : Action β) : Option (AddressSpaces β × Plain β) :=
  (sm.1.step action).map fun t => (t, sm.2.step action)

/-- **Isolation.**  In every run in which no key wraps around, every space reads what its own plain map
holds: its own last writes and those of its ancestors before the fork.  A further write through a space is
read back through it and leaves what any other space, or the space at any other address, reads as it is. -/
theorem read_eq_plain (hrun : Run stepBoth (fun sm action => NoWrap sm.1 action) (.start, .start) (s, m)) :
    (∀ i mo, s.read i mo = m.read i mo) ∧
    ∀ i mo f t, s.write i mo f = some t → t.read i mo = (s.read i mo).map f ∧
      ∀ j mo', j ≠ i ∨ mo'.address ≠ mo.address → t.read j mo' = s.read j mo' := by
  have h : Isolated s m := by
    refine hrun.invariant (I := fun sm => Isolated sm.1 sm.2) (fun sm action tm hsm hguard hstep => ?_) .start
    obtain ⟨t, ht, rfl⟩ := Option.map_eq_some_iff.1 hstep
    exact hsm.step hguard ht
  refine ⟨h.read_eq, fun i mo f t ht => ?_⟩
  have hget : ∀ j mo', t.read j mo' = ((m.change i mo (Option.map f)).maps j).bind (· mo'.address) :=
    (h.write ht).read_eq
  obtain ⟨space, -, -, hi, -⟩ := write_cases ht
  have hsome := h.isSome_maps hi
  refine ⟨?_, fun j mo' hne => ?_⟩
  · rw [hget, Plain.get_change m i mo _ i mo.address hsome, if_pos ⟨rfl, rfl⟩, h.read_eq]
    rfl
  · rw [hget, Plain.get_change m i mo _ j mo'.address hsome, h.read_eq,
      if_neg fun heq => hne.elim (· heq.1) (· heq.2)]
    rfl

end

/-! ### A fork, and a key that wraps around -/

/-- A memory object. -/
def page : MemoryObject :=
  ⟨0x200000#64, 16, none, MemoryObject.sixteen_lt, MemoryObject.sixteen_le, MemoryObject.symsize_none⟩

/-- The space and its copy after a fork: they hold the object state 0. -/
def shared : AddressSpace := ⟨2, Function.update (fun _ => none) page.address (some 0)⟩

/-- A space with one object of content 0, and its copy. -/
theorem run_forked : ∃ sm : AddressSpaces ℕ × Plain ℕ,
    Run stepBoth (fun sm action => NoWrap sm.1 action) (.start, .start) sm ∧
      sm.1.spaces 0 = some shared ∧ sm.1.spaces 1 = some shared ∧ sm.1.heap 0 = some ⟨1, false, 0⟩ ∧
      sm.2.read 1 page = some 0 ∧ 1 < sm.1.nextSpace ∧ 1 < sm.2.nextSpace := by
  refine ⟨_, .step (.copy 0) (.step (.bindObject 0 page 0) (.step .create .refl trivial rfl) trivial rfl)
    ?_ rfl, rfl, rfl, rfl, rfl, Nat.lt_succ_self 1, Nat.lt_succ_self 1⟩
  intro k hk
  cases hk
  decide

theorem read_eq_plain_forked : ∃ (s t : AddressSpaces ℕ) (m : Plain ℕ),
    Run stepBoth (fun sm action => NoWrap sm.1 action) (.start, .start) (s, m) ∧
      s.write 0 page (fun _ => 1) = some t ∧ t.read 1 page = some 0 := by
  obtain ⟨⟨s, m⟩, hrun, hzero, hone, hheap, -⟩ := run_forked
  have hone' : s.spaces 1 = some shared := hone
  have hwrite : ∃ t, s.write 0 page (fun _ => 1) = some t := by
    simp_all [AddressSpaces.write, AddressSpaces.findObject, AddressSpaces.getWriteable, shared]
  obtain ⟨t, ht⟩ := hwrite
  refine ⟨s, t, m, hrun, ht, ?_⟩
  rw [((read_eq_plain hrun).2 0 page (fun _ => 1) t ht).2 1 page (.inl (by decide))]
  simp_all [AddressSpaces.read, AddressSpaces.findObject, shared]

/-- Copies of the first space bump its key and change nothing else that it or the second space holds. -/
theorem run_copies (n : ℕ) {sm : AddressSpaces ℕ × Plain ℕ} {space : AddressSpace}
    (h₀ : sm.1.spaces 0 = some space) (hs : 1 < sm.1.nextSpace) (hm : 1 < sm.2.nextSpace) :
    ∃ tm, Run stepBoth (fun _ _ => True) sm tm ∧ tm.1.heap = sm.1.heap ∧
      tm.1.spaces 0 = some { space with cowKey := space.cowKey + UInt32.ofNat n } ∧
      tm.1.spaces 1 = sm.1.spaces 1 ∧ tm.2.maps 1 = sm.2.maps 1 ∧ 1 < tm.1.nextSpace ∧
      1 < tm.2.nextSpace := by
  induction n with
  | zero => exact ⟨sm, .refl, rfl, by simpa using h₀, rfl, rfl, hs, hm⟩
  | succ n ih =>
    obtain ⟨⟨t, m⟩, hrun, hheap, hzero, hone, hmaps, hs', hm'⟩ := ih
    have hzero' : t.spaces 0 = some { space with cowKey := space.cowKey + UInt32.ofNat n } := hzero
    have hs0 : (0 : ℕ) ≠ t.nextSpace := Nat.ne_of_lt (Nat.lt_of_succ_lt hs')
    have hs1 : (1 : ℕ) ≠ t.nextSpace := Nat.ne_of_lt hs'
    have hm1 : (1 : ℕ) ≠ m.nextSpace := Nat.ne_of_lt hm'
    have hcopy : ∃ u, t.copy 0 = some u ∧ u.heap = t.heap ∧ u.nextSpace = t.nextSpace + 1 ∧
        u.spaces 0 = some { space with cowKey := space.cowKey + UInt32.ofNat (n + 1) } ∧
        u.spaces 1 = t.spaces 1 := by
      refine ⟨_, copy_eq hzero', rfl, rfl, ?_, ?_⟩
      · simp [hs0, UInt32.add_assoc, UInt32.ofNat_add]
      · simp [hs1]
    obtain ⟨u, hu, huheap, hunext, huzero, huone⟩ := hcopy
    have hstep : stepBoth (t, m) (.copy 0) = some (u, m.step (.copy 0)) := by
      simp [stepBoth, AddressSpaces.step, hu]
    refine ⟨(u, m.step (.copy 0)), .step (.copy 0) hrun trivial hstep, huheap.trans hheap, huzero,
      huone.trans hone, (Function.update_of_ne hm1 ..).trans hmaps, ?_, Nat.lt_succ_of_lt hm'⟩
    show 1 < u.nextSpace
    rw [hunext]
    exact Nat.lt_succ_of_lt hs'

/-- **A wrapped key breaks the isolation.**  After `2 ^ 32 - 1` further copies the key of the first space is
again the owner of the object state that it shares with the second, which sees the next write. -/
theorem wrappedKey_not_isolated : ∃ (s : AddressSpaces ℕ) (m : Plain ℕ),
    Run stepBoth (fun _ _ => True) (.start, .start) (s, m) ∧ s.read 1 page ≠ m.read 1 page := by
  obtain ⟨sm, hfork, hzero, hone, hheap, hmap, hs, hm⟩ := run_forked
  obtain ⟨⟨t, m⟩, hrun, hheap', hzero', hone', hmaps', -⟩ := run_copies (2 ^ 32 - 1) hzero hs hm
  have hkey : (2 : UInt32) + UInt32.ofNat (2 ^ 32 - 1) = 1 := by decide
  have hheap0 : t.heap 0 = some ⟨1, false, 0⟩ := by rw [← hheap, ← hheap']
  have hspace0 : t.spaces 0 = some { shared with cowKey := 1 } := by rw [← hkey]; exact hzero'
  have hspace1 : t.spaces 1 = some shared := hone'.trans hone
  have hmap1 : m.read 1 page = some 0 := by
    rw [← hmap]
    unfold Plain.read
    rw [← hmaps']
  have hwrite : t.write 0 page (fun _ => 1) =
      some (t.change 0 fun o => { o with content := 1 }) := by
    simp [AddressSpaces.write, AddressSpaces.findObject, AddressSpaces.getWriteable, hspace0, hheap0, shared]
  have hstep : stepBoth (t, m) (.write 0 page fun _ => 1) =
      some (t.change 0 fun o => { o with content := 1 }, m.step (.write 0 page fun _ => 1)) := by
    simp [stepBoth, AddressSpaces.step, hwrite]
  refine ⟨_, _, .step _ ((hfork.weaken fun _ _ _ => trivial).trans hrun) trivial hstep, ?_⟩
  have hread : (t.change 0 fun o => { o with content := 1 }).read 1 page = some 1 := by
    simp [AddressSpaces.read, AddressSpaces.findObject, AddressSpaces.change, hspace1, hheap0, shared]
  have hplain : (m.step (.write 0 page fun _ => 1)).read 1 page = m.read 1 page := by
    simp [Plain.read, Plain.step, Plain.change]
  rw [hread, hplain, hmap1]
  decide

end CopyOnWrite

end SymBisect
