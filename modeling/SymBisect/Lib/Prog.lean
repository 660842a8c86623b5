import Mathlib.Logic.Basic

/-!
# Programs that may abort

`Prog σ α` is a program on a state `σ` with a value in `α`.  A failed assertion, a fatal error or a bad
dereference aborts it; the state in which it aborts is kept, so that a property of every moment of a run
can be stated about aborted runs too.

* `Prog.wp m Q E s`: started in `s`, `m` ends in `Q` or aborts in `E`.
* `Prog.Keeps I m`: `m` keeps the invariant `I`, also when it aborts.
-/

namespace SymBisect.Lib

universe u

/-- A program on the state `σ`: a value, or nothing when it aborts, and the state it stops in. -/
def Prog (σ α : Type u) := σ → Option α × σ

namespace Prog

variable {σ α β γ : Type u}

/-- Stop here. -/
def abort : Prog σ α := fun s => (none, s)

/-- The current state. -/
def get : Prog σ σ := fun s => (some s, s)

/-- A function of the current state. -/
def gets (f : σ → α) : Prog σ α := fun s => (some (f s), s)

/-- Change the state. -/
def modify (f : σ → σ) : Prog σ PUnit := fun s => (some ⟨⟩, f s)

/-- The value of `m`, then the program it selects. -/
def andThen (m : Prog σ α) (k : α → Prog σ β) : Prog σ β := fun s =>
  match m s with
  | (some a, t) => k a t
  | (none, t) => (none, t)

instance : Monad (Prog σ) where
  pure a := fun s => (some a, s)
  bind := andThen

/-- `m` if `c` holds. -/
def when (c : Prop) [Decidable c] (m : Prog σ PUnit) : Prog σ PUnit := if c then m else pure ⟨⟩

/-- Abort unless `c` holds. -/
def assert (c : Prop) [Decidable c] : Prog σ PUnit := if c then pure ⟨⟩ else abort

/-- The value of `o`, or abort. -/
def unwrap : Option α → Prog σ α
  | some a => pure a
  | none => abort

/-- `f` on every element, from the first to the last. -/
def each {ι : Type*} (f : ι → Prog σ PUnit) : List ι → Prog σ PUnit
  | [] => pure ⟨⟩
  | i :: is => f i >>= fun _ => each f is

/-- The state after the program, or nothing when it aborts. -/
def next (m : Prog σ α) (s : σ) : Option σ := (m s).1.map fun _ => (m s).2

/-- Sequencing is associative. -/
theorem bind_assoc (m : Prog σ α) (k : α → Prog σ β) (l : β → Prog σ γ) :
    m >>= k >>= l = m >>= fun a => k a >>= l := by
  funext s
  show andThen (andThen m k) l s = andThen m (fun a => andThen (k a) l) s
  unfold andThen
  cases m s with
  | mk o t =>
    cases o with
    | none => rfl
    | some a => rfl

/-- A program that starts with a computation whose result is known continues from there. -/
theorem bind_of_result {m : Prog σ α} {k : α → Prog σ β} {s t : σ} {a : α} (h : m s = (some a, t)) :
    (m >>= k) s = k a t := by
  show andThen m k s = _
  rw [andThen, h]

/-- A loop over two lists is one loop after the other. -/
theorem each_append {ι : Type*} (f : ι → Prog σ PUnit) (is js : List ι) :
    each f (is ++ js) = each f is >>= fun _ => each f js := by
  induction is with
  | nil => rfl
  | cons i is ih =>
    show f i >>= (fun _ => each f (is ++ js)) = (f i >>= fun _ => each f is) >>= fun _ => each f js
    rw [ih, bind_assoc]

/-! ### Where a program ends -/

/-- Started in `s`, `m` ends with a value and a state in `Q`, or aborts in a state in `E`. -/
def wp (m : Prog σ α) (Q : α → σ → Prop) (E : σ → Prop) (s : σ) : Prop :=
  match m s with
  | (some a, t) => Q a t
  | (none, t) => E t

variable {m : Prog σ α} {k : α → Prog σ β} {Q Q' : α → σ → Prop} {R : β → σ → Prop} {E E' : σ → Prop}
  {s : σ}

@[simp] theorem wp_pure (a : α) : wp (pure a : Prog σ α) Q E s ↔ Q a s := Iff.rfl

@[simp] theorem wp_abort : wp (abort : Prog σ α) Q E s ↔ E s := Iff.rfl

@[simp] theorem wp_get {Q : σ → σ → Prop} : wp get Q E s ↔ Q s s := Iff.rfl

@[simp] theorem wp_gets (f : σ → α) : wp (gets f) Q E s ↔ Q (f s) s := Iff.rfl

@[simp] theorem wp_modify (f : σ → σ) {Q : PUnit → σ → Prop} : wp (modify f) Q E s ↔ Q ⟨⟩ (f s) :=
  Iff.rfl

@[simp] theorem wp_bind : wp (m >>= k) R E s ↔ wp m (fun a => wp (k a) R E) E s := by
  show wp (andThen m k) R E s ↔ _
  unfold wp andThen
  cases m s with
  | mk o t =>
    cases o with
    | none => exact Iff.rfl
    | some a => exact Iff.rfl

theorem wp_ite {c : Prop} [Decidable c] {m' : Prog σ α} :
    wp (if c then m else m') Q E s ↔ (c → wp m Q E s) ∧ (¬c → wp m' Q E s) := by
  by_cases h : c
  · simp [h]
  · simp [h]

@[simp] theorem wp_when {c : Prop} [Decidable c] {m : Prog σ PUnit} {Q : PUnit → σ → Prop} :
    wp (when c m) Q E s ↔ (c → wp m Q E s) ∧ (¬c → Q ⟨⟩ s) := wp_ite

@[simp] theorem wp_assert {c : Prop} [Decidable c] {Q : PUnit → σ → Prop} :
    wp (assert c) Q E s ↔ (c → Q ⟨⟩ s) ∧ (¬c → E s) := wp_ite

theorem wp_unwrap {o : Option α} : wp (unwrap o) Q E s ↔ (∀ a, o = some a → Q a s) ∧ (o = none → E s) := by
  cases o with
  | none => simp [unwrap]
  | some a => simp [unwrap]

/-- Where the ends can be told apart, a run of the program decides. -/
instance wp.decidable [∀ a t, Decidable (Q a t)] [∀ t, Decidable (E t)] : Decidable (wp m Q E s) :=
  match h : m s with
  | (some a, t) => decidable_of_iff (Q a t) (by unfold wp; rw [h])
  | (none, t) => decidable_of_iff (E t) (by unfold wp; rw [h])

theorem wp.mono (h : wp m Q E s) (hQ : ∀ a t, Q a t → Q' a t) (hE : ∀ t, E t → E' t) :
    wp m Q' E' s := by
  unfold wp at h ⊢
  revert h
  cases m s with
  | mk o t =>
    cases o with
    | none => exact hE t
    | some a => exact hQ a t

/-- Sequencing: what the first program guarantees is what the second one starts from. -/
theorem wp.bind (h : wp m Q E s) (hk : ∀ a t, Q a t → wp (k a) R E t) : wp (m >>= k) R E s :=
  wp_bind.2 (h.mono hk fun _ h => h)

/-- A program whose result is known. -/
theorem wp.of_result {a : α} {t : σ} (h : m s = (some a, t)) (hQ : Q a t) : wp m Q E s := by
  unfold wp
  rw [h]
  exact hQ

/-- A program that starts with a computation whose result is known. -/
theorem wp.step {a : α} {t : σ} (h : m s = (some a, t)) (hk : wp (k a) R E t) : wp (m >>= k) R E s :=
  wp_bind.2 (wp.of_result h hk)

/-- A program that cannot abort has a result. -/
theorem wp.exists_result (h : wp m Q (fun _ => False) s) : ∃ a t, m s = (some a, t) ∧ Q a t := by
  unfold wp at h
  revert h
  cases m s with
  | mk o t =>
    cases o with
    | none => exact False.elim
    | some a => exact fun h => ⟨a, t, rfl, h⟩

/-- What is guaranteed of a program holds of the result it computes. -/
theorem wp.of_eq (h : wp m Q E s) {a : α} {t : σ} (hm : m s = (some a, t)) : Q a t := by
  unfold wp at h
  rwa [hm] at h

/-- What is guaranteed of a program holds in the state after it. -/
theorem wp.of_next (h : wp m Q E s) {t : σ} (hm : next m s = some t) : ∃ a, Q a t := by
  unfold next at hm
  cases hres : m s with
  | mk o u =>
    cases o with
    | none => simp [hres] at hm
    | some a =>
      obtain rfl : u = t := by simpa [hres] using hm
      exact ⟨a, h.of_eq hres⟩

theorem wp.and (h : wp m Q E s) (h' : wp m Q' E' s) :
    wp m (fun a t => Q a t ∧ Q' a t) (fun t => E t ∧ E' t) s := by
  unfold wp at h h' ⊢
  revert h h'
  cases m s with
  | mk o t =>
    cases o with
    | none => exact And.intro
    | some a => exact And.intro

/-- A loop that keeps `I` and establishes `P i` for every element `i` it has been at. -/
theorem wp.each {ι : Type*} {I : σ → Prop} {P : ι → σ → Prop} {f : ι → Prog σ PUnit} (is : List ι)
    (hf : ∀ i ∈ is, ∀ t, I t → wp (f i) (fun _ u => I u ∧ P i u ∧ ∀ j, P j t → P j u) E t) (hs : I s) :
    wp (each f is) (fun _ u => I u ∧ (∀ i ∈ is, P i u) ∧ ∀ j, P j s → P j u) E s := by
  induction is generalizing s with
  | nil => exact ⟨hs, fun i hi => absurd hi List.not_mem_nil, fun j h => h⟩
  | cons i is ih =>
    refine (hf i List.mem_cons_self s hs).bind fun _ t ht => ?_
    obtain ⟨hI, hi, hkeep⟩ := ht
    refine (ih (fun j hj => hf j (List.mem_cons_of_mem _ hj)) hI).mono ?_ fun _ h => h
    intro _ u hu
    obtain ⟨hI', his, hkeep'⟩ := hu
    refine ⟨hI', fun j hj => ?_, fun j hj => hkeep' j (hkeep j hj)⟩
    obtain rfl | hj := List.mem_cons.1 hj
    · exact hkeep' _ hi
    · exact his j hj

/-- A counting loop whose `i`-th turn takes `I i` to `I (i + 1)`. -/
theorem wp.range {I : Nat → σ → Prop} {f : Nat → Prog σ PUnit} (n : Nat)
    (hf : ∀ i < n, ∀ t, I i t → wp (f i) (fun _ u => I (i + 1) u) E t) (hs : I 0 s) :
    wp (Prog.each f (List.range n)) (fun _ t => I n t) E s := by
  have hfrom : ∀ (m k : Nat) (t : σ), k + m = n → I k t → wp (Prog.each f (List.range' k m)) (fun _ t => I n t) E t := by
    intro m
    induction m with
    | zero =>
      intro k t hk ht
      obtain rfl : k = n := hk
      exact ht
    | succ m ih =>
      intro k t hk ht
      refine (hf k (by omega) t ht).bind fun _ u hu => ?_
      exact ih (k + 1) u (by omega) hu
  rw [List.range_eq_range']
  exact hfrom n 0 s (Nat.zero_add n) hs

/-! ### Invariants -/

/-- `m` keeps `I`, whether it ends or aborts. -/
def Keeps (I : σ → Prop) (m : Prog σ α) : Prop := ∀ s, I s → wp m (fun _ => I) I s

namespace Keeps

variable {I : σ → Prop}

theorem pure (a : α) : Keeps I (pure a : Prog σ α) := fun _ h => h

theorem abort : Keeps I (abort : Prog σ α) := fun _ h => h

theorem gets (f : σ → α) : Keeps I (gets f) := fun _ h => h

theorem get : Keeps I (get : Prog σ σ) := fun _ h => h

theorem modify {f : σ → σ} (h : ∀ s, I s → I (f s)) : Keeps I (modify f) := h

theorem bind (hm : Keeps I m) (hk : ∀ a, Keeps I (k a)) : Keeps I (m >>= k) :=
  fun s h => (hm s h).bind fun a t ht => hk a t ht

theorem ite {c : Prop} [Decidable c] {m' : Prog σ α} (hm : Keeps I m) (hm' : Keeps I m') :
    Keeps I (if c then m else m') := by
  by_cases h : c
  · simpa [h] using hm
  · simpa [h] using hm'

theorem when {c : Prop} [Decidable c] {m : Prog σ PUnit} (hm : Keeps I m) : Keeps I (when c m) :=
  hm.ite (pure _)

theorem assert {c : Prop} [Decidable c] : Keeps I (assert c : Prog σ PUnit) :=
  (pure _).ite abort

theorem unwrap (o : Option α) : Keeps I (unwrap o : Prog σ α) := by
  cases o with
  | none => exact abort
  | some a => exact pure a

theorem each {ι : Type*} {f : ι → Prog σ PUnit} (hf : ∀ i, Keeps I (f i)) (is : List ι) :
    Keeps I (each f is) := by
  induction is with
  | nil => exact pure _
  | cons i is ih => exact (hf i).bind fun _ => ih

theorem and {J : σ → Prop} (hI : Keeps I m) (hJ : Keeps J m) : Keeps (fun s => I s ∧ J s) m :=
  fun s h => (hI s h.1).and (hJ s h.2)

/-- The state in which a program that keeps `I` stops. -/
theorem snd (hm : Keeps I m) (h : I s) : I (m s).2 := by
  have hwp := hm s h
  unfold wp at hwp
  revert hwp
  cases m s with
  | mk o t =>
    cases o with
    | none => exact id
    | some a => exact id

end Keeps

/-! ### Two programs side by side -/

/-- Started in related states, both programs end, with the same value and in related states. -/
def Lockstep {τ : Type u} (R : σ → τ → Prop) (m : Prog σ α) (m' : Prog τ α) : Prop :=
  ∀ s t, R s t → ∃ a s' t', m s = (some a, s') ∧ m' t = (some a, t') ∧ R s' t'

namespace Lockstep

variable {τ : Type u} {R : σ → τ → Prop} {m' : Prog τ α} {k' : α → Prog τ β}

theorem pure (a : α) : Lockstep R (pure a : Prog σ α) (Pure.pure a : Prog τ α) :=
  fun s t h => ⟨a, s, t, rfl, rfl, h⟩

theorem modify {f : σ → σ} {g : τ → τ} (h : ∀ s t, R s t → R (f s) (g t)) :
    Lockstep R (modify f) (Prog.modify g) :=
  fun s t hst => ⟨⟨⟩, f s, g t, rfl, rfl, h s t hst⟩

theorem gets {f : σ → α} {g : τ → α} (h : ∀ s t, R s t → f s = g t) : Lockstep R (gets f) (Prog.gets g) :=
  fun s t hst => ⟨f s, s, t, rfl, by rw [h s t hst]; rfl, hst⟩

theorem bind (hm : Lockstep R m m') (hk : ∀ a, Lockstep R (k a) (k' a)) :
    Lockstep R (m >>= k) (m' >>= k') := by
  intro s t hst
  obtain ⟨a, s', t', hs, ht, hst'⟩ := hm s t hst
  obtain ⟨b, s'', t'', hs', ht', hst''⟩ := hk a s' t' hst'
  refine ⟨b, s'', t'', ?_, ?_, hst''⟩
  · show andThen m k s = _
    rw [andThen, hs]
    exact hs'
  · show andThen m' k' t = _
    rw [andThen, ht]
    exact ht'

theorem ite {c : Prop} [Decidable c] {n : Prog σ α} {n' : Prog τ α} (hm : Lockstep R m m')
    (hn : Lockstep R n n') : Lockstep R (if c then m else n) (if c then m' else n') := by
  by_cases h : c
  · simpa [h] using hm
  · simpa [h] using hn

end Lockstep

end Prog

end SymBisect.Lib
