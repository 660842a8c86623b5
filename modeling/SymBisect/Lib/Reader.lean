import Mathlib

/-!
# Readers of byte strings

A reader takes a byte string and returns a value and the rest of the string, or rejects it; or it does something
undefined, such as writing past the end of a buffer.

* `Reads read G U`: the reader returns `a` on exactly the strings that start with a text of `a` (`G`), and is
  undefined on exactly those of `U`.
* `Reads.andThen`, `Reads.many`: one reader after the other, and one reader several times.
* `word_eq`, `word_parts`: 32-bit words and their four bytes.
-/

namespace SymBisect.Lib

abbrev Byte := BitVec 8

/-- What a reader does. -/
inductive Outcome (α : Type) where
  | value (a : α) (rest : List Byte)
  | null
  | undefined

namespace Outcome

variable {α β : Type}

/-- A second reader on what the first one leaves. -/
def andThen (o : Outcome α) (k : α → List Byte → Outcome β) : Outcome β :=
  match o with
  | .value a rest => k a rest
  | .null => .null
  | .undefined => .undefined

/-- Another value. -/
def map (f : α → β) (o : Outcome α) : Outcome β := o.andThen fun a rest => .value (f a) rest

end Outcome

/-- Read `n` times. -/
def readMany {α : Type} (read : List Byte → Outcome α) : (n : ℕ) → List Byte → Outcome { l : List α // l.length = n }
  | 0, f => .value ⟨[], rfl⟩ f
  | n + 1, f =>
    (read f).andThen fun a f =>
      (readMany read n f).map fun l => ⟨a :: l.1, congrArg (· + 1) l.2⟩

variable {α β : Type}

/-- What a reader returns, and where it is undefined. -/
structure Reads (read : List Byte → Outcome α) (G : List Byte → α → Prop) (U : List Byte → Prop) : Prop where
  value : ∀ f a rest, read f = .value a rest ↔ ∃ g, f = g ++ rest ∧ G g a
  undefined : ∀ f, read f = .undefined ↔ U f

namespace Reads

variable {read : List Byte → Outcome α} {G : List Byte → α → Prop} {U : List Byte → Prop}

theorem congr {G' : List Byte → α → Prop} {U' : List Byte → Prop} (h : Reads read G U) (hG : ∀ g a, G g a ↔ G' g a)
    (hU : ∀ f, U f ↔ U' f) : Reads read G' U' := by
  constructor
  · intro f a rest
    rw [h.value f a rest]
    simp only [hG]
  · intro f
    rw [h.undefined f, hU f]

/-- A text, then another one that may depend on the value of the first. -/
theorem andThen {k : α → List Byte → Outcome β} {G' : α → List Byte → β → Prop} {U' : α → List Byte → Prop}
    (h : Reads read G U) (hk : ∀ a, Reads (k a) (G' a) (U' a)) :
    Reads (fun f => (read f).andThen k) (fun g b => ∃ g₁ a g₂, g = g₁ ++ g₂ ∧ G g₁ a ∧ G' a g₂ b)
      (fun f => U f ∨ ∃ g₁ a f₂, f = g₁ ++ f₂ ∧ G g₁ a ∧ U' a f₂) := by
  constructor
  · intro f b rest
    constructor
    · intro hrun
      cases hread : read f with
      | value a f₂ =>
        rw [hread] at hrun
        obtain ⟨g₁, rfl, hg₁⟩ := (h.value f a f₂).1 hread
        obtain ⟨g₂, rfl, hg₂⟩ := ((hk a).value f₂ b rest).1 hrun
        exact ⟨g₁ ++ g₂, (List.append_assoc ..).symm, g₁, a, g₂, rfl, hg₁, hg₂⟩
      | null =>
        rw [hread] at hrun
        cases hrun
      | undefined =>
        rw [hread] at hrun
        cases hrun
    · intro ⟨g, hf, g₁, a, g₂, hg, hg₁, hg₂⟩
      have hread : read f = .value a (g₂ ++ rest) := by
        refine (h.value f a _).2 ⟨g₁, ?_, hg₁⟩
        rw [hf, hg, List.append_assoc]
      show (read f).andThen k = _
      rw [hread]
      exact ((hk a).value _ b rest).2 ⟨g₂, rfl, hg₂⟩
  · intro f
    constructor
    · intro hrun
      cases hread : read f with
      | value a f₂ =>
        rw [hread] at hrun
        obtain ⟨g₁, rfl, hg₁⟩ := (h.value f a f₂).1 hread
        exact .inr ⟨g₁, a, f₂, rfl, hg₁, ((hk a).undefined f₂).1 hrun⟩
      | null =>
        rw [hread] at hrun
        cases hrun
      | undefined => exact .inl ((h.undefined f).1 hread)
    · intro hU
      show (read f).andThen k = _
      obtain hU | ⟨g₁, a, f₂, rfl, hg₁, hU⟩ := hU
      · rw [(h.undefined f).2 hU]
        rfl
      · rw [(h.value _ a f₂).2 ⟨g₁, rfl, hg₁⟩]
        exact ((hk a).undefined f₂).2 hU

/-- A value without any text. -/
theorem pure (b : β) : Reads (fun f => .value b f) (fun g b' => g = [] ∧ b' = b) fun _ => False := by
  constructor
  · intro f b' rest
    constructor
    · intro h
      cases h
      exact ⟨[], rfl, rfl, rfl⟩
    · intro ⟨g, hf, hg, hb⟩
      rw [hf, hg, hb]
      rfl
  · intro f
    exact ⟨fun h => (nomatch h), False.elim⟩

/-- Another value for the same text. -/
theorem map (h : Reads read G U) (m : α → β) : Reads (fun f => (read f).map m) (fun g b => ∃ a, G g a ∧ b = m a) U := by
  have hseq := h.andThen fun a => pure (m a)
  constructor
  · intro f b rest
    refine (hseq.value f b rest).trans ⟨fun ⟨g, hf, g₁, a, g₂, hg, hg₁, hg₂, hb⟩ => ?_, fun ⟨g, hf, a, hg, hb⟩ => ?_⟩
    · rw [hg₂, List.append_nil] at hg
      exact ⟨g, hf, a, hg ▸ hg₁, hb⟩
    · exact ⟨g, hf, g, a, [], (List.append_nil g).symm, hg, rfl, hb⟩
  · intro f
    refine (hseq.undefined f).trans (or_iff_left ?_)
    exact fun ⟨_, _, _, _, _, h⟩ => h

/-- A condition that does not depend on the rest of the string. -/
theorem guard (h : Reads read G U) (c : Prop) [Decidable c] :
    Reads (fun f => if c then .null else read f) (fun g a => ¬ c ∧ G g a) (fun f => ¬ c ∧ U f) := by
  by_cases hc : c
  · simp only [if_pos hc]
    constructor
    · intro f a rest
      exact ⟨fun h => (nomatch h), fun ⟨_, _, hn, _⟩ => absurd hc hn⟩
    · intro f
      exact ⟨fun h => (nomatch h), fun h => absurd hc h.1⟩
  · simp only [if_neg hc]
    exact h.congr (fun g a => (and_iff_right hc).symm) fun f => (and_iff_right hc).symm

/-- Texts one after the other. -/
inductive Texts (G : List Byte → α → Prop) : List Byte → List α → Prop
  | nil : Texts G [] []
  | cons {g gs : List Byte} {a : α} {l : List α} : G g a → Texts G gs l → Texts G (g ++ gs) (a :: l)

/-- Texts of fields. -/
theorem texts_iff {R : Type} (text : R → List Byte) (value : R → α) (g : List Byte) (l : List α) :
    Texts (fun g a => ∃ r, g = text r ∧ a = value r) g l ↔ ∃ rs : List R, g = rs.flatMap text ∧ l = rs.map value := by
  constructor
  · intro h
    induction h with
    | nil => exact ⟨[], rfl, rfl⟩
    | cons hg _ ih =>
      obtain ⟨r, rfl, rfl⟩ := hg
      obtain ⟨rs, rfl, rfl⟩ := ih
      exact ⟨r :: rs, rfl, rfl⟩
  · intro ⟨rs, hg, hl⟩
    subst hg hl
    induction rs with
    | nil => exact .nil
    | cons r rs ih => exact .cons ⟨r, rfl, rfl⟩ ih

theorem many (h : Reads read G U) (n : ℕ) : Reads (readMany read n) (fun g l => Texts G g l.1)
    (fun f => ∃ g l f', f = g ++ f' ∧ Texts G g l ∧ l.length < n ∧ U f') := by
  induction n with
  | zero =>
    constructor
    · intro f l rest
      constructor
      · intro hrun
        cases hrun
        exact ⟨[], rfl, .nil⟩
      · intro ⟨g, hf, hg⟩
        obtain ⟨l, hl⟩ := l
        obtain rfl := List.length_eq_zero_iff.1 hl
        cases hg
        rw [hf]
        rfl
    · intro f
      exact ⟨fun h => (nomatch h), fun ⟨_, _, _, _, _, hlt, _⟩ => absurd hlt (Nat.not_lt_zero _)⟩
  | succ n ih =>
    have hseq := h.andThen fun a => ih.map fun l => (⟨a :: l.1, congrArg (· + 1) l.2⟩ : { l : List α // l.length = n + 1 })
    constructor
    · intro f l rest
      refine (hseq.value f l rest).trans ⟨fun ⟨g, hf, g₁, a, g₂, hg, hg₁, l', hl', hl⟩ => ?_, fun ⟨g, hf, hg⟩ => ?_⟩
      · refine ⟨g, hf, ?_⟩
        rw [hg, hl]
        exact .cons hg₁ hl'
      · obtain ⟨l, hlen⟩ := l
        cases hg with
        | nil => cases hlen
        | @cons g₁ gs a l hg₁ hgs =>
          exact ⟨_, hf, g₁, a, gs, rfl, hg₁, ⟨l, Nat.succ.inj hlen⟩, hgs, rfl⟩
    · intro f
      refine (hseq.undefined f).trans ⟨fun hU => ?_, fun ⟨g, l, f', hf, hg, hlt, hU⟩ => ?_⟩
      · obtain hU | ⟨g₁, a, f₂, hf, hg₁, g, l, f', hf', hg, hlt, hU⟩ := hU
        · exact ⟨[], [], f, rfl, .nil, Nat.succ_pos n, hU⟩
        · refine ⟨g₁ ++ g, a :: l, f', ?_, .cons hg₁ hg, Nat.succ_lt_succ hlt, hU⟩
          rw [hf, hf', List.append_assoc]
      · cases hg with
        | nil => exact .inl (hf ▸ hU)
        | @cons g₁ gs a l hg₁ hgs =>
          refine .inr ⟨g₁, a, gs ++ f', ?_, hg₁, gs, l, f', rfl, hgs, Nat.lt_of_succ_lt_succ hlt, hU⟩
          rw [hf, List.append_assoc]

theorem manyFields {R : Type} {text : R → List Byte} {value : R → α}
    (h : Reads read (fun g a => ∃ r, g = text r ∧ a = value r) U) (n : ℕ) :
    Reads (readMany read n) (fun g l => ∃ rs : List R, g = rs.flatMap text ∧ l.1 = rs.map value)
      (fun f => ∃ (rs : List R) (f' : List Byte), f = rs.flatMap text ++ f' ∧ rs.length < n ∧ U f') := by
  refine (h.many n).congr (fun g l => texts_iff text value g l.1) fun f => ?_
  constructor
  · intro ⟨g, l, f', hf, hg, hlt, hU⟩
    obtain ⟨rs, rfl, rfl⟩ := (texts_iff text value g l).1 hg
    exact ⟨rs, f', hf, by rwa [List.length_map] at hlt, hU⟩
  · intro ⟨rs, f', hf, hlt, hU⟩
    exact ⟨_, _, f', hf, (texts_iff text value _ _).2 ⟨rs, rfl, rfl⟩, by rwa [List.length_map], hU⟩

end Reads

/-! ### Words -/

/-- The word of four bytes, the most significant first. -/
def word (d₀ d₁ d₂ d₃ : Byte) : BitVec 32 := d₀ ++ d₁ ++ d₂ ++ d₃

/-- The byte of a word at a bit. -/
def wordByte (v : BitVec 32) (i : ℕ) : Byte := (v >>> i).setWidth 8

theorem word_eq (v : BitVec 32) : word (wordByte v 24) (wordByte v 16) (wordByte v 8) (wordByte v 0) = v := by
  apply BitVec.eq_of_getLsbD_eq
  intro i hi
  simp only [word, wordByte, BitVec.getLsbD_append, BitVec.getLsbD_setWidth, BitVec.getLsbD_ushiftRight]
  by_cases h₀ : i < 8
  · simp [h₀]
  · by_cases h₁ : i < 16
    · simp [h₀, show i - 8 < 8 by omega, show 8 + (i - 8) = i by omega]
    · by_cases h₂ : i < 24
      · simp [h₀, show ¬ i - 8 < 8 by omega, show i - 8 - 8 < 8 by omega, show 16 + (i - 8 - 8) = i by omega]
      · simp [h₀, show ¬ i - 8 < 8 by omega, show ¬ i - 8 - 8 < 8 by omega, show i - 8 - 8 - 8 < 8 by omega,
          show 24 + (i - 8 - 8 - 8) = i by omega]

theorem word_parts (d₀ d₁ d₂ d₃ : Byte) : wordByte (word d₀ d₁ d₂ d₃) 24 = d₀ ∧ wordByte (word d₀ d₁ d₂ d₃) 16 = d₁ ∧
    wordByte (word d₀ d₁ d₂ d₃) 8 = d₂ ∧ wordByte (word d₀ d₁ d₂ d₃) 0 = d₃ := by
  refine ⟨?_, ?_, ?_, ?_⟩
  all_goals
    apply BitVec.eq_of_getLsbD_eq
    intro i hi
    simp only [word, wordByte, BitVec.getLsbD_append, BitVec.getLsbD_setWidth, BitVec.getLsbD_ushiftRight]
  · simp [hi, show ¬ 24 + i < 8 by omega, show ¬ 24 + i - 8 < 8 by omega, show ¬ 24 + i - 8 - 8 < 8 by omega,
      show 24 + i - 8 - 8 - 8 = i by omega]
  · simp [hi, show ¬ 16 + i < 8 by omega, show ¬ 16 + i - 8 < 8 by omega, show 16 + i - 8 - 8 = i by omega]
  · simp [hi]
  · simp [hi]

end SymBisect.Lib
