import Mathlib

/-!
# Tables

A dictionary with values of one type: a list of entries with distinct keys.  The tables of a pipeline are made from other
tables entry by entry, so the keys stay distinct.
-/

namespace SymBisect.Lib

/-- A dictionary. -/
structure Table (κ α : Type) where
  entries : List (κ × α)
  nodup : (entries.map Prod.fst).Nodup

namespace Table

variable {κ α β : Type}

/-- The empty dictionary. -/
def empty : Table κ α := ⟨[], List.nodup_nil⟩

/-- New values for some of the keys. -/
def filterMap (t : Table κ α) (f : κ → α → Option β) : Table κ β where
  entries := t.entries.filterMap fun p => (f p.1 p.2).map fun v => (p.1, v)
  nodup := by
    have hsub : ((t.entries.filterMap fun p => (f p.1 p.2).map fun v => (p.1, v)).map Prod.fst).Sublist
        (t.entries.map Prod.fst) := by
      induction t.entries with
      | nil => exact List.Sublist.slnil
      | cons p l ih =>
        cases hf : f p.1 p.2 with
        | none =>
          rw [List.filterMap_cons_none (by rw [hf]; rfl)]
          exact ih.cons p.1
        | some v =>
          rw [List.filterMap_cons_some (by rw [hf]; rfl)]
          exact ih.cons_cons p.1
    exact t.nodup.sublist hsub

/-- New values for the same keys. -/
def map (t : Table κ α) (f : κ → α → β) : Table κ β := t.filterMap fun k v => some (f k v)

/-- New values for the same keys, unless one of them cannot be computed. -/
def mapM (t : Table κ α) (f : κ → α → Option β) : Option (Table κ β) :=
  if t.entries.all fun p => (f p.1 p.2).isSome then some (t.filterMap f) else none

theorem mem_filterMap {t : Table κ α} {f : κ → α → Option β} {k : κ} {v : β} :
    (k, v) ∈ (t.filterMap f).entries ↔ ∃ x, (k, x) ∈ t.entries ∧ f k x = some v := by
  constructor
  · intro h
    obtain ⟨⟨k', x⟩, hmem, hx⟩ := List.mem_filterMap.1 h
    obtain ⟨v', hv', heq⟩ := Option.map_eq_some_iff.1 hx
    cases heq
    exact ⟨x, hmem, hv'⟩
  · intro ⟨x, hmem, hx⟩
    refine List.mem_filterMap.2 ⟨(k, x), hmem, ?_⟩
    show (f k x).map _ = _
    rw [hx]
    rfl

theorem mem_map {t : Table κ α} {f : κ → α → β} {k : κ} {v : β} :
    (k, v) ∈ (t.map f).entries ↔ ∃ x, (k, x) ∈ t.entries ∧ f k x = v := by
  rw [map, mem_filterMap]
  simp only [Option.some.injEq]

theorem mem_mapM {t : Table κ α} {f : κ → α → Option β} {t' : Table κ β} (h : t.mapM f = some t') {k : κ} {v : β} :
    (k, v) ∈ t'.entries ↔ ∃ x, (k, x) ∈ t.entries ∧ f k x = some v := by
  rw [mapM] at h
  split at h
  · cases h
    exact mem_filterMap
  · cases h

theorem exists_of_mapM {t : Table κ α} {f : κ → α → Option β} {t' : Table κ β} (h : t.mapM f = some t') {k : κ} {x : α}
    (hx : (k, x) ∈ t.entries) : ∃ v, f k x = some v := by
  rw [mapM] at h
  split at h
  · rename_i hall
    exact Option.isSome_iff_exists.1 (List.all_eq_true.1 hall (k, x) hx)
  · cases h

theorem isSome_list_mapM {f : α → Option β} {l : List α} :
    (l.mapM f).isSome = true ↔ ∀ x ∈ l, (f x).isSome = true := by
  induction l with
  | nil => exact ⟨fun _ => List.forall_mem_nil _, fun _ => rfl⟩
  | cons a l ih =>
    rw [List.mapM_cons, List.forall_mem_cons, ← ih]
    cases f a with
    | none => simp
    | some b =>
      cases l.mapM f with
      | none => simp
      | some bs => simp

theorem mem_list_mapM {f : α → Option β} {l : List α} {l' : List β} (h : l.mapM f = some l') {y : β} :
    y ∈ l' ↔ ∃ x ∈ l, f x = some y := by
  induction l generalizing l' with
  | nil =>
    cases h
    exact ⟨fun h => absurd h List.not_mem_nil, fun ⟨_, h, _⟩ => absurd h List.not_mem_nil⟩
  | cons a l ih =>
    rw [List.mapM_cons] at h
    obtain ⟨b, hb, h⟩ := Option.bind_eq_some_iff.1 h
    obtain ⟨l'', hl'', h⟩ := Option.bind_eq_some_iff.1 h
    cases h
    rw [List.mem_cons, ih hl'', List.exists_mem_cons_iff, hb, Option.some.injEq, eq_comm]

variable [DecidableEq κ]

/-- The value of a key. -/
def get? (t : Table κ α) (k : κ) : Option α := t.entries.lookup k

@[simp] theorem get?_empty (k : κ) : (empty : Table κ α).get? k = none := rfl

theorem get?_eq_some {t : Table κ α} {k : κ} {v : α} : t.get? k = some v ↔ (k, v) ∈ t.entries := by
  obtain ⟨l, hl⟩ := t
  show l.lookup k = some v ↔ (k, v) ∈ l
  induction l with
  | nil => exact ⟨fun h => (nomatch h), fun h => absurd h List.not_mem_nil⟩
  | cons p l ih =>
    obtain ⟨k', x⟩ := p
    rw [List.map_cons, List.nodup_cons] at hl
    by_cases hk : k = k'
    · subst hk
      rw [List.lookup_cons_self, List.mem_cons]
      constructor
      · intro h
        cases h
        exact .inl rfl
      · intro h
        obtain h | h := h
        · cases h
          rfl
        · exact absurd (List.mem_map.2 ⟨(k, v), h, rfl⟩) hl.1
    · have hne : (k == k') = false := by simpa using hk
      rw [List.lookup_cons, hne, List.mem_cons]
      refine (ih hl.2).trans ⟨fun h => .inr h, fun h => h.resolve_left fun heq => ?_⟩
      cases heq
      exact hk rfl

theorem mapM_eq_some {t : Table κ α} {f : κ → α → Option β} (h : ∀ k x, t.get? k = some x → (f k x).isSome) :
    t.mapM f = some (t.filterMap f) := by
  rw [mapM, if_pos]
  rw [List.all_eq_true]
  intro p hp
  exact h p.1 p.2 (get?_eq_some.2 hp)

theorem get?_filterMap {t : Table κ α} {f : κ → α → Option β} (k : κ) : (t.filterMap f).get? k = (t.get? k).bind (f k) := by
  ext v
  rw [get?_eq_some, mem_filterMap, Option.bind_eq_some_iff]
  simp only [get?_eq_some]

/-- The assignment `t[k] = v`: an entry keeps its place. -/
def set (t : Table κ α) (k : κ) (v : α) : Table κ α :=
  if hk : k ∈ t.entries.map Prod.fst then t.filterMap fun k' x => some (if k' = k then v else x)
  else ⟨t.entries ++ [(k, v)], by
    rw [List.map_append, List.nodup_append]
    refine ⟨t.nodup, List.nodup_singleton _, ?_⟩
    intro a ha b hb
    rw [List.mem_singleton.1 hb]
    rintro rfl
    exact hk ha⟩

@[simp] theorem get?_set (t : Table κ α) (k k' : κ) (v : α) :
    (t.set k v).get? k' = if k' = k then some v else t.get? k' := by
  unfold set
  split
  · rename_i hk
    rw [get?_filterMap]
    obtain ⟨p, hp, hpk⟩ := List.mem_map.1 hk
    have hget : t.get? k = some p.2 := get?_eq_some.2 (hpk ▸ hp)
    by_cases hkk : k' = k
    · rw [if_pos hkk, hkk, hget, Option.bind_some, if_pos rfl]
    · rw [if_neg hkk]
      simp only [hkk, if_false]
      exact Option.bind_fun_some _
  · rename_i hk
    show (t.entries ++ [(k, v)]).lookup k' = _
    rw [List.lookup_append, List.lookup_cons]
    by_cases hkk : k' = k
    · have hnone : t.entries.lookup k = none := by
        rw [List.lookup_eq_none_iff]
        intro p hp
        rw [bne_iff_ne]
        rintro rfl
        exact hk (List.mem_map.2 ⟨p, hp, rfl⟩)
      rw [if_pos hkk, hkk, hnone, beq_self_eq_true, Option.none_or]
    · have hne : (k' == k) = false := by simpa using hkk
      rw [if_neg hkk, hne]
      exact Option.or_none

end Table

end SymBisect.Lib
