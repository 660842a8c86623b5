import SymBisect.Listener.SimplifyPath

/-!
# The lexical normal form of a path

`simplify_path` of `helper_functions/helper.py` takes every `..` out together with the element before it, whatever that is,
and drops the `.` only afterwards.  Empty components stay.

* `normalForm`: the components read from left to right on a stack, and joined again.
* `components_normalForm`: the components of the normal form.
* `sublist_resolve`: the names that the stack holds are among those that `simplify_path` leaves.
* `simplifies_iff`: when `simplify_path` returns the normal form.
-/

namespace SymBisect

namespace SimplifyPath

/-! ### Reading a path on a stack -/

/-- The path starts at the root. -/
def isAbsolute (path : List Char) : Bool := path.head? = some '/'

/-- A component that is a name. -/
def Ordinary (c : Component) : Prop := c ≠ [] ∧ c ≠ dot ∧ c ≠ dotdot

instance : DecidablePred Ordinary := fun c => by
  unfold Ordinary
  infer_instance

/-- One component: `..` takes the last name off; at the root it does nothing, and above the start of a relative path it is
kept. -/
def push (absolute : Bool) (stack : List Component) (c : Component) : List Component :=
  if c = dotdot then
    match stack with
    | [] => if absolute then [] else [dotdot]
    | d :: rest => if d = dotdot then dotdot :: d :: rest else rest
  else if c = [] ∨ c = dot then stack
  else c :: stack

/-- The components of the file that a path denotes, from the root or from the start. -/
def interpret (absolute : Bool) (components : List Component) : List Component :=
  (components.foldl (push absolute) []).reverse

/-- The components of the normal form; the root is two empty ones, the start is one. -/
def normalComponents (absolute : Bool) (names : List Component) : List Component :=
  if names = [] then if absolute then [[], []] else [[]]
  else if absolute then [] :: names else names

/-- The lexical normal form. -/
def normalForm (path : List Char) : List Char :=
  ['/'].intercalate (normalComponents (isAbsolute path) (interpret (isAbsolute path) (path.splitOn '/')))

/-- A stack that `push` can make: names over the `..` of a relative path. -/
def Canonical (absolute : Bool) (stack : List Component) : Prop :=
  ∃ names n, stack = names ++ List.replicate n dotdot ∧ (∀ c ∈ names, Ordinary c) ∧ (absolute = true → n = 0)

section

variable {absolute : Bool} {stack : List Component} {c d : Component} {components : List Component}

theorem push_ordinary (h : Ordinary c) : push absolute stack c = c :: stack := by
  unfold push
  rw [if_neg h.2.2, if_neg fun hc => hc.elim h.1 h.2.1]

theorem push_skipped (h : ¬Ordinary c) (hc : c ≠ dotdot) : push absolute stack c = stack := by
  unfold push
  have hskip : c = [] ∨ c = dot := by
    by_contra hn
    rw [not_or] at hn
    exact h ⟨hn.1, hn.2, hc⟩
  rw [if_neg hc, if_pos hskip]

/-- A `..` over another one is kept. -/
theorem push_above : push absolute (dotdot :: stack) dotdot = dotdot :: dotdot :: stack := by
  unfold push
  rw [if_pos rfl]
  exact if_pos rfl

theorem push_canonical (h : Canonical absolute stack) (c : Component) : Canonical absolute (push absolute stack c) := by
  obtain ⟨names, n, rfl, hnames, habs⟩ := h
  by_cases hdotdot : c = dotdot
  · subst hdotdot
    unfold push
    rw [if_pos rfl]
    cases names with
    | nil =>
      cases n with
      | zero =>
        cases absolute with
        | true => exact ⟨[], 0, rfl, List.forall_mem_nil _, fun _ => rfl⟩
        | false => exact ⟨[], 1, rfl, List.forall_mem_nil _, fun h => nomatch h⟩
      | succ n =>
        exact ⟨[], n + 2, if_pos rfl, List.forall_mem_nil _, fun h => absurd (habs h) (Nat.succ_ne_zero n)⟩
    | cons d names =>
      have hd := hnames d List.mem_cons_self
      refine ⟨names, n, ?_, fun e he => hnames e (List.mem_cons_of_mem d he), habs⟩
      exact if_neg hd.2.2
  · by_cases hc : Ordinary c
    · rw [push_ordinary hc]
      refine ⟨c :: names, n, rfl, ?_, habs⟩
      exact List.forall_mem_cons.2 ⟨hc, hnames⟩
    · rw [push_skipped hc hdotdot]
      exact ⟨names, n, rfl, hnames, habs⟩

theorem foldl_canonical (h : Canonical absolute stack) (components : List Component) :
    Canonical absolute (components.foldl (push absolute) stack) := by
  induction components generalizing stack with
  | nil => exact h
  | cons c components ih => exact ih (push_canonical h c)

theorem canonical_nil : Canonical absolute [] := ⟨[], 0, rfl, List.forall_mem_nil _, fun _ => rfl⟩

/-- A `..` that was kept stays. -/
theorem mem_push (h : dotdot ∈ stack) (c : Component) : dotdot ∈ push absolute stack c := by
  unfold push
  by_cases hc : c = dotdot
  · rw [if_pos hc]
    cases stack with
    | nil => exact absurd h List.not_mem_nil
    | cons d rest =>
      show dotdot ∈ (if d = dotdot then _ else _)
      by_cases hd : d = dotdot
      · rw [if_pos hd]
        exact List.mem_cons_self
      · rw [if_neg hd]
        exact (List.mem_cons.1 h).resolve_left fun heq => hd heq.symm
  · rw [if_neg hc]
    by_cases hskip : c = [] ∨ c = dot
    · rw [if_pos hskip]
      exact h
    · rw [if_neg hskip]
      exact List.mem_cons_of_mem c h

theorem mem_foldl (h : dotdot ∈ stack) (components : List Component) :
    dotdot ∈ components.foldl (push absolute) stack := by
  induction components generalizing stack with
  | nil => exact h
  | cons c components ih => exact ih (mem_push h c)

theorem interpret_canonical (absolute : Bool) (components : List Component) :
    Canonical absolute (interpret absolute components).reverse := by
  unfold interpret
  rw [List.reverse_reverse]
  exact foldl_canonical canonical_nil components

/-- The components that are left are names, or the `..` of a relative path. -/
theorem ordinary_of_mem_interpret (h : c ∈ interpret absolute components) : Ordinary c ∨ c = dotdot := by
  obtain ⟨names, n, heq, hnames, -⟩ := interpret_canonical absolute components
  have hmem : c ∈ names ++ List.replicate n dotdot := heq ▸ List.mem_reverse.2 h
  rcases List.mem_append.1 hmem with hc | hc
  · exact .inl (hnames c hc)
  · exact .inr (List.eq_of_mem_replicate hc)

/-- A component of the interpretation is one of the path, or `..`. -/
theorem mem_foldl_push (h : c ∈ components.foldl (push absolute) stack) : c ∈ stack ∨ c ∈ components ∨ c = dotdot := by
  induction components generalizing stack with
  | nil => exact .inl h
  | cons d components ih =>
    rcases ih h with hpush | hmem
    · by_cases hd : d = dotdot
      · subst hd
        cases stack with
        | nil =>
          cases absolute with
          | true => exact absurd hpush List.not_mem_nil
          | false => exact .inr (.inr (List.mem_singleton.1 hpush))
        | cons e rest =>
          by_cases he : e = dotdot
          · rw [he, push_above] at hpush
            rcases List.mem_cons.1 hpush with rfl | hrest
            · exact .inr (.inr rfl)
            · exact .inl (he ▸ hrest)
          · have hpop : push absolute (e :: rest) dotdot = rest := if_neg he
            rw [hpop] at hpush
            exact .inl (List.mem_cons_of_mem e hpush)
      · by_cases hord : Ordinary d
        · rw [push_ordinary hord] at hpush
          rcases List.mem_cons.1 hpush with rfl | hstack
          · exact .inr (.inl List.mem_cons_self)
          · exact .inl hstack
        · rw [push_skipped hord hd] at hpush
          exact .inl hpush
    · exact .inr (hmem.imp_left (List.mem_cons_of_mem d))

/-- No component contains a slash. -/
theorem slash_notMem_of_mem_splitOn {path : List Char} (h : c ∈ path.splitOn '/') : '/' ∉ c := by
  induction path generalizing c with
  | nil =>
    rw [List.splitOn_nil] at h
    rw [List.mem_singleton.1 h]
    exact List.not_mem_nil
  | cons x path ih =>
    rw [List.splitOn_cons_eq_if_modifyHead] at h
    by_cases hx : (x == '/') = true
    · rw [if_pos hx] at h
      rcases List.mem_cons.1 h with rfl | h
      · exact List.not_mem_nil
      · exact ih h
    · rw [if_neg hx] at h
      obtain ⟨e, es, hes⟩ := List.exists_cons_of_ne_nil (List.splitOn_ne_nil '/' path)
      rw [hes, List.modifyHead_cons] at h
      rcases List.mem_cons.1 h with rfl | h
      · intro hmem
        rcases List.mem_cons.1 hmem with rfl | hmem
        · exact hx (beq_self_eq_true _)
        · exact ih (hes ▸ List.mem_cons_self) hmem
      · exact ih (hes ▸ List.mem_cons_of_mem e h)

end

section

variable {absolute : Bool} {names : List Component} (path : List Char)

theorem normalComponents_ne_nil : normalComponents absolute names ≠ [] := by
  unfold normalComponents
  by_cases h : names = []
  · rw [if_pos h]
    cases absolute with
    | true => exact List.cons_ne_nil _ _
    | false => exact List.cons_ne_nil _ _
  · rw [if_neg h]
    cases absolute with
    | true => exact List.cons_ne_nil _ _
    | false => exact h

theorem mem_normalComponents {c : Component} (h : c ∈ normalComponents absolute names) : c = [] ∨ c ∈ names := by
  unfold normalComponents at h
  by_cases hn : names = []
  · rw [if_pos hn] at h
    cases absolute with
    | true =>
      rcases List.mem_cons.1 h with rfl | h
      · exact .inl rfl
      · exact .inl (List.mem_singleton.1 h)
    | false => exact .inl (List.mem_singleton.1 h)
  · rw [if_neg hn] at h
    cases absolute with
    | true => exact List.mem_cons.1 h
    | false => exact .inr h

theorem slash_notMem_of_mem_interpret {c : Component} (h : c ∈ interpret absolute (path.splitOn '/')) : '/' ∉ c := by
  rcases mem_foldl_push (List.mem_reverse.1 h) with hnil | hmem | rfl
  · exact absurd hnil List.not_mem_nil
  · exact slash_notMem_of_mem_splitOn hmem
  · decide

/-- **The components of the normal form.** -/
theorem components_normalForm : (normalForm path).splitOn '/' =
    normalComponents (isAbsolute path) (interpret (isAbsolute path) (path.splitOn '/')) := by
  refine List.splitOn_intercalate '/' (fun c hc => ?_) normalComponents_ne_nil
  rcases mem_normalComponents hc with rfl | hmem
  · exact List.not_mem_nil
  · exact slash_notMem_of_mem_interpret path hmem

end

/-! ### What `simplify_path` leaves -/

section

variable {absolute : Bool} {stack read components r : List Component} {c : Component}

/-- A `..` of a path that does not climb takes a name off. -/
theorem push_dotdot (h : dotdot ∉ components.foldl (push absolute) (push absolute read dotdot)) :
    push absolute read dotdot = read.tail := by
  cases read with
  | nil =>
    cases absolute with
    | true => rfl
    | false => exact absurd (mem_foldl (List.mem_singleton_self dotdot) components) h
  | cons d rest =>
    by_cases hd : d = dotdot
    · exact absurd (mem_foldl (mem_push (hd ▸ List.mem_cons_self) dotdot) components) h
    · exact if_neg hd

theorem sublist_tail (h : read.Sublist ((c :: stack).filter (Ordinary ·))) :
    read.tail.Sublist (stack.filter (Ordinary ·)) := by
  rw [List.filter_cons] at h
  by_cases hc : decide (Ordinary c) = true
  · rw [if_pos hc] at h
    exact h.tail
  · rw [if_neg hc] at h
    exact (List.tail_sublist read).trans h

theorem sublist_push (h : read.Sublist (stack.filter (Ordinary ·))) (hc : c ≠ dotdot) :
    (push absolute read c).Sublist ((c :: stack).filter (Ordinary ·)) := by
  rw [List.filter_cons]
  by_cases hord : Ordinary c
  · rw [push_ordinary hord, if_pos (decide_eq_true hord)]
    exact h.cons_cons c
  · rw [push_skipped hord hc, if_neg (by simpa using hord)]
    exact h

/-- **The names that the path denotes are among those that `simplify_path` leaves.** -/
theorem sublist_resolve (hread : read.Sublist (stack.filter (Ordinary ·))) (hr : resolve stack components = some r)
    (hbelow : dotdot ∉ components.foldl (push absolute) read) :
    (components.foldl (push absolute) read).reverse.Sublist (r.filter (Ordinary ·)) := by
  induction components generalizing stack read with
  | nil =>
    obtain rfl := Option.some.inj hr
    rw [List.filter_reverse]
    exact hread.reverse
  | cons c components ih =>
    rw [resolve] at hr
    rw [List.foldl_cons] at hbelow ⊢
    by_cases hc : c = dotdot
    · subst hc
      rw [if_pos rfl] at hr
      cases stack with
      | nil => cases hr
      | cons d stack =>
        rw [if_neg (List.cons_ne_nil d stack)] at hr
        refine ih ?_ hr hbelow
        rw [push_dotdot hbelow]
        exact sublist_tail hread
    · rw [if_neg hc] at hr
      exact ih (sublist_push hread hc) hr hbelow

/-- A `..` with nothing before it makes a relative path climb. -/
theorem climbs_of_unresolved (hread : read.Sublist (stack.filter (Ordinary ·))) (hr : resolve stack components = none) :
    dotdot ∈ components.foldl (push false) read := by
  induction components generalizing stack read with
  | nil => cases hr
  | cons c components ih =>
    by_contra hbelow
    rw [resolve] at hr
    rw [List.foldl_cons] at hbelow
    by_cases hc : c = dotdot
    · subst hc
      rw [if_pos rfl] at hr
      cases stack with
      | nil =>
        rw [List.sublist_nil.1 hread] at hbelow
        exact hbelow (mem_foldl (List.mem_singleton_self dotdot) components)
      | cons d stack =>
        rw [if_neg (List.cons_ne_nil d stack)] at hr
        refine hbelow (ih ?_ hr)
        rw [push_dotdot hbelow]
        exact sublist_tail hread
    · rw [if_neg hc] at hr
      exact hbelow (ih (sublist_push hread hc) hr)

theorem mem_of_mem_resolve (hr : resolve stack components = some r) (hc : c ∈ r) :
    c ∈ stack ∨ c ∈ components ∧ c ≠ dotdot := by
  induction components generalizing stack with
  | nil =>
    obtain rfl := Option.some.inj hr
    exact .inl (List.mem_reverse.1 hc)
  | cons d components ih =>
    rw [resolve] at hr
    by_cases hd : d = dotdot
    · rw [if_pos hd] at hr
      by_cases hstack : stack = []
      · rw [if_pos hstack] at hr
        cases hr
      · rw [if_neg hstack] at hr
        exact (ih hr).imp List.mem_of_mem_tail fun h => ⟨List.mem_cons_of_mem d h.1, h.2⟩
    · rw [if_neg hd] at hr
      rcases ih hr with hmem | hmem
      · rcases List.mem_cons.1 hmem with rfl | hmem
        · exact .inr ⟨List.mem_cons_self, hd⟩
        · exact .inl hmem
      · exact .inr ⟨List.mem_cons_of_mem d hmem.1, hmem.2⟩

/-- Where a `..` has nothing before it, the loop of the code ends with nothing, if it ends. -/
theorem whileIn_unresolved {l : List Component} {fuel : ℕ} (hl : resolve [] l = none)
    (h : whileIn dotdot removeParent fuel l = some r) : r = [] := by
  have hmem : ∀ {l : List Component}, resolve [] l = none → dotdot ∈ l := by
    intro l hl
    by_contra hn
    rw [resolve_of_notMem hn] at hl
    cases hl
  induction fuel generalizing l with
  | zero =>
    rw [whileIn, if_pos (hmem hl)] at h
    cases h
  | succ fuel ih =>
    rw [whileIn, if_pos (hmem hl)] at h
    rcases first_dotdot (hmem hl) with ⟨post, rfl⟩ | ⟨pre, c, post, rfl, hpre, hc, hidx⟩
    · cases post with
      | nil =>
        have hbody : removeParent [dotdot] = [] := by decide
        have hend : whileIn dotdot removeParent fuel [] = some [] := by
          cases fuel with
          | zero => rfl
          | succ fuel => rfl
        rw [hbody, hend] at h
        exact (Option.some.inj h).symm
      | cons d post =>
        have hbody : removeParent (dotdot :: d :: post) = dotdot :: ((d :: post).dropLast ++ d :: post) := by
          unfold removeParent
          rw [List.idxOf_cons_self]
          rfl
        rw [hbody] at h
        exact ih rfl h
    · have hbody : removeParent (pre ++ c :: dotdot :: post) = pre ++ post := by
        simp [removeParent, hidx, drop_cancelled]
      rw [hbody] at h
      rw [resolve_cancel hpre hc] at hl
      exact ih hl h

end

/-! ### When the normal form is returned -/

/-- The names of the file that the path denotes. -/
def denoted (path : List Char) : List Component := interpret (isAbsolute path) (path.splitOn '/')

/-- The components that no `..` takes out, without `.`. -/
def remaining (path : List Char) : List Component := (left (path.splitOn '/')).filter (· ≠ dot)

/-- The components are `n` names, after the empty one of an absolute path; for `n = 0` they are empty ones. -/
def Shaped (absolute : Bool) (n : ℕ) (components : List Component) : Prop :=
  (n = 0 ∧ (components = normalComponents absolute [] ∨ absolute = false ∧ components = [])) ∨
    (0 < n ∧ ∃ names, names.length = n ∧ (∀ c ∈ names, Ordinary c) ∧ components = normalComponents absolute names)

/-- Every `..` has something before it to take out, the path does not climb above its start, and what remains is as many
names as it denotes. -/
structure WellSpelt (path : List Char) : Prop where
  balanced : Balanced (path.splitOn '/')
  below : dotdot ∉ denoted path
  shaped : Shaped (isAbsolute path) (denoted path).length (remaining path)

/-- The normal form is returned. -/
def Simplifies (path : List Char) : Prop := ∃ fuel, simplify_path fuel path = some (normalForm path)

section

variable {path : List Char}

/-- Only the start of a relative path has the empty text. -/
theorem normalForm_eq_nil (h : normalForm path = []) : isAbsolute path = false ∧ denoted path = [] := by
  have hcomponents := components_normalForm path
  rw [h, List.splitOn_nil] at hcomponents
  change [[]] = normalComponents (isAbsolute path) (denoted path) at hcomponents
  unfold normalComponents at hcomponents
  by_cases hn : denoted path = []
  · rw [if_pos hn] at hcomponents
    cases habs : isAbsolute path with
    | true =>
      rw [habs, if_pos rfl] at hcomponents
      cases hcomponents
    | false => exact ⟨rfl, hn⟩
  · rw [if_neg hn] at hcomponents
    cases habs : isAbsolute path with
    | true =>
      rw [habs, if_pos rfl] at hcomponents
      exact absurd (List.cons.inj hcomponents).2.symm hn
    | false =>
      rw [habs, if_neg Bool.false_ne_true] at hcomponents
      have hmem : [] ∈ denoted path := hcomponents ▸ List.mem_cons_self
      rcases ordinary_of_mem_interpret hmem with hord | hdotdot
      · exact absurd rfl hord.1
      · cases hdotdot

/-- Without something to take out the code does not return the normal form. -/
theorem not_simplifies_of_unresolved (hr : resolve [] (path.splitOn '/') = none) : ¬Simplifies path := by
  rintro ⟨fuel, h⟩
  unfold simplify_path at h
  obtain ⟨l, hl, h⟩ := Option.bind_eq_some_iff.1 h
  obtain ⟨l', hl', h⟩ := Option.bind_eq_some_iff.1 h
  obtain rfl := whileIn_unresolved hr hl
  have hdots := whileIn_mono hl' (Nat.le_max_left fuel 0)
  rw [whileIn_removeDot (Nat.zero_le _)] at hdots
  obtain rfl := Option.some.inj hdots
  obtain ⟨habs, hnil⟩ := normalForm_eq_nil (Option.some.inj h).symm
  have hclimbs : dotdot ∈ denoted path := by
    unfold denoted
    rw [habs]
    exact List.mem_reverse.2 (climbs_of_unresolved (List.nil_sublist _) hr)
  rw [hnil] at hclimbs
  exact List.not_mem_nil hclimbs

theorem left_eq {r : List Component} (hr : resolve [] (path.splitOn '/') = some r) :
    remaining path = r.filter (· ≠ dot) := by
  unfold remaining left
  rw [hr]
  rfl

theorem slash_notMem_of_mem_remaining {r : List Component} (hr : resolve [] (path.splitOn '/') = some r) {c : Component}
    (hc : c ∈ remaining path) : '/' ∉ c ∧ c ≠ dotdot := by
  rw [left_eq hr] at hc
  rcases mem_of_mem_resolve hr (List.mem_filter.1 hc).1 with hnil | hmem
  · exact absurd hnil List.not_mem_nil
  · exact ⟨slash_notMem_of_mem_splitOn hmem.1, hmem.2⟩

/-- What remains of a path whose normal form is returned. -/
theorem wellSpelt_of_remaining {r : List Component} (hr : resolve [] (path.splitOn '/') = some r)
    (h : normalForm path = ['/'].intercalate (remaining path)) : WellSpelt path := by
  have hbalanced : Balanced (path.splitOn '/') := (resolve_isSome_iff_balanced _).1 (hr ▸ rfl)
  by_cases hnil : remaining path = []
  · rw [hnil] at h
    obtain ⟨habs, hdenoted⟩ := normalForm_eq_nil h
    refine ⟨hbalanced, ?_, .inl ⟨?_, .inr ⟨habs, hnil⟩⟩⟩
    · rw [hdenoted]
      exact List.not_mem_nil
    · rw [hdenoted]
      rfl
  · have hcomponents := components_normalForm path
    rw [h, List.splitOn_intercalate '/' (fun c hc => (slash_notMem_of_mem_remaining hr hc).1) hnil] at hcomponents
    change remaining path = normalComponents (isAbsolute path) (denoted path) at hcomponents
    have hbelow : dotdot ∉ denoted path := by
      intro hmem
      have hne : denoted path ≠ [] := List.ne_nil_of_mem hmem
      have hin : dotdot ∈ normalComponents (isAbsolute path) (denoted path) := by
        unfold normalComponents
        rw [if_neg hne]
        cases isAbsolute path with
        | true => exact List.mem_cons_of_mem _ hmem
        | false => exact hmem
      rw [← hcomponents] at hin
      exact (slash_notMem_of_mem_remaining hr hin).2 rfl
    refine ⟨hbalanced, hbelow, ?_⟩
    by_cases hdenoted : denoted path = []
    · rw [hdenoted] at hcomponents ⊢
      exact .inl ⟨rfl, .inl hcomponents⟩
    · refine .inr ⟨List.length_pos_of_ne_nil hdenoted, denoted path, rfl, fun c hc => ?_, hcomponents⟩
      exact (ordinary_of_mem_interpret hc).resolve_right fun heq => hbelow (heq ▸ hc)

theorem filter_normalComponents {absolute : Bool} {names : List Component} (h : ∀ c ∈ names, Ordinary c) :
    (normalComponents absolute names).filter (Ordinary ·) = names := by
  have hself : names.filter (Ordinary ·) = names := List.filter_eq_self.2 fun c hc => decide_eq_true (h c hc)
  unfold normalComponents
  by_cases hn : names = []
  · rw [if_pos hn, hn]
    cases absolute with
    | true => rfl
    | false => rfl
  · rw [if_neg hn]
    cases absolute with
    | true =>
      rw [if_pos rfl, List.filter_cons, if_neg (by decide)]
      exact hself
    | false => exact hself

/-- The text of what remains of a well spelt path. -/
theorem WellSpelt.remaining_eq (h : WellSpelt path) {r : List Component} (hr : resolve [] (path.splitOn '/') = some r) :
    normalForm path = ['/'].intercalate (remaining path) := by
  have hsub : (denoted path).Sublist ((remaining path).filter (Ordinary ·)) := by
    have hbelow : dotdot ∉ (path.splitOn '/').foldl (push (isAbsolute path)) [] := fun hmem =>
      h.below (List.mem_reverse.2 hmem)
    have hnames : (remaining path).filter (Ordinary ·) = r.filter (Ordinary ·) := by
      rw [left_eq hr, List.filter_filter]
      refine List.filter_congr fun c _ => ?_
      rw [Bool.and_eq_left_iff_imp, decide_eq_true_iff, decide_eq_true_iff]
      exact fun hord => hord.2.1
    rw [hnames]
    exact sublist_resolve (List.nil_sublist _) hr hbelow
  show ['/'].intercalate (normalComponents (isAbsolute path) (denoted path)) = _
  rcases h.shaped with ⟨hzero, hcomponents | ⟨habs, hcomponents⟩⟩ | ⟨-, names, hlength, hnames, hcomponents⟩
  · rw [List.eq_nil_of_length_eq_zero hzero, hcomponents]
  · rw [List.eq_nil_of_length_eq_zero hzero, hcomponents, habs]
    rfl
  · rw [hcomponents, filter_normalComponents hnames] at hsub
    rw [hcomponents, hsub.eq_of_length hlength.symm]

/-- **When `simplify_path` returns the lexical normal form.** -/
theorem simplifies_iff (path : List Char) : Simplifies path ↔ WellSpelt path := by
  cases hr : resolve [] (path.splitOn '/') with
  | none =>
    refine iff_of_false (not_simplifies_of_unresolved hr) fun h => ?_
    have hsome := (resolve_isSome_iff_balanced _).2 h.balanced
    rw [hr] at hsome
    cases hsome
  | some r =>
    unfold Simplifies
    rw [simplify_path_iff hr, ← left_eq hr]
    exact ⟨wellSpelt_of_remaining hr, fun h => h.remaining_eq hr⟩

/-- In `a/./../b` the `..` takes out the `.`: the name `a` stays. -/
theorem dotBeforeDotdot_not_simplifies :
    ¬Simplifies "a/./../b".toList ∧ simplify_path 4 "a/./../b".toList = some "a/b".toList ∧
      normalForm "a/./../b".toList = "b".toList := by
  have hresolve : resolve [] ("a/./../b".toList.splitOn '/') = some [['a'], ['b']] := by decide
  refine ⟨fun h => ?_, by decide, by decide⟩
  exact absurd ((simplify_path_iff hresolve _).1 h) (by decide)

end

end SimplifyPath

end SymBisect
