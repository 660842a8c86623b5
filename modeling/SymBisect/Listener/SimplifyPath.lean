import Mathlib.Data.List.Basic
import Mathlib.Data.List.Intervals

/-!
# Two normalisers of source paths

`simplify_path` of `helper_functions/helper.py` writes the keys of the configuration, and
`simplifylineinfo` of `PathListener.cpp` computes the keys that the executor looks up.  Both cut the path at
its slashes, take every `..` out together with the component before it, and drop every `.`.

* In Python a `..` in front makes `elelist[:index-1]` the list without its last element, and the loop goes
  on; in C++ the range ends before it begins, which is undefined.
* `str.split` keeps the empty component after a trailing slash, `std::getline` does not see it.

`agree_iff` says exactly when the two return the same text.  A text is a list of characters.
-/

namespace SymBisect

namespace SimplifyPath

/-- A component of a path. -/
abbrev Component := List Char

/-- The component `..`. -/
def dotdot : Component := ['.', '.']

/-- The component `.`. -/
def dot : Component := ['.']

/-! ### The Python code -/

/-- `while x in l: l = body(l)`, for at most `fuel` turns. -/
def whileIn (x : Component) (body : List Component → List Component) :
    ℕ → List Component → Option (List Component)
  | 0, l => if x ∈ l then none else some l
  | fuel + 1, l => if x ∈ l then whileIn x body fuel (body l) else some l

/-- `elelist[:index-1] + elelist[index+1:]` with the index of the first `..`; the slice up to `-1` is
everything but the last element. -/
def removeParent (elelist : List Component) : List Component :=
  let index := elelist.idxOf dotdot
  (if index = 0 then elelist.dropLast else elelist.take (index - 1)) ++ elelist.drop (index + 1)

/-- `elelist[:index] + elelist[index+1:]` with the index of the first `.`. -/
def removeDot (elelist : List Component) : List Component :=
  let index := elelist.idxOf dot
  elelist.take index ++ elelist.drop (index + 1)

/-- `simplify_path`, whose loops may take `fuel` turns each. -/
def simplify_path (fuel : ℕ) (PATH : List Char) : Option (List Char) := do
  let elelist ← whileIn dotdot removeParent fuel (PATH.splitOn '/')
  let elelist ← whileIn dot removeDot fuel elelist
  pure (['/'].intercalate elelist)

/-! ### The C++ code -/

/-- The segments that `std::getline(test, segment, '/')` reads; `segment` is what has been read of the
current one.  At the end of the stream an empty segment is not read. -/
def getlines (segment : Component) : List Char → List Component
  | [] => if segment = [] then [] else [segment]
  | c :: cs => if c = '/' then segment :: getlines [] cs else getlines (segment ++ [c]) cs

/-- The loop that takes out `..`; in front, `pos-1` is before the first segment. -/
def removeParents (seglist : List Component) : Option (List Component) :=
  if _h : dotdot ∈ seglist then
    match _hpos : seglist.idxOf dotdot with
    | 0 => none
    | pos + 1 => removeParents (seglist.take pos ++ seglist.drop (pos + 2))
  else some seglist
termination_by seglist.length
decreasing_by
  have hlt := List.idxOf_lt_length_of_mem _h
  simp only [List.length_append, List.length_take, List.length_drop]
  omega

/-- `simplifylineinfo`: the segments other than `.`, each with a slash, without the last slash. -/
def simplifylineinfo (lineinfo : List Char) : Option (List Char) := do
  let seglist ← removeParents (getlines [] lineinfo)
  let text := (seglist.filter (· ≠ dot)).flatMap (· ++ ['/'])
  pure (text.take (text.length - 1))

/-! ### What the loops compute -/

/-- Go through the components with the stack of those that are still there; `..` takes the last one. -/
def resolve : List Component → List Component → Option (List Component)
  | stack, [] => some stack.reverse
  | stack, c :: cs =>
    if c = dotdot then if stack = [] then none else resolve stack.tail cs
    else resolve (c :: stack) cs

/-- Components without `..` stay. -/
theorem resolve_of_notMem {l : List Component} (h : dotdot ∉ l) (stack : List Component) :
    resolve stack l = some (stack.reverse ++ l) := by
  induction l generalizing stack with
  | nil => simp [resolve]
  | cons c l ih =>
    have hc : c ≠ dotdot := fun heq => h (heq ▸ List.mem_cons_self)
    rw [resolve, if_neg hc, ih fun hl => h (List.mem_cons_of_mem c hl)]
    simp

/-- The first `..` takes out the component before it. -/
theorem resolve_cancel {pre : List Component} {c : Component} (hpre : dotdot ∉ pre) (hc : c ≠ dotdot)
    (post stack : List Component) :
    resolve stack (pre ++ c :: dotdot :: post) = resolve stack (pre ++ post) := by
  induction pre generalizing stack with
  | nil => simp [resolve, hc]
  | cons d pre ih =>
    have hd : d ≠ dotdot := fun heq => hpre (heq ▸ List.mem_cons_self)
    rw [List.cons_append, List.cons_append, resolve, resolve, if_neg hd, if_neg hd,
      ih fun h => hpre (List.mem_cons_of_mem d h)]

/-- A list with a `..`: it is in front, or there is a component before the first one. -/
theorem first_dotdot {l : List Component} (h : dotdot ∈ l) :
    (∃ post, l = dotdot :: post) ∨
      ∃ pre c post, l = pre ++ c :: dotdot :: post ∧ dotdot ∉ pre ∧ c ≠ dotdot ∧
        l.idxOf dotdot = pre.length + 1 := by
  obtain ⟨front, post, rfl, hfront⟩ := List.eq_append_cons_of_mem h
  rcases List.eq_nil_or_concat front with rfl | ⟨pre, c, rfl⟩
  · exact .inl ⟨post, rfl⟩
  · rw [List.concat_eq_append] at hfront ⊢
    refine .inr ⟨pre, c, post, by simp, fun hp => hfront (by simp [hp]), fun hc => hfront (by simp [hc]), ?_⟩
    rw [List.idxOf_append_of_notMem hfront, List.idxOf_cons_self]
    simp

theorem drop_cancelled (pre post : List Component) (c d : Component) :
    (pre ++ c :: d :: post).drop (pre.length + 2) = post := by
  have happ : pre ++ c :: d :: post = (pre ++ [c, d]) ++ post := by simp
  rw [happ]
  exact List.drop_left' (by simp)

/-- A turn of the C++ loop. -/
theorem removeParents_cancel {pre : List Component} {c : Component} (post : List Component)
    (hidx : (pre ++ c :: dotdot :: post).idxOf dotdot = pre.length + 1) :
    removeParents (pre ++ c :: dotdot :: post) = removeParents (pre ++ post) := by
  rw [removeParents, dif_pos (by simp)]
  split
  · rename_i hpos
    omega
  · rename_i pos hpos
    obtain rfl : pos = pre.length := by omega
    rw [drop_cancelled, List.take_left']
    rfl

/-- The C++ loop follows the stack. -/
theorem removeParents_eq (l : List Component) : removeParents l = resolve [] l := by
  induction hn : l.length using Nat.strong_induction_on generalizing l with
  | _ n ih =>
    by_cases h : dotdot ∈ l
    · rcases first_dotdot h with ⟨post, rfl⟩ | ⟨pre, c, post, rfl, hpre, hc, hidx⟩
      · rw [removeParents, dif_pos h]
        split
        · simp [resolve]
        · rename_i pos hpos
          simp at hpos
      · rw [removeParents_cancel post hidx, resolve_cancel hpre hc]
        refine ih _ ?_ _ rfl
        simp only [List.length_append, List.length_cons] at hn ⊢
        omega
    · rw [removeParents, dif_neg h, resolve_of_notMem h]
      rfl

/-- The Python loop follows the stack as long as it is not empty at a `..`. -/
theorem whileIn_removeParent {l r : List Component} (hr : resolve [] l = some r) {fuel : ℕ}
    (hfuel : l.length ≤ fuel) : whileIn dotdot removeParent fuel l = some r := by
  induction fuel generalizing l with
  | zero =>
    obtain rfl := List.eq_nil_of_length_eq_zero (Nat.le_zero.1 hfuel)
    simpa [whileIn, resolve] using hr
  | succ fuel ih =>
    rw [whileIn]
    by_cases h : dotdot ∈ l
    · rw [if_pos h]
      rcases first_dotdot h with ⟨post, rfl⟩ | ⟨pre, c, post, rfl, hpre, hc, hidx⟩
      · simp [resolve] at hr
      · have hbody : removeParent (pre ++ c :: dotdot :: post) = pre ++ post := by
          simp [removeParent, hidx, drop_cancelled]
        rw [hbody]
        refine ih (by rw [← hr, resolve_cancel hpre hc]) ?_
        simp only [List.length_append, List.length_cons] at hfuel ⊢
        omega
    · rw [if_neg h, ← hr, resolve_of_notMem h]
      rfl

/-- The second Python loop drops every `.`. -/
theorem whileIn_removeDot {l : List Component} {fuel : ℕ} (hfuel : l.length ≤ fuel) :
    whileIn dot removeDot fuel l = some (l.filter (· ≠ dot)) := by
  induction fuel generalizing l with
  | zero =>
    obtain rfl := List.eq_nil_of_length_eq_zero (Nat.le_zero.1 hfuel)
    simp [whileIn]
  | succ fuel ih =>
    rw [whileIn]
    by_cases h : dot ∈ l
    · obtain ⟨pre, post, rfl, hpre⟩ := List.eq_append_cons_of_mem h
      have hbody : removeDot (pre ++ dot :: post) = pre ++ post := by
        simp [removeDot, List.idxOf_append_of_notMem hpre, List.drop_append, List.drop_eq_nil_of_le]
      rw [if_pos h, hbody, ih (by simp only [List.length_append, List.length_cons] at hfuel ⊢; omega)]
      simp
    · rw [if_neg h, List.filter_eq_self.2]
      intro c hc
      exact decide_eq_true fun heq => h (heq ▸ hc)

/-- More turns do not change the result of a loop that has ended. -/
theorem whileIn_mono {x : Component} {body : List Component → List Component} {l r : List Component}
    {fuel more : ℕ} (h : whileIn x body fuel l = some r) (hle : fuel ≤ more) :
    whileIn x body more l = some r := by
  induction fuel generalizing l more with
  | zero =>
    have hx : x ∉ l := by
      intro hx
      simp [whileIn, hx] at h
    cases more with
    | zero => exact h
    | succ more => simpa [whileIn, hx] using h
  | succ fuel ih =>
    cases more with
    | zero => omega
    | succ more =>
      rw [whileIn] at h ⊢
      by_cases hx : x ∈ l
      · rw [if_pos hx] at h ⊢
        exact ih h (Nat.le_of_succ_le_succ hle)
      · rwa [if_neg hx] at h ⊢

/-! ### Cutting and joining -/

/-- An empty last component is not read. -/
def dropTrailing (l : List Component) : List Component := if l.getLast? = some [] then l.dropLast else l

theorem dropTrailing_cons {l : List Component} (h : l ≠ []) (c : Component) :
    dropTrailing (c :: l) = c :: dropTrailing l := by
  obtain ⟨d, ds, rfl⟩ := List.exists_cons_of_ne_nil h
  unfold dropTrailing
  rw [List.getLast?_cons_cons, List.dropLast_cons_cons]
  split
  · rfl
  · rfl

/-- The segments of the C++ code are the components, but for an empty last one. -/
theorem getlines_eq (segment : Component) (path : List Char) :
    getlines segment path = dropTrailing ((path.splitOn '/').modifyHead (segment ++ ·)) := by
  induction path generalizing segment with
  | nil =>
    by_cases h : segment = []
    · simp [getlines, dropTrailing, h]
    · simp [getlines, dropTrailing, h]
  | cons c path ih =>
    have hne := List.splitOn_ne_nil '/' path
    obtain ⟨d, ds, hd⟩ := List.exists_cons_of_ne_nil hne
    rw [getlines, List.splitOn_cons_eq_if_modifyHead]
    by_cases hc : c = '/'
    · rw [if_pos hc, if_pos (by simp [hc]), ih, hd]
      simp only [List.modifyHead_cons, List.nil_append, List.append_nil]
      rw [dropTrailing_cons (List.cons_ne_nil d ds)]
    · rw [if_neg hc, if_neg (by simp [hc]), ih, hd]
      simp

/-- The joined components, and one more slash. -/
theorem flatMap_eq {l : List Component} (h : l ≠ []) :
    l.flatMap (· ++ ['/']) = ['/'].intercalate l ++ ['/'] := by
  induction l with
  | nil => exact absurd rfl h
  | cons c l ih =>
    cases l with
    | nil => simp
    | cons d l =>
      rw [List.flatMap_cons, ih (List.cons_ne_nil d l), List.intercalate_cons_cons]
      simp

/-- Each component with a slash, without the last slash. -/
theorem take_flatMap (l : List Component) :
    (l.flatMap (· ++ ['/'])).take ((l.flatMap (· ++ ['/'])).length - 1) = ['/'].intercalate l := by
  by_cases h : l = []
  · rw [h]
    rfl
  · rw [flatMap_eq h]
    simp

/-- An empty last component adds a slash, unless it is alone. -/
theorem intercalate_append_nil {l : List Component} (h : l ≠ []) :
    ['/'].intercalate (l ++ [[]]) = ['/'].intercalate l ++ ['/'] := by
  induction l with
  | nil => exact absurd rfl h
  | cons c l ih =>
    cases l with
    | nil => simp [List.intercalate_cons_cons]
    | cons d l =>
      rw [List.cons_append, List.cons_append, List.intercalate_cons_cons, ← List.cons_append,
        ih (List.cons_ne_nil d l), List.intercalate_cons_cons]
      simp

/-! ### When the two agree -/

/-- No `..` is without an earlier component to take out: in every prefix there are at least as many other
components. -/
def Balanced (l : List Component) : Prop :=
  ∀ k, (l.take k).count dotdot ≤ (l.take k).countP (· ≠ dotdot)

/-- The components that no later `..` takes out. -/
def left (l : List Component) : List Component := (resolve [] l).getD []

/-- Python returns and C++ computes the same text. -/
def Agree (path : List Char) : Prop :=
  ∃ fuel text, simplify_path fuel path = some text ∧ simplifylineinfo path = some text

theorem resolve_isSome_iff (stack l : List Component) :
    (resolve stack l).isSome = true ↔
      ∀ k, (l.take k).count dotdot ≤ stack.length + (l.take k).countP (· ≠ dotdot) := by
  induction l generalizing stack with
  | nil => simp [resolve]
  | cons c l ih =>
    rw [resolve]
    by_cases hc : c = dotdot
    · rw [if_pos hc]
      by_cases hstack : stack = []
      · rw [if_pos hstack]
        simp only [Option.isSome_none, Bool.false_eq_true, false_iff, not_forall, not_le]
        exact ⟨1, by simp [hc, hstack]⟩
      · obtain ⟨d, stack, rfl⟩ := List.exists_cons_of_ne_nil hstack
        rw [if_neg hstack, List.tail_cons, ih]
        constructor
        · intro h k
          cases k with
          | zero => simp
          | succ k =>
            have hk := h k
            simp only [List.take_succ_cons, hc, List.count_cons_self, List.length_cons]
            rw [List.countP_cons_of_neg (by simp)]
            omega
        · intro h k
          have hk := h (k + 1)
          simp only [List.take_succ_cons, hc, List.count_cons_self, List.length_cons] at hk
          rw [List.countP_cons_of_neg (by simp)] at hk
          omega
    · rw [if_neg hc, ih]
      constructor
      · intro h k
        cases k with
        | zero => simp
        | succ k =>
          have hk := h k
          simp only [List.take_succ_cons, List.count_cons_of_ne hc, List.length_cons] at hk ⊢
          rw [List.countP_cons_of_pos (by simpa using hc)]
          omega
      · intro h k
        have hk := h (k + 1)
        simp only [List.take_succ_cons, List.count_cons_of_ne hc, List.length_cons] at hk ⊢
        rw [List.countP_cons_of_pos (by simpa using hc)] at hk
        omega

theorem resolve_isSome_iff_balanced (l : List Component) : (resolve [] l).isSome = true ↔ Balanced l := by
  rw [resolve_isSome_iff]
  simp [Balanced]

/-- An empty last component stays. -/
theorem resolve_append_nil (stack l : List Component) :
    resolve stack (l ++ [[]]) = (resolve stack l).map (· ++ [[]]) := by
  induction l generalizing stack with
  | nil => simp [resolve, dotdot]
  | cons c l ih =>
    rw [List.cons_append, resolve, resolve]
    by_cases hc : c = dotdot
    · rw [if_pos hc, if_pos hc]
      by_cases hstack : stack = []
      · simp [hstack]
      · simp [hstack, ih]
    · rw [if_neg hc, if_neg hc, ih]

theorem simplifylineinfo_eq (path : List Char) :
    simplifylineinfo path = (resolve [] (dropTrailing (path.splitOn '/'))).map fun r =>
      ['/'].intercalate (r.filter (· ≠ dot)) := by
  have hhead : (path.splitOn '/').modifyHead ([] ++ ·) = path.splitOn '/' := by
    cases path.splitOn '/' with
    | nil => rfl
    | cons d ds => rfl
  unfold simplifylineinfo
  rw [getlines_eq, removeParents_eq, hhead]
  cases resolve [] (dropTrailing (path.splitOn '/')) with
  | none => rfl
  | some r =>
    show some _ = some _
    rw [take_flatMap]

/-- What the Python code returns, if it does. -/
theorem simplify_path_iff {path : List Char} {r : List Component} (hr : resolve [] (path.splitOn '/') = some r)
    (text : List Char) :
    (∃ fuel, simplify_path fuel path = some text) ↔ text = ['/'].intercalate (r.filter (· ≠ dot)) := by
  constructor
  · intro h
    obtain ⟨fuel, h⟩ := h
    unfold simplify_path at h
    obtain ⟨l, hl, h⟩ := Option.bind_eq_some_iff.1 h
    obtain ⟨l', hl', h⟩ := Option.bind_eq_some_iff.1 h
    have hparents := whileIn_mono hl (le_max_left fuel (path.splitOn '/').length)
    rw [whileIn_removeParent hr (le_max_right _ _)] at hparents
    cases hparents
    have hdots := whileIn_mono hl' (le_max_left fuel r.length)
    rw [whileIn_removeDot (le_max_right _ _)] at hdots
    cases hdots
    exact (Option.some.inj h).symm
  · intro h
    refine ⟨max (path.splitOn '/').length r.length, ?_⟩
    unfold simplify_path
    rw [whileIn_removeParent hr (le_max_left _ _), Option.bind_eq_bind, Option.bind_some,
      whileIn_removeDot (le_max_right _ _), h]
    rfl

/-- **When the two normalisers agree.**  On a path whose `..` all have something to take out, they return
the same text, except where the path ends with a slash and something is left of it: there Python keeps
the slash.  On every other path C++ is undefined. -/
theorem agree_iff (path : List Char) :
    Agree path ↔ Balanced (path.splitOn '/') ∧
      ((path.splitOn '/').getLast? = some [] → ∀ c ∈ left (path.splitOn '/').dropLast, c = dot) := by
  rw [← resolve_isSome_iff_balanced]
  unfold Agree
  rw [simplifylineinfo_eq, dropTrailing]
  by_cases hlast : (path.splitOn '/').getLast? = some []
  · rw [if_pos hlast]
    obtain ⟨front, hfront⟩ := List.getLast?_eq_some_iff.1 hlast
    have hres := resolve_append_nil [] front
    rw [← hfront] at hres
    rw [hfront, List.dropLast_concat, ← hfront, hres, left]
    cases hr : resolve [] front with
    | none => simp
    | some r =>
      rw [hr] at hres
      have hfilter : (r ++ [[]]).filter (· ≠ dot) = r.filter (· ≠ dot) ++ [[]] := by
        rw [List.filter_append]
        rfl
      have hpy : ∀ text, (∃ fuel, simplify_path fuel path = some text) ↔
          text = ['/'].intercalate (r.filter (· ≠ dot) ++ [[]]) := by
        rw [← hfilter]
        exact simplify_path_iff hres
      simp only [Option.map_some, Option.isSome_some, true_and, hlast, forall_const, Option.getD_some]
      by_cases hleft : r.filter (· ≠ dot) = []
      · refine iff_of_true ?_ fun c hc => ?_
        · rw [hleft] at hpy ⊢
          obtain ⟨fuel, h⟩ := (hpy []).2 rfl
          exact ⟨fuel, [], h, rfl⟩
        · by_contra hne
          have hmem : c ∈ r.filter (· ≠ dot) := List.mem_filter.2 ⟨hc, by simpa using hne⟩
          exact absurd hleft (List.ne_nil_of_mem hmem)
      · refine iff_of_false (fun h => ?_) fun h => ?_
        · obtain ⟨fuel, text, hfuel, htext⟩ := h
          have hslash := (hpy text).1 ⟨fuel, hfuel⟩
          rw [intercalate_append_nil hleft, Option.some.inj htext] at hslash
          simp at hslash
        · exact hleft (List.filter_eq_nil_iff.2 fun c hc => by simp [h c hc])
  · rw [if_neg hlast]
    cases hr : resolve [] (path.splitOn '/') with
    | none => simp
    | some r =>
      refine iff_of_true ?_ ⟨rfl, fun h => absurd h hlast⟩
      obtain ⟨fuel, h⟩ := (simplify_path_iff hr _).2 rfl
      exact ⟨fuel, _, h, rfl⟩

/-- **A `..` in front.**  On `../a` the Python loop does not end and the C++ code is undefined. -/
theorem leadingDotdot_not_agree :
    ¬Agree "../a".toList ∧ ∀ fuel, simplify_path fuel "../a".toList = none := by
  have hsplit : "../a".toList.splitOn '/' = [dotdot, ['a']] := by decide
  have hloop : ∀ fuel, whileIn dotdot removeParent fuel [dotdot, ['a']] = none := by
    intro fuel
    induction fuel with
    | zero => rfl
    | succ fuel ih => exact ih
  have hpy : ∀ fuel, simplify_path fuel "../a".toList = none := by
    intro fuel
    unfold simplify_path
    rw [hsplit, hloop]
    rfl
  refine ⟨fun h => ?_, hpy⟩
  obtain ⟨fuel, text, hfuel, -⟩ := h
  rw [hpy] at hfuel
  cases hfuel

end SimplifyPath

end SymBisect
