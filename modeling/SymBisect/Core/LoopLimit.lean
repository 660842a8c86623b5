import SymBisect.Core.ExecutorSpec

/-!
# The loop limit

`checkLoopLimit` counts, in the state, the executions of a conditional branch under a key made of the
call trace and the name of the block, and terminates a freshly forked state whose count exceeds the
limit.  `history` lists the executions on the path of every state, so what the counter holds can be
compared with what it is meant to hold.

* `Counters`: in every reached state the counter of a key is the number of executions on the path with that
  key, modulo `2 ^ 32`.  The executions with one feasible side are among them.
* `limitRight_iff_countAgrees`: the new state of a branch is terminated for the right reason exactly when
  that number and the number of two-way executions of the branch are on the same side of the limit; where
  they always are, at most `looplimit` states forked at one branch of a path stay alive.
-/

namespace SymBisect

open Lib

/-! ### Counting on a path -/

namespace Visit

/-- The key under which the execution is counted. -/
def key (v : Visit) : Option String := Executor.BBkey v.calltrace v.block.name

/-- The same branch: the same call trace and the same named block. -/
def sameBranch (v w : Visit) : Bool := w.calltrace == v.calltrace && w.block.name == v.block.name

/-- The executions that are counted together with `v`. -/
def counted (v : Visit) (path : List Visit) : ℕ :=
  if v.key = none then 0 else path.countP fun w => w.key == v.key

/-- The executions of the branch of `v` with both sides feasible. -/
def twoWays (v : Visit) (path : List Visit) : ℕ := path.countP fun w => w.twoWay && v.sameBranch w

/-- The states forked at the branch of `v` that the loop limit has left alive. -/
def liveForks (v : Visit) (path : List Visit) : ℕ :=
  path.countP fun w => w.twoWay && v.sameBranch w && !w.terminated

/-- The new state is terminated exactly when the branch has been executed with both sides feasible more
than `limit` times on `path`, which ends with this execution. -/
def LimitRight (limit : UInt32) (v : Visit) (path : List Visit) : Prop :=
  v.terminated = true ↔ limit.toNat < v.twoWays path

/-- The 32-bit count of the key and the number of two-way executions are on the same side of the limit. -/
def CountAgrees (limit : UInt32) (v : Visit) (path : List Visit) : Prop :=
  limit.toNat < v.counted path % 2 ^ 32 ↔ limit.toNat < v.twoWays path

/-- At every two-way execution of the path, the new state is terminated exactly when the 32-bit count of
the key exceeds the limit. -/
def Exact (limit : UInt32) (path : List Visit) : Prop :=
  ∀ v older, v :: older <:+ path → v.twoWay = true →
    (v.terminated = true ↔ limit.toNat < v.counted (v :: older) % 2 ^ 32)

variable {limit : UInt32} {v : Visit} {path : List Visit}

theorem exact_nil : Exact limit [] := by
  intro v older h
  exact absurd (List.suffix_nil.1 h) (by simp)

theorem exact_cons (hv : v.twoWay = true → (v.terminated = true ↔ limit.toNat < v.counted (v :: path) % 2 ^ 32))
    (h : Exact limit path) : Exact limit (v :: path) := by
  intro w older hw
  rcases List.suffix_cons_iff.1 hw with heq | hsuf
  · obtain ⟨rfl, rfl⟩ := List.cons.inj heq
    exact hv
  · exact h w older hsuf

theorem counted_cons_self {k : String} (hk : v.key = some k) :
    v.counted (v :: path) = (path.countP fun w => w.key == some k) + 1 := by
  simp [counted, hk]

theorem twoWays_cons (v w : Visit) (path : List Visit) :
    v.twoWays (w :: path) = v.twoWays path + if w.twoWay && v.sameBranch w then 1 else 0 :=
  List.countP_cons

theorem liveForks_cons (v w : Visit) (path : List Visit) :
    v.liveForks (w :: path) =
      v.liveForks path + if w.twoWay && v.sameBranch w && !w.terminated then 1 else 0 :=
  List.countP_cons

theorem sameBranch_iff {v w : Visit} :
    v.sameBranch w = true ↔ w.calltrace = v.calltrace ∧ w.block.name = v.block.name := by
  simp [sameBranch]

/-- Executions of one branch count the same two-way executions. -/
theorem twoWays_congr {v w : Visit} (h : v.sameBranch w = true) (path : List Visit) :
    w.twoWays path = v.twoWays path := by
  obtain ⟨hc, hb⟩ := sameBranch_iff.1 h
  unfold twoWays
  congr 1
  funext x
  simp [sameBranch, hc, hb]

/-- **At most `limit` live forks.** Where the limit is right at every two-way execution of a path, each
state that is left alive is one of the first `limit` of its branch. -/
theorem liveForks_le (v : Visit)
    (h : ∀ w older, w :: older <:+ path → w.twoWay = true → LimitRight limit w (w :: older)) :
    v.liveForks path ≤ limit.toNat ∧ v.liveForks path ≤ v.twoWays path := by
  induction path with
  | nil => simp [liveForks]
  | cons w path ih =>
    have hpath : ∀ x older, x :: older <:+ path → x.twoWay = true → LimitRight limit x (x :: older) :=
      fun x older hx => h x older (hx.trans (List.suffix_cons w path))
    obtain ⟨ihl, iht⟩ := ih hpath
    rw [liveForks_cons, twoWays_cons]
    cases hlive : w.twoWay && v.sameBranch w && !w.terminated with
    | false =>
      simp only [Bool.false_eq_true, if_false, Nat.add_zero]
      exact ⟨ihl, iht.trans (Nat.le_add_right _ _)⟩
    | true =>
      simp only [Bool.and_eq_true, Bool.not_eq_true'] at hlive
      obtain ⟨⟨htwo, hsame⟩, halive⟩ := hlive
      have hright := h w path (List.suffix_refl _) htwo
      have hle : ¬limit.toNat < w.twoWays (w :: path) := by
        rw [LimitRight, halive] at hright
        exact fun hlt => absurd (hright.2 hlt) (by decide)
      rw [twoWays_congr hsame, twoWays_cons] at hle
      simp only [htwo, hsame, Bool.and_self, if_true] at hle ⊢
      omega

end Visit

namespace Executor

/-! ### The invariant -/

/-- Add an execution to the history of a state. -/
def recorded (s : Executor) (p : Ptr) (v : Visit) : Executor :=
  { s with history := Function.update s.history p (v :: s.history p) }

theorem recorded_terminated (s : Executor) (p q : Ptr) (v : Visit) :
    (s.recorded p v).terminated q = (s.terminated q).recorded p v := by
  show (if q ∈ s.addedStates then _ else _) = recorded (if q ∈ s.addedStates then _ else _) p v
  split
  · rfl
  · rfl

/-- The number of executions on the path of `p` under a key. -/
def visits (s : Executor) (p : Ptr) (key : String) : ℕ := (s.history p).countP fun v => v.key == some key

/-- The counters of every state are the numbers of executions on its path, modulo `2 ^ 32`. -/
structure Counters (limit : UInt32) (s : Executor) : Prop where
  fresh : ∀ p, s.nextPtr ≤ p → s.heap p = none
  count : ∀ p state, s.heap p = some state → ∀ key, state.BBcount key = UInt32.ofNat (s.visits p key)
  exact : ∀ p, Visit.Exact limit (s.history p)

namespace Counters

variable {limit : UInt32} {s : Executor}

/-- A write that keeps the counters of the state. -/
theorem written {p : Ptr} {f : ExecutionState → ExecutionState} (h : Counters limit s)
    (hf : ∀ state, s.heap p = some state → (f state).BBcount = state.BBcount) :
    Counters limit (s.written p f) := by
  refine ⟨fun x hx => ?_, fun x state hstate => ?_, h.exact⟩
  · rw [written_heap]
    split
    · rename_i hxp
      rw [hxp] at hx
      rw [h.fresh p hx, Option.map_none]
    · exact h.fresh x hx
  · rw [written_heap] at hstate
    split at hstate
    · rename_i hxp
      subst hxp
      obtain ⟨state', hstate', rfl⟩ := Option.map_eq_some_iff.1 hstate
      rw [hf state' hstate']
      exact h.count x state' hstate'
    · exact h.count x state hstate

/-- Freeing a state. -/
theorem freed (h : Counters limit s) (p : Ptr) :
    Counters limit { s with heap := Function.update s.heap p none } := by
  have hheap : ∀ x state, Function.update s.heap p none x = some state → s.heap x = some state := by
    intro x state hx
    rw [Function.update_apply] at hx
    split at hx
    · cases hx
    · exact hx
  refine ⟨fun x hx => ?_, fun x state hstate => h.count x state (hheap x state hstate), h.exact⟩
  cases hv : Function.update s.heap p none x with
  | none => exact hv
  | some state => exact absurd (hheap x state hv) (by rw [h.fresh x hx]; exact nofun)

/-- A new state has the path and the counters of the old one. -/
theorem spawned {p : Ptr} {state : ExecutionState} (h : Counters limit s) (hp : s.heap p = some state) :
    Counters limit (s.spawned p state) := by
  have hlt : p < s.nextPtr := by
    by_contra hge
    rw [h.fresh p (not_lt.1 hge)] at hp
    cases hp
  have hhist : ∀ x, (s.spawned p state).history x = if x = s.nextPtr then s.history p else s.history x :=
    fun x => Function.update_apply ..
  refine ⟨fun x hx => ?_, fun x state' hstate' key => ?_, fun x => ?_⟩
  · have hle : s.nextPtr ≤ x := Nat.le_of_succ_le hx
    rw [spawned_heap, if_neg (Nat.ne_of_gt hx), if_neg (hlt.trans_le hle).ne']
    exact h.fresh x hle
  · have hcount := h.count p state hp key
    rw [spawned_heap] at hstate'
    unfold visits
    rw [hhist]
    split at hstate'
    · rename_i hx
      cases hstate'
      rw [if_pos hx]
      exact hcount
    · rename_i hx
      rw [if_neg hx]
      split at hstate'
      · rename_i hxp
        cases hstate'
        rw [hxp]
        exact hcount
      · exact h.count x state' hstate' key
  · rw [hhist]
    split
    · exact h.exact p
    · exact h.exact x

/-- The invariant survives everything but the counting itself. -/
theorem updates (limit : UInt32) : Updates (Counters limit) where
  aux _ _ h := ⟨h.fresh, h.count, h.exact⟩
  mark _ _ _ h := ⟨h.fresh, h.count, h.exact⟩
  write _ _ _ hf h := h.written fun state hstate => (hf state hstate).1
  constrain _ _ _ h := h.written fun _ _ => rfl
  terminate p s h := by
    unfold terminated
    split
    · exact ⟨(h.freed p).fresh, (h.freed p).count, h.exact⟩
    · have h' : Counters limit (s.written p fun state => { state with pc := state.prevPC }) :=
        h.written fun _ _ => rfl
      exact ⟨h'.fresh, h'.count, h'.exact⟩
  spawn _ _ _ hp h := h.spawned hp
  lists _ _ _ _ h := ⟨h.fresh, h.count, h.exact⟩
  free _ p h := h.freed p
  notFound _ _ h := ⟨h.fresh, h.count, h.exact⟩
  update _ _ _ _ h := ⟨h.fresh, h.count, h.exact⟩

/-- A counted execution. -/
theorem visited {p : Ptr} {v : Visit} {key : String} (h : Counters limit s) (hkey : v.key = some key)
    (hv : v.twoWay = true → (v.terminated = true ↔ limit.toNat < v.counted (v :: s.history p) % 2 ^ 32)) :
    Counters limit ((s.written p fun state =>
      { state with BBcount := Function.update state.BBcount key (state.BBcount key + 1) }).recorded p v) := by
  have hhist : ∀ x, Function.update s.history p (v :: s.history p) x =
      if x = p then v :: s.history p else s.history x := fun x => Function.update_apply ..
  refine ⟨fun x hx => ?_, fun x state hstate key' => ?_, fun x => ?_⟩
  · show (s.written p _).heap x = none
    rw [written_heap]
    split
    · rename_i hxp
      rw [h.fresh p (hxp ▸ hx), Option.map_none]
    · exact h.fresh x hx
  · show state.BBcount key' = UInt32.ofNat ((Function.update s.history p (v :: s.history p) x).countP _)
    have hstate' : (s.written p _).heap x = some state := hstate
    rw [written_heap] at hstate'
    rw [hhist]
    split at hstate'
    · rename_i hxp
      obtain ⟨old, hold, rfl⟩ := Option.map_eq_some_iff.1 hstate'
      have hcount := h.count p old hold key'
      rw [if_pos hxp, List.countP_cons, hkey]
      by_cases hk : key' = key
      · subst hk
        simp only [Function.update_self, beq_self_eq_true, if_true]
        rw [hcount, UInt32.ofNat_add]
        rfl
      · have hne : (some key == some key') = false := by simpa using Ne.symm hk
        simp only [hne, Bool.false_eq_true, if_false, Nat.add_zero, Function.update_of_ne hk]
        exact hcount
    · rename_i hxp
      rw [if_neg hxp]
      exact h.count x state hstate' key'
  · show Visit.Exact limit (Function.update s.history p (v :: s.history p) x)
    rw [hhist]
    split
    · exact Visit.exact_cons hv (h.exact p)
    · exact h.exact x

/-- An execution in a block that is not counted. -/
theorem visited_none {p : Ptr} {v : Visit} (h : Counters limit s) (hkey : v.key = none)
    (hv : v.twoWay = true → v.terminated = false) : Counters limit (s.recorded p v) := by
  have hhist : ∀ x, Function.update s.history p (v :: s.history p) x =
      if x = p then v :: s.history p else s.history x := fun x => Function.update_apply ..
  refine ⟨h.fresh, fun x state hstate key' => ?_, fun x => ?_⟩
  · show state.BBcount key' = UInt32.ofNat ((Function.update s.history p (v :: s.history p) x).countP _)
    rw [hhist, h.count x state hstate key']
    split
    · rename_i hxp
      subst hxp
      have hne : ¬(none == some key') = true := by simp
      rw [List.countP_cons, hkey, if_neg hne]
      rfl
    · rfl
  · show Visit.Exact limit (Function.update s.history p (v :: s.history p) x)
    rw [hhist]
    split
    · refine Visit.exact_cons (fun htwo => ?_) (h.exact p)
      rw [hv htwo, Visit.counted, if_pos hkey]
      simp
    · exact h.exact x

end Counters

/-! ### Conditional branches -/

section
variable {s : Executor} {E : Executor → Prop}

@[simp] theorem wp_record {Q : Unit → Executor → Prop} {p : Ptr} {v : Visit} :
    Prog.wp (record p v) Q E s ↔ Q () (s.recorded p v) := Iff.rfl

/-- The state with one more execution under the key. -/
def bumped (s : Executor) (p : Ptr) (key : String) : Executor :=
  s.written p fun state =>
    { state with BBcount := Function.update state.BBcount key (state.BBcount key + 1) }

/-- What `checkLoopLimit` does. -/
theorem wp_checkLoopLimit {Q : Bool → Executor → Prop} {p : Ptr} {block : BasicBlock} {looplimit : UInt32}
    {terminate : Bool} {state : ExecutionState} (hstate : s.heap p = some state)
    (hnone : BBkey (getCalltrace state) block.name = none → Q false s)
    (hle : ∀ key, BBkey (getCalltrace state) block.name = some key →
      ¬looplimit < state.BBcount key + 1 → Q false (s.bumped p key))
    (hgt : ∀ key, BBkey (getCalltrace state) block.name = some key → looplimit < state.BBcount key + 1 →
      Q true (if terminate then ((s.bumped p key).emitted (.mark .loopLimit p)).terminated p
        else s.bumped p key)) :
    Prog.wp (checkLoopLimit p block looplimit terminate) Q E s := by
  unfold checkLoopLimit
  rw [Prog.wp_bind, wp_read]
  refine ⟨fun state' hstate' => ?_, fun h => absurd (hstate.symm.trans h) nofun⟩
  obtain rfl : state = state' := Option.some.inj (hstate.symm.trans hstate')
  cases hkey : BBkey (getCalltrace state) block.name with
  | none => exact hnone hkey
  | some key =>
    show Prog.wp _ _ _ s
    rw [Prog.wp_bind, wp_write, Prog.wp_ite]
    refine ⟨fun hlt => ?_, fun hge => hle key hkey hge⟩
    have hgt' := hgt key hkey hlt
    rw [Prog.wp_bind, Prog.wp_when]
    cases terminate with
    | false => exact ⟨fun h => absurd h (by decide), fun _ => hgt'⟩
    | true =>
      refine ⟨fun _ => ?_, fun h => absurd rfl h⟩
      rw [Prog.wp_bind, wp_emit, wp_terminateState]
      exact hgt'

end

/-- Two states with one stack and one path; the second is not freed. -/
structure Twins (p q : Ptr) (stack : List StackFrame) (path : List Visit) (s : Executor) : Prop where
  ne : p ≠ q
  alive : (s.heap q).isSome = true
  stack : ∀ x, x = p ∨ x = q → ∀ state, s.heap x = some state → state.stack = stack
  left : s.history p = path
  right : s.history q = path

namespace Twins

variable {p q : Ptr} {stack : List StackFrame} {path : List Visit} {s : Executor}

theorem quiet {α : Type} {m : Prog Executor α} (hm : Quiet m) : Prog.Keeps (Twins p q stack path) m :=
  hm.keeps fun _ _ h => ⟨h.ne, h.alive, h.stack, h.left, h.right⟩

theorem write {x : Ptr} {f : ExecutionState → ExecutionState} (hf : ∀ state, (f state).stack = state.stack) :
    Prog.Keeps (Twins p q stack path) (write x f) := by
  refine .modify fun s h => ⟨h.ne, ?_, fun y hy state hstate => ?_, h.left, h.right⟩
  · rw [← Executor.written, written_heap]
    split
    · rename_i hqx
      rw [Option.isSome_map, ← hqx]
      exact h.alive
    · exact h.alive
  · rw [← Executor.written, written_heap] at hstate
    split at hstate
    · rename_i hyx
      subst hyx
      obtain ⟨old, hold, rfl⟩ := Option.map_eq_some_iff.1 hstate
      rw [hf]
      exact h.stack y hy old hold
    · exact h.stack y hy state hstate

theorem transferTo (env : Env) (dst src : BasicBlock) (x : Option Ptr) :
    Prog.Keeps (Twins p q stack path) (transferTo env dst src x) := by
  cases x with
  | none => exact .pure _
  | some x => exact write fun _ => rfl

theorem splitSeeds (env : Env) (x y : Ptr) (condition : Expr) (seeds : Option (List Seed)) :
    Prog.Keeps (Twins p q stack path) (splitSeeds env x y condition seeds) := by
  cases seeds with
  | none => exact .pure _
  | some seeds =>
    refine (quiet (.seedValues env condition seeds)).bind fun _ => (quiet (.setSeeds _ _)).bind fun _ =>
      (quiet (.setSeeds _ _)).bind fun _ => Prog.Keeps.when ?_
    refine (quiet (.read x)).bind fun _ => (quiet (.read y)).bind fun _ => ?_
    exact Prog.Keeps.bind (write fun _ => rfl) fun _ => write fun _ => rfl

theorem addConstraint [ExprOptions] (env : Env) (x : Ptr) (condition : Expr) :
    Prog.Keeps (Twins p q stack path) (addConstraint env x condition) :=
  Prog.Keeps.assert.ite ((quiet (.checkSeeds env x condition)).bind fun _ => (quiet (.read x)).bind fun _ =>
    (Prog.Keeps.unwrap _).bind fun _ => write fun _ => rfl)

/-- The states of a fork are twins. -/
theorem of_spawned {state : ExecutionState} (hne : p ≠ s.nextPtr) :
    Twins p s.nextPtr state.stack (s.history p) (s.spawned p state) := by
  refine ⟨hne, ?_, fun x hx state' hstate' => ?_, Function.update_of_ne hne .., Function.update_self ..⟩
  · rw [spawned_heap, if_pos rfl]
    rfl
  rw [spawned_heap] at hstate'
  split at hstate'
  · cases hstate'
    rfl
  · rename_i hnew
    rw [if_pos (hx.resolve_right hnew)] at hstate'
    cases hstate'
    rfl

end Twins

/-- What a two-way `fork` of `p` returns: `p` and a twin. -/
def ForkedTwins (p : Ptr) (s : Executor) : Option Ptr × Option Ptr → Prop
  | (some a, some b) => a = p ∧ ∃ stack path, Twins p b stack path s
  | _ => True

theorem ForkedTwins.transferTo {p : Ptr} {r : Option Ptr × Option Ptr} (env : Env) (dst src : BasicBlock)
    (x : Option Ptr) : Prog.Keeps (fun s => ForkedTwins p s r) (Executor.transferTo env dst src x) := by
  match r with
  | (some a, some b) =>
    intro s h
    obtain ⟨ha, stack, path, ht⟩ := h
    exact (Twins.transferTo env dst src x s ht).mono (fun _ _ h => ⟨ha, stack, path, h⟩)
      fun _ h => ⟨ha, stack, path, h⟩
  | (none, _) => cases x with
    | none => exact .pure _
    | some x => exact .modify fun _ _ => trivial
  | (some _, none) => cases x with
    | none => exact .pure _
    | some x => exact .modify fun _ _ => trivial

section
variable [ExprOptions] {limit : UInt32}

theorem forkBoth_twins (env : Env) (p : Ptr) (condition : Expr) (seeds : Option (List Seed))
    (notaddconstraint : Bool) {s : Executor} (hs : Counters limit s) :
    Prog.wp (forkBoth env p condition seeds notaddconstraint) (fun r t => ForkedTwins p t r) (fun _ => True)
      s := by
  unfold forkBoth
  rw [Prog.wp_bind, wp_modifyAux, Prog.wp_bind, wp_spawn]
  refine ⟨fun state hstate => ?_, fun _ => trivial⟩
  have hne : p ≠ s.nextPtr := by
    intro heq
    have hnone := hs.fresh p heq.ge
    rw [hnone] at hstate
    cases hstate
  let t : Executor := { s with aux := { s.aux with forks := s.aux.forks + 1 } }
  have htwins : Twins p s.nextPtr state.stack (s.history p) (t.spawned p state) :=
    Twins.of_spawned (s := t) hne
  have hE : ∀ t : Executor, Twins p s.nextPtr state.stack (s.history p) t → True := fun _ _ => trivial
  refine Prog.wp.bind ((Twins.splitSeeds env p s.nextPtr condition seeds _ htwins).mono (fun _ _ => id) hE)
    fun _ t ht => ?_
  have hadd : Prog.Keeps (Twins p s.nextPtr state.stack (s.history p))
      (Prog.when (notaddconstraint = false) do
        addConstraint env p condition
        addConstraint env s.nextPtr (Expr.createIsZero condition)) :=
    ((Twins.addConstraint env p _).bind fun _ => Twins.addConstraint env _ _).when
  refine Prog.wp.bind ((hadd t ht).mono (fun _ _ => id) hE) fun _ t ht => ?_
  rw [Prog.wp_bind, wp_read]
  refine ⟨fun state _ => ?_, fun _ => trivial⟩
  rw [Prog.wp_ite]
  constructor
  · intro _
    rw [Prog.wp_bind, wp_terminateState, Prog.wp_bind, wp_terminateState]
    exact trivial
  · intro _
    exact ⟨rfl, _, _, ht⟩

theorem fork_twins (env : Env) (p : Ptr) (condition : Expr) (isInternal : Bool) {s : Executor}
    (hs : Counters limit s) :
    Prog.wp (fork env p condition isInternal) (fun r t => Counters limit t ∧ ForkedTwins p t r)
      (Counters limit) s := by
  have hu := Counters.updates limit
  unfold fork
  refine (hu.quiet (.seedsOf p) s hs).bind fun seeds t ht => ?_
  refine (hu.limitStatically env p _ condition t ht).bind fun condition t ht => ?_
  refine (hu.quiet (.evaluate env p condition) t ht).bind fun answer t ht => ?_
  refine (hu.chooseSide env p condition isInternal seeds _ _ t ht).bind fun res t ht => ?_
  cases res with
  | True => exact ⟨ht, trivial⟩
  | False => exact ⟨ht, trivial⟩
  | Unknown =>
    exact ((hu.forkBoth env p condition seeds _ t ht).and
      (forkBoth_twins env p condition seeds _ ht)).mono (fun _ _ h => h) fun _ h => h.1

omit [ExprOptions] in
/-- The test of `checkLoopLimit`, on the numbers that the counters stand for. -/
theorem lt_count_iff (limit : UInt32) (n : ℕ) :
    limit < UInt32.ofNat n + 1 ↔ limit.toNat < (n + 1) % 2 ^ 32 := by
  have hadd : UInt32.ofNat n + 1 = UInt32.ofNat (n + 1) := (UInt32.ofNat_add n 1).symm
  rw [hadd, UInt32.lt_iff_toNat_lt, UInt32.toNat_ofNat']

omit [ExprOptions] in
/-- A two-way execution of twins, which `terminated` tells of rightly. -/
theorem Counters.visitBoth {p q : Ptr} {path : List Visit} {key : String} {v : Visit} {s : Executor}
    (hs : Counters limit s) (hne : p ≠ q) (hp : s.history p = path) (hq : s.history q = path)
    (hkey : v.key = some key)
    (hv : v.terminated = true ↔ limit.toNat < (s.visits q key + 1) % 2 ^ 32) :
    Counters limit ((((s.bumped p key).recorded p v).bumped q key).recorded q v) := by
  have hexact : v.terminated = true ↔ limit.toNat < v.counted (v :: path) % 2 ^ 32 := by
    rw [hv, Visit.counted_cons_self hkey, visits, hq]
  have hs' : Counters limit ((s.bumped p key).recorded p v) :=
    hs.visited hkey fun _ => by rw [hp]; exact hexact
  refine hs'.visited hkey fun _ => ?_
  have hq' : ((s.bumped p key).recorded p v).history q = path :=
    (Function.update_of_ne hne.symm ..).trans hq
  rw [hq']
  exact hexact

omit [ExprOptions] in
/-- The new state of a branch in a counted block, when the old one has been counted. -/
theorem Counters.limitNewState (env : Env) {p q : Ptr} (block : BasicBlock) {calltrace key : String}
    {path : List Visit} {stateq : ExecutionState} {s : Executor}
    (hlimit : limit = env.config.looplimit.getD 10) (hs : Counters limit s) (hne : p ≠ q)
    (hp : s.history p = path) (hq : s.history q = path) (hstateq : s.heap q = some stateq)
    (hcall : getCalltrace stateq = calltrace) (hkey : BBkey calltrace block.name = some key) :
    Prog.wp (limitNewState env p q block calltrace) (fun _ => Counters limit) (Counters limit)
      (s.bumped p key) := by
  have hu := Counters.updates limit
  have hstateq' : (s.bumped p key).heap q = some stateq := by
    rw [bumped, written_heap, if_neg hne.symm, hstateq]
  have hcount := hs.count q stateq hstateq key
  have hsame : ∀ key', BBkey (getCalltrace stateq) block.name = some key' → key = key' := by
    intro key' hkey'
    rw [hcall, hkey] at hkey'
    exact Option.some.inj hkey'
  unfold Executor.limitNewState
  rw [Prog.wp_bind]
  refine wp_checkLoopLimit hstateq' (fun hnone => ?_) (fun key' hkey' hge => ?_) fun key' hkey' hlt => ?_
  · rw [hcall, hkey] at hnone
    cases hnone
  · obtain rfl := hsame key' hkey'
    rw [hcount, lt_count_iff, ← hlimit] at hge
    exact hs.visitBoth hne hp hq hkey (iff_of_false (by simp) hge)
  · obtain rfl := hsame key' hkey'
    rw [hcount, lt_count_iff, ← hlimit] at hlt
    have hboth := hs.visitBoth (v := ⟨calltrace, block, true, true⟩) hne hp hq hkey (iff_of_true rfl hlt)
    have hend := hu.terminate q _ (hu.mark _ .loopLimit q hboth)
    rw [Prog.wp_bind, wp_record, wp_record, if_pos rfl, ← recorded_terminated, ← recorded_terminated]
    exact hend

omit [ExprOptions] in
/-- The new state of a branch in a block that is not counted. -/
theorem Counters.limitNewState_none (env : Env) {p q : Ptr} (block : BasicBlock) {calltrace : String}
    {stateq : ExecutionState} {s : Executor} (hs : Counters limit s) (hstateq : s.heap q = some stateq)
    (hcall : getCalltrace stateq = calltrace) (hkey : BBkey calltrace block.name = none) :
    Prog.wp (Executor.limitNewState env p q block calltrace) (fun _ => Counters limit) (Counters limit) s := by
  unfold Executor.limitNewState
  rw [Prog.wp_bind]
  refine wp_checkLoopLimit hstateq (fun _ => ?_) (fun key hkey' => ?_) fun key hkey' => ?_
  · have hv : (⟨calltrace, block, true, false⟩ : Visit).key = none := hkey
    rw [Prog.wp_bind, wp_record, wp_record]
    exact (hs.visited_none hv fun _ => rfl).visited_none hv fun _ => rfl
  · rw [hcall, hkey] at hkey'
    cases hkey'
  · rw [hcall, hkey] at hkey'
    cases hkey'

/-- Both sides are feasible: the counters of twins agree, so the execution is right in both. -/
theorem Counters.branchBoth (env : Env) {p q : Ptr} (ki : ℕ) {stack : List StackFrame} {path : List Visit}
    {s : Executor} (hlimit : limit = env.config.looplimit.getD 10) (hs : Counters limit s)
    (ht : Twins p q stack path s) :
    Prog.wp (branchBoth env p q ki) (fun _ => Counters limit) (Counters limit) s := by
  have hu := Counters.updates limit
  have hafter : Prog.Keeps (Counters limit) (afterExecuteInstruction env q ki) :=
    hu.afterExecuteInstruction env q ki fun _ _ h => ⟨h.fresh, h.count, h.exact⟩
  obtain ⟨stateq, hstateq⟩ := Option.isSome_iff_exists.1 ht.alive
  unfold Executor.branchBoth
  rw [Prog.wp_bind, wp_read]
  refine ⟨fun state hstate => ?_, fun _ => hs⟩
  have hcall : getCalltrace stateq = getCalltrace state := by
    unfold getCalltrace
    rw [ht.stack q (.inr rfl) stateq hstateq, ht.stack p (.inl rfl) state hstate]
  -- after the first check, the old state is counted and not yet recorded
  have hfirst : Prog.wp (checkLoopLimit p (env.instructions ki).parent (env.config.looplimit.getD 10) false)
      (fun _ t => Prog.wp (Executor.limitNewState env p q (env.instructions ki).parent (getCalltrace state))
        (fun _ => Counters limit) (Counters limit) t) (Counters limit) s :=
    wp_checkLoopLimit hstate (fun hkey => Counters.limitNewState_none env _ hs hstateq hcall hkey)
      (fun _ hkey _ => Counters.limitNewState env _ hlimit hs ht.ne ht.left ht.right hstateq hcall hkey)
      fun _ hkey _ => Counters.limitNewState env _ hlimit hs ht.ne ht.left ht.right hstateq hcall hkey
  refine hfirst.bind fun _ t hwp => hwp.bind fun _ u hu' => hafter u hu'

omit [ExprOptions] in
/-- At most one side is feasible: the execution is counted all the same. -/
theorem Counters.branchOne (env : Env) (p : Ptr) (block succ0 succ1 : BasicBlock) :
    Prog.Keeps (Counters limit) (branchOne env p block succ0 succ1) := by
  have hu := Counters.updates limit
  have hrest : ∀ reached : Bool, Prog.Keeps (Counters limit) (Prog.when (reached = true) do
      let r ← random env
      transferToBasicBlock env (if r % 2 = 0 then succ0 else succ1) block p) := fun _ =>
    ((hu.quiet (.random env)).bind fun _ => hu.transferToBasicBlock env _ block p).when
  intro s hs
  unfold Executor.branchOne
  rw [Prog.wp_bind, wp_read]
  refine ⟨fun state hstate => ?_, fun _ => hs⟩
  rw [Prog.wp_bind]
  refine wp_checkLoopLimit hstate (fun hnone => ?_) (fun key hkey _ => ?_) fun key hkey _ => ?_
  · rw [Prog.wp_bind, wp_record]
    exact hrest _ _ (hs.visited_none hnone nofun)
  · rw [Prog.wp_bind, wp_record]
    exact hrest _ _ (hs.visited hkey nofun)
  · rw [Prog.wp_bind, wp_record]
    exact hrest _ _ (hs.visited hkey nofun)

/-- A conditional branch. -/
theorem Counters.executeCondBr (env : Env) (hlimit : limit = env.config.looplimit.getD 10) (p : Ptr) (ki : ℕ)
    (cond : Operand) (succ0 succ1 : BasicBlock) :
    Prog.Keeps (Counters limit) (executeCondBr env p ki cond succ0 succ1) := by
  have hu := Counters.updates limit
  refine Prog.Keeps.get.bind fun _ => Prog.Keeps.ite ?_ ?_
  · exact (hu.transferToBasicBlock env _ _ p).bind fun _ => hu.quiet (.setCounter _ _)
  · refine (hu.quiet (.eval p cond)).bind fun c => (hu.quiet (.random env)).bind fun r s hs => ?_
    refine (fork_twins env p _ false hs).bind fun branches t ht => ?_
    have hkeep : ∀ dst x, Prog.Keeps (fun t => Counters limit t ∧ ForkedTwins p t branches)
        (transferTo env dst (env.instructions ki).parent x) := fun dst x =>
      (hu.transferTo env dst _ x).and (ForkedTwins.transferTo env dst _ x)
    refine Prog.wp.bind ((hkeep succ0 _ t ht).mono (fun _ _ => id) fun _ => And.left) fun _ t ht => ?_
    refine Prog.wp.bind ((hkeep succ1 _ t ht).mono (fun _ _ => id) fun _ => And.left) fun _ t ht => ?_
    refine Prog.wp.bind ?_ fun _ t ht => hu.quiet (.countMisses env _ succ0 succ1 _) t ht
    unfold afterFork
    split
    · rename_i a b newstate hsides hsecond
      match branches, hsecond, ht with
      | (some a, some b), rfl, ht =>
        obtain ⟨rfl, stack, path, htwins⟩ := ht.2
        exact ht.1.branchBoth env ki hlimit htwins
      | (none, some b), _, _ => split at hsides <;> cases hsides
    · exact Counters.branchOne env p _ succ0 succ1 t ht.1

/-! ### Whole runs -/

omit [ExprOptions] in
/-- Nothing has been counted yet. -/
structure Uncounted (s : Executor) : Prop where
  fresh : ∀ p, s.nextPtr ≤ p → s.heap p = none
  count : ∀ p state, s.heap p = some state → ∀ key, state.BBcount key = 0
  history : ∀ p, s.history p = []

omit [ExprOptions] in
theorem Uncounted.counters {s : Executor} (h : Uncounted s) : Counters limit s := by
  refine ⟨h.fresh, fun p state hstate key => ?_, fun p => ?_⟩
  · rw [h.count p state hstate key, visits, h.history p]
    rfl
  · rw [h.history p]
    exact Visit.exact_nil

/-- The counters are right in every state reached. -/
theorem Reached.counters {env : Env} {s t : Executor} (h : Reached env s t) (hs : Uncounted s) :
    Counters (env.config.looplimit.getD 10) t := by
  have hu := Counters.updates (env.config.looplimit.getD 10)
  refine h.invariant (fun p => ?_) hs.counters
  exact hu.runStep env p (fun _ _ _ h => ⟨h.fresh, h.count, h.exact⟩)
    (fun _ _ h => ⟨h.fresh, h.count, h.exact⟩) (fun _ _ _ h => ⟨h.fresh, h.count, h.exact⟩)
    fun ki cond succ0 succ1 _ => Counters.executeCondBr env rfl p ki cond succ0 succ1

/-- **The loop limit.** At every two-way execution of a branch in every run: the new state is terminated
exactly when the branch has been executed with both sides feasible more than `looplimit` times on its path,
if and only if the counter agrees with this number about the limit.  On a path where it always does, at
most `looplimit` of the states forked at a branch are left alive. -/
theorem limitRight_iff_countAgrees {env : Env} {s t : Executor} (hs : Uncounted s) (h : Reached env s t) :
    (∀ (p : Ptr) (v : Visit) (older : List Visit), v :: older <:+ t.history p → v.twoWay = true →
      (v.LimitRight (env.config.looplimit.getD 10) (v :: older) ↔
        v.CountAgrees (env.config.looplimit.getD 10) (v :: older))) ∧
    ∀ (p : Ptr) (v : Visit), (∀ w older, w :: older <:+ t.history p → w.twoWay = true →
        w.CountAgrees (env.config.looplimit.getD 10) (w :: older)) →
      v.liveForks (t.history p) ≤ (env.config.looplimit.getD 10).toNat := by
  have hiff : ∀ (p : Ptr) (v : Visit) (older : List Visit), v :: older <:+ t.history p → v.twoWay = true →
      (v.LimitRight (env.config.looplimit.getD 10) (v :: older) ↔
        v.CountAgrees (env.config.looplimit.getD 10) (v :: older)) := by
    intro p v older hsuf htwo
    unfold Visit.LimitRight Visit.CountAgrees
    rw [(h.counters hs).exact p v older hsuf htwo]
  refine ⟨hiff, fun p v hagree => (Visit.liveForks_le v fun w older hsuf htwo => ?_).1⟩
  exact (hiff p w older hsuf htwo).2 (hagree w older hsuf htwo)

end

/-! ### A loop whose condition is first concrete and then symbolic -/

/-- The byte `x[0]`. -/
def byteX : Expr := .read (.root ⟨0, "x", 1, [], Array.oneByte_lt, Array.oneByte_values⟩) (.const 0#32)

/-- The condition `x[0] < 7`. -/
def condX : Expr := .cmp .ult byteX (.const 7#8)

def loopBlock : BasicBlock := ⟨16#64, "a.bc-1-loop", 0⟩

def exitBlock : BasicBlock := ⟨32#64, "a.bc-1-exit", 2⟩

/-- A loop of two instructions; the first computes the condition of the second. -/
def loopProgram : ℕ → KInstruction
  | 0 => ⟨.other, loopBlock, "f", "", "", none, true⟩
  | 1 => ⟨.condBr (.reg 0) loopBlock exitBlock, loopBlock, "f", "", "", none, true⟩
  | _ => ⟨.ret true, exitBlock, "f", "", "", none, true⟩

/-- The limit is 1.  The condition is true in the first turn and `x[0] < 7` in the second, where the solver
finds both sides feasible. -/
def loopEnv : Env :=
  .plain { looplimit := some 1 } loopProgram
    (fun n r => if r = 0 then some (if n < 8 then .ofBool true else condX) else none)
    ⟨fun _ _ _ => some .Unknown, fun _ _ _ => none, fun _ _ _ => none, fun _ _ _ => none⟩

def loopStart : Executor := start (.init "f" 0 0) {}

theorem loopStart_uncounted : Uncounted loopStart := by
  refine ⟨fun p hp => ?_, fun p state hstate key => ?_, fun _ => rfl⟩
  · have hne : p ≠ 0 := Nat.ne_of_gt hp
    exact if_neg hne
  · have hheap : (if p = 0 then some (ExecutionState.init "f" 0 0) else none) = some state := hstate
    split at hheap
    · cases hheap
      rfl
    · cases hheap

section
variable [ExprOptions]

theorem addConstraint_condX : ConstraintManager.addConstraint [] condX = some [condX] := by
  have hsimp : ConstraintManager.simplifyExpr [] condX = condX := by
    simp [ConstraintManager.simplifyExpr, ExprReplaceVisitor2.visit_of_entries_nil,
      ConstraintManager.equalities]
  rw [ConstraintManager.addConstraint, hsimp, ConstraintManager.addConstraintInternal_eq]
  rfl

theorem createIsZero_condX : Expr.createIsZero condX = .cmp .eq (.const 0#1) condX := by
  simp [Expr.createIsZero, condX, EqExpr.create, EqExpr.createConst, eqExprCreatePartialR, Expr.getWidth,
    eqExprCreate]

theorem addConstraint_not_condX :
    ConstraintManager.addConstraint [] (Expr.createIsZero condX) = some [Expr.createIsZero condX] := by
  have hsimp : ConstraintManager.simplifyExpr [] (Expr.createIsZero condX) = Expr.createIsZero condX := by
    simp [ConstraintManager.simplifyExpr, ExprReplaceVisitor2.visit_of_entries_nil,
      ConstraintManager.equalities]
  rw [ConstraintManager.addConstraint, hsimp, createIsZero_condX, ConstraintManager.addConstraintInternal_eq]
  simp [ConstraintManager.rewriteConstraints_nil, ConstraintSet.push_back]

end

section
local instance : ExprOptions := .defaults

/-- A turn of the main loop on the only state. -/
def loopTurn (s : Executor) : Executor := (runStep loopEnv 0 s).2

/-- The state before the symbolic turn of the branch. -/
def loopThree : Executor := loopTurn (loopTurn (loopTurn loopStart))

theorem run_loopThree : Run (step loopEnv) (fun _ _ => True) loopStart loopThree :=
  run_turn (run_turn (run_turn .refl (.head _) rfl rfl) (.head _) rfl rfl) (.head _) rfl rfl

/-- In the second turn of the loop both sides are feasible for the first time, and the new state is
terminated. -/
theorem runStep_loopThree : Prog.wp (runStep loopEnv 0)
    (fun _ t => t.history 0 = [⟨"f", loopBlock, true, true⟩, ⟨"f", loopBlock, false, false⟩])
    (fun _ => False) loopThree := by
  refine .step rfl (.step rfl (.step rfl ?_))
  refine Prog.wp_bind.2 (.step rfl ?_)
  show Prog.wp (executeCondBr loopEnv 0 1 (.reg 0) loopBlock exitBlock) _ _ _
  refine .step rfl (.step rfl (.step rfl (Prog.wp_bind.2 ?_)))
  -- `fork`, up to the constraints
  refine .step rfl (.step rfl (.step rfl (.step rfl (.step rfl (.step rfl (.step rfl ?_))))))
  refine Prog.wp_bind.2 (Prog.wp_bind.2 (wp_addConstraint rfl rfl rfl addConstraint_condX ?_))
  have hc : (Expr.createIsZero condX).isConstant = false := by
    rw [createIsZero_condX]
    rfl
  exact wp_addConstraint hc rfl rfl addConstraint_not_condX (by decide +kernel)

theorem loopEnd : ∃ t, Reached loopEnv loopStart t ∧
    t.history 0 = [⟨"f", loopBlock, true, true⟩, ⟨"f", loopBlock, false, false⟩] := by
  obtain ⟨_, t, hturn, hhist⟩ := runStep_loopThree.exists_result
  have hrun := run_turn run_loopThree (.head _) rfl (congrArg Prod.fst hturn)
  rw [hturn] at hrun
  exact ⟨t, .run hrun, hhist⟩

theorem limitRight_iff_countAgrees_loop : ∃ t v older, Uncounted loopStart ∧ Reached loopEnv loopStart t ∧
    v :: older <:+ t.history 0 ∧ v.twoWay = true ∧
      (v.LimitRight 1 (v :: older) ↔ v.CountAgrees 1 (v :: older)) := by
  obtain ⟨t, hreached, hhist⟩ := loopEnd
  refine ⟨t, ⟨"f", loopBlock, true, true⟩, [⟨"f", loopBlock, false, false⟩], loopStart_uncounted, hreached,
    hhist ▸ List.suffix_refl _, rfl, ?_⟩
  exact (limitRight_iff_countAgrees loopStart_uncounted hreached).1 0 _ _ (hhist ▸ List.suffix_refl _) rfl

/-- **A concrete turn counts.**  With a limit of 1, the first fork of the loop is terminated. -/
theorem concreteTurn_not_limitRight : ∃ t p v older, Uncounted loopStart ∧ Reached loopEnv loopStart t ∧
    v :: older <:+ t.history p ∧ v.twoWay = true ∧ ¬v.LimitRight 1 (v :: older) := by
  obtain ⟨t, hreached, hhist⟩ := loopEnd
  refine ⟨t, 0, ⟨"f", loopBlock, true, true⟩, [⟨"f", loopBlock, false, false⟩], loopStart_uncounted,
    hreached, hhist ▸ List.suffix_refl _, rfl, ?_⟩
  unfold Visit.LimitRight
  decide +kernel

end

end Executor

end SymBisect
