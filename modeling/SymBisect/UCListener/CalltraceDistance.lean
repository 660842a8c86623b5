import SymBisect.UCListener.CallReturn

/-!
# The distance from the call trace

`UCListener::skip_calltrace_distance` compares the call stack with the reported call trace, from the outermost frame on.
The frames that follow the trace bring the end of it nearer, the first other frame leaves it, and from there on the frames
of functions with more than one block are counted.

* `followed`, `strayed`, `distance`: the three numbers, as functions of the stack.
* `skip_iff`: when the next call is skipped.
* `skip_exact`: on a stack that is the beginning of the trace, the next call of the trace is skipped only if its callee is
  on the stack already.
-/

namespace SymBisect.CallReturn

variable (trace : List String) (basicBlocks : String → ℕ)

/-- The number of frames that follow the trace, of those from the `i`-th on; after its end the trace goes on with its last
function. -/
def followed : ℕ → List String → ℕ
  | _, [] => 0
  | i, f :: frames => if f = trace.getD (min i (trace.length - 1)) "" then followed (i + 1) frames + 1 else 0

/-- The number of functions with more than one block. -/
def strayed (frames : List String) : ℕ := frames.countP fun f => decide (basicBlocks f > 1)

/-- The frames after those that follow the trace. -/
def offTrace (frames : List String) : List String := frames.drop (followed trace 0 frames)

/-- The distance to the end of the trace. -/
def distance (frames : List String) : ℤ :=
  trace.length - followed trace 0 frames + strayed basicBlocks (offTrace trace frames)

variable {trace basicBlocks} {env : Env} {target : String}

/-- The functions on the stack, the outermost first. -/
def stackNames (state : ExecutionState) : List String := (state.stack.map StackFrame.kf).reverse

theorem strayed_cons (f : String) (frames : List String) :
    strayed basicBlocks (f :: frames) = (if basicBlocks f > 1 then 1 else 0) + strayed basicBlocks frames := by
  unfold strayed
  rw [List.countP_cons, Nat.add_comm]
  simp only [decide_eq_true_eq]

/-- The loop after it has left the trace. -/
theorem distanceLoop_off (frames : List StackFrame) : ∀ (i m : ℕ) (c : String) (d : ℤ), m < 3 →
    (distanceLoop env target i ⟨false, c, d, m⟩ frames = none ↔ target ∈ frames.map StackFrame.kf ∨
      3 ≤ m + strayed (fun f => (env.kfunction f).basicBlocks) (frames.map StackFrame.kf)) ∧
    ∀ v, distanceLoop env target i ⟨false, c, d, m⟩ frames = some v →
      v.currentdistance = d + strayed (fun f => (env.kfunction f).basicBlocks) (frames.map StackFrame.kf) := by
  induction frames with
  | nil =>
    intro i m c d hm
    refine ⟨iff_of_false (Option.some_ne_none _) ?_, fun v hv => ?_⟩
    · rintro (hmem | hle)
      · exact absurd hmem List.not_mem_nil
      · exact absurd hle (Nat.not_le.2 hm)
    · obtain rfl := Option.some.inj hv
      exact (Int.add_zero d).symm
  | cons sf frames ih =>
    intro i m c d hm
    rw [List.map_cons, strayed_cons]
    have hstep : distanceLoop env target i ⟨false, c, d, m⟩ (sf :: frames) =
        if target = sf.kf then none
        else if m + (if (env.kfunction sf.kf).basicBlocks > 1 then 1 else 0) ≥ 3 then none
        else distanceLoop env target (i + 1)
          ⟨false, c, d + ↑(if (env.kfunction sf.kf).basicBlocks > 1 then 1 else 0 : ℕ),
            m + (if (env.kfunction sf.kf).basicBlocks > 1 then 1 else 0)⟩ frames := by
      rw [distanceLoop]
      simp
    rw [hstep]
    generalize (if (env.kfunction sf.kf).basicBlocks > 1 then 1 else 0 : ℕ) = far
    by_cases htarget : target = sf.kf
    · rw [if_pos htarget]
      exact ⟨iff_of_true rfl (.inl (htarget ▸ List.mem_cons_self)), fun v hv => absurd hv (Option.some_ne_none v).symm⟩
    · rw [if_neg htarget]
      by_cases hfar : m + far ≥ 3
      · rw [if_pos hfar]
        exact ⟨iff_of_true rfl (.inr (by omega)), fun v hv => absurd hv (Option.some_ne_none v).symm⟩
      · rw [if_neg hfar]
        obtain ⟨hnone, hsome⟩ := ih (i + 1) (m + far) c (d + far) (Nat.not_le.1 hfar)
        refine ⟨hnone.trans ?_, fun v hv => (hsome v hv).trans (by push_cast; ring)⟩
        rw [List.mem_cons, or_iff_right htarget, Nat.add_assoc]

/-- The loop as long as it is on the trace. -/
theorem distanceLoop_on (target : String) (htrace : env.Calltrace ≠ []) (frames : List StackFrame) : ∀ (i : ℕ) (c : String) (d : ℤ),
    (0 < i → c = env.Calltrace.getD (min (i - 1) (env.Calltrace.length - 1)) "") →
    (distanceLoop env target i ⟨true, c, d, 0⟩ frames = none ↔ target ∈ frames.map StackFrame.kf ∨
      3 ≤ strayed (fun f => (env.kfunction f).basicBlocks)
        ((frames.map StackFrame.kf).drop (followed env.Calltrace i (frames.map StackFrame.kf)))) ∧
    ∀ v, distanceLoop env target i ⟨true, c, d, 0⟩ frames = some v →
      v.currentdistance = d - followed env.Calltrace i (frames.map StackFrame.kf) +
        strayed (fun f => (env.kfunction f).basicBlocks)
          ((frames.map StackFrame.kf).drop (followed env.Calltrace i (frames.map StackFrame.kf))) := by
  have hpos : 0 < env.Calltrace.length := List.length_pos_of_ne_nil htrace
  induction frames with
  | nil =>
    intro i c d _
    refine ⟨iff_of_false (Option.some_ne_none _) ?_, fun v hv => ?_⟩
    · rintro (hmem | hle)
      · exact absurd hmem List.not_mem_nil
      · exact absurd hle (Nat.not_le.2 (Nat.zero_lt_succ 2))
    · obtain rfl := Option.some.inj hv
      show d = d - 0 + 0
      ring
  | cons sf frames ih =>
    intro i c d hc
    have hname : (if i < env.Calltrace.length then env.Calltrace.getD i "" else c) =
        env.Calltrace.getD (min i (env.Calltrace.length - 1)) "" := by
      split
      · rw [Nat.min_eq_left (by omega)]
      · rw [hc (by omega), Nat.min_eq_right (by omega), Nat.min_eq_right (by omega)]
    generalize hcall : env.Calltrace.getD (min i (env.Calltrace.length - 1)) "" = name at hname
    have hstep : distanceLoop env target i ⟨true, c, d, 0⟩ (sf :: frames) =
        if target = sf.kf then none
        else if sf.kf = name then distanceLoop env target (i + 1) ⟨true, name, d - 1, 0⟩ frames
        else distanceLoop env target (i + 1)
          ⟨false, name, d + ↑(if (env.kfunction sf.kf).basicBlocks > 1 then 1 else 0 : ℕ),
            if (env.kfunction sf.kf).basicBlocks > 1 then 1 else 0⟩ frames := by
      rw [distanceLoop]
      simp only [true_and, hname, Nat.zero_add]
      have hfar : ¬(if (env.kfunction sf.kf).basicBlocks > 1 then 1 else 0 : ℕ) ≥ 3 := by
        split
        · omega
        · omega
      rw [if_neg hfar]
    rw [hstep, List.map_cons, followed, hcall]
    by_cases htarget : target = sf.kf
    · rw [if_pos htarget]
      exact ⟨iff_of_true rfl (.inl (htarget ▸ List.mem_cons_self)), fun v hv => absurd hv (Option.some_ne_none v).symm⟩
    · rw [if_neg htarget, List.mem_cons, or_iff_right htarget]
      by_cases hon : sf.kf = name
      · rw [if_pos hon, if_pos hon, List.drop_succ_cons]
        obtain ⟨hnone, hsome⟩ := ih (i + 1) name (d - 1) fun _ => hcall.symm
        exact ⟨hnone, fun v hv => (hsome v hv).trans (by push_cast; ring)⟩
      · rw [if_neg hon, if_neg hon, List.drop_zero, strayed_cons]
        obtain ⟨hnone, hsome⟩ := distanceLoop_off frames (i + 1)
          (if (env.kfunction sf.kf).basicBlocks > 1 then 1 else 0) name
          (d + ↑(if (env.kfunction sf.kf).basicBlocks > 1 then 1 else 0 : ℕ)) (by split <;> omega)
        exact ⟨hnone, fun v hv => (hsome v hv).trans (by push_cast; ring)⟩

/-- **When a call is skipped**: its callee is on the stack, three functions off the trace are, or the end of the trace is
too far away. -/
theorem skip_iff (env : Env) (state : ExecutionState) (target : String) :
    skip_calltrace_distance env state target = true ↔ env.Calltrace ≠ [] ∧
      (target ∈ stackNames state ∨
        3 ≤ strayed (fun f => (env.kfunction f).basicBlocks) (offTrace env.Calltrace (stackNames state)) ∨
        (max env.Calltrace.length 3 : ℤ) ≤
          distance env.Calltrace (fun f => (env.kfunction f).basicBlocks) (stackNames state)) := by
  unfold skip_calltrace_distance
  by_cases htrace : env.Calltrace = []
  · rw [if_pos (List.length_eq_zero_iff.2 htrace)]
    exact iff_of_false Bool.false_ne_true fun h => h.1 htrace
  · rw [if_neg fun h => htrace (List.length_eq_zero_iff.1 h), and_iff_right htrace]
    have hnames : state.stack.reverse.map StackFrame.kf = stackNames state := List.map_reverse
    obtain ⟨hnone, hsome⟩ := distanceLoop_on target htrace state.stack.reverse 0 "" env.Calltrace.length
      fun h => absurd h (Nat.lt_irrefl 0)
    rw [hnames] at hnone hsome
    cases hloop : distanceLoop env target 0 ⟨true, "", env.Calltrace.length, 0⟩ state.stack.reverse with
    | none => exact iff_of_true rfl ((hnone.1 hloop).imp_right .inl)
    | some v =>
      have hdist : v.currentdistance = distance env.Calltrace (fun f => (env.kfunction f).basicBlocks) (stackNames state) :=
        hsome v hloop
      have hno : ¬(target ∈ stackNames state ∨
          3 ≤ strayed (fun f => (env.kfunction f).basicBlocks) (offTrace env.Calltrace (stackNames state))) := by
        intro h
        rw [hnone.2 h] at hloop
        cases hloop
      show decide (v.currentdistance ≥ _) = true ↔ _
      rw [decide_eq_true_eq, hdist, ge_iff_le, Nat.cast_max, Nat.cast_ofNat]
      constructor
      · exact fun h => .inr (.inr h)
      · rintro (h | h | h)
        · exact absurd (.inl h) hno
        · exact absurd (.inr h) hno
        · exact h

/-- The beginning of the trace follows the trace. -/
theorem followed_take (trace : List String) (k : ℕ) : ∀ i, i + k ≤ trace.length →
    followed trace i ((trace.drop i).take k) = k := by
  induction k with
  | zero =>
    intro i _
    rw [List.take_zero]
    rfl
  | succ k ih =>
    intro i hle
    have hcons : (trace.drop i).take (k + 1) = trace.getD i "" :: (trace.drop (i + 1)).take k := by
      rw [List.drop_eq_getElem_cons (by omega), List.take_succ_cons, List.getD_eq_getElem _ _ (by omega)]
    rw [hcons, followed, Nat.min_eq_left (by omega), if_pos rfl, ih (i + 1) (by omega)]

/-- **On the trace only a cycle is skipped.**  When the functions on the stack are the beginning of the trace, the next call
of the trace is skipped iff its callee is among them; and a call is skipped only if its callee is on the stack, three
functions of more than one block are off the trace, or the distance to the end of the trace is not below the threshold. -/
theorem skip_exact (env : Env) (state : ExecutionState) (target : String) :
    (∀ k (hk : k < env.Calltrace.length), 0 < k → stackNames state = env.Calltrace.take k → target = env.Calltrace[k] →
      (skip_calltrace_distance env state target = true ↔ target ∈ env.Calltrace.take k)) ∧
    (skip_calltrace_distance env state target = true → target ∈ stackNames state ∨
      3 ≤ strayed (fun f => (env.kfunction f).basicBlocks) (offTrace env.Calltrace (stackNames state)) ∨
      (max env.Calltrace.length 3 : ℤ) ≤
        distance env.Calltrace (fun f => (env.kfunction f).basicBlocks) (stackNames state)) := by
  refine ⟨fun k hk hpos hstack _ => ?_, fun h => ((skip_iff env state target).1 h).2⟩
  have hlen : (env.Calltrace.take k).length = k := by
    rw [List.length_take]
    omega
  have hfollowed : followed env.Calltrace 0 (env.Calltrace.take k) = k := followed_take env.Calltrace k 0 (by omega)
  have hoff : offTrace env.Calltrace (env.Calltrace.take k) = [] := by
    rw [offTrace, hfollowed]
    exact List.drop_eq_nil_of_le hlen.le
  have hdist : distance env.Calltrace (fun f => (env.kfunction f).basicBlocks) (env.Calltrace.take k) =
      env.Calltrace.length - k := by
    rw [distance, hoff, hfollowed]
    show _ - _ + 0 = _
    ring
  rw [skip_iff, hstack, hoff, hdist]
  constructor
  · rintro ⟨-, hmem | hle | hle⟩
    · exact hmem
    · exact absurd hle (Nat.not_le.2 (Nat.zero_lt_succ 2))
    · omega
  · intro hmem
    refine ⟨fun hnil => ?_, .inl hmem⟩
    rw [hnil] at hk
    exact absurd hk (Nat.not_lt_zero k)

/-- A trace in which a function calls itself. -/
def recursiveEnv : Env := { callEnv with Calltrace := ["main", "main"] }

/-- The second call of the trace is skipped, although the stack is its beginning. -/
theorem skip_recursive : stackNames (callState fun _ => none).state = recursiveEnv.Calltrace.take 1 ∧
    skip_calltrace_distance recursiveEnv (callState fun _ => none).state "main" = true :=
  ⟨rfl, (skip_iff _ _ _).2 ⟨List.cons_ne_nil _ _, .inl List.mem_cons_self⟩⟩

end SymBisect.CallReturn
