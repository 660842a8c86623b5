import SymBisect.Core.ExecuteInstruction
import SymBisect.Listener.SimplifyPath

/-!
# Source-line guidance under different spellings

The lookups of `PathListener` and `UCListener` that are keyed by source lines, as functions of the debug
strings: the whitelist and the configured callee before an instruction, the lines of low priority, the
target lines and the configured callee again after it.

* `PathListener` looks up low-priority lines, target lines and callees under the normalised string, but the
  whitelist and the covered lines under the raw one.
* `UCListener::symbolic_after_call` looks up callees under the raw string.

The rest of the executor is a function `next` from the decisions so far to the next event, so two runs that
take the same decisions go on with the same event.  `sameGuidance_of_safe` gives the condition on the spellings
under which they do.
-/

namespace SymBisect

open Lib

namespace LineGuidance

/-- `simplifylineinfo` on strings. -/
def simplifylineinfo (lineinfo : String) : Option String :=
  (SimplifyPath.simplifylineinfo lineinfo.toList).map String.ofList

/-- The maps and lists of the configuration that the two listeners read. -/
structure Guidance where
  config : Config
  indirectcall_map : String → Option String

/-- What the listeners read of the instructions besides their debug strings. -/
structure Module where
  parent : ℕ → String
  function : ℕ → String
  /-- A call whose target function is not known from the operand. -/
  indirectCall : ℕ → Bool

/-- What the listeners remember: the covered lines of every state and the visits to low-priority lines. -/
structure Memory where
  completecoveredLines : Ptr → List String
  low_priority_lines_counter : String → Option ℕ

/-- A hook on a state at an instruction, or a fork of a state. -/
inductive Event where
  | before (state : Ptr) (ki : ℕ)
  | after (state : Ptr) (ki : ℕ)
  | fork (state child : Ptr)

/-- What the listeners decide: `missing` lists the lines for which the whitelist terminates the state,
`callee` is the function that a call is redirected to; after the instruction, whether the state is
terminated, whether the target check is made, and whether the call counts as one with a configured target. -/
inductive Decision where
  | before (missing : List String) (callee : Option String)
  | after (lowPriority target configured : Bool)
  | fork
  deriving DecidableEq

/-- The raw key of an instruction. -/
def lineInfo (sourceinfo : String) : String := Executor.PathListener.lineInfo sourceinfo

variable (g : Guidance) (m : Module) (sourceinfo : ℕ → String)

/-- Cover the line, and the lines of its whitelist that are not covered. -/
def checkWhitelist (p : Ptr) (line : String) : Prog Memory (List String) := do
  Prog.modify fun s =>
    { s with
      completecoveredLines := Function.update s.completecoveredLines p (line :: s.completecoveredLines p) }
  Prog.gets fun s => ((g.config.whitelist_map line).getD []).filter (· ∉ s.completecoveredLines p)

/-- The whitelist of an instruction with a debug string. -/
def coverLine (p : Ptr) (ki : ℕ) : Prog Memory (List String) :=
  if sourceinfo ki ≠ "" then checkWhitelist g p (lineInfo (sourceinfo ki)) else pure []

/-- The configured callee of an indirect call. -/
def pickCallee (ki : ℕ) : Prog Memory (Option String) :=
  if m.indirectCall ki then do
    let key ← Prog.unwrap (simplifylineinfo (lineInfo (sourceinfo ki)))
    pure (g.indirectcall_map key)
  else pure none

/-- `PathListener::beforeExecuteInstruction`. -/
def beforeExecuteInstruction (p : Ptr) (ki : ℕ) : Prog Memory Decision := do
  let missing ← coverLine g sourceinfo p ki
  let callee ← pickCallee g m sourceinfo ki
  pure (.before missing callee)

/-- The blocks, functions and lines of low priority; the first ten visits to a line terminate the state. -/
def checkPriority (ki : ℕ) (simple_name_l : String) : Prog Memory Bool := do
  if m.parent ki ∈ g.config.low_priority_bbs ∨ m.function ki ∈ g.config.low_priority_functions then pure true
  else if simple_name_l ∈ g.config.low_priority_lines then do
    let count ← Prog.gets fun s => (s.low_priority_lines_counter simple_name_l).getD 0 + 1
    Prog.modify fun s =>
      { s with
        low_priority_lines_counter :=
          Function.update s.low_priority_lines_counter simple_name_l (some count) }
    pure (decide (count ≤ 10))
  else pure false

/-- `UCListener::symbolic_after_call`: a call with a configured target needs no symbolic result. -/
def configured (ki : ℕ) : Bool :=
  m.indirectCall ki && (g.indirectcall_map (lineInfo (sourceinfo ki))).isSome

/-- The hooks after an instruction, first of `UCListener`, then of `PathListener`. -/
def afterExecuteInstruction (ki : ℕ) : Prog Memory Decision := do
  let simple_name_l ← Prog.unwrap (simplifylineinfo (sourceinfo ki))
  let lowPriority ← checkPriority g m ki simple_name_l
  pure (.after lowPriority (decide (simple_name_l ∈ g.config.target_lines)) (configured g m sourceinfo ki))

/-- An event; a child starts with the covered lines of its parent. -/
def handle : Event → Prog Memory Decision
  | .before p ki => beforeExecuteInstruction g m sourceinfo p ki
  | .after _ ki => afterExecuteInstruction g m sourceinfo ki
  | .fork p q => do
    Prog.modify fun s =>
      { s with
        completecoveredLines := Function.update s.completecoveredLines q (s.completecoveredLines p) }
    pure .fork

/-- The first `n` events of the run in which `next` chooses the event, and its decisions, the last first. -/
def run (next : List Decision → Option Event) : ℕ → Option (Memory × List Decision)
  | 0 => some (⟨fun _ => [], fun _ => none⟩, [])
  | n + 1 => do
    let (s, decisions) ← run next n
    let event ← next decisions
    match handle g m sourceinfo event s with
    | (some decision, t) => some (t, decision :: decisions)
    | (none, _) => none

/-! ### Spellings -/

/-- The keys and the lines of the configuration are normalised, as the generator writes them. -/
structure Normalised : Prop where
  whitelist : ∀ key lines, g.config.whitelist_map key = some lines → simplifylineinfo key = some key
  line : ∀ key lines line, g.config.whitelist_map key = some lines → line ∈ lines →
    simplifylineinfo line = some line
  callee : ∀ key callee, g.indirectcall_map key = some callee → simplifylineinfo key = some key

/-- A whitelist requires the line. -/
def Required (line : String) : Prop := ∃ key lines, g.config.whitelist_map key = some lines ∧ line ∈ lines

/-- Two spellings of the paths of the same source files. -/
def Respelled (sourceinfo₁ sourceinfo₂ : ℕ → String) : Prop :=
  ∀ ki, (∃ key, simplifylineinfo (sourceinfo₁ ki) = some key ∧ simplifylineinfo (sourceinfo₂ ki) = some key) ∧
    (sourceinfo₁ ki = "" ↔ sourceinfo₂ ki = "")

/-- The raw keys of an instruction have one normal form, and where only one of them is in this form no
whitelist mentions it; for an indirect call, both are in this form or no callee is configured for it. -/
def Safe (sourceinfo₁ sourceinfo₂ : ℕ → String) (ki : ℕ) : Prop :=
  ∃ key, simplifylineinfo (lineInfo (sourceinfo₁ ki)) = some key ∧
    simplifylineinfo (lineInfo (sourceinfo₂ ki)) = some key ∧
    ((lineInfo (sourceinfo₁ ki) = key ↔ lineInfo (sourceinfo₂ ki) = key) ∨
      g.config.whitelist_map key = none ∧ ¬Required g key) ∧
    (m.indirectCall ki = true → (lineInfo (sourceinfo₁ ki) = key ∧ lineInfo (sourceinfo₂ ki) = key) ∨
      g.indirectcall_map key = none)

/-- `PathListener` redirects the call. -/
def redirected (ki : ℕ) : Bool :=
  m.indirectCall ki && ((simplifylineinfo (lineInfo (sourceinfo ki))).bind g.indirectcall_map).isSome

/-- The memories of two runs: they agree on the counters and on the covered lines that some whitelist
requires. -/
structure Related (s t : Memory) : Prop where
  counter : s.low_priority_lines_counter = t.low_priority_lines_counter
  covered : ∀ p line, Required g line →
    (line ∈ s.completecoveredLines p ↔ line ∈ t.completecoveredLines p)

variable {g m} {sourceinfo₁ sourceinfo₂ : ℕ → String} {ki : ℕ} {s t : Memory}

/-- A raw key that is not normalised is in no normalised map. -/
theorem whitelist_eq_none (hg : Normalised g) {raw key : String} (hkey : simplifylineinfo raw = some key)
    (hne : raw ≠ key) : g.config.whitelist_map raw = none := by
  cases hraw : g.config.whitelist_map raw with
  | none => rfl
  | some lines => exact absurd (Option.some.inj ((hg.whitelist raw lines hraw).symm.trans hkey)) hne

theorem callee_eq_none (hg : Normalised g) {raw key : String} (hkey : simplifylineinfo raw = some key)
    (hne : raw ≠ key) : g.indirectcall_map raw = none := by
  cases hraw : g.indirectcall_map raw with
  | none => rfl
  | some callee => exact absurd (Option.some.inj ((hg.callee raw callee hraw).symm.trans hkey)) hne

/-- Safe spellings find the same whitelist. -/
theorem Safe.whitelist (hg : Normalised g) (h : Safe g m sourceinfo₁ sourceinfo₂ ki) :
    g.config.whitelist_map (lineInfo (sourceinfo₁ ki)) = g.config.whitelist_map (lineInfo (sourceinfo₂ ki)) := by
  obtain ⟨key, h₁, h₂, hwhite, -⟩ := h
  have hkey : ∀ raw, simplifylineinfo raw = some key → g.config.whitelist_map key = none →
      g.config.whitelist_map raw = none := by
    intro raw hraw hnone
    by_cases heq : raw = key
    · rw [heq, hnone]
    · exact whitelist_eq_none hg hraw heq
  rcases hwhite with hiff | ⟨hnone, -⟩
  · by_cases heq : lineInfo (sourceinfo₁ ki) = key
    · rw [heq, hiff.1 heq]
    · rw [whitelist_eq_none hg h₁ heq, whitelist_eq_none hg h₂ fun h => heq (hiff.2 h)]
  · rw [hkey _ h₁ hnone, hkey _ h₂ hnone]

/-- Safe spellings cover the same required lines. -/
theorem Safe.covers (hg : Normalised g) (h : Safe g m sourceinfo₁ sourceinfo₂ ki) {line : String}
    (hline : Required g line) : line = lineInfo (sourceinfo₁ ki) ↔ line = lineInfo (sourceinfo₂ ki) := by
  obtain ⟨key, h₁, h₂, hwhite, -⟩ := h
  have hnormal : simplifylineinfo line = some line := by
    obtain ⟨k, lines, hk, hmem⟩ := hline
    exact hg.line k lines line hk hmem
  -- a required line that is the raw key is its own normal form
  have hkey : ∀ raw, simplifylineinfo raw = some key → line = raw → raw = key := by
    intro raw hraw heq
    rw [← heq] at hraw ⊢
    exact Option.some.inj (hnormal.symm.trans hraw)
  rcases hwhite with hiff | ⟨-, hnot⟩
  · constructor
    · intro heq
      have hk := hkey _ h₁ heq
      rw [heq, hk, hiff.1 hk]
    · intro heq
      have hk := hkey _ h₂ heq
      rw [heq, hk, hiff.2 hk]
  · refine iff_of_false (fun heq => ?_) fun heq => ?_
    · exact hnot (hkey _ h₁ heq ▸ heq ▸ hline)
    · exact hnot (hkey _ h₂ heq ▸ heq ▸ hline)

/-- At a safe indirect call, the raw and the normalised key have a configured callee or neither has. -/
theorem Safe.configured_eq (hg : Normalised g) (h : Safe g m sourceinfo₁ sourceinfo₂ ki) :
    configured g m sourceinfo₁ ki = redirected g m sourceinfo₁ ki ∧
      configured g m sourceinfo₂ ki = redirected g m sourceinfo₂ ki := by
  obtain ⟨key, h₁, h₂, -, hcallee⟩ := h
  unfold configured redirected
  rw [h₁, h₂, Option.bind_some]
  cases hcall : m.indirectCall ki with
  | false => exact ⟨rfl, rfl⟩
  | true =>
    rcases hcallee hcall with ⟨heq₁, heq₂⟩ | hnone
    · rw [heq₁, heq₂]
      exact ⟨rfl, rfl⟩
    · have hraw : ∀ raw, simplifylineinfo raw = some key → g.indirectcall_map raw = none := by
        intro raw hraw
        by_cases heq : raw = key
        · rw [heq, hnone]
        · exact callee_eq_none hg hraw heq
      rw [hraw _ h₁, hraw _ h₂, hnone]
      exact ⟨rfl, rfl⟩

/-! ### Two runs -/

section
open Prog

theorem Safe.checkWhitelist (hg : Normalised g) (h : Safe g m sourceinfo₁ sourceinfo₂ ki) (p : Ptr) :
    Lockstep (Related g) (checkWhitelist g p (lineInfo (sourceinfo₁ ki)))
      (checkWhitelist g p (lineInfo (sourceinfo₂ ki))) := by
  refine .bind (.modify fun s t hst => ⟨hst.counter, fun q line hline => ?_⟩) fun _ => .gets fun s t hst => ?_
  · dsimp only
    by_cases hq : q = p
    · subst hq
      rw [Function.update_self, Function.update_self, List.mem_cons, List.mem_cons, h.covers hg hline,
        hst.covered q line hline]
    · rw [Function.update_of_ne hq, Function.update_of_ne hq]
      exact hst.covered q line hline
  · rw [h.whitelist hg]
    cases hlines : g.config.whitelist_map (lineInfo (sourceinfo₂ ki)) with
    | none => rfl
    | some lines =>
      refine List.filter_congr fun line hline => ?_
      have hiff := hst.covered p line ⟨_, lines, hlines, hline⟩
      exact decide_eq_decide.2 (not_congr hiff)

theorem Safe.before (hg : Normalised g) (hsp : Respelled sourceinfo₁ sourceinfo₂)
    (h : Safe g m sourceinfo₁ sourceinfo₂ ki) (p : Ptr) :
    Lockstep (Related g) (beforeExecuteInstruction g m sourceinfo₁ p ki)
      (beforeExecuteInstruction g m sourceinfo₂ p ki) := by
  refine .bind ?_ fun missing => .bind ?_ fun callee => .pure _
  · unfold coverLine
    by_cases hempty : sourceinfo₁ ki = ""
    · rw [if_neg (not_not.2 hempty), if_neg (not_not.2 ((hsp ki).2.1 hempty))]
      exact .pure _
    · rw [if_pos hempty, if_pos fun heq => hempty ((hsp ki).2.2 heq)]
      exact h.checkWhitelist hg p
  · obtain ⟨key, h₁, h₂, -⟩ := h
    unfold pickCallee
    rw [h₁, h₂]
    exact .ite (.bind (.pure key) fun _ => .pure _) (.pure _)

theorem checkPriority_lockstep (ki : ℕ) (key : String) :
    Lockstep (Related g) (checkPriority g m ki key) (checkPriority g m ki key) := by
  refine .ite (.pure _) (.ite ?_ (.pure _))
  refine .bind (.gets fun s t hst => by rw [hst.counter]) fun count => ?_
  exact .bind (.modify fun s t hst => ⟨by rw [hst.counter], hst.covered⟩) fun _ => .pure _

theorem Safe.after (hg : Normalised g) (hsp : Respelled sourceinfo₁ sourceinfo₂)
    (h : Safe g m sourceinfo₁ sourceinfo₂ ki) :
    Lockstep (Related g) (afterExecuteInstruction g m sourceinfo₁ ki)
      (afterExecuteInstruction g m sourceinfo₂ ki) := by
  obtain ⟨⟨key, hkey₁, hkey₂⟩, -⟩ := hsp ki
  have hconf : configured g m sourceinfo₁ ki = configured g m sourceinfo₂ ki := by
    obtain ⟨hc₁, hc₂⟩ := h.configured_eq hg
    obtain ⟨raw, h₁, h₂, -⟩ := h
    rw [hc₁, hc₂, redirected, redirected, h₁, h₂]
  unfold afterExecuteInstruction
  rw [hkey₁, hkey₂, hconf]
  exact .bind (.pure key) fun _ => .bind (checkPriority_lockstep ki _) fun _ => .pure _

/-- The instruction of an event is safe. -/
def SafeEvent (g : Guidance) (m : Module) (sourceinfo₁ sourceinfo₂ : ℕ → String) : Event → Prop
  | .before _ ki => Safe g m sourceinfo₁ sourceinfo₂ ki
  | .after _ ki => Safe g m sourceinfo₁ sourceinfo₂ ki
  | .fork _ _ => True

theorem handle_lockstep (hg : Normalised g) (hsp : Respelled sourceinfo₁ sourceinfo₂) {event : Event}
    (h : SafeEvent g m sourceinfo₁ sourceinfo₂ event) :
    Lockstep (Related g) (handle g m sourceinfo₁ event) (handle g m sourceinfo₂ event) := by
  cases event with
  | before p ki => exact Safe.before hg hsp h p
  | after p ki => exact Safe.after hg hsp h
  | fork p q =>
    refine .bind (.modify fun s t hst => ⟨hst.counter, fun x line hline => ?_⟩) fun _ => .pure _
    dsimp only
    by_cases hx : x = q
    · subst hx
      rw [Function.update_self, Function.update_self]
      exact hst.covered p line hline
    · rw [Function.update_of_ne hx, Function.update_of_ne hx]
      exact hst.covered x line hline

/-- The two runs are at the same point: the decisions are the same and the memories related. -/
theorem run_lockstep (hg : Normalised g) (hsp : Respelled sourceinfo₁ sourceinfo₂)
    {next : List Decision → Option Event}
    (hsafe : ∀ n s decisions event, run g m sourceinfo₁ next n = some (s, decisions) →
      next decisions = some event → SafeEvent g m sourceinfo₁ sourceinfo₂ event) (n : ℕ) :
    (run g m sourceinfo₁ next n = none ∧ run g m sourceinfo₂ next n = none) ∨
      ∃ s t decisions, run g m sourceinfo₁ next n = some (s, decisions) ∧
        run g m sourceinfo₂ next n = some (t, decisions) ∧ Related g s t := by
  induction n with
  | zero => exact .inr ⟨_, _, [], rfl, rfl, rfl, fun _ _ _ => Iff.rfl⟩
  | succ n ih =>
    rcases ih with ⟨h₁, h₂⟩ | ⟨s, t, decisions, h₁, h₂, hst⟩
    · exact .inl ⟨by rw [run, h₁]; rfl, by rw [run, h₂]; rfl⟩
    · cases hnext : next decisions with
      | none =>
        refine .inl ⟨?_, ?_⟩
        · simp [run, h₁, hnext]
        · simp [run, h₂, hnext]
      | some event =>
        obtain ⟨decision, s', t', hs', ht', hst'⟩ :=
          handle_lockstep hg hsp (hsafe n s decisions event h₁ hnext) s t hst
        refine .inr ⟨s', t', decision :: decisions, ?_, ?_, hst'⟩
        · simp [run, h₁, hnext, hs']
        · simp [run, h₂, hnext, ht']

/-- **Spelling independence.**  With a normalised configuration and two spellings of the same files, a run
all of whose instructions are safe takes the same decisions in both spellings after any number of events;
and at every call, `UCListener` and `PathListener` agree on whether it has a configured target. -/
theorem sameGuidance_of_safe (hg : Normalised g) (hsp : Respelled sourceinfo₁ sourceinfo₂)
    {next : List Decision → Option Event}
    (hsafe : ∀ n s decisions event, run g m sourceinfo₁ next n = some (s, decisions) →
      next decisions = some event → SafeEvent g m sourceinfo₁ sourceinfo₂ event) :
    (∀ n, (run g m sourceinfo₁ next n).map Prod.snd = (run g m sourceinfo₂ next n).map Prod.snd) ∧
    ∀ n s decisions p ki, run g m sourceinfo₁ next n = some (s, decisions) →
      next decisions = some (.after p ki) →
        configured g m sourceinfo₁ ki = redirected g m sourceinfo₁ ki ∧
          configured g m sourceinfo₂ ki = redirected g m sourceinfo₂ ki := by
  constructor
  · intro n
    rcases run_lockstep hg hsp hsafe n with ⟨h₁, h₂⟩ | ⟨s, t, decisions, h₁, h₂, -⟩
    · rw [h₁, h₂]
    · rw [h₁, h₂]
      rfl
  · intro n s decisions p ki hrun hnext
    have h : Safe g m sourceinfo₁ sourceinfo₂ ki := hsafe n s decisions _ hrun hnext
    exact h.configured_eq hg

end

/-! ### One whitelist, two spellings -/

/-- Line 5 of `a.c` requires line 3. -/
def lineFive : Guidance where
  config := { whitelist_map := fun key => if key = "a.c:5" then some ["a.c:3"] else none }
  indirectcall_map := fun _ => none

/-- A module of one instruction. -/
def oneInstruction : Module := ⟨fun _ => "bb", fun _ => "f", fun _ => false⟩

/-- The hook before the instruction is the only event. -/
def onlyBefore (decisions : List Decision) : Option Event :=
  if decisions = [] then some (.before 0 0) else none

theorem simplifylineinfo_of_resolve {lineinfo key : String}
    (h : (SimplifyPath.resolve [] (SimplifyPath.dropTrailing (lineinfo.toList.splitOn '/'))).map
      (fun r => String.ofList (['/'].intercalate (r.filter (· ≠ SimplifyPath.dot)))) = some key) :
    simplifylineinfo lineinfo = some key := by
  unfold simplifylineinfo
  rw [SimplifyPath.simplifylineinfo_eq, Option.map_map]
  exact h

theorem lineFive_normalised : Normalised lineFive := by
  refine ⟨fun key lines h => ?_, fun key lines line h hline => ?_, nofun⟩
  · have hkey : (if key = "a.c:5" then some ["a.c:3"] else none) = some lines := h
    split at hkey
    · rename_i heq
      rw [heq]
      exact simplifylineinfo_of_resolve (by decide)
    · cases hkey
  · have hkey : (if key = "a.c:5" then some ["a.c:3"] else none) = some lines := h
    split at hkey
    · cases hkey
      rw [List.mem_singleton.1 hline]
      exact simplifylineinfo_of_resolve (by decide)
    · cases hkey

theorem respelled_const {p q key : String} (hp : simplifylineinfo p = some key)
    (hq : simplifylineinfo q = some key) (h : p = "" ↔ q = "") : Respelled (fun _ => p) fun _ => q :=
  fun _ => ⟨⟨key, hp, hq⟩, h⟩

theorem lineSeven_normal : simplifylineinfo "b.c:7" = some "b.c:7" := simplifylineinfo_of_resolve (by decide)

/-- Line 7 of `b.c`, which no whitelist mentions. -/
theorem respelled_lineSeven : Respelled (fun _ => "b.c:7") fun _ => "./b.c:7" :=
  respelled_const lineSeven_normal (simplifylineinfo_of_resolve (by decide)) (by decide)

theorem safe_lineSeven : Safe lineFive oneInstruction (fun _ => "b.c:7") (fun _ => "./b.c:7") 0 := by
  have hraw : lineInfo "b.c:7" = "b.c:7" ∧ lineInfo "./b.c:7" = "./b.c:7" := by decide
  refine ⟨"b.c:7", ?_, ?_, .inr ⟨rfl, fun h => ?_⟩, nofun⟩
  · rw [hraw.1]
    exact lineSeven_normal
  · rw [hraw.2]
    exact simplifylineinfo_of_resolve (by decide)
  · obtain ⟨key, lines, hkey, hline⟩ := h
    have hkey' : (if key = "a.c:5" then some ["a.c:3"] else none) = some lines := hkey
    split at hkey'
    · cases hkey'
      exact absurd (List.mem_singleton.1 hline) (by decide)
    · cases hkey'

theorem sameGuidance_of_safe_lineSeven : Respelled (fun _ => "b.c:7") (fun _ => "./b.c:7") ∧
    ∀ turns, (run lineFive oneInstruction (fun _ => "b.c:7") onlyBefore turns).map Prod.snd =
      (run lineFive oneInstruction (fun _ => "./b.c:7") onlyBefore turns).map Prod.snd := by
  refine ⟨respelled_lineSeven, (sameGuidance_of_safe lineFive_normalised respelled_lineSeven ?_).1⟩
  intro n s decisions event _ hnext
  unfold onlyBefore at hnext
  split at hnext
  · cases hnext
    exact safe_lineSeven
  · cases hnext

/-- **The whitelist sees the spelling.**  Spelled `a.c`, line 5 terminates a state that has not covered line
3; spelled `./a.c`, it does not. -/
theorem lineFive_not_sameGuidance : Normalised lineFive ∧ Respelled (fun _ => "a.c:5") (fun _ => "./a.c:5") ∧
    (run lineFive oneInstruction (fun _ => "a.c:5") onlyBefore 1).map Prod.snd ≠
      (run lineFive oneInstruction (fun _ => "./a.c:5") onlyBefore 1).map Prod.snd := by
  have hkey : simplifylineinfo "a.c:5" = some "a.c:5" := simplifylineinfo_of_resolve (by decide)
  refine ⟨lineFive_normalised, respelled_const hkey ?_ (by decide), by decide⟩
  exact simplifylineinfo_of_resolve (by decide)

end LineGuidance

end SymBisect
