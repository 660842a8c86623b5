import SymBisect.UCListener.ConstantTable
import SymBisect.Listener.LineGuidance
import SymBisect.Core.SpecialFunctionHandler

/-!
# What a call returns

The `Call` case of `Executor::executeInstruction` between its hooks: `PathListener` may set the callee of an indirect
call, `UCListener::CallInstruction` decides whether the call is skipped, and `UCListener::symbolic_after_call` decides
again whether the destination gets a symbolic value.  The two decisions share the flag `skip_calltrace`.

* `step`: one execution of a call instruction.
* `skip_agrees_iff`: when, along a run, a direct call gets a symbolic result iff it was skipped.
* `indirect_right_iff`: when, along a run, an indirect call leaves the registers of its callee alone and gets a new
  symbolic result if there is no callee.

Special functions, external functions and intrinsics are any change of the state.  Where the code reads a null value or a
cell outside of the frame there is no outcome.
-/

namespace SymBisect.CallReturn

open Lib UCListener

/-! ### The model -/

/-- `llvm::Function`; `isIntrinsic` is `getIntrinsicID() != not_intrinsic`, `params` are the widths of the parameters. -/
structure Func where
  name : String
  isDeclaration : Bool
  isIntrinsic : Bool
  isVarArg : Bool
  params : List ℕ

/-- `KFunction`. -/
structure KFunction where
  numRegisters : ℕ
  instructions : ℕ
  basicBlocks : ℕ

/-- What `getTargetFunction` finds out about the called operand. -/
inductive Called where
  | asm
  | function (f : Func)
  | unknown

/-- A type that `ObjectState::read` can read: a boolean or whole bytes. -/
structure ReturnType where
  size : Memory.ObjectState.Size
  width : ℕ
  readable : (width = 1 ∧ size.1 = 1) ∨ (width = size.1 * 8 ∧ 0 < size.1)

/-- A call instruction; `type` is nothing for a void call, and `otherType` is `fType != fpType`. -/
structure CallInst where
  called : Called
  isDbgInfo : Bool
  callee : Operand
  args : List Operand
  sext : ℕ → Bool
  otherType : Bool
  dest : ℕ
  type : Option ReturnType
  sourceinfo : String
  file : String
  line : ℕ

/-- A state with the counters of the executor. -/
structure CallState extends UCState where
  nextArray : ℕ

/-- The object for the variable arguments. -/
inductive Varargs where
  | object (mo : MemoryObject)
  | empty
  | outOfMemory

/-- The result of `executeCall`: the state, whether it was terminated, and whether it is in a new frame. -/
structure Executed where
  u : CallState
  removed : Bool
  entered : Bool

/-- The module, the configuration and the rest of the executor.  `function` has the functions at the addresses in
`legalFunctions`, `special` the names with a handler. -/
structure Env extends Setup where
  Calltrace : List String
  kfunction : String → KFunction
  function : ℕ → Option Func
  special : String → Bool
  RuntimeMaxStackFrames : ℕ
  littleEndian : Bool
  varargs : Func → CallInst → CallState → Varargs
  callOther : Func → CallInst → List (Option Expr) → CallState → CallState × Bool
  callOther_frames : ∀ f ki arguments u,
    (callOther f ki arguments u).1.state.stack.map StackFrame.kf = u.state.stack.map StackFrame.kf

/-- The part of `UCListener` that the calls share. -/
structure Listener where
  skip_functions : List String
  skip_calltrace : Bool
  count : String → Option ℕ

/-- `simplifyfuncname`. -/
def simplifyfuncname (funcname : String) : String := String.ofList (funcname.toList.takeWhile fun c => c ≠ '.')

/-- The functions that are always skipped. -/
def local_skipfunctions : List String :=
  ["llvm.read_register.i64", "llvm.write_register.i64", "nla_data", "console_lock", "console_unlock",
    "klee_div_zero_check", "klee_overshift_check", "kmem_cache_alloc", "kmem_cache_alloc_node",
    "syscall_enter_from_user_mode ", "_raw_spin_lock_irqsave", "irqentry_enter", "__schedule", "preempt_schedule_irq",
    "bad_range", "update_curr", "_raw_spin_lock_irq", "finish_task_switch", "call_rcu", "__free_object",
    "free_unref_page", "rcu_read_unlock", "rcu_lock_release", "ERR_PTR", "crypto_alloc_shash"]

variable (env : Env)

/-- The variables of the loop of `skip_calltrace_distance`. -/
structure Distance where
  Insametrace : Bool
  calltracefuncname : String
  currentdistance : ℤ
  diverge_calltrace : ℕ

/-- The loop of `skip_calltrace_distance` from the `i`-th frame on; nothing when it returns `true`. -/
def distanceLoop (targetfuncname : String) : ℕ → Distance → List StackFrame → Option Distance
  | _, v, [] => some v
  | i, v, sf :: frames =>
    let calltracefuncname := if v.Insametrace = true ∧ i < env.Calltrace.length then env.Calltrace.getD i ""
      else v.calltracefuncname
    if targetfuncname = sf.kf then none
    else if v.Insametrace = true ∧ sf.kf = calltracefuncname then
      distanceLoop targetfuncname (i + 1) { v with calltracefuncname, currentdistance := v.currentdistance - 1 } frames
    else
      let far := if (env.kfunction sf.kf).basicBlocks > 1 then 1 else 0
      if v.diverge_calltrace + far ≥ 3 then none
      else distanceLoop targetfuncname (i + 1)
        ⟨false, calltracefuncname, v.currentdistance + far, v.diverge_calltrace + far⟩ frames

/-- `skip_calltrace_distance`. -/
def skip_calltrace_distance (state : ExecutionState) (targetfuncname : String) : Bool :=
  if env.Calltrace.length = 0 then false
  else
    match distanceLoop env targetfuncname 0 ⟨true, "", env.Calltrace.length, 0⟩ state.stack.reverse with
    | none => true
    | some v => v.currentdistance ≥ max env.Calltrace.length 3

/-- `UCListener::CallInstruction`: whether the call is skipped. -/
def CallInstruction (L : Listener) (u : CallState) (ki : CallInst) : Bool × Listener :=
  match ki.called with
  | .asm => (false, L)
  | .unknown => (false, L)
  | .function f =>
    let L := { L with skip_functions := L.skip_functions ++ local_skipfunctions }
    if f.name ∈ L.skip_functions then (true, L)
    else if simplifyfuncname f.name ∈ L.skip_functions then (true, L)
    else if skip_calltrace_distance env u.state f.name then (true, { L with skip_calltrace := true })
    else (f.isDeclaration && !f.isIntrinsic && !env.special f.name, { L with skip_calltrace := false })

/-- The arguments of a call through a cast are brought to the widths of the parameters. -/
def coerce (ki : CallInst) (f : Func) (arguments : List (Option Expr)) : List (Option Expr) :=
  if ki.otherType then
    arguments.zipIdx.map fun arg => arg.1.map fun e =>
      match f.params[arg.2]? with
      | none => e
      | some width =>
        if e.getWidth = width then e
        else if ki.sext arg.2 then SExtExpr.create e width else ZExtExpr.create e width
  else arguments

/-- `bindArgument`, for all formal parameters. -/
def bindArguments (numFormals : ℕ) (arguments : List (Option Expr)) (k : ℕ) : Option Expr :=
  if k < numFormals then (arguments[k]?).join else none

/-- The new frame of `executeCall`. -/
def pushFrame (u : CallState) (f : Func) (locals : ℕ → Option Expr) : CallState :=
  { u with state := { u.state with
      stack := ⟨some u.state.prevPC, f.name, locals⟩ :: u.state.stack
      pc := (env.kfunction f.name).instructions } }

/-- The frame is there, and its arguments are bound. -/
def enter (u : CallState) (f : Func) (arguments : List (Option Expr)) : Executed :=
  ⟨pushFrame env u f (bindArguments f.params.length arguments), false, true⟩

/-- `executeCall`. -/
def executeCall (u : CallState) (ki : CallInst) (f : Func) (arguments : List (Option Expr)) : Executed :=
  if ki.isDbgInfo then ⟨u, false, false⟩
  else if env.special (simplifyfuncname f.name) ∨ f.isDeclaration = true then
    ⟨(env.callOther f ki arguments u).1, (env.callOther f ki arguments u).2, false⟩
  else if env.RuntimeMaxStackFrames ≠ 0 ∧ u.state.stack.length > env.RuntimeMaxStackFrames then ⟨u, true, false⟩
  else if arguments.length < f.params.length then ⟨pushFrame env u f fun _ => none, true, false⟩
  else if f.isVarArg then
    match env.varargs f ki u with
    | .outOfMemory => ⟨pushFrame env u f fun _ => none, true, false⟩
    | .empty => enter env u f arguments
    | .object mo =>
      enter env { u with state := { u.state with addressSpace := u.state.addressSpace.bindObject mo } } f arguments
  else enter env u f arguments

/-- The function at the address that the called operand has. -/
def target (u : CallState) (ki : CallInst) : Option Func :=
  match u.eval ki.callee with
  | some (.const v) => env.function v.toNat
  | _ => none

/-- The `Call` case after `CallInstruction`. -/
def executeInstruction (u : CallState) (ki : CallInst) : Option Executed :=
  if ki.isDbgInfo then some ⟨u, false, false⟩
  else
    let arguments := ki.args.map u.eval
    match ki.called with
    | .asm => some ⟨u, false, false⟩
    | .function f => some (executeCall env u ki f (coerce ki f arguments))
    | .unknown =>
      if u.eval ki.callee = none then none
      else
        match target env u ki with
        | some f => some (executeCall env u ki f arguments)
        | none => some ⟨u, false, false⟩

/-- `if (listener_service->CallInstruction(state, ki)) break;`. -/
def executeUnlessSkipped (skipped : Bool) (u : CallState) (ki : CallInst) : Option Executed :=
  if skipped then some ⟨u, false, false⟩ else executeInstruction env u ki

/-- `PathListener::beforeExecuteInstruction`: the configured callee of an indirect call. -/
def beforeExecuteInstruction (u : CallState) (ki : CallInst) : Option CallState :=
  match ki.called with
  | .unknown =>
    if ki.isDbgInfo then some u
    else (LineGuidance.simplifylineinfo (LineGuidance.lineInfo ki.sourceinfo)).map fun line =>
      { u with toUCState := pickCallee env.toSetup u.toUCState line ki.callee }
  | _ => some u

/-- `getDestCell(state, ki).value`, if the cell is in the frame. -/
def getDestCell (u : CallState) (ki : CallInst) : Option (Option Expr) :=
  match u.state.stack with
  | [] => none
  | sf :: _ => if ki.dest < (env.kfunction sf.kf).numRegisters then some (sf.locals ki.dest) else none

/-- Whether `symbolic_after_call` goes to `create_return`. -/
def create_return (L : Listener) (u : CallState) (ki : CallInst) : Option Bool :=
  match ki.called with
  | .asm => some true
  | .function f =>
    if f.isDeclaration then
      some (decide (f.name ∈ L.skip_functions) || L.skip_calltrace || (!f.isIntrinsic && !env.special f.name))
    else
      some (L.skip_calltrace || decide (f.name ∈ L.skip_functions) ||
        decide (simplifyfuncname f.name ∈ L.skip_functions))
  | .unknown =>
    if (env.indirectcall_map (LineGuidance.lineInfo ki.sourceinfo)).isSome then some false
    else (getDestCell env u ki).map fun value => value.isNone

/-- `create_global_var_name`. -/
def create_global_var_name (L : Listener) (ki : CallInst) (kind : String) : String × Listener :=
  let name := ki.file ++ ":" ++ toString ki.line ++ "-" ++ kind
  let n := match L.count name with
    | none => 0
    | some n => n + 1
  (name ++ "-" ++ toString n, { L with count := Function.update L.count name (some n) })

/-- The name of the callee in the name of the array. -/
def calleeName (ki : CallInst) : String :=
  match ki.called with
  | .asm => "asmcall"
  | .function f => f.name
  | .unknown => "indirectcall"

section

variable [ExprOptions]

/-- `manual_make_symbolic`, with the number of the array. -/
def manual_make_symbolic (id : ℕ) (name : String) (type : ReturnType) : Option Expr :=
  (Memory.ObjectState.read env.littleEndian id (.const 0#64) type.width
    (Memory.ObjectState.newSymbolic type.size (SpecialFunctionHandler.symbolicArray id name type.size))).1

/-- `UCListener::symbolic_after_call`. -/
def symbolic_after_call (L : Listener) (u : CallState) (ki : CallInst) : Option (Listener × CallState) := do
  let create ← create_return env L u ki
  match create, ki.type with
  | true, some type => do
    let (name, L) := create_global_var_name L ki (calleeName ki ++ "-call_return")
    let symbolic ← manual_make_symbolic env u.nextArray name type
    some (L, { u with state := u.state.bindLocal ki.dest (some symbolic), nextArray := u.nextArray + 1 })
  | _, _ => some (L, u)

/-- An execution of a call instruction by a state with its innermost frame; `removed` is whether a hook before it has
terminated the state. -/
structure Execution (env : Env) where
  u : CallState
  ki : CallInst
  removed : Bool
  frame : StackFrame
  frames : List StackFrame
  stack_eq : u.state.stack = frame :: frames
  dest_lt : ki.dest < (env.kfunction frame.kf).numRegisters

/-- What an execution did: whether the call was skipped, whether there is a new frame, the state as the executor left it
and as the hooks left it. -/
structure Outcome where
  skipped : Bool
  entered : Bool
  executed : CallState
  final : CallState
  listener : Listener

/-- The hooks after the instruction are not called for a state that was terminated. -/
def afterExecuteInstruction (removed : Bool) (L : Listener) (u : CallState) (ki : CallInst) :
    Option (Listener × CallState) :=
  if removed then some (L, u) else symbolic_after_call env L u ki

/-- One execution of a call instruction, with its hooks. -/
def step (L : Listener) (e : Execution env) : Option Outcome := do
  let u ← beforeExecuteInstruction env e.u e.ki
  let decision := if e.removed then (false, L) else CallInstruction env L u e.ki
  let r ← executeUnlessSkipped env decision.1 u e.ki
  let after ← afterExecuteInstruction env (e.removed || r.removed) decision.2 r.u e.ki
  some ⟨decision.1, r.entered, r.u, after.2, after.1⟩

/-- Along a run, the executions with what the listener remembers before each of them.  Between two of them the states may
change in any way. -/
def Along (P : Listener → Execution env → Prop) : Listener → List (Execution env) → Prop
  | _, [] => True
  | L, e :: es => P L e ∧ ∀ o, step env L e = some o → Along P o.listener es

variable {env} {L : Listener} {u final : CallState} {ki : CallInst} {type : ReturnType} {e : Execution env}

theorem Along.congr {P Q : Listener → Execution env → Prop} (h : ∀ L e, P L e ↔ Q L e) (es : List (Execution env)) :
    ∀ L, Along env P L es ↔ Along env Q L es := by
  induction es with
  | nil => exact fun L => Iff.rfl
  | cons e es ih =>
    intro L
    exact and_congr (h L e) (forall_congr' fun o => imp_congr_right fun _ => ih o.listener)

/-! ### The symbolic result -/

variable (env) in
/-- The destination has a symbolic value over the array with the next number, and nothing else has changed. -/
def Gives (ki : CallInst) (type : ReturnType) (u final : CallState) : Prop :=
  ∃ name symbolic, manual_make_symbolic env u.nextArray name type = some symbolic ∧
    final = { u with state := u.state.bindLocal ki.dest (some symbolic), nextArray := u.nextArray + 1 }

theorem Gives.ne (h : Gives env ki type u final) : final ≠ u := by
  obtain ⟨name, symbolic, -, rfl⟩ := h
  intro heq
  have hnext : u.nextArray + 1 = u.nextArray := congrArg CallState.nextArray heq
  omega

/-- A value of the type can be read from a new object. -/
theorem manual_make_symbolic_some (env : Env) (id : ℕ) (name : String) (type : ReturnType) :
    ∃ symbolic, manual_make_symbolic env id name type = some symbolic :=
  Memory.read_newSymbolic_word type.size _ type.readable

/-- What the hook does when it has decided. -/
theorem symbolic_after_call_of {create : Bool} (h : create_return env L u ki = some create) :
    ∃ L' final, symbolic_after_call env L u ki = some (L', final) ∧
      (create = true → ∀ type, ki.type = some type → Gives env ki type u final) ∧
      (create = false ∨ ki.type = none → final = u) := by
  unfold symbolic_after_call
  rw [h]
  show ∃ L' final, (match create, ki.type with | true, some type => _ | _, _ => _) = some (L', final) ∧ _
  cases create with
  | false => exact ⟨L, u, rfl, fun hc => absurd hc Bool.false_ne_true, fun _ => rfl⟩
  | true =>
    cases htype : ki.type with
    | none => exact ⟨L, u, rfl, fun _ _ ht => absurd ht.symm (Option.some_ne_none _), fun _ => rfl⟩
    | some type =>
      obtain ⟨symbolic, hsym⟩ := manual_make_symbolic_some env u.nextArray
        (create_global_var_name L ki (calleeName ki ++ "-call_return")).1 type
      refine ⟨_, _, congrArg (Option.bind · _) hsym, fun _ type' ht => ?_, fun hno => ?_⟩
      · cases ht
        exact ⟨_, symbolic, hsym, rfl⟩
      · obtain hc | hc := hno
        · cases hc
        · cases hc

/-! ### Direct calls -/

/-- The names that a call is compared with. -/
def Listener.skipped (L : Listener) : List String := L.skip_functions ++ local_skipfunctions

/-- An intrinsic that is skipped for the part of its name before the first dot, while the flag is not set. -/
structure Missed (L : Listener) (f : Func) : Prop where
  isDeclaration : f.isDeclaration = true
  isIntrinsic : f.isIntrinsic = true
  name : f.name ∉ L.skipped
  simplified : simplifyfuncname f.name ∈ L.skipped
  flag : L.skip_calltrace = false

omit [ExprOptions] in
/-- A name without a dot is not simplified. -/
theorem simplifyfuncname_eq {name : String} (h : '.' ∉ name.toList) : simplifyfuncname name = name := by
  unfold simplifyfuncname
  rw [List.takeWhile_eq_self_iff.2, String.ofList_toList]
  intro c hc
  have hne : c ≠ '.' := fun heq => h (heq ▸ hc)
  simpa using hne

/-- The listener once the fixed names are among those that are skipped. -/
def Listener.extended (L : Listener) : Listener := { L with skip_functions := L.skipped }

omit [ExprOptions] in
theorem CallInstruction_function {f : Func} (hf : ki.called = .function f) (L : Listener) (u : CallState) :
    CallInstruction env L u ki =
      if f.name ∈ L.skipped then (true, L.extended)
      else if simplifyfuncname f.name ∈ L.skipped then (true, L.extended)
      else if skip_calltrace_distance env u.state f.name then (true, { L.extended with skip_calltrace := true })
      else (f.isDeclaration && !f.isIntrinsic && !env.special f.name, { L.extended with skip_calltrace := false }) := by
  unfold CallInstruction
  rw [hf]
  rfl

omit [ExprOptions] in
theorem create_return_function {f : Func} (hf : ki.called = .function f) (L : Listener) (u : CallState) :
    create_return env L u ki =
      some (if f.isDeclaration then
        decide (f.name ∈ L.skip_functions) || L.skip_calltrace || (!f.isIntrinsic && !env.special f.name)
      else L.skip_calltrace || decide (f.name ∈ L.skip_functions) ||
        decide (simplifyfuncname f.name ∈ L.skip_functions)) := by
  unfold create_return
  rw [hf]
  show (if f.isDeclaration = true then _ else _) = _
  split
  · rfl
  · rfl

omit [ExprOptions] in
/-- The second decision is the first one, unless the intrinsic is missed. -/
theorem create_return_iff (hspecial : ∀ name, env.special name = true → '.' ∉ name.toList) {f : Func}
    (hf : ki.called = .function f) (L : Listener) (u u' : CallState) :
    ∃ create, create_return env (CallInstruction env L u ki).2 u' ki = some create ∧
      (create = (CallInstruction env L u ki).1 ↔ ¬Missed L f) := by
  rw [CallInstruction_function hf, create_return_function hf]
  refine ⟨_, rfl, ?_⟩
  by_cases hname : f.name ∈ L.skipped
  · -- both look for the whole name
    have hmissed : ¬Missed L f := fun h => h.name hname
    rw [if_pos hname]
    simp [Listener.extended, hname, hmissed]
  · rw [if_neg hname]
    by_cases hsimple : simplifyfuncname f.name ∈ L.skipped
    · rw [if_pos hsimple]
      -- a name that is changed has a dot, so that no handler is registered for it
      have hno : env.special f.name = false := by
        refine Bool.eq_false_iff.2 fun hs => hname ?_
        rw [← simplifyfuncname_eq (hspecial f.name hs)]
        exact hsimple
      have hmissed : Missed L f ↔ f.isDeclaration = true ∧ f.isIntrinsic = true ∧ L.skip_calltrace = false :=
        ⟨fun h => ⟨h.isDeclaration, h.isIntrinsic, h.flag⟩, fun h => ⟨h.1, h.2.1, hname, hsimple, h.2.2⟩⟩
      rw [hmissed]
      cases f.isDeclaration with
      | false => simp [Listener.extended, hsimple]
      | true =>
        cases hint : f.isIntrinsic with
        | false => simp [hno]
        | true => simp [Listener.extended, hname]
    · have hmissed : ¬Missed L f := fun h => hsimple h.simplified
      rw [if_neg hsimple]
      by_cases hfar : skip_calltrace_distance env u.state f.name = true
      · rw [if_pos hfar]
        simp [hmissed]
      · rw [if_neg hfar]
        cases f.isDeclaration with
        | false => simp [Listener.extended, hname, hsimple, hmissed]
        | true => simp [Listener.extended, hname, hmissed]

variable (env) in
/-- A direct call with a result gets a new symbolic value iff it was skipped, and otherwise nothing. -/
def Agrees (L : Listener) (e : Execution env) : Prop :=
  ∀ f type, e.ki.called = .function f → e.ki.type = some type → ∃ o, step env L e = some o ∧
    (Gives env e.ki type o.executed o.final ↔ o.skipped = true) ∧ (o.skipped = false → o.final = o.executed)

variable (env) in
/-- The call does not have a result, or is not a direct one, or its function is not missed. -/
def Unmissed (L : Listener) (e : Execution env) : Prop :=
  ∀ f type, e.ki.called = .function f → e.ki.type = some type → e.removed = false → ¬Missed L f

theorem step_eq {u : CallState} (hu : beforeExecuteInstruction env e.u e.ki = some u) (L : Listener) :
    step env L e =
      let decision := if e.removed then (false, L) else CallInstruction env L u e.ki
      (executeUnlessSkipped env decision.1 u e.ki).bind fun r =>
        (afterExecuteInstruction env (e.removed || r.removed) decision.2 r.u e.ki).bind fun after =>
          some ⟨decision.1, r.entered, r.u, after.2, after.1⟩ := by
  unfold step
  rw [hu]
  rfl

omit [ExprOptions] in
theorem before_function {f : Func} (hf : ki.called = .function f) (u : CallState) :
    beforeExecuteInstruction env u ki = some u := by
  unfold beforeExecuteInstruction
  rw [hf]

variable (env) in
omit [ExprOptions] in
/-- A direct call is executed. -/
theorem executeInstruction_function {f : Func} (hf : ki.called = .function f) (u : CallState) :
    ∃ r, executeInstruction env u ki = some r := by
  unfold executeInstruction
  rw [hf]
  show ∃ r, (if ki.isDbgInfo = true then _ else _) = some r
  split
  · exact ⟨_, rfl⟩
  · exact ⟨_, rfl⟩

/-- A direct call of a state that goes on, with the second decision. -/
theorem step_function {f : Func} (hf : e.ki.called = .function f) (hr : e.removed = false) (L : Listener) :
    ∃ r create, executeUnlessSkipped env (CallInstruction env L e.u e.ki).1 e.u e.ki = some r ∧
      create_return env (CallInstruction env L e.u e.ki).2 r.u e.ki = some create ∧
      ∃ L' final, step env L e = some ⟨(CallInstruction env L e.u e.ki).1, r.entered, r.u, final, L'⟩ ∧
        (r.removed = true ∨ create = false → final = r.u) ∧
        (r.removed = false → create = true → ∀ type, e.ki.type = some type → Gives env e.ki type r.u final) := by
  obtain ⟨r, hrun⟩ : ∃ r, executeUnlessSkipped env (CallInstruction env L e.u e.ki).1 e.u e.ki = some r := by
    unfold executeUnlessSkipped
    split
    · exact ⟨_, rfl⟩
    · exact executeInstruction_function env hf e.u
  obtain ⟨create, hcreate⟩ : ∃ create, create_return env (CallInstruction env L e.u e.ki).2 r.u e.ki = some create :=
    ⟨_, create_return_function hf _ _⟩
  obtain ⟨L', final, hafter, hgives, hkeep⟩ := symbolic_after_call_of hcreate
  have hstep : step env L e = (afterExecuteInstruction env r.removed (CallInstruction env L e.u e.ki).2 r.u e.ki).bind
      fun after => some ⟨(CallInstruction env L e.u e.ki).1, r.entered, r.u, after.2, after.1⟩ := by
    rw [step_eq (before_function hf e.u) L, hr]
    show ((executeUnlessSkipped env (CallInstruction env L e.u e.ki).1 e.u e.ki).bind _) = _
    rw [hrun]
    rfl
  refine ⟨r, create, hrun, hcreate, ?_⟩
  rw [hstep]
  unfold afterExecuteInstruction
  cases hrem : r.removed with
  | true => exact ⟨_, r.u, rfl, fun _ => rfl, fun h => absurd h.symm Bool.false_ne_true⟩
  | false =>
    refine ⟨L', final, ?_, fun h => hkeep (.inl (h.resolve_left Bool.false_ne_true)), fun _ hc type ht => hgives hc type ht⟩
    show ((symbolic_after_call env _ r.u e.ki).bind _) = _
    rw [hafter]
    rfl

theorem agrees_iff (hspecial : ∀ name, env.special name = true → '.' ∉ name.toList) (L : Listener) (e : Execution env) :
    Agrees env L e ↔ Unmissed env L e := by
  constructor
  · intro h f type hf ht hr hmissed
    obtain ⟨o, ho, hiff, -⟩ := h f type hf ht
    obtain ⟨r, create, -, hcreate, L', final, hstep, hkeep, -⟩ := step_function hf hr L
    obtain ⟨create', hcreate', hagree⟩ := create_return_iff hspecial hf L e.u r.u
    obtain rfl := Option.some.inj (hstep.symm.trans ho)
    obtain rfl := Option.some.inj (hcreate.symm.trans hcreate')
    have hskip : (CallInstruction env L e.u e.ki).1 = true := by
      rw [CallInstruction_function hf, if_neg hmissed.name, if_pos hmissed.simplified]
    have hno : create = false := by
      refine Bool.eq_false_iff.2 fun hc => ?_
      exact hagree.1 (hc.trans hskip.symm) hmissed
    exact (hiff.2 hskip).ne (hkeep (.inr hno))
  · intro h f type hf ht
    cases hr : e.removed with
    | true =>
      obtain ⟨r, hrun⟩ := executeInstruction_function env hf e.u
      refine ⟨⟨false, r.entered, r.u, r.u, L⟩, ?_, ⟨fun hg => absurd rfl hg.ne, fun hs => absurd hs.symm ?_⟩, fun _ => rfl⟩
      · rw [step_eq (before_function hf e.u) L, hr]
        show ((executeInstruction env e.u e.ki).bind _) = _
        rw [hrun]
        rfl
      · exact fun hs => Bool.false_ne_true hs.symm
    | false =>
      obtain ⟨r, create, hr', hcreate, L', final, hstep, hkeep, hgives⟩ := step_function hf hr L
      obtain ⟨create', hcreate', hagree⟩ := create_return_iff hspecial hf L e.u r.u
      obtain rfl := Option.some.inj (hcreate.symm.trans hcreate')
      have hsame := hagree.2 (h f type hf ht hr)
      refine ⟨_, hstep, ?_⟩
      cases hskip : (CallInstruction env L e.u e.ki).1 with
      | true =>
        rw [hskip] at hr'
        obtain rfl := Option.some.inj hr'
        have hg := hgives rfl (hsame.trans hskip) type ht
        exact ⟨⟨fun _ => rfl, fun _ => hg⟩, fun hs => absurd hs.symm Bool.false_ne_true⟩
      | false =>
        have hsame' := hkeep (.inr (hsame.trans hskip))
        exact ⟨⟨fun hg => absurd hsame' hg.ne, fun hs => absurd hs Bool.false_ne_true⟩, fun _ => hsame'⟩

/-- **When a skipped call gets a symbolic result**, and no other one: along every run, no intrinsic with a result may be
called that is only skipped for the part of its name before the dot, unless the flag of an earlier call is still set. -/
theorem skip_agrees_iff (env : Env) (hspecial : ∀ name, env.special name = true → '.' ∉ name.toList) (L : Listener)
    (es : List (Execution env)) : Along env (Agrees env) L es ↔ Along env (Unmissed env) L es :=
  Along.congr (agrees_iff hspecial) es L

end

section

local instance skipOptions : ExprOptions := .defaults

/-- A module with one function that is called through its address. -/
def callEnv : Env where
  memory := fun _ => Executor.lowObject
  indirectcall_map := fun _ => none
  getFunction := fun _ => none
  Calltrace := []
  kfunction := fun _ => ⟨2, 0, 1⟩
  function := fun addr => if addr = 4096 then some ⟨"callee", false, false, false, []⟩ else none
  special := fun _ => false
  RuntimeMaxStackFrames := 8192
  littleEndian := true
  varargs := fun _ _ _ => .empty
  callOther := fun _ _ _ u => (u, false)
  callOther_frames := fun _ _ _ _ => rfl

theorem wordSize_lt : 8 < 2 ^ 32 := by
  norm_num

/-- A word of eight bytes. -/
def wordType : ReturnType := ⟨⟨8, wordSize_lt⟩, 64, .inr ⟨rfl, Nat.zero_lt_succ 7⟩⟩

/-- A call with a result in the second register, of an operand in the first one. -/
def callInst (called : Called) : CallInst :=
  ⟨called, false, .reg 0, [], fun _ => false, false, 1, some wordType, "", "a.c", 7⟩

/-- A state with one frame. -/
def callState (locals : ℕ → Option Expr) : CallState where
  state := { ExecutionState.init "main" 0 0 with stack := [⟨none, "main", locals⟩] }
  constantTable := fun _ => none
  allocated := 0
  nextArray := 0

/-- The execution of the call. -/
def execution (called : Called) (locals : ℕ → Option Expr) : Execution callEnv where
  u := callState locals
  ki := callInst called
  removed := false
  frame := ⟨none, "main", locals⟩
  frames := []
  stack_eq := rfl
  dest_lt := Nat.one_lt_two

/-- A function that is always skipped. -/
theorem skip_agrees_skipped : Along callEnv (Agrees callEnv) ⟨[], false, fun _ => none⟩
    [execution (.function ⟨"nla_data", true, false, false, []⟩) fun _ => none] := by
  refine (skip_agrees_iff callEnv (fun _ h => absurd h Bool.false_ne_true) _ _).2 ⟨fun f type hf _ _ hmissed => ?_, ?_⟩
  · obtain rfl := Called.function.inj hf
    exact Bool.false_ne_true hmissed.isIntrinsic
  · exact fun _ _ => trivial

/-- With `llvm` among the functions to skip, an intrinsic is skipped and gets no result. -/
theorem skip_misses_intrinsic : ¬Along callEnv (Agrees callEnv) ⟨["llvm"], false, fun _ => none⟩
    [execution (.function ⟨"llvm.ctpop.i64", true, true, false, [64]⟩) fun _ => none] := by
  rintro ⟨h, -⟩
  refine (agrees_iff (fun _ h => absurd h Bool.false_ne_true) _ _).1 h _ wordType rfl rfl rfl ⟨rfl, rfl, ?_, ?_, rfl⟩
  · decide
  · exact List.mem_cons_self

end

/-! ### Indirect calls -/

section

variable [ExprOptions] {env} {L : Listener} {u final : CallState} {ki : CallInst} {type : ReturnType} {e : Execution env}

variable (env) in
/-- The line of the call has an entry under its own spelling. -/
def Configured (ki : CallInst) : Prop := (env.indirectcall_map (LineGuidance.lineInfo ki.sourceinfo)).isSome = true

variable (env) in
/-- The call of a function ends in a new frame. -/
structure Enters (u : CallState) (ki : CallInst) (f : Func) : Prop where
  unhandled : env.special (simplifyfuncname f.name) = false
  defined : f.isDeclaration = false
  room : env.RuntimeMaxStackFrames = 0 ∨ u.state.stack.length ≤ env.RuntimeMaxStackFrames
  enough : f.params.length ≤ ki.args.length
  varargs : f.isVarArg = true → env.varargs f ki u ≠ .outOfMemory

variable (env) in
omit [ExprOptions] in
/-- What `executeCall` does: it enters the function, or there is no new frame for a state that goes on. -/
theorem executeCall_cases (u : CallState) (ki : CallInst) (f : Func) (hdbg : ki.isDbgInfo = false)
    (arguments : List (Option Expr)) (hlen : arguments.length = ki.args.length) :
    (Enters env u ki f ∧ ∃ u', u'.nextArray = u.nextArray ∧
        executeCall env u ki f arguments = enter env u' f arguments) ∨
      (¬Enters env u ki f ∧ (executeCall env u ki f arguments).entered = false ∧
        ((executeCall env u ki f arguments).removed = false →
          (executeCall env u ki f arguments).u.state.stack.map StackFrame.kf = u.state.stack.map StackFrame.kf)) := by
  unfold executeCall
  rw [hdbg]
  show (_ ∧ ∃ u', _ ∧ (if env.special _ = true ∨ _ then _ else _) = _) ∨ _
  split
  · rename_i hother
    refine .inr ⟨fun h => ?_, rfl, fun _ => env.callOther_frames f ki arguments u⟩
    obtain hs | hd := hother
    · exact absurd (h.unhandled.symm.trans hs) Bool.false_ne_true
    · exact absurd (h.defined.symm.trans hd) Bool.false_ne_true
  · rename_i hother
    split
    · rename_i hlimit
      refine .inr ⟨fun h => ?_, rfl, fun hr => absurd hr.symm Bool.false_ne_true⟩
      obtain hzero | hle := h.room
      · exact hlimit.1 hzero
      · exact absurd hlimit.2 (Nat.not_lt.2 hle)
    · rename_i hlimit
      split
      · rename_i hfew
        exact .inr ⟨fun h => absurd h.enough (by omega), rfl, fun hr => absurd hr.symm Bool.false_ne_true⟩
      · rename_i hfew
        have henters : (f.isVarArg = true → env.varargs f ki u ≠ .outOfMemory) → Enters env u ki f := by
          intro hvar
          refine ⟨Bool.eq_false_iff.2 fun hs => hother (.inl hs), Bool.eq_false_iff.2 fun hd => hother (.inr hd), ?_,
            by omega, hvar⟩
          by_cases hzero : env.RuntimeMaxStackFrames = 0
          · exact .inl hzero
          · exact .inr (Nat.not_lt.1 fun hlt => hlimit ⟨hzero, hlt⟩)
        split
        · rename_i hvar
          cases hobj : env.varargs f ki u with
          | outOfMemory =>
            exact .inr ⟨fun h => h.varargs hvar hobj, rfl, fun hr => absurd hr.symm Bool.false_ne_true⟩
          | empty => exact .inl ⟨henters fun _ => by rw [hobj]; exact Varargs.noConfusion, u, rfl, rfl⟩
          | object mo =>
            exact .inl ⟨henters fun _ => by rw [hobj]; exact Varargs.noConfusion,
              { u with state := { u.state with addressSpace := u.state.addressSpace.bindObject mo } }, rfl, rfl⟩
        · rename_i hvar
          exact .inl ⟨henters fun hv => absurd hv hvar, u, rfl, rfl⟩

variable (env) in
/-- An indirect call has an outcome; a callee that was entered finds its registers as `executeCall` has left them, and where
there is no callee the destination has a new symbolic value. -/
def Right (L : Listener) (e : Execution env) : Prop :=
  e.ki.called = .unknown → e.ki.isDbgInfo = false → ∃ o, step env L e = some o ∧
    (o.entered = true → ∀ sf frames, o.executed.state.stack = sf :: frames →
      ∀ i < (env.kfunction sf.kf).numRegisters, o.final.eval (.reg i) = o.executed.eval (.reg i)) ∧
    ∀ u, beforeExecuteInstruction env e.u e.ki = some u → target env u e.ki = none →
      ∀ type, e.ki.type = some type → Gives env e.ki type o.executed o.final

variable (env) in
/-- The line of the call can be normalised and its operand has a value.  A function that is entered has a register with the
number of the destination, which holds an argument unless the call is void or configured under its own spelling; a call
with a result that enters no function is not configured, and its destination is still empty. -/
def Safe (e : Execution env) : Prop :=
  e.ki.called = .unknown → e.ki.isDbgInfo = false → ∃ u, beforeExecuteInstruction env e.u e.ki = some u ∧
    u.eval e.ki.callee ≠ none ∧
    (∀ f, target env u e.ki = some f → Enters env u e.ki f → e.removed = true ∨ Configured env e.ki ∨
      (e.ki.dest < (env.kfunction f.name).numRegisters ∧
        (e.ki.type = none ∨ bindArguments f.params.length (e.ki.args.map u.eval) e.ki.dest ≠ none))) ∧
    (target env u e.ki = none → e.ki.type ≠ none →
      e.removed = false ∧ ¬Configured env e.ki ∧ u.eval (.reg e.ki.dest) = none)

theorem step_unknown (hc : e.ki.called = .unknown) {u : CallState} (hu : beforeExecuteInstruction env e.u e.ki = some u)
    (L : Listener) :
    step env L e = (executeInstruction env u e.ki).bind fun r =>
      (afterExecuteInstruction env (e.removed || r.removed) L r.u e.ki).bind fun after =>
        some ⟨false, r.entered, r.u, after.2, after.1⟩ := by
  have hskip : CallInstruction env L u e.ki = (false, L) := by
    unfold CallInstruction
    rw [hc]
  rw [step_eq hu L, hskip, ite_self]
  rfl

variable (env) in
/-- The hook after an indirect call. -/
theorem after_unknown (hc : ki.called = .unknown) (removed : Bool) (L : Listener) (u : CallState) :
    ((removed = true ∨ Configured env ki ∨ ∃ v, getDestCell env u ki = some v ∧ (v ≠ none ∨ ki.type = none)) →
        ∃ L', afterExecuteInstruction env removed L u ki = some (L', u)) ∧
      (removed = false → ¬Configured env ki → getDestCell env u ki = none →
        afterExecuteInstruction env removed L u ki = none) ∧
      (removed = false → ¬Configured env ki → getDestCell env u ki = some none → ∀ type, ki.type = some type →
        ∃ L' final, afterExecuteInstruction env removed L u ki = some (L', final) ∧ Gives env ki type u final) := by
  have hyes : Configured env ki → create_return env L u ki = some false := by
    intro hconf
    unfold create_return
    rw [hc]
    exact if_pos hconf
  have hnot : ¬Configured env ki → create_return env L u ki = (getDestCell env u ki).map fun value => value.isNone := by
    intro hconf
    unfold create_return
    rw [hc]
    exact if_neg hconf
  refine ⟨fun h => ?_, fun hr hconf hcell => ?_, fun hr hconf hcell type htype => ?_⟩
  · by_cases hr : removed = true
    · exact ⟨L, if_pos hr⟩
    · obtain ⟨create, hsome, hkeep⟩ : ∃ create, create_return env L u ki = some create ∧
          (create = false ∨ ki.type = none) := by
        by_cases hconf : Configured env ki
        · exact ⟨false, hyes hconf, .inl rfl⟩
        · obtain ⟨v, hcell, hv⟩ := (h.resolve_left hr).resolve_left hconf
          refine ⟨v.isNone, by rw [hnot hconf, hcell]; rfl, hv.imp_left fun hne => ?_⟩
          exact Bool.eq_false_iff.2 fun hn => hne (Option.isNone_iff_eq_none.1 hn)
      obtain ⟨L', final, hafter, -, hsame⟩ := symbolic_after_call_of hsome
      refine ⟨L', ?_⟩
      rw [afterExecuteInstruction, if_neg hr, hafter, hsame hkeep]
  · have hnone : create_return env L u ki = none := by
      rw [hnot hconf, hcell]
      rfl
    rw [afterExecuteInstruction, hr]
    show symbolic_after_call env L u ki = none
    unfold symbolic_after_call
    rw [hnone]
    rfl
  · have htrue : create_return env L u ki = some true := by
      rw [hnot hconf, hcell]
      rfl
    obtain ⟨L', final, hafter, hgives, -⟩ := symbolic_after_call_of htrue
    refine ⟨L', final, ?_, hgives rfl type htype⟩
    rw [afterExecuteInstruction, hr]
    exact hafter

omit [ExprOptions] in
/-- The hook of `PathListener` leaves the frames. -/
theorem before_frames {u : CallState} (hu : beforeExecuteInstruction env e.u e.ki = some u) :
    u.state.stack.map StackFrame.kf = e.u.state.stack.map StackFrame.kf := by
  have hwrite : ∀ (v : UCState) (op : Operand) (value : Expr),
      (v.un_eval op value).state.stack.map StackFrame.kf = v.state.stack.map StackFrame.kf := by
    intro v op value
    unfold UCState.un_eval
    cases op with
    | const n => rfl
    | reg n =>
      cases hstack : v.state.stack with
      | nil => simp [hstack]
      | cons sf frames => simp
  have hpick : ∀ line, (pickCallee env.toSetup e.u.toUCState line e.ki.callee).state.stack.map StackFrame.kf =
      e.u.state.stack.map StackFrame.kf := by
    intro line
    unfold pickCallee
    split
    · exact hwrite _ _ _
    · rfl
  unfold beforeExecuteInstruction at hu
  split at hu
  · split at hu
    · rw [Option.some.inj hu]
    · obtain ⟨line, -, rfl⟩ := Option.map_eq_some_iff.1 hu
      exact hpick line
  · rw [Option.some.inj hu]

omit [ExprOptions] in
/-- With the frames of the caller, the destination has a cell. -/
theorem getDestCell_frames {u : CallState}
    (hframes : u.state.stack.map StackFrame.kf = e.u.state.stack.map StackFrame.kf) :
    getDestCell env u e.ki = some (u.eval (.reg e.ki.dest)) := by
  rw [e.stack_eq] at hframes
  unfold getDestCell UCState.eval
  cases hstack : u.state.stack with
  | nil =>
    rw [hstack] at hframes
    cases hframes
  | cons sf frames =>
    rw [hstack] at hframes
    have hkf : sf.kf = e.frame.kf := (List.cons.inj hframes).1
    show (if e.ki.dest < (env.kfunction sf.kf).numRegisters then _ else _) = _
    rw [hkf]
    exact if_pos e.dest_lt

variable (env) in
omit [ExprOptions] in
theorem executeInstruction_unknown (hc : ki.called = .unknown) (hdbg : ki.isDbgInfo = false) (u : CallState) :
    executeInstruction env u ki =
      if u.eval ki.callee = none then none
      else
        match target env u ki with
        | some f => some (executeCall env u ki f (ki.args.map u.eval))
        | none => some ⟨u, false, false⟩ := by
  unfold executeInstruction
  rw [hdbg, hc]
  rfl

theorem step_of_run (hc : e.ki.called = .unknown) {u : CallState} (hu : beforeExecuteInstruction env e.u e.ki = some u)
    {r : Executed} (hr : executeInstruction env u e.ki = some r) (L : Listener) :
    step env L e = (afterExecuteInstruction env (e.removed || r.removed) L r.u e.ki).bind fun after =>
      some ⟨false, r.entered, r.u, after.2, after.1⟩ := by
  rw [step_unknown hc hu, hr]
  rfl

/-- An indirect call that enters a function. -/
theorem entered_iff (hc : e.ki.called = .unknown) {u u' : CallState}
    (hu : beforeExecuteInstruction env e.u e.ki = some u) {f : Func} {arguments : List (Option Expr)}
    (hr : executeInstruction env u e.ki = some (enter env u' f arguments)) (L : Listener) :
    (∃ o, step env L e = some o ∧ o.entered = true ∧ ∀ sf frames, o.executed.state.stack = sf :: frames →
        ∀ i < (env.kfunction sf.kf).numRegisters, o.final.eval (.reg i) = o.executed.eval (.reg i)) ↔
      (e.removed = true ∨ Configured env e.ki ∨ (e.ki.dest < (env.kfunction f.name).numRegisters ∧
        (e.ki.type = none ∨ bindArguments f.params.length arguments e.ki.dest ≠ none))) := by
  have hstep := step_of_run hc hu hr L
  have hcell : getDestCell env (enter env u' f arguments).u e.ki =
      if e.ki.dest < (env.kfunction f.name).numRegisters then some (bindArguments f.params.length arguments e.ki.dest)
      else none := rfl
  obtain ⟨hkeep, hout, hnew⟩ := after_unknown env hc (e.removed || false) L (enter env u' f arguments).u
  constructor
  · rintro ⟨o, ho, -, hsame⟩
    by_contra hno
    obtain ⟨hrem, hno⟩ := not_or.1 hno
    obtain ⟨hconf, hno⟩ := not_or.1 hno
    have hrem' : (e.removed || false) = false := by rw [Bool.or_false]; exact Bool.eq_false_iff.2 hrem
    by_cases hlt : e.ki.dest < (env.kfunction f.name).numRegisters
    · obtain ⟨htype, harg⟩ := not_or.1 fun h => hno ⟨hlt, h⟩
      obtain ⟨type, htype⟩ := Option.ne_none_iff_exists'.1 htype
      have harg := not_not.1 harg
      rw [if_pos hlt, harg] at hcell
      obtain ⟨L', final, hafter, name, symbolic, -, rfl⟩ := hnew hrem' hconf hcell type htype
      -- the destination of the callee was empty, and is not any more
      rw [hstep, show (enter env u' f arguments).removed = false from rfl, hafter] at ho
      obtain rfl := Option.some.inj ho
      have heq := hsame _ _ rfl e.ki.dest hlt
      change Function.update (bindArguments f.params.length arguments) e.ki.dest (some symbolic) e.ki.dest =
        bindArguments f.params.length arguments e.ki.dest at heq
      rw [Function.update_self, harg] at heq
      cases heq
    · rw [if_neg hlt] at hcell
      rw [hstep, show (enter env u' f arguments).removed = false from rfl, hout hrem' hconf hcell] at ho
      cases ho
  · intro h
    obtain ⟨L', hafter⟩ := hkeep <| by
      obtain hrem | hconf | ⟨hlt, hv⟩ := h
      · exact .inl (by rw [hrem]; rfl)
      · exact .inr (.inl hconf)
      · exact .inr (.inr ⟨_, hcell.trans (if_pos hlt), hv.symm⟩)
    refine ⟨_, by rw [hstep, show (enter env u' f arguments).removed = false from rfl, hafter]; rfl, rfl, ?_⟩
    exact fun _ _ _ _ _ => rfl

/-- An indirect call without a callee. -/
theorem unentered_iff (hc : e.ki.called = .unknown) {u : CallState}
    (hu : beforeExecuteInstruction env e.u e.ki = some u)
    (hr : executeInstruction env u e.ki = some ⟨u, false, false⟩) (L : Listener) :
    (∃ o, step env L e = some o ∧ o.entered = false ∧ ∀ type, e.ki.type = some type →
        Gives env e.ki type o.executed o.final) ↔
      (e.ki.type ≠ none → e.removed = false ∧ ¬Configured env e.ki ∧ u.eval (.reg e.ki.dest) = none) := by
  have hstep := step_of_run hc hu hr L
  have hcell : getDestCell env u e.ki = some (u.eval (.reg e.ki.dest)) := getDestCell_frames (before_frames hu)
  obtain ⟨hkeep, -, hnew⟩ := after_unknown env hc (e.removed || false) L u
  constructor
  · rintro ⟨o, ho, -, hgives⟩ hne
    obtain ⟨type, htype⟩ := Option.ne_none_iff_exists'.1 hne
    have hgives := hgives type htype
    by_contra hno
    obtain ⟨L', hafter⟩ := hkeep <| by
      by_cases hrem : e.removed = true
      · exact .inl (by rw [hrem]; rfl)
      · by_cases hconf : Configured env e.ki
        · exact .inr (.inl hconf)
        · exact .inr (.inr ⟨_, hcell, .inl fun hv => hno ⟨Bool.eq_false_iff.2 hrem, hconf, hv⟩⟩)
    rw [hstep, hafter] at ho
    obtain rfl := Option.some.inj ho
    exact hgives.ne rfl
  · intro h
    cases htype : e.ki.type with
    | none =>
      obtain ⟨L', hafter⟩ := hkeep (.inr (.inr ⟨_, hcell, .inr htype⟩))
      refine ⟨_, by rw [hstep, hafter]; rfl, rfl, fun type ht => ?_⟩
      cases ht
    | some type =>
      obtain ⟨hrem, hconf, hv⟩ := h (by rw [htype]; exact Option.some_ne_none type)
      rw [hv] at hcell
      obtain ⟨L', final, hafter, hgives⟩ := hnew (by rw [hrem]; rfl) hconf hcell type htype
      refine ⟨_, by rw [hstep, hafter]; rfl, rfl, fun type' ht => ?_⟩
      cases ht
      exact hgives

/-- An indirect call of a function that needs no frame has an outcome. -/
theorem handled_step (hc : e.ki.called = .unknown) {u : CallState}
    (hu : beforeExecuteInstruction env e.u e.ki = some u) {r : Executed} (hr : executeInstruction env u e.ki = some r)
    (hent : r.entered = false)
    (hframes : r.removed = false → r.u.state.stack.map StackFrame.kf = u.state.stack.map StackFrame.kf) (L : Listener) :
    ∃ o, step env L e = some o ∧ o.entered = false := by
  have hstep := step_of_run hc hu hr L
  suffices hafter : ∃ after, afterExecuteInstruction env (e.removed || r.removed) L r.u e.ki = some after by
    obtain ⟨after, hafter⟩ := hafter
    exact ⟨_, by rw [hstep, hafter]; rfl, hent⟩
  obtain ⟨hkeep, -, hnew⟩ := after_unknown env hc (e.removed || r.removed) L r.u
  cases hrem : e.removed || r.removed with
  | true =>
    rw [hrem] at hkeep
    obtain ⟨L', h⟩ := hkeep (.inl rfl)
    exact ⟨_, h⟩
  | false =>
    rw [hrem] at hkeep hnew
    have hcell := getDestCell_frames ((hframes (Bool.or_eq_false_iff.1 hrem).2).trans (before_frames hu))
    by_cases hconf : Configured env e.ki
    · obtain ⟨L', h⟩ := hkeep (.inr (.inl hconf))
      exact ⟨_, h⟩
    · cases htype : e.ki.type with
      | none =>
        obtain ⟨L', h⟩ := hkeep (.inr (.inr ⟨_, hcell, .inr htype⟩))
        exact ⟨_, h⟩
      | some type =>
        cases hv : r.u.eval (.reg e.ki.dest) with
        | none =>
          rw [hv] at hcell
          obtain ⟨L', final, h, -⟩ := hnew rfl hconf hcell type htype
          exact ⟨_, h⟩
        | some v =>
          obtain ⟨L', h⟩ := hkeep (.inr (.inr ⟨_, hcell, .inl (by rw [hv]; exact Option.some_ne_none v)⟩))
          exact ⟨_, h⟩

theorem entered_of_step (hc : e.ki.called = .unknown) {u : CallState}
    (hu : beforeExecuteInstruction env e.u e.ki = some u) {r : Executed} (hr : executeInstruction env u e.ki = some r)
    {o : Outcome} (ho : step env L e = some o) : o.entered = r.entered := by
  rw [step_of_run hc hu hr L] at ho
  obtain ⟨after, -, heq⟩ := Option.bind_eq_some_iff.1 ho
  rw [← Option.some.inj heq]

theorem right_iff (L : Listener) (e : Execution env) : Right env L e ↔ Safe env e := by
  constructor
  · intro h hc hdbg
    obtain ⟨o, ho, hent, hres⟩ := h hc hdbg
    obtain ⟨u, hu, -⟩ := Option.bind_eq_some_iff.1 ho
    have hexec := executeInstruction_unknown env hc hdbg u
    have hval : u.eval e.ki.callee ≠ none := by
      intro hnone
      rw [step_unknown hc hu, hexec, if_pos hnone] at ho
      cases ho
    rw [if_neg hval] at hexec
    refine ⟨u, hu, hval, fun f ht henters => ?_, fun ht => ?_⟩
    · rw [ht] at hexec
      obtain ⟨-, u', -, hcall⟩ | ⟨hnot, -⟩ := executeCall_cases env u e.ki f hdbg (e.ki.args.map u.eval) (List.length_map _)
      · have hr : executeInstruction env u e.ki = some (enter env u' f (e.ki.args.map u.eval)) := by
          rw [hexec, ← hcall]
        have hentered := entered_of_step hc hu hr ho
        exact (entered_iff hc hu hr L).1 ⟨o, ho, hentered, hent hentered⟩
      · exact absurd henters hnot
    · rw [ht] at hexec
      exact (unentered_iff hc hu hexec L).1 ⟨o, ho, entered_of_step hc hu hexec ho, hres u hu ht⟩
  · intro h hc hdbg
    obtain ⟨u, hu, hval, hin, hout⟩ := h hc hdbg
    have hexec := executeInstruction_unknown env hc hdbg u
    rw [if_neg hval] at hexec
    cases ht : target env u e.ki with
    | none =>
      rw [ht] at hexec
      obtain ⟨o, ho, hent, hgives⟩ := (unentered_iff hc hu hexec L).2 (hout ht)
      exact ⟨o, ho, fun h => absurd (hent.symm.trans h) Bool.false_ne_true, fun _ _ _ => hgives⟩
    | some f =>
      rw [ht] at hexec
      have htarget : ∀ u', beforeExecuteInstruction env e.u e.ki = some u' → target env u' e.ki ≠ none := by
        intro u' hu'
        rw [← Option.some.inj (hu.symm.trans hu'), ht]
        exact Option.some_ne_none f
      obtain ⟨henters, u', -, hcall⟩ | ⟨-, hent, hframes⟩ :=
        executeCall_cases env u e.ki f hdbg (e.ki.args.map u.eval) (List.length_map _)
      · have hr : executeInstruction env u e.ki = some (enter env u' f (e.ki.args.map u.eval)) := by
          rw [hexec, ← hcall]
        obtain ⟨o, ho, -, hsame⟩ := (entered_iff hc hu hr L).2 (hin f ht henters)
        exact ⟨o, ho, fun _ => hsame, fun u' hu' h => absurd h (htarget u' hu')⟩
      · obtain ⟨o, ho, hno⟩ := handled_step hc hu hexec hent hframes L
        exact ⟨o, ho, fun h => absurd (hno.symm.trans h) Bool.false_ne_true, fun u' hu' h => absurd h (htarget u' hu')⟩

/-- **When indirect calls are right**, along every run. -/
theorem indirect_right_iff (env : Env) (L : Listener) (es : List (Execution env)) :
    Along env (Right env) L es ↔ Along env (fun _ e => Safe env e) L es :=
  Along.congr right_iff es L

end

section

local instance indirectOptions : ExprOptions := .defaults

/-- The callee that is entered has an empty register with the number of the destination, which is overwritten. -/
theorem indirect_overwrites : ¬Along callEnv (Right callEnv) ⟨[], false, fun _ => none⟩
    [execution .unknown fun n => if n = 0 then some (.const 4096#64) else none] := by
  rintro ⟨h, -⟩
  obtain ⟨u, hu, -, hin, -⟩ := (right_iff _ _).1 h rfl rfl
  have hline : LineGuidance.simplifylineinfo (LineGuidance.lineInfo "") = some "" := by
    have hparents : SimplifyPath.removeParents [] = some [] := by
      rw [SimplifyPath.removeParents, dif_neg List.not_mem_nil]
    have hempty : SimplifyPath.simplifylineinfo [] = some [] := by
      show (SimplifyPath.removeParents []).bind _ = _
      rw [hparents]
      rfl
    show (SimplifyPath.simplifylineinfo []).map String.ofList = _
    rw [hempty]
    rfl
  have hsame : beforeExecuteInstruction callEnv (callState fun n => if n = 0 then some (.const 4096#64) else none)
      (callInst .unknown) = some (callState fun n => if n = 0 then some (.const 4096#64) else none) := by
    show (LineGuidance.simplifylineinfo (LineGuidance.lineInfo "")).map _ = _
    rw [hline]
    rfl
  obtain rfl := Option.some.inj (hsame.symm.trans hu)
  obtain hrem | hconf | ⟨-, htype | harg⟩ := hin _ rfl ⟨rfl, rfl, .inr (by decide), Nat.le_refl _, fun h => by cases h⟩
  · cases hrem
  · cases hconf
  · cases htype
  · exact harg rfl

end

end SymBisect.CallReturn
