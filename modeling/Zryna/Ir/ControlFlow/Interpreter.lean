import Zryna.Foundation.Outcome
import Zryna.Ir.ControlFlow.Soundness

/-!
# A fuelled interpreter for `ControlFlowV1`

`run` evaluates a call by recursion on its fuel: a call at fuel `n + 1` may enter `n + 1` blocks
and makes its own calls at fuel `n`. It follows the machine of `Machine` instruction by
instruction, and `run_simulates` says so: a result is handed to the waiting frame by the machine,
a fault is a stuck state of the machine, and running out of fuel `n` means that the machine takes
at least `n` steps.

For verified programs the interpreter therefore decides what the machine does: `returns_iff` and
`diverges_iff` read the machine's runs off the fuelled results. Translations of programs are
compared with `run`, block by block.
-/

namespace Zryna.Ir.ControlFlow

open Option

/-! ### The interpreter -/

/-- The interpreter's only fault is a stuck machine. -/
abbrev Result := Outcome Unit

/-- An operand read or an operation that may be undefined. -/
def orStuck {α : Type} (o : Option α) : Result α := Outcome.ofOption () o

/-- What a block ends with. -/
inductive Flow where
  | leave (value : Value)
  | enter (block : ℕ) (env : Env)

section

variable (call : FunctionId → List Value → Result Value)

def runOperation (kind : InstructionKind) (values : List Value) : Result Value :=
  match kind with
  | .directCall callee _ => call callee values
  | kind => orStuck (evalOperation kind values)

variable (function : Function)

def runInstruction (instruction : Instruction) (env : Env) : Result Env := do
  let values ← orStuck (readOperands function env (instructionOperands instruction.kind))
  let value ← runOperation call instruction.kind values
  if value.ty = instruction.result.ty then
    pure (Function.update env instruction.result.id (some value))
  else .fault ()

/-- The instructions of a block, in order. -/
def runInstructions (call : FunctionId → List Value → Result Value) (function : Function) :
    List Instruction → Env → Result Env
  | [], env => pure env
  | instruction :: rest, env => do
    let env ← runInstruction call function instruction env
    runInstructions call function rest env

/-- An edge: all arguments are read before the parameters are bound. -/
def runEdge (target : ℕ) (arguments : List ℕ) (env : Env) : Result Flow := do
  let values ← orStuck (readOperands function env arguments)
  let block ← orStuck (function.blocks[target]?)
  if target = 0 then .fault ()
  else do
    let env ← orStuck (bindParameters block.parameters values env)
    pure (.enter target env)

def runTerminator (terminator : Terminator) (env : Env) : Result Flow :=
  match terminator with
  | .return id => do
    let value ← orStuck (readOperand function env id)
    if value.ty = function.result then pure (.leave value) else .fault ()
  | .jump target arguments => runEdge function target arguments env
  | .branch condition trueTarget trueArguments falseTarget falseArguments => do
    let value ← orStuck (readOperand function env condition)
    match value with
    | .bool true => runEdge function trueTarget trueArguments env
    | .bool false => runEdge function falseTarget falseArguments env
    | .i32 _ => .fault ()

/-- One block: its instructions, then its only terminator. -/
def runBlock (block : Block) (env : Env) : Result Flow := do
  let env ← runInstructions call function block.instructions env
  match block.terminators with
  | [terminator] => runTerminator function terminator.kind env
  | _ => .fault ()

end

/-- Runs at most `fuel` blocks. -/
def runBlocks (call : FunctionId → List Value → Result Value) (function : Function) :
    ℕ → ℕ → Env → Result Value
  | 0, _, _ => .timeout
  | fuel + 1, block, env => do
    let block ← orStuck (function.blocks[block]?)
    let flow ← runBlock call function block env
    match flow with
    | .leave value => pure value
    | .enter target env => runBlocks call function fuel target env

/-- The environment a call starts with. -/
def runEnter (program : Program) (id : FunctionId) (arguments : List Value) :
    Result (Function × Env) := do
  let function ← orStuck (program.function? id)
  let env ← orStuck (bindParameters function.parameters arguments fun _ => none)
  pure (function, env)

/-- Calls a function. -/
def run (program : Program) : ℕ → FunctionId → List Value → Result Value
  | 0, id, arguments => do
    let _ ← runEnter program id arguments
    .timeout
  | fuel + 1, id, arguments => do
    let (function, env) ← runEnter program id arguments
    runBlocks (run program fuel) function (fuel + 1) 0 env

/-! ### Counting machine steps -/

/-- The state after `n` steps. -/
def stepN (program : Program) : ℕ → State → Option State
  | 0, s => some s
  | n + 1, s => (step program s).bind (stepN program n)

/-- The machine takes at least `n` steps. -/
def Takes (program : Program) (n : ℕ) (s : State) : Prop := (stepN program n s).isSome

variable {program : Program} {function : Function} {id : FunctionId}

theorem stepN_succ (n : ℕ) (s : State) :
    stepN program (n + 1) s = (step program s).bind (stepN program n) := rfl

theorem Takes.of_succ {n : ℕ} : ∀ {s : State}, Takes program (n + 1) s → Takes program n s := by
  induction n with
  | zero => exact fun _ => rfl
  | succ n ih =>
    intro s h
    unfold Takes at h ⊢
    rw [stepN_succ] at h ⊢
    cases hs : step program s with
    | none => simp [hs] at h
    | some t =>
      rw [hs] at h
      exact ih h

theorem Takes.le {m n : ℕ} (hmn : m ≤ n) {s : State} (h : Takes program n s) :
    Takes program m s := by
  induction n with
  | zero =>
    obtain rfl : m = 0 := by omega
    exact h
  | succ n ih =>
    by_cases hm : m = n + 1
    · exact hm ▸ h
    · exact ih (by omega) h.of_succ

variable {t : State}

theorem Takes.head {n : ℕ} {s : State} (hs : step program s = some t)
    (h : Takes program n t) : Takes program (n + 1) s := by
  show (stepN program (n + 1) s).isSome
  rw [stepN_succ, hs]
  exact h

theorem Takes.of_reachable {n : ℕ} {s : State} (hst : Reachable program s t)
    (h : Takes program n t) : Takes program n s := by
  induction hst using Relation.ReflTransGen.head_induction_on with
  | refl => exact h
  | head hs _ ih => exact (ih.head hs).of_succ

theorem exists_stepN {s : State} (h : Reachable program s t) : ∃ n, stepN program n s = some t := by
  induction h using Relation.ReflTransGen.head_induction_on with
  | refl => exact ⟨0, rfl⟩
  | head hs _ ih =>
    obtain ⟨n, hn⟩ := ih
    exact ⟨n + 1, by rw [stepN_succ, hs]; exact hn⟩

theorem stepN_add (m n : ℕ) (s : State) :
    stepN program (m + n) s = (stepN program m s).bind (stepN program n) := by
  induction m generalizing s with
  | zero => rw [Nat.zero_add]; rfl
  | succ m ih =>
    rw [Nat.succ_add, stepN_succ, stepN_succ]
    cases step program s with
    | none => rfl
    | some t => exact ih t

/-! ### The interpreter follows the machine -/

/-- Hands a result to the frame that waits for it. -/
def finish (program : Program) (value : Value) : List Frame → Option State
  | [] => some (.halted value)
  | caller :: rest => (caller.deliver program value).map fun next => .running next rest

/-- A state without a successor is reached. -/
def GetsStuck (program : Program) (s : State) : Prop :=
  ∃ frame callers, Reachable program s (.running frame callers)
    ∧ step program (.running frame callers) = none

/-- What the machine does from `s` when the interpreter's outcome for the running frame is
`out`. -/
def Simulates (program : Program) (fuel : ℕ) (s : State) (callers : List Frame) :
    Result Value → Prop
  | .timeout => Takes program fuel s
  | .fault _ => GetsStuck program s
  | .done value => ∃ frame, Reachable program s (.running frame callers)
      ∧ step program (.running frame callers) = finish program value callers

theorem GetsStuck.of_reachable {s : State} (h : Reachable program s t)
    (ht : GetsStuck program t) : GetsStuck program s := by
  obtain ⟨frame, callers, hreach, hstuck⟩ := ht
  exact ⟨frame, callers, h.trans hreach, hstuck⟩

theorem Simulates.of_reachable {fuel : ℕ} {s : State} {callers : List Frame}
    {out : Result Value} (h : Reachable program s t)
    (ht : Simulates program fuel t callers out) : Simulates program fuel s callers out := by
  cases out with
  | timeout => exact Takes.of_reachable h ht
  | fault e => exact GetsStuck.of_reachable h ht
  | done value =>
    obtain ⟨frame, hreach, hstep⟩ := ht
    exact ⟨frame, h.trans hreach, hstep⟩

/-- Calls at fuel `n` follow the machine. -/
def CallsSimulate (program : Program) (n : ℕ)
    (call : FunctionId → List Value → Result Value) : Prop :=
  ∀ id arguments callers,
    match enterFunction program id arguments with
    | none => call id arguments = .fault ()
    | some frame => Simulates program n (.running frame callers) callers (call id arguments)

section Frame

variable {n : ℕ} {call : FunctionId → List Value → Result Value} {block : Block} {b : ℕ}
  {callers : List Frame}

/-- What the machine does while the interpreter runs instructions. -/
def InstructionsSimulate (program : Program) (n : ℕ) (s : State) (finished : Env → State) :
    Result Env → Prop
  | .timeout => Takes program (n + 1) s
  | .fault _ => GetsStuck program s
  | .done env => Reachable program s (finished env)

variable {frame : Frame} {k : ℕ}

theorem getsStuck_of_step (h : step program (.running frame callers) = none) :
    GetsStuck program (.running frame callers) :=
  ⟨frame, callers, Relation.ReflTransGen.refl, h⟩

theorem define_eq (k : ℕ) (env : Env) (result : ValueDefinition) (value : Value) :
    (⟨id, b, k, env⟩ : Frame).define result value = if value.ty = result.ty then
      some ⟨id, b, k + 1, Function.update env result.id (some value)⟩ else none := rfl

/-- An operation whose result is recorded, or is undefined or of the wrong type. -/
theorem operation_simulates {env : Env} {result : ValueDefinition} {operation : Option Value}
    (hstep : step program (.running ⟨id, b, k, env⟩ callers)
      = operation.bind fun value => ((⟨id, b, k, env⟩ : Frame).define result value).map
          fun next => .running next callers) :
    InstructionsSimulate program n (.running ⟨id, b, k, env⟩ callers)
      (fun env' => .running ⟨id, b, k + 1, env'⟩ callers) (orStuck operation >>= fun value =>
        if value.ty = result.ty then pure (Function.update env result.id (some value))
        else .fault ()) := by
  cases operation with
  | none => exact getsStuck_of_step hstep
  | some value =>
    simp only [bind_some, define_eq] at hstep
    simp only [orStuck, Outcome.ofOption_some, Outcome.done_bind]
    split
    · next hty =>
      rw [if_pos hty] at hstep
      exact Relation.ReflTransGen.single hstep
    · next hty =>
      rw [if_neg hty] at hstep
      exact getsStuck_of_step hstep

section

variable (hcall : CallsSimulate program n call) (hf : program.function? id = some function)
  (hb : function.blocks[b]? = some block)

include hcall hf hb

theorem runInstruction_simulates
    {i : Instruction} (hi : block.instructions[k]? = some i) (env : Env) :
    InstructionsSimulate program n (.running ⟨id, b, k, env⟩ callers)
      (fun env' => .running ⟨id, b, k + 1, env'⟩ callers) (runInstruction call function i env) := by
  have hstep : step program (.running ⟨id, b, k, env⟩ callers)
      = stepInstruction program function i ⟨id, b, k, env⟩ callers := by
    simp [step, hf, hb, hi]
  unfold runInstruction
  unfold stepInstruction at hstep
  cases hread : readOperands function env (instructionOperands i.kind) with
  | none =>
    rw [hread] at hstep
    exact getsStuck_of_step hstep
  | some values =>
    rw [hread] at hstep
    rw [bind_some] at hstep
    rw [orStuck, Outcome.ofOption_some, Outcome.done_bind]
    cases hk : i.kind with
    | directCall callee arguments =>
      rw [hk] at hstep
      simp only [runOperation] at hstep ⊢
      have hsim := hcall callee values (⟨id, b, k, env⟩ :: callers)
      cases henter : enterFunction program callee values with
      | none =>
        rw [henter] at hstep hsim
        dsimp only at hsim
        rw [hsim]
        exact getsStuck_of_step hstep
      | some entered =>
        rw [henter] at hstep hsim
        have hhead : Reachable program (.running ⟨id, b, k, env⟩ callers)
            (.running entered (⟨id, b, k, env⟩ :: callers)) := Relation.ReflTransGen.single hstep
        dsimp only at hsim
        cases hout : call callee values with
        | timeout =>
          rw [hout] at hsim
          exact Takes.head hstep hsim
        | fault e =>
          rw [hout] at hsim
          exact GetsStuck.of_reachable hhead hsim
        | done value =>
          rw [hout] at hsim
          obtain ⟨frame, hreach, hfinish⟩ := hsim
          have hdeliver : (⟨id, b, k, env⟩ : Frame).deliver program value
              = (⟨id, b, k, env⟩ : Frame).define i.result value := by
            simp [Frame.deliver, Frame.instruction?, hf, hb, hi]
          rw [finish, hdeliver, define_eq] at hfinish
          rw [Outcome.done_bind]
          split
          · next hty =>
            rw [if_pos hty] at hfinish
            exact (hhead.trans hreach).tail hfinish
          · next hty =>
            rw [if_neg hty] at hfinish
            exact GetsStuck.of_reachable (hhead.trans hreach) (getsStuck_of_step hfinish)
    | _ =>
      rw [hk] at hstep
      exact operation_simulates hstep

/-- The instructions from position `k` on. -/
theorem runInstructions_simulates
    (rest : List Instruction) : ∀ (k : ℕ), block.instructions.drop k = rest →
      k ≤ block.instructions.length → ∀ env : Env,
      InstructionsSimulate program n (.running ⟨id, b, k, env⟩ callers)
        (fun env' => .running ⟨id, b, block.instructions.length, env'⟩ callers)
        (runInstructions call function rest env) := by
  induction rest with
  | nil =>
    intro k hdrop hle env
    obtain rfl : k = block.instructions.length :=
      le_antisymm hle (List.drop_eq_nil_iff.mp hdrop)
    exact Relation.ReflTransGen.refl
  | cons i rest ih =>
    intro k hdrop hle env
    have hi : block.instructions[k]? = some i := by
      rw [← List.head?_drop, hdrop, List.head?_cons]
    have hlt := (List.getElem?_eq_some_iff.mp hi).1
    have htail : block.instructions.drop (k + 1) = rest := by
      rw [← List.tail_drop, hdrop, List.tail_cons]
    have hfirst : InstructionsSimulate program n (.running ⟨id, b, k, env⟩ callers) _ _ :=
      runInstruction_simulates hcall hf hb hi env
    rw [runInstructions]
    cases hout : runInstruction call function i env with
    | timeout =>
      rw [hout] at hfirst
      exact hfirst
    | fault e =>
      rw [hout] at hfirst
      exact hfirst
    | done env' =>
      rw [hout] at hfirst
      have hreach : Reachable program (.running ⟨id, b, k, env⟩ callers)
        (.running ⟨id, b, k + 1, env'⟩ callers) := hfirst
      have hrest := ih (k + 1) htail hlt env'
      rw [Outcome.done_bind]
      cases hrun : runInstructions call function rest env' with
      | timeout =>
        rw [hrun] at hrest
        exact Takes.of_reachable hreach hrest
      | fault e =>
        rw [hrun] at hrest
        exact GetsStuck.of_reachable hreach hrest
      | done env'' =>
        rw [hrun] at hrest
        exact hreach.trans hrest

end

/-- What the machine does at a terminator. -/
def FlowSimulates (program : Program) (id : FunctionId) (s : State) (callers : List Frame) :
    Result Flow → Prop
  | .timeout => False
  | .fault _ => GetsStuck program s
  | .done (.leave value) => step program s = finish program value callers
  | .done (.enter target env) => step program s = some (.running ⟨id, target, 0, env⟩ callers)

theorem runEdge_simulates {target : ℕ} {arguments : List ℕ}
    (hstep : step program (.running frame callers)
      = (frame.takeEdge function target arguments).map fun next => .running next callers) :
    FlowSimulates program frame.function (.running frame callers) callers
      (runEdge function target arguments frame.env) := by
  unfold runEdge
  unfold Frame.takeEdge at hstep
  cases hread : readOperands function frame.env arguments with
  | none =>
    rw [hread] at hstep
    exact getsStuck_of_step hstep
  | some values =>
    rw [hread] at hstep
    cases hblock : function.blocks[target]? with
    | none =>
      rw [hblock] at hstep
      exact getsStuck_of_step hstep
    | some block =>
      rw [hblock] at hstep
      simp only [orStuck, Outcome.ofOption_some, Outcome.done_bind, bind_some] at hstep ⊢
      split
      · next h0 =>
        rw [if_pos h0] at hstep
        exact getsStuck_of_step hstep
      · next h0 =>
        rw [if_neg h0] at hstep
        cases hbind : bindParameters block.parameters values frame.env with
        | none =>
          rw [hbind] at hstep
          exact getsStuck_of_step hstep
        | some env =>
          rw [hbind] at hstep
          exact hstep

theorem runTerminator_simulates {terminator : Terminator}
    (hstep : step program (.running frame callers)
      = stepTerminator program function terminator frame callers) :
    FlowSimulates program frame.function (.running frame callers) callers
      (runTerminator function terminator frame.env) := by
  unfold runTerminator
  unfold stepTerminator at hstep
  cases terminator with
  | «return» x =>
    dsimp only at hstep ⊢
    cases hread : readOperand function frame.env x with
    | none =>
      rw [hread] at hstep
      exact getsStuck_of_step hstep
    | some value =>
      rw [hread, bind_some] at hstep
      rw [orStuck, Outcome.ofOption_some, Outcome.done_bind]
      split
      · next hty =>
        rw [if_pos hty] at hstep
        cases callers <;> exact hstep
      · next hty =>
        rw [if_neg hty] at hstep
        exact getsStuck_of_step hstep
  | jump target arguments => exact runEdge_simulates hstep
  | branch condition trueTarget trueArguments falseTarget falseArguments =>
    dsimp only at hstep ⊢
    cases hread : readOperand function frame.env condition with
    | none =>
      rw [hread] at hstep
      exact getsStuck_of_step hstep
    | some value =>
      rw [hread, bind_some] at hstep
      rw [orStuck, Outcome.ofOption_some, Outcome.done_bind]
      match value with
      | .bool true => exact runEdge_simulates hstep
      | .bool false => exact runEdge_simulates hstep
      | .i32 _ => exact getsStuck_of_step hstep

/-- Whole blocks. Each one ends with a step of its own, so `m` blocks are at least `m` steps. -/
theorem runBlocks_simulates (hcall : CallsSimulate program n call)
    (hf : program.function? id = some function) (m : ℕ) : ∀ (b : ℕ) (env : Env),
      Simulates program (min m (n + 1)) (.running ⟨id, b, 0, env⟩ callers) callers
        (runBlocks call function m b env) := by
  induction m with
  | zero => exact fun b env => by simp [runBlocks, Simulates, Takes, stepN]
  | succ m ih =>
    intro b env
    rw [runBlocks]
    cases hb : function.blocks[b]? with
    | none =>
      refine getsStuck_of_step ?_
      simp [step, hf, hb]
    | some block =>
      have hbody : InstructionsSimulate program n (.running ⟨id, b, 0, env⟩ callers) _ _ :=
        runInstructions_simulates hcall hf hb block.instructions 0 rfl (Nat.zero_le _) env
      simp only [orStuck, Outcome.ofOption_some, Outcome.done_bind, runBlock]
      cases hrun : runInstructions call function block.instructions env with
      | timeout =>
        rw [hrun] at hbody
        exact Takes.le (min_le_right _ _) hbody
      | fault e =>
        rw [hrun] at hbody
        exact hbody
      | done env' =>
        rw [hrun] at hbody
        have hreach : Reachable program (.running ⟨id, b, 0, env⟩ callers)
          (.running ⟨id, b, block.instructions.length, env'⟩ callers) := hbody
        rw [Outcome.done_bind]
        rcases hts : block.terminators with _ | ⟨t, _ | _⟩
        · exact GetsStuck.of_reachable hreach (getsStuck_of_step (by simp [step, hf, hb, hts]))
        · have hstep : step program (.running ⟨id, b, block.instructions.length, env'⟩ callers)
              = stepTerminator program function t.kind
                ⟨id, b, block.instructions.length, env'⟩ callers := by
            simp [step, hf, hb, hts]
          have hflow := runTerminator_simulates hstep
          dsimp only at hflow ⊢
          cases hout : runTerminator function t.kind env' with
          | timeout =>
            rw [hout] at hflow
            exact hflow.elim
          | fault e =>
            rw [hout] at hflow
            exact GetsStuck.of_reachable hreach hflow
          | done flow =>
            rw [hout] at hflow
            cases flow with
            | leave value => exact ⟨_, hreach, hflow⟩
            | enter target env'' =>
              have hnext := ih target env''
              -- the step along the edge pays for this block
              cases hrest : runBlocks call function m target env'' with
              | timeout =>
                rw [hrest] at hnext
                have := (Takes.head hflow hnext).of_reachable hreach
                simp only [Outcome.done_bind, hrest]
                exact Takes.le (by omega) this
              | fault e =>
                rw [hrest] at hnext
                simp only [Outcome.done_bind, hrest]
                exact Simulates.of_reachable (hreach.tail hflow) hnext
              | done value =>
                rw [hrest] at hnext
                simp only [Outcome.done_bind, hrest]
                exact Simulates.of_reachable (hreach.tail hflow) hnext
        · exact GetsStuck.of_reachable hreach (getsStuck_of_step (by simp [step, hf, hb, hts]))

end Frame

/-- The interpreter at fuel `n` follows the machine. -/
theorem run_simulates (program : Program) (n : ℕ) : CallsSimulate program n (run program n) := by
  induction n with
  | zero =>
    intro id arguments callers
    cases hf : program.function? id with
    | none => simp [enterFunction, run, runEnter, hf, orStuck]
    | some function =>
      cases hbind : bindParameters function.parameters arguments fun _ => none with
      | none => simp [enterFunction, run, runEnter, hf, hbind, orStuck]
      | some env => simp [enterFunction, run, runEnter, hf, hbind, orStuck, Simulates, Takes, stepN]
  | succ n ih =>
    intro id arguments callers
    cases hf : program.function? id with
    | none => simp [enterFunction, run, runEnter, hf, orStuck]
    | some function =>
      cases hbind : bindParameters function.parameters arguments fun _ => none with
      | none => simp [enterFunction, run, runEnter, hf, hbind, orStuck]
      | some env =>
        have : Simulates program _ (.running ⟨id, 0, 0, env⟩ callers) callers _ :=
          runBlocks_simulates ih hf (n + 1) 0 env
        rw [min_self] at this
        simpa [enterFunction, run, runEnter, hf, hbind, orStuck] using this

/-! ### Calls -/

/-- The environment of a call on arguments of the parameter types. -/
def startEnv (function : Function) (arguments : List Value) : Env :=
  Env.bindAll (fun _ => none) ((function.parameters.map ValueDefinition.id).zip arguments)

section

variable (hf : program.function? id = some function)

include hf

theorem runEnter_eq {arguments : List Value}
    (hty : arguments.map Value.ty = function.parameters.map ValueDefinition.ty) :
    runEnter program id arguments = .done (function, startEnv function arguments) := by
  simp [runEnter, hf, bindParameters, hty, orStuck, startEnv]

theorem run_zero {arguments : List Value}
    (hty : arguments.map Value.ty = function.parameters.map ValueDefinition.ty) :
    run program 0 id arguments = .timeout := by
  rw [run, runEnter_eq hf hty]
  rfl

theorem run_succ {arguments : List Value}
    (hty : arguments.map Value.ty = function.parameters.map ValueDefinition.ty) (n : ℕ) :
    run program (n + 1) id arguments
      = runBlocks (run program n) function (n + 1) 0 (startEnv function arguments) := by
  rw [run, runEnter_eq hf hty]
  rfl

end

/-- A partial step that does not get stuck is defined. -/
theorem exists_of_orStuck {α β : Type} {o : Option α} {k : α → Result β}
    (hok : (orStuck o >>= k).Faultless) :
    ∃ a, o = some a ∧ (orStuck o >>= k) = k a ∧ (k a).Faultless := by
  cases o with
  | none => exact absurd rfl (hok ())
  | some a => exact ⟨a, rfl, rfl, hok⟩

/-- An edge that does not get stuck binds the parameters of its target to its arguments. -/
theorem runEdge_of_faultless {target : ℕ} {arguments : List ℕ} {env : Env}
    (hok : (runEdge function target arguments env).Faultless) :
    ∃ values block, readOperands function env arguments = some values
      ∧ function.blocks[target]? = some block
      ∧ values.map Value.ty = block.parameters.map ValueDefinition.ty
      ∧ runEdge function target arguments env = .done
        (.enter target (env.bindAll ((block.parameters.map ValueDefinition.id).zip values))) := by
  unfold runEdge at hok ⊢
  obtain ⟨values, hread, hrun, hok⟩ := exists_of_orStuck hok
  rw [hrun]
  obtain ⟨block, hblock, hrun, hok⟩ := exists_of_orStuck hok
  rw [hrun]
  refine ⟨values, block, hread, hblock, ?_⟩
  split at hok
  · exact absurd rfl (hok ())
  next h0 =>
  obtain ⟨env', hbind, hrun, -⟩ := exists_of_orStuck hok
  rw [if_neg h0, hrun]
  unfold bindParameters at hbind
  split at hbind
  · next hty =>
    cases hbind
    exact ⟨hty, rfl⟩
  · cases hbind

/-- A call that does not get stuck has a callee and arguments of its parameter types. -/
theorem enter_of_faultless {n : ℕ} {arguments : List Value}
    (hok : (run program n id arguments).Faultless) :
    ∃ function, program.function? id = some function
      ∧ arguments.map Value.ty = function.parameters.map ValueDefinition.ty := by
  have hfirst : (runEnter program id arguments).Faultless := by
    cases n with
    | zero => exact hok.of_bind
    | succ n => exact hok.of_bind
  unfold runEnter at hfirst
  obtain ⟨function, hf, -, hfirst⟩ := exists_of_orStuck hfirst
  obtain ⟨env, hbind, -⟩ := exists_of_orStuck hfirst
  refine ⟨function, hf, ?_⟩
  by_contra hty
  rw [bindParameters, if_neg hty] at hbind
  cases hbind

/-! ### Reading machine runs off the interpreter -/

/-- The machine started on a call of `id` ends with `value`. -/
def Returns (program : Program) (id : FunctionId) (arguments : List Value) (value : Value) : Prop :=
  ∃ frame, enterFunction program id arguments = some frame
    ∧ Reachable program (.running frame []) (.halted value)

/-- The machine started on a call of `id` runs forever. -/
def Diverges (program : Program) (id : FunctionId) (arguments : List Value) : Prop :=
  ∃ frame, enterFunction program id arguments = some frame
    ∧ ∀ s, Reachable program (.running frame []) s → (step program s).isSome

section Verified

variable {arguments : List Value}

/-- The invariant holds at the start of a call. -/
theorem stateOk_enter (facts : VerifiedFacts program) (hf : program.function? id = some function)
    (hty : arguments.map Value.ty = function.parameters.map ValueDefinition.ty) :
    ∃ frame, enterFunction program id arguments = some frame
      ∧ StateOk program id function.result (.running frame [])
      ∧ ∀ root, program.function? id = some root → root.result = function.result := by
  obtain ⟨frame, block, dom, henter, hfun, hok⟩ := FrameOk.enter facts hf hty
  refine ⟨frame, henter, ⟨⟨function, block, dom, hok⟩, trivial, hfun⟩, fun root hroot => ?_⟩
  rw [hf, Option.some.injEq] at hroot
  rw [hroot]

variable {value v : Value} {frame : Frame} {n : ℕ} {s : State}

section

variable (facts : VerifiedFacts program) (hf : program.function? id = some function)
  (hty : arguments.map Value.ty = function.parameters.map ValueDefinition.ty)

include facts hf hty

theorem result_ty (h : Returns program id arguments value) : value.ty = function.result := by
  obtain ⟨frame, henter, hstart, hres⟩ := stateOk_enter facts hf hty
  obtain ⟨frame', henter', hreach⟩ := h
  rw [henter, Option.some.injEq] at henter'
  subst henter'
  exact stateOk_of_reachable facts hres hstart hreach

/-- A verified program runs without faults. -/
theorem run_faultless (n : ℕ) : (run program n id arguments).Faultless := by
  obtain ⟨frame, henter, hstart, hres⟩ := stateOk_enter facts hf hty
  have hsim := run_simulates program n id arguments []
  rw [henter] at hsim
  intro e he
  dsimp only at hsim
  rw [he] at hsim
  obtain ⟨frame', callers, hreach, hstuck⟩ := hsim
  obtain ⟨s, hs, -⟩ := step_ok facts hres (stateOk_of_reachable facts hres hstart hreach)
  rw [hstuck] at hs
  cases hs

end

theorem reachable_halted_of_done (henter : enterFunction program id arguments = some frame)
    (h : run program n id arguments = .done value) :
    Reachable program (.running frame []) (.halted value) := by
  have hsim := run_simulates program n id arguments []
  rw [henter] at hsim
  dsimp only at hsim
  rw [h] at hsim
  obtain ⟨frame', hreach, hstep⟩ := hsim
  exact hreach.tail hstep

theorem takes_of_timeout (henter : enterFunction program id arguments = some frame)
    (h : run program n id arguments = .timeout) : Takes program n (.running frame []) := by
  have hsim := run_simulates program n id arguments []
  rw [henter] at hsim
  dsimp only at hsim
  rwa [h] at hsim

/-- The machine is deterministic, so a run has one final value. -/
theorem halted_unique {w : Value} (hv : Reachable program s (.halted v))
    (hw : Reachable program s (.halted w)) : v = w := by
  have key : ∀ {m n : ℕ}, m ≤ n → stepN program m s = some (.halted v) →
      stepN program n s = some (.halted w) → v = w := by
    intro m n hmn hm hn
    obtain ⟨d, rfl⟩ := Nat.exists_eq_add_of_le hmn
    rw [stepN_add, hm, bind_some] at hn
    cases d with
    | zero =>
      rw [stepN, Option.some.injEq, State.halted.injEq] at hn
      exact hn
    | succ d => simp [stepN, step] at hn
  obtain ⟨m, hm⟩ := exists_stepN hv
  obtain ⟨n, hn⟩ := exists_stepN hw
  rcases le_total m n with hmn | hnm
  · exact key hmn hm hn
  · obtain ⟨d, rfl⟩ := Nat.exists_eq_add_of_le hnm
    rw [stepN_add, hn, bind_some] at hm
    cases d with
    | zero =>
      rw [stepN, Option.some.injEq, State.halted.injEq] at hm
      exact hm.symm
    | succ d => simp [stepN, step] at hm

/-- A state reached in `k` steps that has no successor bounds the number of steps. -/
theorem not_takes_of_halted {k : ℕ}
    (h : stepN program k s = some (.halted v)) : ¬ Takes program (k + 1) s := by
  unfold Takes
  rw [stepN_add, h]
  simp [stepN, step]

variable (facts : VerifiedFacts program) (hf : program.function? id = some function)
  (hty : arguments.map Value.ty = function.parameters.map ValueDefinition.ty)

include facts hf hty

/-- The machine returns exactly what the interpreter returns at some fuel. -/
theorem returns_iff (value : Value) :
    Returns program id arguments value ↔
      Outcome.Returns (fun n => run program n id arguments) value := by
  obtain ⟨frame, block, dom, henter, -, -⟩ := FrameOk.enter facts hf hty
  constructor
  · rintro ⟨frame', henter', hreach⟩
    rw [henter, Option.some.injEq] at henter'
    subst henter'
    obtain ⟨k, hk⟩ := exists_stepN hreach
    refine ⟨k + 1, ?_⟩
    cases hout : run program (k + 1) id arguments with
    | timeout => exact absurd (takes_of_timeout henter hout) (not_takes_of_halted hk)
    | fault e => exact absurd hout (run_faultless facts hf hty _ e)
    | done w =>
      rw [halted_unique hreach (reachable_halted_of_done henter hout)]
      exact hout
  · rintro ⟨n, hn⟩
    exact ⟨frame, henter, reachable_halted_of_done henter hn⟩

/-- The machine diverges exactly when the interpreter exhausts every fuel. -/
theorem diverges_iff :
    Diverges program id arguments ↔
      Outcome.Diverges fun n => run program n id arguments := by
  obtain ⟨frame, block, dom, henter, -, -⟩ := FrameOk.enter facts hf hty
  constructor
  · rintro ⟨frame', henter', hall⟩ n
    rw [henter, Option.some.injEq] at henter'
    subst henter'
    dsimp only
    cases hout : run program n id arguments with
    | timeout => rfl
    | fault e => exact absurd hout (run_faultless facts hf hty _ e)
    | done w =>
      have := hall _ (reachable_halted_of_done henter hout)
      simp [step] at this
  · intro hall
    refine ⟨frame, henter, fun s hs => ?_⟩
    obtain ⟨k, hk⟩ := exists_stepN hs
    have htakes := takes_of_timeout henter (hall (k + 1))
    unfold Takes at htakes
    rw [stepN_add, hk] at htakes
    cases hstep : step program s with
    | none => simp [stepN, hstep] at htakes
    | some t => rfl

end Verified

end Zryna.Ir.ControlFlow
