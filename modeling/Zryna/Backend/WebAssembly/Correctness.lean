import Zryna.Backend.WebAssembly.Module
import Zryna.Ir.ControlFlow.Interpreter

/-!
# WebAssembly emission preserves meaning

The emitted code is run in lock step with the fuelled interpreter of the IR. `Related` ties the
environment of an activation to its locals: every value that is defined is stored, encoded, in the
local of its own number. One round of the emitted loop is one block of the IR (`exec_round`), so
at every fuel the two evaluations agree, unless the IR evaluation is stuck, which verification
excludes.

The arguments of an edge are parallel: `exec_edgeCode` shows that copying through the scratch
locals binds all parameters of the target to the values the arguments had before, also where the
edge permutes the parameters of the block it re-enters.
-/

namespace Zryna.Backend.WebAssembly

open Zryna.Wasm Zryna.Ir List Option
open Zryna.Ir.ControlFlow hiding I32 Frame

/-- A value as WebAssembly sees it. -/
def encodeValue : Value → I32
  | .bool b => ofBool b
  | .i32 n => n

theorem encodeValue_injective {v w : Value} (hty : v.ty = w.ty)
    (h : encodeValue v = encodeValue w) : v = w := by
  cases v with
  | bool b =>
    cases w with
    | bool c => cases b <;> cases c <;> first | rfl | (exact absurd h (by decide))
    | i32 n => cases hty
  | i32 m =>
    cases w with
    | bool c => cases hty
    | i32 n => exact congrArg Value.i32 h

/-! ### Related states -/

/-- Every defined value is stored in the local of its number. -/
structure Related (function : Function) (stored : List I32) (env : Env) : Prop where
  length : stored.length = valueCount function + scratchCount function + 1
  value : ∀ id v, env id = some v → id < valueCount function ∧ stored[id]? = some (encodeValue v)

variable {function : Function} {layout : ControlFlowLayout} {locals : FunctionLocalLayout}
  {funcs : List Func} {invoke : ℕ → List I32 → Outcome Fault I32} {fuel : ℕ}

/-- Locals fit the index space. -/
def Fits (function : Function) : Prop := valueCount function + scratchCount function < 2 ^ 32

theorem toNat_valueIndex (hfits : Fits function) {id : ℕ} (h : id < valueCount function) :
    (valueIndex id).toNat = id := by
  unfold Fits at hfits
  rw [valueIndex, BitVec.toNat_ofNat, Nat.mod_eq_of_lt (by omega)]

variable {stored : List I32}

theorem execInstr_localGet (hfits : Fits function) {env : Env} (hrel : Related function stored env)
    {id : ℕ} {v : Value} (hread : readOperand function env id = some v) (stack : List I32) :
    execInstr funcs invoke fuel (.localGet (valueIndex id)) ⟨stored, stack⟩
      = .done (⟨stored, encodeValue v :: stack⟩, .next) := by
  obtain ⟨hlt, hget⟩ := hrel.value id v (env_of_readOperand hread)
  exact execInstr_get (by rwa [toNat_valueIndex hfits hlt])

/-- Operands are pushed in order. -/
theorem exec_localGets (hfits : Fits function) {env : Env}
    (hrel : Related function stored env) (ids : List ℕ) : ∀ (values : List Value),
      readOperands function env ids = some values → ∀ stack : List I32,
      exec funcs invoke fuel (ids.map fun id => .localGet (valueIndex id)) ⟨stored, stack⟩
        = .done (⟨stored, (values.map encodeValue).reverse ++ stack⟩, .next) := by
  induction ids with
  | nil =>
    intro values h stack
    cases h
    simp
  | cons id ids ih =>
    intro values h stack
    rw [readOperands] at h
    obtain ⟨v, hv, hrest⟩ := bind_eq_some_iff.mp h
    obtain ⟨vs, hvs, rfl⟩ := map_eq_some_iff.mp hrest
    rw [map_cons, exec_cons_next (execInstr_localGet hfits hrel hv stack), ih vs hvs]
    simp

/-- A binary operation on two operands. -/
theorem exec_binaryCode (hfits : Fits function) {env : Env}
    (hrel : Related function stored env) {lhs rhs : ℕ} {l r : Value}
    (hread : readOperands function env [lhs, rhs] = some [l, r]) (op : BinaryOp) :
    exec funcs invoke fuel (binaryCode lhs rhs op) ⟨stored, []⟩
      = .done (⟨stored, [op.apply (encodeValue l) (encodeValue r)]⟩, .next) := by
  have hpush : exec funcs invoke fuel _ _ = _ := exec_localGets hfits hrel _ _ hread []
  have hcode : binaryCode lhs rhs op
      = ([lhs, rhs].map fun id => Instr.localGet (valueIndex id)) ++ [.binary op] := rfl
  rw [hcode, exec_append_next hpush]
  rfl

/-- The operations other than calls compute the encoded result. -/
theorem exec_operationCode (hfits : Fits function) {env : Env}
    (hrel : Related function stored env) {kind : InstructionKind} {values : List Value} {v : Value}
    (hread : readOperands function env (instructionOperands kind) = some values)
    (heval : evalOperation kind values = some v) :
    exec funcs invoke fuel (operationCode layout kind) ⟨stored, []⟩
      = .done (⟨stored, [encodeValue v]⟩, .next) := by
  have hbool : ∀ b c : Bool, (ofBool b == ofBool c) = (b == c) := by decide
  unfold evalOperation at heval
  split at heval
  case h_15 => cases heval
  all_goals
    cases heval
    rw [instructionOperands] at hread
    rw [operationCode]
  case h_1 | h_2 => rfl
  case h_6 operand =>
    -- negation is a subtraction from zero
    obtain ⟨hget, -⟩ : readOperand function env _ = some (.i32 operand) ∧ True := by
      rw [readOperands] at hread
      obtain ⟨w, hw, hrest⟩ := bind_eq_some_iff.mp hread
      simp only [readOperands, map_some, Option.some.injEq, List.cons.injEq, and_true]
        at hrest
      exact ⟨hrest ▸ hw, trivial⟩
    rw [exec_cons_next rfl, exec_cons_next (execInstr_localGet hfits hrel hget _)]
    simp [exec_cons, execInstr, BinaryOp.apply, encodeValue]
  all_goals
    rw [exec_binaryCode hfits hrel hread]
    simp [BinaryOp.apply, encodeValue, bne, hbool]

theorem Related.define {program : Program} (hwf : WellFormed program function)
    {env : Env} (hrel : Related function stored env) {d : ValueDefinition}
    {location : DefinitionLocation} (hd : (d, location) ∈ function.located) (v : Value) :
    Related function (stored.set d.id (encodeValue v)) (Function.update env d.id (some v)) := by
  have hlt : d.id < valueCount function := id_lt_valueCount hwf hd
  refine ⟨by rw [length_set, hrel.length], fun id w hw => ?_⟩
  by_cases hid : id = d.id
  · subst hid
    rw [Function.update_self, Option.some.injEq] at hw
    subst hw
    refine ⟨hlt, getElem?_set_self ?_⟩
    rw [hrel.length]
    omega
  · rw [Function.update_of_ne hid] at hw
    rw [getElem?_set_ne (Ne.symm hid)]
    exact hrel.value id w hw

theorem execInstr_localSet {index : BitVec 32}
    (h : index.toNat < stored.length) (value : I32) (stack : List I32) :
    execInstr funcs invoke fuel (.localSet index) ⟨stored, value :: stack⟩
      = .done (⟨stored.set index.toNat value, stack⟩, .next) :=
  if_pos h

/-- Calls are related: an IR call that does not get stuck agrees with the call of its index. -/
def CallsAgree (layout : ControlFlowLayout) (funcs : List Func)
    (call : FunctionId → List Value → Result Value)
    (invoke : ℕ → List I32 → Outcome Fault I32) : Prop :=
  ∀ id arguments, (call id arguments).Faultless →
    ∃ func, funcs[((layout.functionIndex id).getD 0).toNat]? = some func
      ∧ func.parameters = arguments.length
      ∧ Outcome.Agree (fun v w => w = encodeValue v) (call id arguments)
        (invoke ((layout.functionIndex id).getD 0).toNat (arguments.map encodeValue))

/-- The completion of straight-line code that leaves the environment `env`. -/
def Straight (function : Function) (state : Option I32) (index : ℕ) (env : Env)
    (completion : Frame × Signal) : Prop :=
  completion.2 = .next ∧ completion.1.stack = [] ∧ Related function completion.1.locals env
    ∧ completion.1.locals[index]? = state

section Simulation

variable {program : Program} {call : FunctionId → List Value → Result Value}
  {index : ℕ} {b : ℕ} {block : Block} {stored : List I32} {k : ℕ}

/-- The state local lies behind the values. -/
theorem getElem?_set_state {id : ℕ} (hid : id < valueCount function)
    (hindex : valueCount function ≤ index) (value : I32) :
    (stored.set id value)[index]? = stored[index]? :=
  getElem?_set_ne (by omega)

/-- The operation of an instruction leaves its encoded result on the stack. -/
theorem exec_operation (hfits : Fits function) (hcall : CallsAgree layout funcs call invoke)
    {kind : InstructionKind} {env : Env} (hrel : Related function stored env) {values : List Value}
    (hread : readOperands function env (instructionOperands kind) = some values)
    (hok : (runOperation call kind values).Faultless) :
    Outcome.Agree (fun v completion => completion = (⟨stored, [encodeValue v]⟩, .next))
      (runOperation call kind values)
      (exec funcs invoke fuel (operationCode layout kind) ⟨stored, []⟩) := by
  have hoperation : (orStuck (evalOperation kind values)).Faultless →
      Outcome.Agree (fun v completion => completion = (⟨stored, [encodeValue v]⟩, .next))
        (orStuck (evalOperation kind values))
        (exec funcs invoke fuel (operationCode layout kind) ⟨stored, []⟩) := by
    intro hok
    cases heval : evalOperation kind values with
    | none =>
      rw [heval] at hok
      exact absurd rfl (hok ())
    | some v =>
      rw [exec_operationCode hfits hrel hread heval]
      rfl
  cases kind with
  | directCall callee arguments =>
    obtain ⟨func, hfunc, hparams, hagree⟩ := hcall callee values hok
    have hpush : exec funcs invoke fuel _ _ = _ := exec_localGets hfits hrel _ _ hread []
    rw [instructionOperands] at hpush
    rw [operationCode, exec_append_next hpush, exec_cons, execInstr, append_nil]
    simp only [hfunc, hparams, runOperation]
    rw [if_neg (by simp)]
    -- the arguments are the whole stack, last argument on top
    rw [take_of_length_le (by simp), drop_of_length_le (by simp), reverse_reverse]
    cases hv : call callee values with
    | timeout =>
      rw [hv] at hagree
      rw [(hagree.timeout_iff).mp rfl]
      trivial
    | fault e => exact absurd hv (hok e)
    | done v =>
      rw [hv] at hagree
      obtain ⟨w, hw, rfl⟩ := hagree.done_left
      rw [hw]
      simp
  | _ => exact hoperation hok

theorem exec_instructionCode (hwf : WellFormed program function) (hfits : Fits function)
    (hcall : CallsAgree layout funcs call invoke) (hindex : valueCount function ≤ index)
    (hb : function.blocks[b]? = some block) {i : Instruction}
    (hi : block.instructions[k]? = some i) {env : Env}
    (hrel : Related function stored env) (hok : (runInstruction call function i env).Faultless) :
    Outcome.Agree (Straight function stored[index]? index) (runInstruction call function i env)
      (exec funcs invoke fuel (instructionCode layout i) ⟨stored, []⟩) := by
  have hmem : (i.result, DefinitionLocation.instruction b k) ∈ function.located :=
    mem_located.mpr ⟨block, i, hb, hi, rfl⟩
  have hlt : i.result.id < valueCount function := id_lt_valueCount hwf hmem
  have hset : (valueIndex i.result.id).toNat < stored.length := by
    rw [toNat_valueIndex hfits hlt, hrel.length]
    omega
  -- once the result is on the stack, storing it is recording it
  have hstore : ∀ v : Value,
      exec funcs invoke fuel [.localSet (valueIndex i.result.id)] ⟨stored, [encodeValue v]⟩
        = .done (⟨stored.set i.result.id (encodeValue v), []⟩, .next) := by
    intro v
    rw [exec_cons_next (execInstr_localSet hset _ _), exec_nil, toNat_valueIndex hfits hlt]
  have hstraight : ∀ v : Value, Straight function stored[index]? index
      (Function.update env i.result.id (some v))
      (⟨stored.set i.result.id (encodeValue v), []⟩, .next) := fun v =>
    ⟨rfl, rfl, hrel.define hwf hmem v, getElem?_set_state hlt hindex _⟩
  unfold runInstruction at hok ⊢
  rw [instructionCode, exec_append]
  obtain ⟨values, hread, hrun, hok⟩ := exists_of_orStuck hok
  rw [hrun]
  refine (exec_operation hfits hcall hrel hread hok.of_bind).bind ?_
  rintro v completion hv rfl
  have hrest := hok.of_bind_done hv
  split
  · simp only [hstore]
    exact hstraight v
  · next hty =>
    rw [if_neg hty] at hrest
    exact absurd rfl (hrest ())

/-- The instructions from position `k` on. -/
theorem exec_instructionsCode (hwf : WellFormed program function) (hfits : Fits function)
    (hcall : CallsAgree layout funcs call invoke) (hindex : valueCount function ≤ index)
    (hb : function.blocks[b]? = some block) (rest : List Instruction) : ∀ (k : ℕ),
      block.instructions.drop k = rest → ∀ (stored : List I32) (env : Env),
      Related function stored env → (runInstructions call function rest env).Faultless →
      Outcome.Agree (Straight function stored[index]? index)
        (runInstructions call function rest env)
        (exec funcs invoke fuel (rest.flatMap (instructionCode layout)) ⟨stored, []⟩) := by
  induction rest with
  | nil =>
    intro k _ stored env hrel _
    rw [flatMap_nil, exec_nil]
    exact ⟨rfl, rfl, hrel, rfl⟩
  | cons i rest ih =>
    intro k hdrop stored env hrel hok
    have hi : block.instructions[k]? = some i := by
      rw [← head?_drop, hdrop, head?_cons]
    have htail : block.instructions.drop (k + 1) = rest := by
      rw [← tail_drop, hdrop, tail_cons]
    rw [runInstructions] at hok ⊢
    rw [flatMap_cons, exec_append]
    refine (exec_instructionCode hwf hfits hcall hindex hb hi hrel hok.of_bind).bind ?_
    rintro env' ⟨⟨stored', stack⟩, signal⟩ henv ⟨rfl, hstack, hrel', hstate⟩
    simp only at hstack hrel' hstate
    subst hstack
    rw [← hstate]
    exact ih (k + 1) htail stored' env' hrel' (hok.of_bind_done henv)

/-! ### Edges -/

structure LayoutOk (function : Function) (locals : FunctionLocalLayout) : Prop where
  scratchBase : locals.scratchBase.toNat = valueCount function
  state : locals.state.toNat = valueCount function + scratchCount function
  fits : Fits function

theorem toNat_scratch (hlayout : LayoutOk function locals) (hk : k < scratchCount function) :
    (BitVec.ofNat 32 (locals.scratchBase.toNat + k)).toNat = valueCount function + k := by
  have := hlayout.fits
  unfold Fits at this
  rw [hlayout.scratchBase, BitVec.toNat_ofNat, Nat.mod_eq_of_lt (by omega)]

/-- Writing behind the values keeps the relation. -/
theorem Related.set_behind {env : Env} (hrel : Related function stored env)
    {j : ℕ} (hj : valueCount function ≤ j) (value : I32) :
    Related function (stored.set j value) env := by
  refine ⟨by rw [length_set, hrel.length], fun id v hv => ?_⟩
  obtain ⟨hlt, hget⟩ := hrel.value id v hv
  exact ⟨hlt, by rw [getElem?_set_ne (by omega), hget]⟩

/-- The first half of an edge: arguments go to the scratch locals. -/
theorem exec_saveArguments (hlayout : LayoutOk function locals) {env : Env} (ids : List ℕ) :
    ∀ (k : ℕ) (values : List Value) (stored : List I32), Related function stored env →
      readOperands function env ids = some values → k + ids.length ≤ scratchCount function →
      ∃ stored', exec funcs invoke fuel ((ids.zipIdx k).flatMap fun (argument, index) =>
          [.localGet (valueIndex argument),
            .localSet (BitVec.ofNat 32 (locals.scratchBase.toNat + index))]) ⟨stored, []⟩
          = .done (⟨stored', []⟩, .next)
        ∧ Related function stored' env
        ∧ (∀ j < k, stored'[valueCount function + j]? = stored[valueCount function + j]?)
        ∧ ∀ i v, values[i]? = some v →
          stored'[valueCount function + k + i]? = some (encodeValue v) := by
  induction ids with
  | nil =>
    intro k values stored hrel hread _
    cases hread
    exact ⟨stored, by simp, hrel, fun _ _ => rfl, by simp⟩
  | cons id ids ih =>
    intro k values stored hrel hread hle
    rw [readOperands] at hread
    obtain ⟨v, hv, hrest⟩ := bind_eq_some_iff.mp hread
    obtain ⟨vs, hvs, rfl⟩ := map_eq_some_iff.mp hrest
    rw [length_cons] at hle
    have hscratch : (BitVec.ofNat 32 (locals.scratchBase.toNat + k)).toNat
        = valueCount function + k := toNat_scratch hlayout (by omega)
    have hrel' := hrel.set_behind (Nat.le_add_right (valueCount function) k) (encodeValue v)
    obtain ⟨stored', hexec, hrel'', hbefore, hafter⟩ :=
      ih (k + 1) vs _ hrel' hvs (by omega)
    refine ⟨stored', ?_, hrel'', fun j hj => ?_, fun i w hw => ?_⟩
    · rw [zipIdx_cons, flatMap_cons, cons_append,
        exec_cons_next (execInstr_localGet hlayout.fits hrel hv []), cons_append,
        nil_append, exec_cons_next (execInstr_localSet (by rw [hscratch, hrel.length]; omega) _ _),
        hscratch]
      exact hexec
    · rw [hbefore j (by omega), getElem?_set_ne (by omega)]
    · cases i with
      | zero =>
        rw [Nat.add_zero, hbefore k (by omega)]
        rw [getElem?_cons_zero, Option.some.injEq] at hw
        rw [← hw, getElem?_set_self (by rw [hrel.length]; omega)]
      | succ i =>
        rw [getElem?_cons_succ] at hw
        have := hafter i w hw
        rwa [show valueCount function + (k + 1) + i = valueCount function + k + (i + 1) by omega]
          at this

section

variable (hwf : WellFormed program function) (hlayout : LayoutOk function locals)

include hwf hlayout

/-- The second half of an edge: the scratch locals go to the parameters. -/
theorem exec_loadParameters {location : DefinitionLocation}
    (parameters : List ValueDefinition) : ∀ (k : ℕ) (values : List Value) (stored : List I32)
      (env : Env), (∀ d ∈ parameters, (d, location) ∈ function.located) →
      parameters.length = values.length → k + parameters.length ≤ scratchCount function →
      Related function stored env →
      (∀ i v, values[i]? = some v → stored[valueCount function + k + i]? = some (encodeValue v)) →
      ∃ stored', exec funcs invoke fuel
          (((parameters.map ValueDefinition.id).zipIdx k).flatMap fun (parameter, index) =>
            [.localGet (BitVec.ofNat 32 (locals.scratchBase.toNat + index)),
              .localSet (valueIndex parameter)]) ⟨stored, []⟩ = .done (⟨stored', []⟩, .next)
        ∧ Related function stored'
          (env.bindAll ((parameters.map ValueDefinition.id).zip values)) := by
  induction parameters with
  | nil =>
    intro k values stored env _ _ _ hrel _
    exact ⟨stored, by simp, by simpa [Env.bindAll] using hrel⟩
  | cons d parameters ih =>
    intro k values stored env hmem hlen hle hrel hscratch
    cases values with
    | nil => simp at hlen
    | cons v values =>
      rw [length_cons] at hle
      have hd := hmem d (by simp)
      have hlt : d.id < valueCount function := id_lt_valueCount hwf hd
      have hslot : (BitVec.ofNat 32 (locals.scratchBase.toNat + k)).toNat
          = valueCount function + k := toNat_scratch hlayout (by omega)
      have hget := hscratch 0 v (by simp)
      rw [Nat.add_zero] at hget
      have hload : execInstr funcs invoke fuel
          (.localGet (BitVec.ofNat 32 (locals.scratchBase.toNat + k))) ⟨stored, []⟩
          = .done (⟨stored, [encodeValue v]⟩, .next) :=
        execInstr_get (by rwa [hslot])
      have hstore : (valueIndex d.id).toNat < stored.length := by
        rw [toNat_valueIndex hlayout.fits hlt, hrel.length]
        omega
      -- the values are in front of the scratch locals, so the rest of these is untouched
      have hscratch' : ∀ i w, values[i]? = some w →
          (stored.set d.id (encodeValue v))[valueCount function + (k + 1) + i]?
            = some (encodeValue w) := by
        intro i w hw
        rw [getElem?_set_ne (by omega)]
        have := hscratch (i + 1) w (by simpa using hw)
        rwa [show valueCount function + (k + 1) + i = valueCount function + k + (i + 1) by omega]
      obtain ⟨stored', hexec, hrel'⟩ := ih (k + 1) values _ _ (fun e he => hmem e (by simp [he]))
        (by simpa using hlen) (by omega) (hrel.define hwf hd v) hscratch'
      refine ⟨stored', ?_, by simpa [Env.bindAll] using hrel'⟩
      rw [map_cons, zipIdx_cons, flatMap_cons, cons_append,
        exec_cons_next hload, cons_append, nil_append,
        exec_cons_next (execInstr_localSet hstore _ _), toNat_valueIndex hlayout.fits hlt]
      exact hexec

/-- The whole edge: the parameters are bound in parallel and the state is the target. -/
theorem exec_edgeCode {env : Env} (hrel : Related function stored env) {target : ℕ}
    {arguments : List ℕ} (hok : (runEdge function target arguments env).Faultless) :
    ∃ env' stored', runEdge function target arguments env = .done (.enter target env')
      ∧ exec funcs invoke fuel (edgeCode target arguments (blockParameters function) locals)
          ⟨stored, []⟩ = .done (⟨stored', []⟩, .next)
      ∧ Related function stored' env'
      ∧ stored'[locals.state.toNat]? = some (BitVec.ofNat 32 target) := by
  obtain ⟨values, targetBlock, hread, hblock, hty, hrun⟩ := runEdge_of_faultless hok
  have hlen : targetBlock.parameters.length = values.length := by
    simpa using (congrArg List.length hty).symm
  have hargs : values.length = arguments.length := length_of_readOperands hread
  have hmax : targetBlock.parameters.length ≤ scratchCount function := block_parameters_le hblock
  obtain ⟨stored₁, hexec₁, hrel₁, -, hscratch⟩ :=
    exec_saveArguments hlayout arguments 0 values stored hrel hread (by omega)
  have hmem : ∀ d ∈ targetBlock.parameters,
      (d, DefinitionLocation.blockParameter target) ∈ function.located :=
    fun d hd => mem_located.mpr ⟨targetBlock, hblock, hd⟩
  obtain ⟨stored₂, hexec₂, hrel₂⟩ :=
    exec_loadParameters hwf hlayout targetBlock.parameters 0 values stored₁ env hmem hlen
      (by omega) hrel₁ (by simpa using hscratch)
  have hstate : locals.state.toNat < stored₂.length := by
    rw [hlayout.state, hrel₂.length]
    omega
  refine ⟨_, stored₂.set locals.state.toNat (BitVec.ofNat 32 target), hrun, ?_,
    hrel₂.set_behind (by rw [hlayout.state]; omega) _, getElem?_set_self hstate⟩
  rw [edgeCode, getD_blockParameters hblock, append_assoc, exec_append_next hexec₁, exec_append_next hexec₂,
    exec_cons, execInstr, Outcome.done_bind]
  dsimp only
  rw [exec_cons_next (execInstr_localSet hstate _ _), exec_nil]

/-! ### Blocks -/

/-- How a block of the IR ends, seen from `depth` labels inside the loop: it returns, or it
branches to the loop with the state set. -/
def Ends (function : Function) (locals : FunctionLocalLayout) (depth : ℕ) (flow : Flow)
    (completion : Frame × Signal) : Prop :=
  match flow with
  | .leave v => completion.2 = .exit (encodeValue v)
  | .enter target env =>
    completion.2 = .branch depth ∧ Related function completion.1.locals env
      ∧ completion.1.locals[locals.state.toNat]? = some (BitVec.ofNat 32 target)

theorem exec_terminatorCode {env : Env} (hrel : Related function stored env) {kind : Terminator}
    (hok : (runTerminator function kind env).Faultless) :
    Outcome.Agree (Ends function locals 1) (runTerminator function kind env)
      (exec funcs invoke fuel (terminatorCode kind (blockParameters function) locals)
        ⟨stored, []⟩) := by
  have edge : ∀ {target : ℕ} {arguments : List ℕ} (depth : BitVec 32),
      (runEdge function target arguments env).Faultless →
      Outcome.Agree (Ends function locals depth.toNat) (runEdge function target arguments env)
        (exec funcs invoke fuel
          (edgeCode target arguments (blockParameters function) locals ++ [.br depth])
          ⟨stored, []⟩) := by
    intro target arguments depth hedge
    obtain ⟨env', stored', hrun, hexec, hrel', hstate⟩ := exec_edgeCode hwf hlayout hrel hedge
    rw [hrun, exec_append_next hexec, exec_cons, execInstr]
    exact ⟨rfl, hrel', hstate⟩
  unfold runTerminator at hok ⊢
  unfold terminatorCode
  cases kind with
  | «return» x =>
    dsimp only at hok ⊢
    obtain ⟨v, hread, hrun, hok⟩ := exists_of_orStuck hok
    rw [hrun, exec_cons_next (execInstr_localGet hlayout.fits hrel hread []), exec_cons, execInstr]
    split
    · rfl
    · next hty =>
      rw [if_neg hty] at hok
      exact absurd rfl (hok ())
  | jump target arguments => exact edge 1 hok
  | branch condition trueTarget trueArguments falseTarget falseArguments =>
    dsimp only at hok ⊢
    obtain ⟨v, hread, hrun, hok⟩ := exists_of_orStuck hok
    rw [hrun, exec_cons_next (execInstr_localGet hlayout.fits hrel hread []), exec_cons, execInstr]
    -- the arms end two labels inside the loop, the conditional takes one away
    have arm : ∀ {target : ℕ} {arguments : List ℕ} {next : Frame × Signal → Completion},
        (∀ frame, next (frame, .branch 1) = .done (frame, .branch 1)) →
        (runEdge function target arguments env).Faultless →
        Outcome.Agree (Ends function locals 1) (runEdge function target arguments env)
          ((exec funcs invoke fuel
            (edgeCode target arguments (blockParameters function) locals ++ [.br 2])
            ⟨stored, []⟩ >>= leaveBlock []) >>= next) := by
      intro target arguments next hnext hedge
      obtain ⟨env', stored', hrun, hexec, hrel', hstate⟩ := exec_edgeCode hwf hlayout hrel hedge
      rw [hrun, exec_append_next hexec, exec_cons, execInstr]
      change Outcome.Agree _ _ (next (⟨stored', []⟩, .branch 1))
      rw [hnext]
      exact ⟨rfl, hrel', hstate⟩
    obtain (_ | _) | _ := v
    · exact arm (fun _ => rfl) hok
    · exact arm (fun _ => rfl) hok
    · exact absurd rfl (hok ())

end

variable {state : I32}

/-- The guard of a block other than the selected one leaves it at once. -/
theorem execInstr_blockCode_skip (hstate : stored[locals.state.toNat]? = some state)
    (hne : state ≠ BitVec.ofNat 32 block.id) (parameters : List (List ℕ)) :
    execInstr funcs invoke fuel (blockCode layout parameters locals block) ⟨stored, []⟩
      = .done (⟨stored, []⟩, .next) := by
  have hget : execInstr funcs invoke fuel (.localGet locals.state) ⟨stored, []⟩
      = .done (⟨stored, [state]⟩, .next) := execInstr_get hstate
  rw [blockCode, execInstr, cons_append, exec_cons_next hget]
  simp [exec_cons, execInstr, BinaryOp.apply, ofBool, hne, leaveBlock]

/-- The guard of the selected block runs it. -/
theorem execInstr_blockCode_selected
    (hstate : stored[locals.state.toNat]? = some (BitVec.ofNat 32 block.id))
    (parameters : List (List ℕ)) :
    execInstr funcs invoke fuel (blockCode layout parameters locals block) ⟨stored, []⟩
      = exec funcs invoke fuel (selectedCode layout parameters locals block) ⟨stored, []⟩
        >>= leaveBlock [] := by
  have hget : execInstr funcs invoke fuel (.localGet locals.state) ⟨stored, []⟩
      = .done (⟨stored, [BitVec.ofNat 32 block.id]⟩, .next) := execInstr_get hstate
  rw [blockCode, execInstr, cons_append, exec_cons_next hget]
  simp [exec_cons, execInstr, BinaryOp.apply, ofBool]

/-- The selected block ends one label inside the loop. -/
theorem exec_selectedCode (hwf : WellFormed program function)
    (hlayout : LayoutOk function locals) (hcall : CallsAgree layout funcs call invoke)
    (hb : function.blocks[b]? = some block) {env : Env}
    (hrel : Related function stored env) (hok : (runBlock call function block env).Faultless) :
    Outcome.Agree (Ends function locals 1) (runBlock call function block env)
      (exec funcs invoke fuel (selectedCode layout (blockParameters function) locals block)
        ⟨stored, []⟩) := by
  obtain ⟨t, hts, -⟩ := hwf.terminator b block hb
  unfold runBlock at hok ⊢
  rw [selectedCode, exec_append]
  have hindex : valueCount function ≤ locals.state.toNat := by
    rw [hlayout.state]
    omega
  refine (exec_instructionsCode hwf hlayout.fits hcall hindex hb block.instructions 0 rfl
    stored env hrel hok.of_bind).bind ?_
  rintro env' ⟨⟨stored', stack⟩, signal⟩ henv ⟨rfl, hstack, hrel', -⟩
  have hrest := hok.of_bind_done henv
  simp only at hstack hrel'
  subst hstack
  rw [hts] at hrest ⊢
  exact exec_terminatorCode hwf hlayout hrel' hrest

/-! ### The loop -/

/-- The body of the emitted loop. -/
def loopCode (layout : ControlFlowLayout) (function : Function) (locals : FunctionLocalLayout) :
    List Instr :=
  function.blocks.map (blockCode layout (blockParameters function) locals) ++ [.unreachable]

theorem exec_skip (hstate : stored[locals.state.toNat]? = some state) (parameters : List (List ℕ))
    (blocks : List Block) (hne : ∀ block ∈ blocks, state ≠ BitVec.ofNat 32 block.id) :
    exec funcs invoke fuel (blocks.map (blockCode layout parameters locals)) ⟨stored, []⟩
      = .done (⟨stored, []⟩, .next) := by
  induction blocks with
  | nil => simp
  | cons block blocks ih =>
    rw [map_cons, exec_cons_next (execInstr_blockCode_skip hstate (hne block (by simp)) _)]
    exact ih fun c hc => hne c (by simp [hc])

variable (hwf : WellFormed program function) (hlayout : LayoutOk function locals)
  (hcall : CallsAgree layout funcs call invoke)

include hwf hlayout hcall

/-- One round of the loop runs the block whose number is the state, and no other. -/
theorem exec_round
    (hb : function.blocks[b]? = some block) {env : Env} (hrel : Related function stored env)
    (hstate : stored[locals.state.toNat]? = some (BitVec.ofNat 32 b))
    (hok : (runBlock call function block env).Faultless) :
    Outcome.Agree (Ends function locals 0) (runBlock call function block env)
      (exec funcs invoke fuel (loopCode layout function locals) ⟨stored, []⟩) := by
  have hid := hwf.block_id b block hb
  have hcount : function.blocks.length ≤ 4096 := hwf.blocks_le
  have hlt := (List.getElem?_eq_some_iff.mp hb).1
  obtain ⟨front, back, hsplit, hfront⟩ := hwf.blocks_split hb
  -- the blocks in front of the selected one have other numbers
  have hskip : ∀ c ∈ front, BitVec.ofNat 32 b ≠ BitVec.ofNat 32 c.id := by
    intro c hc heq
    have hcid := hfront c hc
    have := congrArg BitVec.toNat heq
    rw [BitVec.toNat_ofNat, BitVec.toNat_ofNat, Nat.mod_eq_of_lt (by omega),
      Nat.mod_eq_of_lt (by omega)] at this
    omega
  have hcode : loopCode layout function locals
      = front.map (blockCode layout (blockParameters function) locals)
        ++ blockCode layout (blockParameters function) locals block
          :: (back.map (blockCode layout (blockParameters function) locals)
            ++ [.unreachable]) := by
    rw [loopCode]
    conv_lhs => rw [hsplit]
    rw [map_append, map_cons, append_assoc, cons_append]
  rw [hcode, exec_append_next (exec_skip hstate _ _ hskip), exec_cons,
    execInstr_blockCode_selected (by rw [hid, hstate])]
  have hselected : Outcome.Agree _ _ (exec funcs invoke fuel _ _) :=
    exec_selectedCode hwf hlayout hcall hb hrel hok
  cases hrun : runBlock call function block env with
  | timeout =>
    rw [hrun] at hselected
    rw [hselected.timeout_iff.mp rfl]
    trivial
  | fault e => exact absurd hrun (hok e)
  | done flow =>
    rw [hrun] at hselected
    obtain ⟨⟨frame, signal⟩, hexec, hends⟩ := hselected.done_left
    rw [hexec]
    cases flow with
    | leave v =>
      obtain rfl : signal = .exit (encodeValue v) := hends
      exact rfl
    | enter target env' =>
      obtain ⟨rfl, hrel', hstate'⟩ := hends
      exact ⟨rfl, hrel', hstate'⟩

/-- The loop and the blocks of the IR, round by round. -/
theorem loopRounds_agree
    (rounds : ℕ) : ∀ (b : ℕ) (env : Env) (stored : List I32), Related function stored env →
      stored[locals.state.toNat]? = some (BitVec.ofNat 32 b) →
      (runBlocks call function rounds b env).Faultless →
      Outcome.Agree (fun v completion => completion.2 = .exit (encodeValue v))
        (runBlocks call function rounds b env)
        (loopRounds (fun stored => exec funcs invoke fuel (loopCode layout function locals)
          ⟨stored, []⟩) [] rounds stored) := by
  induction rounds with
  | zero => exact fun _ _ _ _ _ _ => trivial
  | succ rounds ih =>
    intro b env stored hrel hstate hok
    rw [runBlocks] at hok ⊢
    rw [loopRounds]
    obtain ⟨block, hb, hrun, hok⟩ := exists_of_orStuck hok
    rw [hrun]
    refine (exec_round hwf hlayout hcall hb hrel hstate hok.of_bind).bind ?_
    rintro flow ⟨frame, signal⟩ hflow hends
    have hrest := hok.of_bind_done hflow
    cases flow with
    | leave v =>
      obtain rfl : signal = .exit (encodeValue v) := hends
      exact rfl
    | enter target env' =>
      obtain ⟨rfl, hrel', hstate'⟩ := hends
      exact ih target env' frame.locals hrel' hstate' hrest

end Simulation

/-! ### Functions -/

section Function

variable {program : Program} {call : FunctionId → List Value → Result Value}
  {arguments : List Value} {env : Env}

theorem argument_stored (hwf : WellFormed program function) (rest : List I32)
    (hty : arguments.map Value.ty = function.parameters.map ValueDefinition.ty) {i : ℕ}
    {d : ValueDefinition} (hd : function.parameters[i]? = some d) :
    d.id = i ∧ ∃ v, arguments[i]? = some v ∧ v.ty = d.ty
      ∧ (arguments.map encodeValue ++ rest)[i]? = some (encodeValue v) := by
  have hi := congrArg (fun l => l[i]?) hty
  simp only [getElem?_map, hd, map_some] at hi
  obtain ⟨v, hv, hvty⟩ := map_eq_some_iff.mp hi
  have hlt : i < arguments.length := (List.getElem?_eq_some_iff.mp hv).1
  refine ⟨hwf.parameter_id hd, v, hv, hvty, ?_⟩
  rw [getElem?_append_left (by simpa using hlt), getElem?_map, hv]
  rfl

/-- The locals a call starts with. -/
theorem related_initial (hwf : WellFormed program function) {declared : ℕ}
    (hdeclared : declared = blockValueCount function + scratchCount function + 1)
    (hty : arguments.map Value.ty = function.parameters.map ValueDefinition.ty) :
    Related function (arguments.map encodeValue ++ List.replicate declared 0)
      (startEnv function arguments) := by
  have hlen : arguments.length = function.parameters.length := by
    simpa using congrArg List.length hty
  refine ⟨?_, fun id v hv => ?_⟩
  · simp only [length_append, length_map, length_replicate, valueCount]
    omega
  · rw [startEnv] at hv
    rcases bindAll_apply ((function.parameters.map ValueDefinition.id).zip arguments)
      (fun _ => none) id with ⟨-, hnone⟩ | ⟨w, hmem, hw⟩
    · rw [hv] at hnone
      cases hnone
    · rw [hv, Option.some.injEq] at hw
      subst hw
      obtain ⟨i, hi⟩ := mem_iff_getElem?.mp hmem
      rw [getElem?_zip_eq_some, getElem?_map] at hi
      obtain ⟨d, hd, rfl⟩ := map_eq_some_iff.mp hi.1
      obtain ⟨hid, w, hw, -, hstored⟩ := argument_stored hwf (List.replicate declared 0) hty hd
      rw [hi.2, Option.some.injEq] at hw
      subst hw
      have hlt : i < function.parameters.length := (List.getElem?_eq_some_iff.mp hd).1
      rw [hid]
      refine ⟨?_, hstored⟩
      unfold valueCount
      omega

variable {view : VerifiedFunction}

/-- Guards let canonical arguments pass. -/
theorem exec_guardsCode (hwf : WellFormed program function) (hfits : Fits function)
    (hview : view.function = function) (rest : List I32)
    (hty : arguments.map Value.ty = function.parameters.map ValueDefinition.ty) :
    exec funcs invoke fuel (guardsCode view) ⟨arguments.map encodeValue ++ rest, []⟩
      = .done (⟨arguments.map encodeValue ++ rest, []⟩, .next) := by
  have hguard : ∀ parameter ∈ function.parameters, parameter.ty = .bool →
      exec funcs invoke fuel (guardCode parameter.id) ⟨arguments.map encodeValue ++ rest, []⟩
        = .done (⟨arguments.map encodeValue ++ rest, []⟩, .next) := by
    intro parameter hmem hbool
    obtain ⟨i, hi⟩ := mem_iff_getElem?.mp hmem
    obtain ⟨hid, v, -, hvty, hstored⟩ := argument_stored hwf rest hty hi
    have hlt : i < valueCount function := by
      have := (List.getElem?_eq_some_iff.mp hi).1
      unfold valueCount
      omega
    rw [hbool] at hvty
    match v, hvty with
    | .bool b, _ =>
      rw [hid]
      cases b <;>
        simp [guardCode, exec_cons, execInstr, toNat_valueIndex hfits hlt, hstored, encodeValue,
          BinaryOp.apply, ofBool, leaveBlock]
  have hall : ∀ parameters : List ValueDefinition,
      (∀ parameter ∈ parameters, parameter ∈ function.parameters) →
      exec funcs invoke fuel (parameters.flatMap fun parameter =>
        if parameter.ty = .bool then guardCode parameter.id else [])
        ⟨arguments.map encodeValue ++ rest, []⟩
        = .done (⟨arguments.map encodeValue ++ rest, []⟩, .next) := by
    intro parameters
    induction parameters with
    | nil => simp
    | cons parameter parameters ih =>
      intro hsub
      rw [flatMap_cons, exec_append_next]
      · exact ih fun p hp => hsub p (by simp [hp])
      · split
        · exact hguard parameter (hsub parameter (by simp)) ‹_›
        · exact exec_nil _
  unfold guardsCode
  split
  · rw [hview]
    exact hall function.parameters fun _ h => h
  · exact exec_nil _

theorem execBody_agree (hwf : WellFormed program function)
    (hview : view.function = function) (hlocals : functionLocalLayout function = .ok locals)
    (hcall : CallsAgree layout funcs call invoke)
    (hty : arguments.map Value.ty = function.parameters.map ValueDefinition.ty)
    (hok : (runBlocks call function fuel 0 (startEnv function arguments)).Faultless) :
    Outcome.Agree (fun v w => w = encodeValue v)
      (runBlocks call function fuel 0 (startEnv function arguments))
      (execBody funcs invoke fuel ⟨function.parameters.length, locals.declaredCount.toNat,
        functionCode view layout locals⟩ (arguments.map encodeValue)) := by
  obtain ⟨hbase, hstate, hdeclared, hfits⟩ := eq_of_functionLocalLayout hlocals
  have hlayout : LayoutOk function locals := ⟨hbase, hstate, hfits⟩
  have hrel := related_initial hwf hdeclared hty
  have hlen : arguments.length = function.parameters.length := by
    simpa using congrArg List.length hty
  -- the state local starts at zero, the entry block
  have hzero : (arguments.map encodeValue ++ List.replicate locals.declaredCount.toNat 0)[
      locals.state.toNat]? = some (BitVec.ofNat 32 0) := by
    have hge : (arguments.map encodeValue).length ≤ locals.state.toNat := by
      rw [length_map, hstate, hlen, valueCount]
      omega
    rw [getElem?_append_right hge, getElem?_replicate, if_pos]
    · rfl
    · rw [length_map, hdeclared, hstate, hlen, valueCount]
      omega
  have hloop : Outcome.Agree _ _ (loopRounds (fun stored => exec funcs invoke fuel _ _) _ _ _) :=
    loopRounds_agree hwf hlayout hcall fuel 0 _ _ hrel hzero hok
  unfold execBody
  rw [functionCode, exec_append_next (exec_guardsCode hwf hfits hview _ hty), exec_cons, execInstr]
  subst hview
  rw [loopCode] at hloop
  cases hrun : runBlocks call view.function fuel 0 (startEnv view.function arguments) with
  | timeout =>
    rw [hrun] at hloop
    rw [hloop.timeout_iff.mp rfl]
    trivial
  | fault e => exact absurd hrun (hok e)
  | done v =>
    rw [hrun] at hloop
    obtain ⟨⟨frame, signal⟩, hexec, rfl⟩ := hloop.done_left
    rw [hexec]
    rfl

/-! ### Programs -/

theorem callsAgree_run (facts : VerifiedFacts program) (hmodule : ModuleOk program layout funcs)
    (n : ℕ) : CallsAgree layout funcs (run program n) (Wasm.invoke funcs n) := by
  induction n with
  | zero =>
    intro id arguments hok
    obtain ⟨function, hf, hty⟩ := enter_of_faultless hok
    obtain ⟨index, view, locals, hindex, rfl, hlocals, hfunc⟩ := hmodule id function hf
    refine ⟨_, by rw [hindex]; exact hfunc, ?_, ?_⟩
    · simpa using (congrArg List.length hty).symm
    · rw [run_zero hf hty]
      trivial
  | succ n ih =>
    intro id arguments hok
    obtain ⟨function, hf, hty⟩ := enter_of_faultless hok
    obtain ⟨index, view, locals, hindex, hview, hlocals, hfunc⟩ := hmodule id function hf
    have hlen : function.parameters.length = arguments.length := by
      simpa using (congrArg List.length hty).symm
    rw [run_succ hf hty] at hok
    rw [run_succ hf hty, hindex, getD_some]
    refine ⟨_, hfunc, hlen, ?_⟩
    rw [Wasm.invoke]
    simp only [hfunc, length_map, hlen, ne_eq, not_true_eq_false, if_false]
    rw [← hlen]
    exact execBody_agree (facts.wellFormed id function hf) hview hlocals ih hty hok

end Function

/-- Function `index` of the module stands for the function `id` of the program on `arguments`: it
returns exactly the encoded results, diverges exactly when the program does, and never traps. -/
structure StandsFor (program : Program) (id : FunctionId) (result : IrType)
    (arguments : List Value) (funcs : List Func) (index : ℕ) : Prop where
  returns : ∀ v : Value, v.ty = result →
    (Outcome.Returns (fun n => Wasm.invoke funcs n index (arguments.map encodeValue))
      (encodeValue v) ↔ Returns program id arguments v)
  encoded : ∀ w, Outcome.Returns
    (fun n => Wasm.invoke funcs n index (arguments.map encodeValue)) w →
      ∃ v, v.ty = result ∧ w = encodeValue v
  diverges : Outcome.Diverges
    (fun n => Wasm.invoke funcs n index (arguments.map encodeValue)) ↔
      Diverges program id arguments
  faultless : ∀ n, (Wasm.invoke funcs n index (arguments.map encodeValue)).Faultless

/-- **Emission preserves meaning.** The bodies emitted for a verified program decode to a module
in which every function stands for the function it was emitted for. -/
theorem encodeControlFlowFunction_correct {program : Program} {sources : SourceMap}
    {expectedEntry : FileId} {verified : VerifiedProgram}
    (hverify : verify program sources expectedEntry = .ok verified)
    (hlayout : ControlFlowLayout.new verified = .ok layout) {byteBudget : ℕ}
    {bodies : List (List Byte)} (hbodies : encodeBodies layout byteBudget = .ok bodies)
    {id : FunctionId} (hf : program.function? id = some function) {arguments : List Value}
    (hty : arguments.map Value.ty = function.parameters.map ValueDefinition.ty) :
    ∃ funcs index, wasmFuncs layout bodies = some funcs ∧ layout.functionIndex id = some index
      ∧ StandsFor program id function.result arguments funcs index.toNat := by
  have facts := verifiedFacts_of_verify hverify
  obtain ⟨-, -, rfl⟩ := clean_of_verify hverify
  obtain ⟨funcs, hfuncs, hmodule⟩ := moduleOk_of_encode facts hlayout hbodies
  obtain ⟨index, view, locals, hindex, -, -, -⟩ := hmodule id function hf
  have hagree : ∀ n, Outcome.Agree (fun v w => w = encodeValue v)
      (run verified.program n id arguments)
      (Wasm.invoke funcs n index.toNat (arguments.map encodeValue)) := by
    intro n
    obtain ⟨func, -, -, h⟩ :=
      callsAgree_run facts hmodule n id arguments (run_faultless facts hf hty n)
    rwa [hindex] at h
  -- a result of the module is the encoding of a result of the program
  have hresult : ∀ n w, Wasm.invoke funcs n index.toNat (arguments.map encodeValue) = .done w →
      ∃ v, run verified.program n id arguments = .done v ∧ v.ty = function.result
        ∧ w = encodeValue v := by
    intro n w hw
    have h := hagree n
    rw [hw] at h
    cases hrun : run verified.program n id arguments with
    | timeout => rw [hrun] at h; exact h.elim
    | fault e => rw [hrun] at h; exact h.elim
    | done v =>
      rw [hrun] at h
      exact ⟨v, rfl, result_ty facts hf hty ((returns_iff facts hf hty v).mpr ⟨n, hrun⟩), h⟩
  refine ⟨funcs, index, hfuncs, hindex,
    ⟨fun v hv => ?_, fun w ⟨n, hn⟩ => ?_, ?_, fun n e he => ?_⟩⟩
  · rw [returns_iff facts hf hty]
    constructor
    · rintro ⟨n, hn⟩
      obtain ⟨v', hrun, hty', henc⟩ := hresult n _ hn
      rw [encodeValue_injective (hv.trans hty'.symm) henc]
      exact ⟨n, hrun⟩
    · rintro ⟨n, hn⟩
      have h := hagree n
      dsimp only at hn
      rw [hn] at h
      obtain ⟨w, hw, rfl⟩ := h.done_left
      exact ⟨n, hw⟩
  · obtain ⟨v, -, hvty, henc⟩ := hresult n w hn
    exact ⟨v, hvty, henc⟩
  · rw [diverges_iff facts hf hty]
    exact (Outcome.diverges_iff_of_agree hagree).symm
  · have h := hagree n
    rw [he] at h
    cases hrun : run verified.program n id arguments with
    | timeout => rw [hrun] at h; exact h
    | fault e => rw [hrun] at h; exact h
    | done v => rw [hrun] at h; exact h

theorem exists_of_isOk {α β : Type} {x : Except Diagnostic α} {k : α → Except Diagnostic β}
    (h : (x >>= k).isOk = true) : ∃ a b, x = .ok a ∧ k a = .ok b := by
  cases x with
  | error e => cases h
  | ok a =>
    change (k a).isOk = true at h
    cases hk : k a with
    | error e => rw [hk] at h; cases h
    | ok b => exact ⟨a, b, rfl, hk⟩

theorem encodeControlFlowFunction_correct_countdown :
    ∃ layout bodies, ControlFlowLayout.new ⟨countdown, []⟩ = .ok layout
      ∧ encodeBodies layout 1024 = .ok bodies
      ∧ ∃ funcs index, wasmFuncs layout bodies = some funcs
        ∧ layout.functionIndex ⟨0, 0⟩ = some index
        ∧ StandsFor countdown ⟨0, 0⟩ countdownMain.result [.i32 2] funcs index.toNat := by
  have hok : (ControlFlowLayout.new ⟨countdown, []⟩ >>= fun layout =>
      encodeBodies layout 1024).isOk = true := by decide +kernel
  obtain ⟨layout, bodies, hlayout, hbodies⟩ := exists_of_isOk hok
  have hf : countdown.function? ⟨0, 0⟩ = some countdownMain := rfl
  exact ⟨layout, bodies, hlayout, hbodies,
    encodeControlFlowFunction_correct verify_countdown hlayout hbodies hf rfl⟩

end Zryna.Backend.WebAssembly
