import Zryna.Backend.JavaScript.ControlFlow
import Zryna.Backend.JavaScript.Prelude
import Zryna.Ir.ControlFlow.Interpreter

/-!
# JavaScript emission preserves meaning

The emitted script is run in lock step with the fuelled interpreter of the IR. `Related` ties the
environment of an activation to the variables of the JavaScript function: every value that is
defined is held by the variable of its own number. One round of the emitted loop is one block of
the IR (`execStmt_dispatch`), so at every fuel the two evaluations agree, unless the IR evaluation
is stuck, which verification excludes.

`EventOk` is what every event of a run satisfies: an access to the variable of a typed value sees a
canonical value of that type, and arithmetic is exact.
-/

namespace Zryna.Backend.JavaScript

open Zryna.JavaScript Zryna.Ir Zryna.Traced List
open Zryna.Ir.ControlFlow hiding Value

/-- A value as JavaScript sees it. -/
def encodeValue : ControlFlow.Value → JavaScript.Value
  | .bool b => .boolean b
  | .i32 n => .number (.ofInt32 n)

theorem encodeValue_injective : Function.Injective encodeValue := by
  intro v w h
  cases v with
  | bool b =>
    cases w with
    | bool c => exact congrArg _ (by simpa [encodeValue] using h)
    | i32 n => cases h
  | i32 m =>
    cases w with
    | bool c => cases h
    | i32 n =>
      have hint : m.toInt = n.toInt := by
        simpa [encodeValue, Number.ofInt32, Number.ofInt] using h
      exact congrArg _ (BitVec.eq_of_toInt_eq hint)

/-- A canonical value of a type: a boolean, or a number that is a signed 32-bit integer. -/
def Canonical : IrType → JavaScript.Value → Prop
  | .unit, _ => False
  | .bool, value => ∃ b, value = .boolean b
  | .i32, value => ∃ n : BitVec 32, value = .number (.ofInt n.toInt)

theorem canonical_encodeValue (v : ControlFlow.Value) : Canonical v.ty (encodeValue v) := by
  cases v with
  | bool b => exact ⟨b, rfl⟩
  | i32 n => exact ⟨n, rfl⟩

/-- What every event of a run satisfies. -/
structure EventOk (program : Program) (event : Observation) : Prop where
  exact : event.Exact
  canonical : ∀ id function i ty value, program.function? id = some function →
    function.declaredType i = some ty →
    event = .access (privateFunctionName id) (valueName i) value → Canonical ty value

variable {program : Program} {function : Function} {id : FunctionId}

theorem EventOk.value (hf : program.function? id = some function) {i : ℕ} {v : ControlFlow.Value}
    (hty : function.declaredType i = some v.ty) :
    EventOk program (.access (privateFunctionName id) (valueName i) (encodeValue v)) := by
  refine ⟨trivial, fun id' function' i' ty value hf' hty' hevent => ?_⟩
  rw [Observation.access.injEq] at hevent
  obtain ⟨hid, hi, rfl⟩ := hevent
  obtain rfl := privateFunctionName_injective hid
  obtain rfl := valueName_injective hi
  rw [hf, Option.some.injEq] at hf'
  subst hf'
  rw [hty, Option.some.injEq] at hty'
  exact hty' ▸ canonical_encodeValue v

/-- Accesses to variables that hold no value of the IR. -/
theorem EventOk.auxiliary (name : String) {variableName : String}
    (h : ∀ i, variableName ≠ valueName i) (value : JavaScript.Value) :
    EventOk program (.access name variableName value) := by
  refine ⟨trivial, fun _ _ i _ _ _ _ hevent => ?_⟩
  rw [Observation.access.injEq] at hevent
  exact absurd hevent.2.1 (h i)

theorem EventOk.arithmetic (name : String) (op : BinaryOp) {x y : ℤ}
    (hsmall : |op.onInt x y| < 2 ^ 53) :
    EventOk program (.arithmetic name op (.ofInt x) (.ofInt y) (.ofInt (op.onInt x y))) :=
  ⟨⟨x, y, rfl, rfl, rfl, hsmall⟩, fun _ _ _ _ _ _ _ hevent => by cases hevent⟩

theorem allowsImul_eventOk (program : Program) : AllowsImul (EventOk program) := by
  intro event hname hexact
  refine ⟨hexact, fun id _ _ _ _ _ _ hevent => ?_⟩
  rw [hevent] at hname
  exact absurd hname (privateFunctionName_ne_imul id)

/-! ### Related states -/

/-- Every defined value is held by the variable of its number. -/
structure Related (function : Function) (scope : Scope) (env : Env) : Prop where
  declared : ∀ i < valueCount function, ∃ value, scope (valueName i) = some ⟨true, value⟩
  temporary : ∀ i < edgeTemporaryCount function,
    ∃ value, scope (temporaryName i) = some ⟨true, value⟩
  value : ∀ i v, env i = some v → scope (valueName i) = some ⟨true, encodeValue v⟩

/-- Assigning the variable of a value. -/
theorem Related.define {scope : Scope} {env : Env} (hrel : Related function scope env) (i : ℕ)
    (v : ControlFlow.Value) :
    Related function (scope.declare (valueName i) true (encodeValue v))
      (Function.update env i (some v)) := by
  refine ⟨fun j hj => ?_, fun j hj => ?_, fun j w hw => ?_⟩
  · by_cases hji : j = i
    · exact ⟨_, by rw [hji, Scope.declare_self]⟩
    · rw [Scope.declare_of_ne fun h => hji (valueName_injective h)]
      exact hrel.declared j hj
  · rw [Scope.declare_of_ne (temporaryName_ne_valueName j i)]
    exact hrel.temporary j hj
  · by_cases hji : j = i
    · subst hji
      rw [Function.update_self, Option.some.injEq] at hw
      rw [Scope.declare_self, hw]
    · rw [Function.update_of_ne hji] at hw
      rw [Scope.declare_of_ne fun h => hji (valueName_injective h)]
      exact hrel.value j w hw

/-- Assigning another variable. -/
theorem Related.declare {scope : Scope} {env : Env} (hrel : Related function scope env)
    {name : String} (hname : ∀ i, name ≠ valueName i) (value : JavaScript.Value) :
    Related function (scope.declare name true value) env := by
  refine ⟨fun j hj => ?_, fun j hj => ?_, fun j w hw => ?_⟩
  · rw [Scope.declare_of_ne (hname j).symm]
    exact hrel.declared j hj
  · by_cases hj' : temporaryName j = name
    · exact ⟨value, by rw [hj', Scope.declare_self]⟩
    · rw [Scope.declare_of_ne hj']
      exact hrel.temporary j hj
  · rw [Scope.declare_of_ne (hname j).symm]
    exact hrel.value j w hw

/-! ### Expressions -/

section Expressions

variable {invoke : String → List JavaScript.Value → Run JavaScript.Value} {scope : Scope}
  {env : Env} {fuel : ℕ} {i : ℕ} {v : ControlFlow.Value}

theorem declaredType_of_readOperand
    (h : readOperand function env i = some v) : function.declaredType i = some v.ty := by
  unfold readOperand at h
  simpa using (Option.filter_eq_some_iff.mp h).2

theorem yields_valueExpr (hf : program.function? id = some function)
    (hrel : Related function scope env) (hread : readOperand function env i = some v) :
    Yields (EventOk program) (eval invoke (privateFunctionName id) scope (valueExpr i))
      (encodeValue v) := by
  have hscope := hrel.value i v (env_of_readOperand hread)
  exact yields_ident hscope (EventOk.value hf (declaredType_of_readOperand hread))

/-- Operands are evaluated in order. -/
theorem yields_valueExprs (hf : program.function? id = some function)
    (hrel : Related function scope env) (ids : List ℕ) : ∀ values : List ControlFlow.Value,
      readOperands function env ids = some values →
      Yields (EventOk program)
        (evalAll invoke (privateFunctionName id) scope (ids.map valueExpr))
        (values.map encodeValue) := by
  induction ids with
  | nil =>
    intro values h
    cases h
    rw [map_nil, evalAll]
    exact Yields.pure _
  | cons i ids ih =>
    intro values h
    rw [readOperands] at h
    obtain ⟨v, hv, hrest⟩ := Option.bind_eq_some_iff.mp h
    obtain ⟨vs, hvs, rfl⟩ := Option.map_eq_some_iff.mp hrest
    rw [map_cons, evalAll]
    exact (yields_valueExpr hf hrel hv).bind ((ih vs hvs).bind (Yields.pure _))

theorem readOperands_pair {j : ℕ} {w : ControlFlow.Value}
    (h : readOperands function env [i, j] = some [v, w]) :
    readOperand function env i = some v ∧ readOperand function env j = some w := by
  simp only [readOperands] at h
  obtain ⟨v', hv, hrest⟩ := Option.bind_eq_some_iff.mp h
  obtain ⟨ws, hws, hcons⟩ := Option.map_eq_some_iff.mp hrest
  obtain ⟨w', hw, hnil⟩ := Option.bind_eq_some_iff.mp hws
  simp only [Option.map_some, Option.some.injEq] at hnil
  subst hnil
  simp only [List.cons.injEq, and_true] at hcons
  exact ⟨hcons.1 ▸ hv, hcons.2 ▸ hw⟩

theorem abs_toInt_le (x : BitVec 32) : |x.toInt| ≤ 2 ^ 31 := by
  have hupper : x.toInt < 2 ^ 31 := BitVec.toInt_lt
  have hlower : -2 ^ 31 ≤ x.toInt := BitVec.le_toInt x
  rw [abs_le]
  omega

/-- Truncated sums and differences wrap. -/
theorem yields_truncated {op : BinaryOp} {lhs rhs : Expr} {x y : ℤ} {result : BitVec 32}
    (hop : op = .add ∨ op = .sub) (hx : |x| ≤ 2 ^ 31) (hy : |y| ≤ 2 ^ 31)
    (hresult : BitVec.ofInt 32 (op.onInt x y) = result)
    (hlhs : Yields (EventOk program) (eval invoke (privateFunctionName id) scope lhs)
      (.number (.ofInt x)))
    (hrhs : Yields (EventOk program) (eval invoke (privateFunctionName id) scope rhs)
      (.number (.ofInt y))) :
    Yields (EventOk program) (eval invoke (privateFunctionName id) scope (truncated op lhs rhs))
      (.number (.ofInt32 result)) := by
  have hsmall : |op.onInt x y| < 2 ^ 53 := by
    rw [abs_le] at hx hy
    rw [abs_lt]
    rcases hop with rfl | rfl <;> simp only [BinaryOp.onInt] <;> omega
  have happly : op.apply (.number (.ofInt x)) (.number (.ofInt y))
      = .number (.ofInt (op.onInt x y)) := by
    rcases hop with rfl | rfl
    · exact congrArg _ (Number.add_ofInt hsmall)
    · exact congrArg _ (Number.sub_ofInt hsmall)
  have hinner : Yields (EventOk program)
      (eval invoke (privateFunctionName id) scope (.paren (.binary op lhs rhs)))
      (.number (.ofInt (op.onInt x y))) := by
    rw [eval]
    exact yields_arithmetic (hop.imp_right .inl) happly (EventOk.arithmetic _ op hsmall) hlhs hrhs
  have hbits : BinaryOp.apply .bitOr (.number (.ofInt (op.onInt x y))) (.number (.ofInt (0 : ℕ)))
      = .number (.ofInt32 result) := by
    simp [BinaryOp.apply, Value.toNumber, Number.bitOr, hresult]
  rw [← hbits]
  exact yields_binary (by decide) hinner (yields_number (by norm_num))

theorem yields_literalExpr (n : BitVec 32) :
    Yields (EventOk program) (eval invoke (privateFunctionName id) scope (literalExpr n.toInt))
      (.number (.ofInt32 n)) := by
  have habs := abs_toInt_le n
  have hsmall : n.toInt.natAbs < 2 ^ 53 := by
    rw [abs_le] at habs
    omega
  unfold literalExpr
  split
  · next hneg =>
    have hvalue : (Number.ofInt (n.toInt.natAbs : ℕ)).neg = .ofInt32 n := by
      rw [Number.neg_ofInt (by omega), Number.ofInt32]
      congr 1
      omega
    rw [eval, ← hvalue]
    exact (yields_number hsmall).bind (Yields.pure _)
  · next hpos =>
    rw [Number.ofInt32, show n.toInt = (n.toInt.natAbs : ℕ) by omega]
    exact yields_number hsmall

end Expressions

/-! ### Instructions -/

/-- Calls are related: an IR call that does not get stuck agrees with the call of its function, and
`$zryna$imul` multiplies. -/
structure CallsAgree (program : Program)
    (call : FunctionId → List ControlFlow.Value → Result ControlFlow.Value)
    (invoke : String → List JavaScript.Value → Run JavaScript.Value) : Prop where
  function : ∀ id arguments, (call id arguments).Faultless →
    Agree (EventOk program) (fun v w => w = encodeValue v) (call id arguments)
      (invoke (privateFunctionName id) (arguments.map encodeValue))
  imul : ∀ l r : BitVec 32, Yields (EventOk program)
    (invoke imul.name [.number (.ofInt32 l), .number (.ofInt32 r)]) (.number (.ofInt32 (l * r)))

section Simulation

variable {call : FunctionId → List ControlFlow.Value → Result ControlFlow.Value}
  {invoke : String → List JavaScript.Value → Run JavaScript.Value} {scope : Scope} {env : Env}
  {fuel : ℕ} {b : ℕ} {block : Block}

/-- A comparison of two operands. -/
theorem yields_comparison (hf : program.function? id = some function)
    (hrel : Related function scope env) {op : BinaryOp} {lhs rhs : ℕ} {l r : ControlFlow.Value}
    (hop : op ≠ .add ∧ op ≠ .sub ∧ op ≠ .mul)
    (hread : readOperands function env [lhs, rhs] = some [l, r]) {result : Bool}
    (hresult : op.apply (encodeValue l) (encodeValue r) = .boolean result) :
    Yields (EventOk program) (eval invoke (privateFunctionName id) scope
      (.binary op (valueExpr lhs) (valueExpr rhs))) (.boolean result) := by
  obtain ⟨hl, hr⟩ := readOperands_pair hread
  rw [← hresult]
  exact yields_binary hop (yields_valueExpr hf hrel hl) (yields_valueExpr hf hrel hr)

/-- Truncating a difference subtracts modulo `2 ^ 32`. -/
theorem ofInt_toInt_sub (x y : BitVec 32) : BitVec.ofInt 32 (x.toInt - y.toInt) = x - y := by
  rw [sub_eq_add_neg, BitVec.ofInt_add, BitVec.ofInt_neg, BitVec.ofInt_toInt, BitVec.ofInt_toInt,
    ← BitVec.sub_eq_add_neg]

variable {kind : InstructionKind} {values : List ControlFlow.Value}

section

variable (hf : program.function? id = some function) (hcall : CallsAgree program call invoke)
  (hrel : Related function scope env)
  (hread : readOperands function env (instructionOperands kind) = some values)

include hf hcall hrel hread

/-- The operations other than calls compute the encoded result. -/
theorem yields_operation {v : ControlFlow.Value} (heval : evalOperation kind values = some v) :
    Yields (EventOk program) (eval invoke (privateFunctionName id) scope (instructionExpr kind))
      (encodeValue v) := by
  unfold evalOperation at heval
  split at heval
  case h_15 => cases heval
  all_goals
    cases heval
    rw [instructionOperands] at hread
    rw [instructionExpr]
  case h_1 value => rw [eval]; exact Yields.pure _
  case h_2 value => exact yields_literalExpr value
  case h_3 l r =>
    obtain ⟨hl, hr⟩ := readOperands_pair hread
    exact yields_truncated (.inl rfl) (abs_toInt_le l) (abs_toInt_le r)
      (by simp [BinaryOp.onInt, BitVec.ofInt_add]) (yields_valueExpr hf hrel hl)
      (yields_valueExpr hf hrel hr)
  case h_4 l r =>
    obtain ⟨hl, hr⟩ := readOperands_pair hread
    exact yields_truncated (.inr rfl) (abs_toInt_le l) (abs_toInt_le r) (ofInt_toInt_sub l r)
      (yields_valueExpr hf hrel hl) (yields_valueExpr hf hrel hr)
  case h_5 l r =>
    have hargs : Yields (EventOk program)
        (evalAll invoke (privateFunctionName id) scope ([_, _].map valueExpr)) _ :=
      yields_valueExprs hf hrel _ _ hread
    rw [eval]
    exact hargs.bind (hcall.imul l r)
  case h_6 operand =>
    -- `0 - v` never is negative zero
    obtain ⟨w, hw, hrest⟩ := Option.bind_eq_some_iff.mp hread
    obtain rfl : w = .i32 operand := by simpa [readOperands] using hrest
    have hneg : BitVec.ofInt 32 (BinaryOp.onInt .sub ((0 : ℕ) : ℤ) operand.toInt) = -operand := by
      rw [BinaryOp.onInt, Nat.cast_zero, zero_sub, BitVec.ofInt_neg, BitVec.ofInt_toInt]
    exact yields_truncated (.inr rfl) (by simp) (abs_toInt_le operand) hneg
      (yields_number (by norm_num)) (yields_valueExpr hf hrel hw)
  all_goals refine yields_comparison hf hrel (by decide) hread (congrArg JavaScript.Value.boolean ?_)
  case h_7 l r | h_9 l r =>
    simp [encodeValue, Value.strictEq, Number.ofInt32, BitVec.toInt_inj, bne, BEq.beq]
  case h_8 l r | h_10 l r => simp [encodeValue, Value.strictEq, bne]
  case h_11 l r | h_13 l r =>
    simp [encodeValue, Value.toNumber, Number.ofInt32, BitVec.slt_eq_decide]
  case h_12 l r | h_14 l r =>
    simp [encodeValue, Value.toNumber, Number.ofInt32, BitVec.sle_eq_decide]
    rw [← decide_not, decide_eq_decide, not_le]

/-- The operation of an instruction or the call it makes. -/
theorem eval_operation (hok : (runOperation call kind values).Faultless) :
    Agree (EventOk program) (fun v w => w = encodeValue v) (runOperation call kind values)
      (eval invoke (privateFunctionName id) scope (instructionExpr kind)) := by
  have hoperation : (orStuck (evalOperation kind values)).Faultless →
      Agree (EventOk program) (fun v w => w = encodeValue v) (orStuck (evalOperation kind values))
        (eval invoke (privateFunctionName id) scope (instructionExpr kind)) := by
    intro hok
    cases heval : evalOperation kind values with
    | none =>
      rw [heval] at hok
      exact absurd rfl (hok ())
    | some v => exact (yields_operation hf hcall hrel hread heval).agree rfl
  cases kind with
  | directCall callee arguments =>
    have hargs : Yields (EventOk program)
        (evalAll invoke (privateFunctionName id) scope (arguments.map valueExpr)) _ :=
      yields_valueExprs hf hrel _ _ hread
    rw [instructionExpr, eval]
    exact hargs.bind_agree (hcall.function callee values hok)
  | _ => exact hoperation hok

end

/-- The completion of straight-line code that leaves the environment `env`. -/
def Straight (function : Function) (number : Option Binding) (env : Env)
    (completion : Scope × Signal) : Prop :=
  completion.2 = .next ∧ Related function completion.1 env ∧ completion.1 blockName = number

section

variable (hwf : WellFormed program function) (hf : program.function? id = some function)
  (hcall : CallsAgree program call invoke) (hb : function.blocks[b]? = some block)

include hwf hf hcall hb

theorem execStmt_instruction {k : ℕ} {i : Instruction} (hi : block.instructions[k]? = some i)
    (hrel : Related function scope env) (hok : (runInstruction call function i env).Faultless) :
    Agree (EventOk program) (Straight function (scope blockName))
      (runInstruction call function i env)
      (execStmt invoke (privateFunctionName id) fuel scope (instructionStmt i)) := by
  have hmem : (i.result, DefinitionLocation.instruction b k) ∈ function.located :=
    mem_located.mpr ⟨block, i, hb, hi, rfl⟩
  have hlt : i.result.id < valueCount function := id_lt_valueCount hwf hmem
  have hty : function.declaredType i.result.id = some i.result.ty :=
    hwf.declaredType (hwf.valueTable_id hmem)
  obtain ⟨old, hold⟩ := hrel.declared _ hlt
  unfold runInstruction at hok ⊢
  rw [instructionStmt, execStmt]
  obtain ⟨values, hread, hrun, hok⟩ := exists_of_orStuck hok
  rw [hrun]
  refine (eval_operation hf hcall hrel hread hok.of_bind).bind ?_
  rintro v w hv rfl
  have hrest := hok.of_bind_done hv
  split
  · next hvty =>
    have hassign : Yields (EventOk program)
        (assign (privateFunctionName id) scope (valueName i.result.id) (encodeValue v))
        (scope.declare (valueName i.result.id) true (encodeValue v)) := by
      rw [assign, hold]
      exact (Yields.tell (EventOk.value hf (hty.trans (by rw [hvty])))).bind (Yields.pure _)
    have hstraight : Straight function (scope blockName)
        (Function.update env i.result.id (some v))
        (scope.declare (valueName i.result.id) true (encodeValue v), .next) := by
      refine ⟨rfl, hrel.define _ v, ?_⟩
      dsimp only
      rw [Scope.declare_of_ne (blockName_ne_valueName _)]
    have hstmt : Yields (EventOk program)
        (assign (privateFunctionName id) scope (valueName i.result.id) (encodeValue v) >>=
          fun scope => pure (scope, Signal.next))
        (scope.declare (valueName i.result.id) true (encodeValue v), .next) :=
      hassign.bind (Yields.pure _)
    exact hstmt.agree hstraight
  · next hvty =>
    rw [if_neg hvty] at hrest
    exact absurd rfl (hrest ())

/-- The instructions from position `k` on. -/
theorem exec_instructions (rest : List Instruction) : ∀ (k : ℕ),
      block.instructions.drop k = rest → ∀ (scope : Scope) (env : Env),
      Related function scope env → (runInstructions call function rest env).Faultless →
      Agree (EventOk program) (Straight function (scope blockName))
        (runInstructions call function rest env)
        (exec invoke (privateFunctionName id) fuel scope (rest.map instructionStmt)) := by
  induction rest with
  | nil =>
    intro k _ scope env hrel _
    rw [map_nil, exec_nil]
    exact Agree.done ⟨rfl, hrel, rfl⟩
  | cons i rest ih =>
    intro k hdrop scope env hrel hok
    have hi : block.instructions[k]? = some i := by
      rw [← head?_drop, hdrop, head?_cons]
    have htail : block.instructions.drop (k + 1) = rest := by
      rw [← tail_drop, hdrop, tail_cons]
    rw [runInstructions] at hok ⊢
    rw [map_cons, JavaScript.exec_cons]
    refine (execStmt_instruction hwf hf hcall hb hi hrel hok.of_bind).bind ?_
    rintro env' ⟨scope', signal⟩ henv ⟨hsignal, hrel', hnumber⟩
    simp only at hsignal hrel' hnumber
    subst hsignal
    rw [← hnumber]
    exact ih (k + 1) htail scope' env' hrel' (hok.of_bind_done henv)

end

/-! ### Edges -/

/-- The first half of an edge: arguments go to the temporaries. -/
theorem exec_saves (hf : program.function? id = some function) (ids : List ℕ) :
    ∀ (k : ℕ) (values : List ControlFlow.Value) (scope : Scope), Related function scope env →
      readOperands function env ids = some values →
      k + ids.length ≤ edgeTemporaryCount function →
      ∃ scope', Yields (EventOk program)
          (exec invoke (privateFunctionName id) fuel scope ((ids.zipIdx k).map saveStmt))
          (scope', .next)
        ∧ Related function scope' env
        ∧ scope' blockName = scope blockName
        ∧ (∀ j < k, scope' (temporaryName j) = scope (temporaryName j))
        ∧ ∀ i v, values[i]? = some v →
          scope' (temporaryName (k + i)) = some ⟨true, encodeValue v⟩ := by
  induction ids with
  | nil =>
    intro k values scope hrel hread _
    cases hread
    refine ⟨scope, ?_, hrel, rfl, fun _ _ => rfl, by simp⟩
    rw [zipIdx_nil, map_nil, exec_nil]
    exact Yields.pure _
  | cons i ids ih =>
    intro k values scope hrel hread hle
    rw [readOperands] at hread
    obtain ⟨v, hv, hrest⟩ := Option.bind_eq_some_iff.mp hread
    obtain ⟨vs, hvs, rfl⟩ := Option.map_eq_some_iff.mp hrest
    rw [length_cons] at hle
    obtain ⟨old, hold⟩ := hrel.temporary k (by omega)
    have hrel' := hrel.declare (fun i => temporaryName_ne_valueName k i) (encodeValue v)
    obtain ⟨scope', hexec, hrel'', hblock, hbefore, hafter⟩ := ih (k + 1) vs _ hrel' hvs (by omega)
    refine ⟨scope', ?_, hrel'', ?_, fun j hj => ?_, fun j w hw => ?_⟩
    · rw [zipIdx_cons, map_cons]
      exact Yields.exec_cons (yields_assign (yields_valueExpr hf hrel hv) hold
        (EventOk.auxiliary _ (fun i => temporaryName_ne_valueName k i) _)) hexec
    · rw [hblock, Scope.declare_of_ne (blockName_ne_temporaryName k)]
    · have hne : temporaryName j ≠ temporaryName k := fun h => by
        have := temporaryName_injective h
        omega
      rw [hbefore j (by omega), Scope.declare_of_ne hne]
    · cases j with
      | zero =>
        rw [getElem?_cons_zero, Option.some.injEq] at hw
        rw [Nat.add_zero, hbefore k (by omega), Scope.declare_self, hw]
      | succ j =>
        rw [getElem?_cons_succ] at hw
        rw [← hafter j w hw]
        congr 2
        omega

/-- The assignment of parameter variables from variables that hold no value of the IR. -/
theorem exec_loads (hwf : WellFormed program function) (hf : program.function? id = some function)
    {location : DefinitionLocation} {source : ℕ → String} (hsource : ∀ i j, source i ≠ valueName j)
    (parameters : List ValueDefinition) : ∀ (k : ℕ) (values : List ControlFlow.Value)
      (scope : Scope) (env : Env), (∀ d ∈ parameters, (d, location) ∈ function.located) →
      values.map ControlFlow.Value.ty = parameters.map ValueDefinition.ty →
      Related function scope env →
      (∀ i v, values[i]? = some v → scope (source (k + i)) = some ⟨true, encodeValue v⟩) →
      ∃ scope', Yields (EventOk program)
          (exec invoke (privateFunctionName id) fuel scope
            (((parameters.map ValueDefinition.id).zipIdx k).map fun entry =>
              .assign (valueName entry.1) (.ident (source entry.2)))) (scope', .next)
        ∧ Related function scope' (env.bindAll ((parameters.map ValueDefinition.id).zip values))
        ∧ ∀ name, (∀ i, name ≠ valueName i) → scope' name = scope name := by
  induction parameters with
  | nil =>
    intro k values scope env _ _ hrel _
    refine ⟨scope, ?_, by simpa [Env.bindAll] using hrel, fun _ _ => rfl⟩
    rw [map_nil, zipIdx_nil, map_nil, exec_nil]
    exact Yields.pure _
  | cons d parameters ih =>
    intro k values scope env hmem hty hrel hvalues
    cases values with
    | nil => simp at hty
    | cons v values =>
      rw [map_cons, map_cons, List.cons.injEq] at hty
      have hd := hmem d (by simp)
      obtain ⟨old, hold⟩ := hrel.declared d.id (id_lt_valueCount hwf hd)
      have hdty : function.declaredType d.id = some v.ty := by
        rw [hwf.declaredType (hwf.valueTable_id hd), hty.1]
      have hget := hvalues 0 v (by simp)
      rw [Nat.add_zero] at hget
      -- the sources are no variables of values, so the rest of them is untouched
      have hvalues' : ∀ i w, values[i]? = some w →
          scope.declare (valueName d.id) true (encodeValue v) (source (k + 1 + i))
            = some ⟨true, encodeValue w⟩ := by
        intro i w hw
        rw [Scope.declare_of_ne (hsource _ _), ← hvalues (i + 1) w (by simpa using hw)]
        congr 2
        omega
      obtain ⟨scope', hexec, hrel', hother⟩ := ih (k + 1) values _ _
        (fun e he => hmem e (by simp [he])) hty.2 (hrel.define d.id v) hvalues'
      refine ⟨scope', ?_, by simpa [Env.bindAll] using hrel', fun name hname => ?_⟩
      · rw [map_cons, zipIdx_cons, map_cons]
        exact Yields.exec_cons (yields_assign
          (yields_ident hget (EventOk.auxiliary _ (hsource k) _)) hold
          (EventOk.value hf hdty)) hexec
      · rw [hother name hname, Scope.declare_of_ne (hname _)]

/-- How a block of the IR ends: it returns, or it continues the loop with the next number. -/
def Ends (function : Function) (flow : Flow) (completion : Scope × Signal) : Prop :=
  match flow with
  | .leave v => completion.2 = .exit (encodeValue v)
  | .enter target env =>
    completion.2 = .again ∧ Related function completion.1 env
      ∧ target < function.blocks.length
      ∧ completion.1 blockName = some ⟨true, .number (.ofInt target)⟩

/-- The whole edge: the parameters are bound in parallel and the number is the target. -/
theorem exec_edgeStmts (hwf : WellFormed program function)
    (hf : program.function? id = some function) (hrel : Related function scope env)
    (hnumber : ∃ value, scope blockName = some ⟨true, value⟩) {target : ℕ} {arguments : List ℕ}
    (hok : (runEdge function target arguments env).Faultless) :
    Agree (EventOk program) (Ends function) (runEdge function target arguments env)
      (exec invoke (privateFunctionName id) fuel scope
        (edgeStmts target arguments (blockParameters function))) := by
  obtain ⟨values, targetBlock, hread, hblock, hty, hrun⟩ := runEdge_of_faultless hok
  rw [hrun]
  have hlen : targetBlock.parameters.length = values.length := by
    simpa using (congrArg List.length hty).symm
  have hargs : values.length = arguments.length := length_of_readOperands hread
  have hmax : targetBlock.parameters.length ≤ edgeTemporaryCount function :=
    block_parameters_le hblock
  obtain ⟨htarget, -⟩ := List.getElem?_eq_some_iff.mp hblock
  have hcount : function.blocks.length ≤ 4096 := hwf.blocks_le
  obtain ⟨scope₁, hexec₁, hrel₁, hnumber₁, -, hsaved⟩ :=
    exec_saves hf arguments 0 values scope hrel hread (by omega)
  have hmem : ∀ d ∈ targetBlock.parameters,
      (d, DefinitionLocation.blockParameter target) ∈ function.located :=
    fun d hd => mem_located.mpr ⟨targetBlock, hblock, hd⟩
  obtain ⟨scope₂, hexec₂, hrel₂, hother₂⟩ :=
    exec_loads hwf hf temporaryName_ne_valueName targetBlock.parameters 0 values scope₁ env hmem
      hty hrel₁ (by simpa using hsaved)
  obtain ⟨old, hold⟩ := hnumber
  have hnumber₂ : scope₂ blockName = some ⟨true, old⟩ := by
    rw [hother₂ _ blockName_ne_valueName, hnumber₁, hold]
  have hjump : Yields (EventOk program)
      (exec invoke (privateFunctionName id) fuel scope₂
        [.assign blockName (.number target), .continue])
      (scope₂.declare blockName true (.number (.ofInt target)), .again) := by
    refine Yields.exec_cons (yields_assign (yields_number (by omega)) hnumber₂
      (EventOk.auxiliary _ blockName_ne_valueName _)) ?_
    rw [exec_singleton, execStmt]
    exact Yields.pure _
  rw [edgeStmts, getD_blockParameters hblock, exec_append]
  refine hexec₁.bind_agree ?_
  rw [andThen, exec_append]
  refine hexec₂.bind_agree ?_
  have hends : Ends function
      (.enter target (env.bindAll ((targetBlock.parameters.map ValueDefinition.id).zip values)))
      (scope₂.declare blockName true (.number (.ofInt target)), .again) :=
    ⟨rfl, hrel₂.declare blockName_ne_valueName _, htarget, by simp⟩
  exact hjump.agree hends

/-! ### Blocks -/

theorem exec_terminatorStmts (hwf : WellFormed program function)
    (hf : program.function? id = some function) (hrel : Related function scope env)
    (hnumber : ∃ value, scope blockName = some ⟨true, value⟩) {kind : Terminator}
    (hok : (runTerminator function kind env).Faultless) :
    Agree (EventOk program) (Ends function) (runTerminator function kind env)
      (exec invoke (privateFunctionName id) fuel scope
        (terminatorStmts kind (blockParameters function))) := by
  unfold runTerminator at hok ⊢
  unfold terminatorStmts
  cases kind with
  | «return» x =>
    dsimp only at hok ⊢
    obtain ⟨v, hread, hrun, hok⟩ := exists_of_orStuck hok
    rw [hrun]
    split
    · have hexit : Yields (EventOk program)
          (execStmt invoke (privateFunctionName id) fuel scope (.ret (valueExpr x)))
          (scope, .exit (encodeValue v)) := by
        rw [execStmt]
        exact (yields_valueExpr hf hrel hread).bind (Yields.pure _)
      have hends : Ends function (.leave v) (scope, .exit (encodeValue v)) := rfl
      rw [exec_singleton]
      exact hexit.agree hends
    · next hty =>
      rw [if_neg hty] at hok
      exact absurd rfl (hok ())
  | jump target arguments => exact exec_edgeStmts hwf hf hrel hnumber hok
  | branch condition trueTarget trueArguments falseTarget falseArguments =>
    dsimp only at hok ⊢
    obtain ⟨v, hread, hrun, hok⟩ := exists_of_orStuck hok
    rw [hrun]
    have hcondition : Yields (EventOk program) (eval invoke (privateFunctionName id) scope
        (.binary .strictEq (valueExpr condition) (.boolean true)))
        (.boolean ((encodeValue v).strictEq (.boolean true))) := by
      refine yields_binary (by decide) (yields_valueExpr hf hrel hread) ?_
      rw [eval]
      exact Yields.pure _
    rw [exec_singleton, execStmt]
    refine hcondition.bind_agree ?_
    obtain (_ | _) | _ := v
    · exact exec_edgeStmts hwf hf hrel hnumber hok
    · exact exec_edgeStmts hwf hf hrel hnumber hok
    · exact absurd rfl (hok ())

theorem exec_blockStmts (hwf : WellFormed program function)
    (hf : program.function? id = some function) (hcall : CallsAgree program call invoke)
    (hb : function.blocks[b]? = some block) (hrel : Related function scope env)
    (hnumber : ∃ value, scope blockName = some ⟨true, value⟩)
    (hok : (runBlock call function block env).Faultless) :
    Agree (EventOk program) (Ends function) (runBlock call function block env)
      (exec invoke (privateFunctionName id) fuel scope
        (blockStmts (blockParameters function) block)) := by
  obtain ⟨t, hts, -⟩ := hwf.terminator b block hb
  unfold runBlock at hok ⊢
  rw [blockStmts, exec_append]
  refine (exec_instructions hwf hf hcall hb block.instructions 0 rfl scope env hrel
    hok.of_bind).bind ?_
  rintro env' ⟨scope', signal⟩ henv ⟨hsignal, hrel', hnumber'⟩
  have hrest := hok.of_bind_done henv
  simp only at hsignal hrel' hnumber'
  subst hsignal
  rw [hts] at hrest
  rw [blockTerminatorStmts, hts]
  exact exec_terminatorStmts hwf hf hrel' (hnumber' ▸ hnumber) hrest

/-! ### The dispatch -/

variable {number : ℕ}

/-- A clause with another label is passed over. -/
theorem execCases_skip (clauses : List Case) (rest : List Case)
    (default : Scope → Run (Scope × Signal))
    (hne : ∀ clause ∈ clauses, ∃ label body, clause = .mk label body ∧ label < 2 ^ 53
      ∧ label ≠ number) :
    execCases invoke (privateFunctionName id) fuel (.number (.ofInt number)) false scope
        (clauses ++ rest) default
      = execCases invoke (privateFunctionName id) fuel (.number (.ofInt number)) false scope rest
        default := by
  induction clauses with
  | nil => rfl
  | cons clause clauses ih =>
    obtain ⟨label, body, rfl, hlabel, hlabelne⟩ := hne clause (by simp)
    have hcase : (JavaScript.Value.number (.ofInt number)).strictEq
        (.number (.ofRat false label)) = false := by
      rw [Number.ofRat_natCast hlabel]
      simp only [Value.strictEq, Number.strictEq_ofInt, decide_eq_false_iff_not]
      exact_mod_cast hlabelne.symm
    rw [cons_append, execCases, execCase, hcase, Bool.or_false, if_neg (by simp)]
    exact ih fun c hc => hne c (by simp [hc])

theorem execCases_enter {body : List Stmt} {rest : List Case}
    {default : Scope → Run (Scope × Signal)} (hsmall : number < 2 ^ 53) {m : Result Flow}
    (h : Agree (EventOk program) (Ends function) m
      (exec invoke (privateFunctionName id) fuel scope body)) :
    Agree (EventOk program) (Ends function) m
      (execCases invoke (privateFunctionName id) fuel (.number (.ofInt number)) false scope
        (.mk number body :: rest) default) := by
  have hcase : (JavaScript.Value.number (.ofInt number)).strictEq
      (.number (.ofRat false number)) = true := by
    rw [Number.ofRat_natCast hsmall]
    simp [Value.strictEq]
  rw [execCases, execCase, hcase, Bool.or_true, if_pos rfl, Traced.bind_assoc,
    ← Outcome.bind_done m]
  refine h.bind fun flow completion _ hends => ?_
  -- a block never completes normally, so that control does not fall through
  obtain ⟨scope', signal⟩ := completion
  cases flow with
  | leave v =>
    obtain rfl : signal = .exit (encodeValue v) := hends
    exact (Yields.pure _).agree rfl
  | enter target env' =>
    obtain rfl : signal = .again := hends.1
    exact (Yields.pure _).agree hends

variable (hwf : WellFormed program function) (hf : program.function? id = some function)

include hwf hf

/-- One round of the loop runs the block of the number, and no other. -/
theorem execStmt_dispatch (hcall : CallsAgree program call invoke)
    (hb : function.blocks[b]? = some block) (hrel : Related function scope env)
    (hnumber : scope blockName = some ⟨true, .number (.ofInt b)⟩)
    (hok : (runBlock call function block env).Faultless) :
    Agree (EventOk program) (Ends function) (runBlock call function block env)
      (execStmt invoke (privateFunctionName id) fuel scope (dispatch function)) := by
  have hcount : function.blocks.length ≤ 4096 := hwf.blocks_le
  have hlt := (List.getElem?_eq_some_iff.mp hb).1
  obtain ⟨front, back, hsplit, hfront⟩ := hwf.blocks_split hb
  -- the blocks in front of the selected one have other numbers
  have hskip : ∀ clause ∈ front.map (blockCase (blockParameters function)),
      ∃ label body, clause = .mk label body ∧ label < 2 ^ 53 ∧ label ≠ b := by
    intro clause hclause
    obtain ⟨c, hc, rfl⟩ := mem_map.mp hclause
    have hcid := hfront c hc
    exact ⟨c.id, _, rfl, by omega, by omega⟩
  have hcases : function.blocks.map (blockCase (blockParameters function))
      = front.map (blockCase (blockParameters function))
        ++ .mk b (blockStmts (blockParameters function) block)
          :: back.map (blockCase (blockParameters function)) := by
    conv_lhs => rw [hsplit]
    rw [map_append, map_cons, blockCase, hwf.block_id b block hb]
  have hdiscriminant : Yields (EventOk program)
      (eval invoke (privateFunctionName id) scope (.ident blockName)) (.number (.ofInt b)) :=
    yields_ident hnumber (EventOk.auxiliary _ blockName_ne_valueName _)
  rw [dispatch, execStmt]
  refine hdiscriminant.bind_agree ?_
  rw [hcases, execCases_skip _ _ _ hskip]
  exact execCases_enter (by omega) (exec_blockStmts hwf hf hcall hb hrel ⟨_, hnumber⟩ hok)

/-- The loop and the blocks of the IR, round by round. -/
theorem loopRounds_agree (rounds : ℕ) :
    ∀ (b : ℕ) (env : Env) (scope : Scope), (0 < rounds → CallsAgree program call invoke) →
      Related function scope env → scope blockName = some ⟨true, .number (.ofInt b)⟩ →
      (runBlocks call function rounds b env).Faultless →
      Agree (EventOk program) (fun v completion => completion.2 = .exit (encodeValue v))
        (runBlocks call function rounds b env)
        (loopRounds (fun scope => eval invoke (privateFunctionName id) scope (.boolean true))
          (fun scope => exec invoke (privateFunctionName id) fuel scope [dispatch function])
          rounds scope) := by
  induction rounds with
  | zero => exact fun _ _ _ _ _ _ _ => Agree.timeout
  | succ rounds ih =>
    intro b env scope hcall hrel hnumber hok
    have hcalls := hcall (Nat.succ_pos rounds)
    rw [runBlocks] at hok ⊢
    rw [loopRounds]
    obtain ⟨block, hb, hrun, hok⟩ := exists_of_orStuck hok
    rw [hrun]
    have hcondition : Yields (EventOk program)
        (eval invoke (privateFunctionName id) scope (.boolean true)) (.boolean true) := by
      rw [eval]
      exact Yields.pure _
    refine hcondition.bind_agree ?_
    rw [Value.toBoolean, if_pos rfl, exec_singleton]
    refine (execStmt_dispatch hwf hf hcalls hb hrel hnumber hok.of_bind).bind ?_
    rintro flow ⟨scope', signal⟩ hflow hends
    have hrest := hok.of_bind_done hflow
    cases flow with
    | leave v =>
      obtain rfl : signal = .exit (encodeValue v) := hends
      exact Agree.done rfl
    | enter target env' =>
      obtain ⟨rfl, hrel', -, hnumber'⟩ := hends
      exact ih target env' scope' (fun _ => hcalls) hrel' hnumber' hrest

end Simulation

/-! ### Functions -/

section Function

variable {call : FunctionId → List ControlFlow.Value → Result ControlFlow.Value}
  {invoke : String → List JavaScript.Value → Run JavaScript.Value} {fuel : ℕ}
  {arguments : List ControlFlow.Value}

theorem enter_parameter (hlen : arguments.length = function.parameters.length) {i : ℕ}
    {v : ControlFlow.Value} (hv : arguments[i]? = some v) :
    enter (functionDeclaration function).parameters (arguments.map encodeValue) (fun _ => none)
      (parameterName i) = some ⟨true, encodeValue v⟩ := by
  have hlt : i < function.parameters.length := by
    rw [← hlen]
    exact (List.getElem?_eq_some_iff.mp hv).1
  have hnodup : (functionDeclaration function).parameters.Nodup :=
    nodup_range.map fun _ _ => parameterName_injective
  have hname : (functionDeclaration function).parameters[i]? = some (parameterName i) := by
    simp [functionDeclaration, hlt]
  exact enter_getElem? hnodup hname (by simp [hv]) _

section

variable (hwf : WellFormed program function) (hf : program.function? id = some function)

include hwf hf

/-- The prologue binds the parameters and selects the entry block. -/
theorem exec_prologue
    (hty : arguments.map ControlFlow.Value.ty = function.parameters.map ValueDefinition.ty) :
    ∃ scope, Yields (EventOk program)
        (exec invoke (privateFunctionName id) fuel
          (enter (functionDeclaration function).parameters (arguments.map encodeValue)
            fun _ => none) (prologue function)) (scope, .next)
      ∧ Related function scope (startEnv function arguments)
      ∧ scope blockName = some ⟨true, .number (.ofInt (0 : ℕ))⟩ := by
  have hlen : arguments.length = function.parameters.length := by
    simpa using congrArg List.length hty
  obtain ⟨scope₁, hexec₁, hdeclared₁, hother₁⟩ : ∃ scope', Yields (EventOk program)
      (exec invoke (privateFunctionName id) fuel _ _) _ ∧ _ ∧ _ :=
    yields_declares ((List.range (valueCount function)).map valueName)
      (enter (functionDeclaration function).parameters (arguments.map encodeValue) fun _ => none)
  obtain ⟨scope₂, hexec₂, hdeclared₂, hother₂⟩ : ∃ scope', Yields (EventOk program)
      (exec invoke (privateFunctionName id) fuel _ _) _ ∧ _ ∧ _ :=
    yields_declares ((List.range (edgeTemporaryCount function)).map temporaryName) scope₁
  have hrel₂ : Related function scope₂ fun _ => none := by
    refine ⟨fun i hi => ⟨.undefined, ?_⟩, fun i hi => ⟨.undefined, ?_⟩, fun _ _ h => by cases h⟩
    · rw [hother₂, hdeclared₁ _ (mem_map.mpr ⟨i, mem_range.mpr hi, rfl⟩)]
      rintro hmem
      obtain ⟨j, -, hj⟩ := mem_map.mp hmem
      exact temporaryName_ne_valueName j i hj
    · exact hdeclared₂ _ (mem_map.mpr ⟨i, mem_range.mpr hi, rfl⟩)
  -- the declarations do not touch the parameters
  have hparameter : ∀ i v, arguments[i]? = some v →
      scope₂ (parameterName (0 + i)) = some ⟨true, encodeValue v⟩ := by
    intro i v hv
    rw [Nat.zero_add, hother₂, hother₁, enter_parameter hlen hv]
    · rintro hmem
      obtain ⟨j, -, hj⟩ := mem_map.mp hmem
      exact parameterName_ne_valueName i j hj.symm
    · rintro hmem
      obtain ⟨j, -, hj⟩ := mem_map.mp hmem
      exact parameterName_ne_temporaryName i j hj.symm
  have hmem : ∀ d ∈ function.parameters, (d, DefinitionLocation.parameter) ∈ function.located :=
    fun d hd => mem_located.mpr hd
  obtain ⟨scope₃, hexec₃, hrel₃, -⟩ : ∃ scope', Yields (EventOk program)
      (exec invoke (privateFunctionName id) fuel _ _) _ ∧ _ ∧ _ :=
    exec_loads hwf hf parameterName_ne_valueName function.parameters 0 arguments scope₂ _ hmem hty
      hrel₂ hparameter
  have hinit : Yields (EventOk program)
      (execStmt invoke (privateFunctionName id) fuel scope₃ (.declareInit blockName (.number 0)))
      (scope₃.declare blockName true (.number (.ofInt (0 : ℕ))), .next) := by
    rw [execStmt]
    exact (yields_number (by norm_num)).bind
      ((Yields.tell (EventOk.auxiliary _ blockName_ne_valueName _)).bind (Yields.pure _))
  refine ⟨scope₃.declare blockName true (.number (.ofInt (0 : ℕ))), ?_,
    hrel₃.declare blockName_ne_valueName _, Scope.declare_self ..⟩
  rw [map_map] at hexec₁ hexec₂
  rw [zipIdx_map, map_map] at hexec₃
  rw [← exec_singleton] at hinit
  unfold prologue
  rw [append_assoc, append_assoc]
  exact Yields.exec_append hexec₁ (Yields.exec_append hexec₂ (Yields.exec_append hexec₃ hinit))

theorem execBody_agree (hid : function.id = id) (hcall : 0 < fuel → CallsAgree program call invoke)
    (hty : arguments.map ControlFlow.Value.ty = function.parameters.map ValueDefinition.ty)
    (hok : (runBlocks call function fuel 0 (startEnv function arguments)).Faultless) :
    Agree (EventOk program) (fun v w => w = encodeValue v)
      (runBlocks call function fuel 0 (startEnv function arguments))
      (execBody invoke fuel (functionDeclaration function) (arguments.map encodeValue)) := by
  obtain ⟨scope, hprologue, hrel, hnumber⟩ : ∃ scope, Yields (EventOk program)
      (exec invoke (privateFunctionName id) fuel _ _) _ ∧ _ ∧ _ := exec_prologue hwf hf hty
  have hloop : Agree (EventOk program) _ _ (loopRounds _ (fun scope => exec invoke _ fuel scope _) _ _) :=
    loopRounds_agree hwf hf fuel 0 _ scope hcall hrel hnumber hok
  have hname : (functionDeclaration function).name = privateFunctionName id := by
    rw [functionDeclaration, hid]
  have hbody : (functionDeclaration function).body
      = prologue function ++ [.while (.boolean true) [dispatch function]] := rfl
  rw [execBody, hname, hbody, exec_append, Traced.bind_assoc]
  refine hprologue.bind_agree ?_
  rw [andThen, exec_singleton, execStmt, ← Outcome.bind_done (runBlocks _ _ _ _ _)]
  refine hloop.bind ?_
  rintro v ⟨scope', signal⟩ _ hsignal
  obtain rfl : signal = .exit (encodeValue v) := hsignal
  exact (Yields.pure _).agree rfl

end

/-! ### Programs -/

/-- The functions of the emitted module that calls can reach: the multiplication of the prelude and
the private functions of the program. -/
def script (verified : VerifiedProgram) : List Func :=
  imul :: verified.functions.map fun view => functionDeclaration view.function

theorem findFunc_imul (verified : VerifiedProgram) :
    findFunc (script verified) imul.name = some imul := by
  simp [findFunc, script]

variable {verified : VerifiedProgram}

/-- A private name resolves to the declaration of its function. -/
theorem findFunc_script (facts : VerifiedFacts verified.program)
    (hf : verified.program.function? id = some function) :
    findFunc (script verified) (privateFunctionName id) = some (functionDeclaration function) := by
  have hid := facts.function_id id function hf
  have hhead : ¬ imul.name = privateFunctionName id :=
    fun h => privateFunctionName_ne_imul id h.symm
  rw [findFunc, script, find?_cons_of_neg (by simpa using hhead), find?_map]
  -- some view has the name
  obtain ⟨view₀, hmem₀, hview₀⟩ := facts.mem_functions.mpr (hid.symm ▸ hf)
  cases hfind : verified.functions.find?
      ((fun func => decide (func.name = privateFunctionName id))
        ∘ fun view => functionDeclaration view.function) with
  | none =>
    have := find?_eq_none.mp hfind view₀ hmem₀
    simp [functionDeclaration, hview₀, hid] at this
  | some view =>
    -- whichever view is found, it is the one of the function
    have hname : privateFunctionName view.function.id = privateFunctionName id := by
      simpa [functionDeclaration] using find?_some hfind
    have hself := facts.mem_functions.mp ⟨view, mem_of_find?_eq_some hfind, rfl⟩
    rw [privateFunctionName_injective hname, hf, Option.some.injEq] at hself
    rw [Option.map_some, hself]

/-- At every fuel, calls of the script agree with calls of the program. -/
theorem callsAgree_run (facts : VerifiedFacts verified.program) (n : ℕ) :
    CallsAgree verified.program (run verified.program n) (JavaScript.invoke (script verified) n) := by
  induction n with
  | zero =>
    refine ⟨fun id arguments hok => ?_, fun l r => ?_⟩
    · obtain ⟨function, hf, hty⟩ := enter_of_faultless hok
      -- without fuel the loop is not entered, so that no call is made
      have hstart : runBlocks (run verified.program 0) function 0 0 (startEnv function arguments)
          = .timeout := rfl
      rw [JavaScript.invoke, findFunc_script facts hf, run_zero hf hty, ← hstart]
      refine execBody_agree (facts.wellFormed id function hf) hf (facts.function_id id function hf)
        (fun h => absurd h (lt_irrefl 0)) hty ?_
      intro e h
      cases h
    · rw [JavaScript.invoke, findFunc_imul]
      exact yields_imul (allowsImul_eventOk _) l r
  | succ n ih =>
    refine ⟨fun id arguments hok => ?_, fun l r => ?_⟩
    · obtain ⟨function, hf, hty⟩ := enter_of_faultless hok
      rw [run_succ hf hty] at hok ⊢
      rw [JavaScript.invoke, findFunc_script facts hf]
      exact execBody_agree (facts.wellFormed id function hf) hf (facts.function_id id function hf)
        (fun _ => ih) hty hok
    · rw [JavaScript.invoke, findFunc_imul]
      exact yields_imul (allowsImul_eventOk _) l r

end Function

/-- The private function of `id` stands for the function on `arguments`: it returns exactly the
encoded results, diverges exactly when the program does and never throws, and everything that
happens on the way is as `EventOk` says. -/
structure StandsFor (program : Program) (id : FunctionId) (result : IrType)
    (arguments : List ControlFlow.Value) (script : List Func) : Prop where
  returns : ∀ v : ControlFlow.Value, Outcome.Returns (fun n =>
    (JavaScript.invoke script n (privateFunctionName id) (arguments.map encodeValue)).outcome)
      (encodeValue v) ↔ Returns program id arguments v
  canonical : ∀ w, Outcome.Returns (fun n =>
    (JavaScript.invoke script n (privateFunctionName id) (arguments.map encodeValue)).outcome) w →
      Canonical result w
  diverges : Outcome.Diverges (fun n =>
    (JavaScript.invoke script n (privateFunctionName id) (arguments.map encodeValue)).outcome) ↔
      Diverges program id arguments
  faultless : ∀ n, (JavaScript.invoke script n (privateFunctionName id)
    (arguments.map encodeValue)).outcome.Faultless
  events : ∀ n, ∀ event ∈ (JavaScript.invoke script n (privateFunctionName id)
    (arguments.map encodeValue)).trace, EventOk program event

/-- **Emission preserves meaning.** The texts emitted for a verified program render a script in
which every private function stands for the function it was emitted for, and `$zryna$imul`
computes the wrapping product of any two integers by exact arithmetic. -/
theorem emitControlFlowFunction_correct {program : Program} {sources : SourceMap}
    {expectedEntry : FileId} {verified : VerifiedProgram}
    (hverify : verify program sources expectedEntry = .ok verified) {id : FunctionId}
    {function : Function} (hf : program.function? id = some function)
    {arguments : List ControlFlow.Value}
    (hty : arguments.map ControlFlow.Value.ty = function.parameters.map ValueDefinition.ty) :
    (script verified).map Func.render
        = imulText :: verified.functions.map (fun view => emitControlFlowFunction view.function)
      ∧ StandsFor program id function.result arguments (script verified)
      ∧ ∀ (n : ℕ) (l r : BitVec 32), Yields Observation.Exact
        (JavaScript.invoke (script verified) n "$zryna$imul"
          [.number (.ofInt32 l), .number (.ofInt32 r)]) (.number (.ofInt32 (l * r))) := by
  have facts := verifiedFacts_of_verify hverify
  obtain ⟨-, -, rfl⟩ := clean_of_verify hverify
  have hcalls := callsAgree_run facts
  have hagree := fun n => (hcalls n).function id arguments (run_faultless facts hf hty n)
  have houtcome : ∀ n, Outcome.Agree (fun v w => w = encodeValue v)
      (run verified.program n id arguments)
      (JavaScript.invoke (script verified) n (privateFunctionName id)
        (arguments.map encodeValue)).outcome := fun n => (hagree n).outcome
  refine ⟨?_, ⟨fun v => ?_, fun w ⟨n, hn⟩ => ?_, ?_, fun n e he => ?_, fun n => (hagree n).trace⟩,
    fun n l r => ?_⟩
  · rw [script, map_cons, imulText_eq_render, map_map]
    refine congrArg _ (map_congr_left fun view _ => ?_)
    rw [emitControlFlowFunction_eq_render]
    rfl
  · rw [returns_iff facts hf hty]
    exact (Outcome.returns_iff_of_agree encodeValue_injective houtcome v).symm
  · have h := houtcome n
    dsimp only at hn
    rw [hn] at h
    cases hrun : run verified.program n id arguments with
    | timeout => rw [hrun] at h; exact h.elim
    | fault e => rw [hrun] at h; exact h.elim
    | done v =>
      rw [hrun] at h
      obtain rfl : w = encodeValue v := h
      rw [← result_ty facts hf hty ((returns_iff facts hf hty v).mpr ⟨n, hrun⟩)]
      exact canonical_encodeValue v
  · rw [diverges_iff facts hf hty]
    exact (Outcome.diverges_iff_of_agree houtcome).symm
  · have h := houtcome n
    rw [he] at h
    cases hrun : run verified.program n id arguments with
    | timeout => rw [hrun] at h; exact h
    | fault e => rw [hrun] at h; exact h
    | done v => rw [hrun] at h; exact h
  · have h := (hcalls n).imul l r
    exact ⟨fun event hevent => (h.trace event hevent).exact, h.outcome⟩

theorem emitControlFlowFunction_correct_countdown :
    (script ⟨countdown, []⟩).map Func.render
        = imulText :: (VerifiedProgram.functions ⟨countdown, []⟩).map
          (fun view => emitControlFlowFunction view.function)
      ∧ StandsFor countdown ⟨0, 0⟩ countdownMain.result [.i32 2] (script ⟨countdown, []⟩)
      ∧ ∀ (n : ℕ) (l r : BitVec 32), Yields Observation.Exact
        (JavaScript.invoke (script ⟨countdown, []⟩) n "$zryna$imul"
          [.number (.ofInt32 l), .number (.ofInt32 r)]) (.number (.ofInt32 (l * r))) := by
  have hf : countdown.function? ⟨0, 0⟩ = some countdownMain := rfl
  exact emitControlFlowFunction_correct verify_countdown hf rfl

end Zryna.Backend.JavaScript
