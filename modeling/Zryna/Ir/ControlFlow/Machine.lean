import Mathlib.Logic.Function.Basic
import Mathlib.Logic.Relation
import Zryna.Ir.ControlFlow.Raw

/-!
# Step-by-step evaluation of `ControlFlowV1`

A machine state is a stack of frames. A frame executes the instructions of one block in order,
then its terminator: a return hands the value to the call instruction of the frame below, an edge
reads all its arguments and then binds the parameters of its target.

The step function is strict. It is undefined, and the machine is stuck, as soon as an operand has
not been defined or does not carry its declared type, an operation, a call, a return or an edge
receives values of the wrong number or types, a branch condition is not a `bool`, or a target does
not exist or is the entry block.
-/

namespace Zryna.Ir.ControlFlow

/-- Runtime values. -/
inductive Value where
  | bool (value : Bool)
  | i32 (value : I32)
deriving DecidableEq

def Value.ty : Value → IrType
  | .bool _ => .bool
  | .i32 _ => .i32

/-- The values defined so far in one activation. -/
abbrev Env := ℕ → Option Value

/-- Every value definition of a function, in numbering order. -/
def Function.definitions (function : Function) : List ValueDefinition :=
  function.parameters ++ function.blocks.flatMap fun block =>
    block.parameters ++ block.instructions.map Instruction.result

def Function.declaredType (function : Function) (id : ℕ) : Option IrType :=
  (function.definitions.find? fun definition => definition.id = id).map ValueDefinition.ty

/-- Reads an operand, which must be defined and carry its declared type. -/
def readOperand (function : Function) (env : Env) (id : ℕ) : Option Value :=
  (env id).filter fun value => function.declaredType id = some value.ty

/-- Reads operands from left to right. -/
def readOperands (function : Function) (env : Env) : List ℕ → Option (List Value)
  | [] => some []
  | id :: ids =>
    (readOperand function env id).bind fun value =>
      (readOperands function env ids).map (value :: ·)

/-- The operations other than calls. Arithmetic wraps and comparisons are signed. -/
def evalOperation : InstructionKind → List Value → Option Value
  | .boolLiteral value, [] => some (.bool value)
  | .i32Literal value, [] => some (.i32 value)
  | .i32Add _ _, [.i32 lhs, .i32 rhs] => some (.i32 (lhs + rhs))
  | .i32Sub _ _, [.i32 lhs, .i32 rhs] => some (.i32 (lhs - rhs))
  | .i32Mul _ _, [.i32 lhs, .i32 rhs] => some (.i32 (lhs * rhs))
  | .i32Neg _, [.i32 operand] => some (.i32 (-operand))
  | .eq _ _, [.i32 lhs, .i32 rhs] => some (.bool (lhs == rhs))
  | .eq _ _, [.bool lhs, .bool rhs] => some (.bool (lhs == rhs))
  | .ne _ _, [.i32 lhs, .i32 rhs] => some (.bool (lhs != rhs))
  | .ne _ _, [.bool lhs, .bool rhs] => some (.bool (lhs != rhs))
  | .i32LtS _ _, [.i32 lhs, .i32 rhs] => some (.bool (lhs.slt rhs))
  | .i32LeS _ _, [.i32 lhs, .i32 rhs] => some (.bool (lhs.sle rhs))
  | .i32GtS _ _, [.i32 lhs, .i32 rhs] => some (.bool (rhs.slt lhs))
  | .i32GeS _ _, [.i32 lhs, .i32 rhs] => some (.bool (rhs.sle lhs))
  | _, _ => none

/-- Binds a list of values at once. The values have all been read before. -/
def Env.bindAll (env : Env) : List (ℕ × Value) → Env
  | [] => env
  | (id, value) :: rest => Env.bindAll (Function.update env id (some value)) rest

/-- Binds parameters to values of exactly their types. -/
def bindParameters (parameters : List ValueDefinition) (values : List Value) (env : Env) :
    Option Env :=
  if values.map Value.ty = parameters.map ValueDefinition.ty then
    some (env.bindAll ((parameters.map ValueDefinition.id).zip values))
  else none

/-- One activation of a function. -/
structure Frame where
  function : FunctionId
  block : ℕ
  position : ℕ
  env : Env

section

variable (program : Program)

def enterFunction (id : FunctionId) (arguments : List Value) : Option Frame :=
  (program.function? id).bind fun function =>
    (bindParameters function.parameters arguments fun _ => none).map fun env => ⟨id, 0, 0, env⟩

/-- Records the result of the current instruction and moves on. -/
def Frame.define (frame : Frame) (result : ValueDefinition) (value : Value) : Option Frame :=
  if value.ty = result.ty then
    some { frame with
      position := frame.position + 1
      env := Function.update frame.env result.id (some value) }
  else none

/-- Follows an edge. -/
def Frame.takeEdge (function : Function) (frame : Frame) (target : ℕ)
    (arguments : List ℕ) : Option Frame :=
  (readOperands function frame.env arguments).bind fun values =>
    (function.blocks[target]?).bind fun block =>
      if target = 0 then none
      else (bindParameters block.parameters values frame.env).map fun env =>
        { frame with block := target, position := 0, env := env }

def Frame.instruction? (frame : Frame) : Option Instruction :=
  (program.function? frame.function).bind fun function =>
    (function.blocks[frame.block]?).bind fun block => block.instructions[frame.position]?

/-- Hands the result of a call to the frame that made it. -/
def Frame.deliver (caller : Frame) (value : Value) : Option Frame :=
  (caller.instruction? program).bind fun instruction => caller.define instruction.result value

/-- A machine state: the running frame and the frames waiting for it, or the final value. -/
inductive State where
  | running (frame : Frame) (callers : List Frame)
  | halted (value : Value)

def stepInstruction (function : Function) (instruction : Instruction)
    (frame : Frame) (callers : List Frame) : Option State :=
  (readOperands function frame.env (instructionOperands instruction.kind)).bind fun values =>
    match instruction.kind with
    | .directCall callee _ =>
      (enterFunction program callee values).map fun entered => .running entered (frame :: callers)
    | kind =>
      (evalOperation kind values).bind fun value =>
        (frame.define instruction.result value).map fun next => .running next callers

def stepTerminator (function : Function) (terminator : Terminator)
    (frame : Frame) (callers : List Frame) : Option State :=
  match terminator with
  | .return id =>
    (readOperand function frame.env id).bind fun value =>
      if value.ty = function.result then
        match callers with
        | [] => some (.halted value)
        | caller :: rest => (caller.deliver program value).map fun next => .running next rest
      else none
  | .jump target arguments =>
    (frame.takeEdge function target arguments).map fun next => .running next callers
  | .branch condition trueTarget trueArguments falseTarget falseArguments =>
    (readOperand function frame.env condition).bind fun value =>
      match value with
      | .bool true =>
        (frame.takeEdge function trueTarget trueArguments).map fun next => .running next callers
      | .bool false =>
        (frame.takeEdge function falseTarget falseArguments).map fun next => .running next callers
      | .i32 _ => none

/-- One step of the machine, undefined when it is stuck or has halted. -/
def step : State → Option State
  | .halted _ => none
  | .running frame callers =>
    (program.function? frame.function).bind fun function =>
      (function.blocks[frame.block]?).bind fun block =>
        match block.instructions[frame.position]? with
        | some instruction => stepInstruction program function instruction frame callers
        | none =>
          match block.terminators with
          | [terminator] => stepTerminator program function terminator.kind frame callers
          | _ => none

/-- The states reached from `s`. -/
def Reachable (s s' : State) : Prop :=
  Relation.ReflTransGen (fun a b => step program a = some b) s s'

end

/-- The number of active functions. -/
def State.depth : State → ℕ
  | .running _ callers => callers.length + 1
  | .halted _ => 0

end Zryna.Ir.ControlFlow
