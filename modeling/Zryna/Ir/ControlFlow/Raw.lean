import Zryna.Source

/-!
# Raw `ControlFlowV1` programs

The untrusted claims of `zryna_ir::control_flow_v1::raw`: modules of functions, functions of
basic blocks in SSA form with block parameters, instructions over `bool` and `i32`, and the three
terminators. A block keeps a *list* of terminators, so that a claim with none or several of them
can be represented and rejected.

Dense identifiers are natural numbers. The `i32` payload of a literal is a 32-bit vector.
-/

namespace Zryna.Ir

/-- Scalar types of the intermediate representation. -/
inductive IrType where
  | unit
  | bool
  | i32
deriving DecidableEq

namespace ControlFlow

abbrev I32 := BitVec 32

/-- Claimed canonical function identity. -/
structure FunctionId where
  module : ℕ
  declaration : ℕ
deriving DecidableEq

/-- One claimed typed value definition. -/
structure ValueDefinition where
  id : ℕ
  ty : IrType
  span : Span
deriving DecidableEq

/-- Exhaustive operations in `ControlFlowV1`. -/
inductive InstructionKind where
  | boolLiteral (value : Bool)
  | i32Literal (value : I32)
  | i32Add (lhs rhs : ℕ)
  | i32Sub (lhs rhs : ℕ)
  | i32Mul (lhs rhs : ℕ)
  | i32Neg (operand : ℕ)
  | eq (lhs rhs : ℕ)
  | ne (lhs rhs : ℕ)
  | i32LtS (lhs rhs : ℕ)
  | i32LeS (lhs rhs : ℕ)
  | i32GtS (lhs rhs : ℕ)
  | i32GeS (lhs rhs : ℕ)
  | directCall (callee : FunctionId) (arguments : List ℕ)
deriving DecidableEq

/-- One claimed typed instruction result. -/
structure Instruction where
  result : ValueDefinition
  kind : InstructionKind
deriving DecidableEq

/-- Exhaustive terminators in `ControlFlowV1`. -/
inductive Terminator where
  | return (value : ℕ)
  | jump (target : ℕ) (arguments : List ℕ)
  | branch (condition : ℕ) (trueTarget : ℕ) (trueArguments : List ℕ)
      (falseTarget : ℕ) (falseArguments : List ℕ)
deriving DecidableEq

/-- One claimed block terminator with its source range. -/
structure SpannedTerminator where
  span : Span
  kind : Terminator
deriving DecidableEq

/-- One claimed dense basic block. -/
structure Block where
  id : ℕ
  parameters : List ValueDefinition
  instructions : List Instruction
  terminators : List SpannedTerminator
deriving DecidableEq

/-- One claimed function in source declaration order. -/
structure Function where
  id : FunctionId
  entryExport : Option String
  span : Span
  parameters : List ValueDefinition
  result : IrType
  blocks : List Block
deriving DecidableEq

/-- One claimed module ordered by normalized source path. -/
structure Module where
  id : ℕ
  sourceFile : FileId
  functions : List Function
deriving DecidableEq

/-- Complete raw `ControlFlowV1` program. -/
structure Program where
  entryModule : ℕ
  modules : List Module
deriving DecidableEq

/-- The function at a position of the module table. -/
def Program.function? (program : Program) (id : FunctionId) : Option Function :=
  program.modules[id.module]?.bind fun module => module.functions[id.declaration]?

/-- Value operands of an instruction, in evaluation order. -/
def instructionOperands : InstructionKind → List ℕ
  | .boolLiteral _ | .i32Literal _ => []
  | .i32Neg operand => [operand]
  | .i32Add lhs rhs | .i32Sub lhs rhs | .i32Mul lhs rhs | .eq lhs rhs | .ne lhs rhs
  | .i32LtS lhs rhs | .i32LeS lhs rhs | .i32GtS lhs rhs | .i32GeS lhs rhs => [lhs, rhs]
  | .directCall _ arguments => arguments

def terminatorOperands : Terminator → List ℕ
  | .return value => [value]
  | .jump _ arguments => arguments
  | .branch condition _ trueArguments _ falseArguments =>
    condition :: (trueArguments ++ falseArguments)

end ControlFlow

end Zryna.Ir
