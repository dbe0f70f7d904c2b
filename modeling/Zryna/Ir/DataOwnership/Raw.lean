import Zryna.Source

/-!
# Raw `DataOwnershipV1` programs

The untrusted claims of `zryna_ir::data_ownership_v1::raw`. On top of the control-flow constructs
(modules, functions, basic blocks in SSA form with block parameters) a function declares *places*:
roots (parameters, locals, temporaries) and projections of them (struct fields, enum payloads,
constant array elements). Instructions move, copy, clone, initialise, replace, borrow and drop
places, and every operation that can fail names a cleanup plan.

Dense identifiers and type identifiers are natural numbers. The 32-bit payload of an integer
literal and the key of an environment lookup are read by no check and are kept as claimed.
-/

namespace Zryna.Ir.DataOwnership

/-! ### Limits -/

def maxModules : ℕ := 4096
/-- Maximum functions in one module. -/
def maxFunctionsPerModule : ℕ := 4096
def maxFunctionsPerProgram : ℕ := 16384
/-- Maximum value parameters in one function. -/
def maxParametersPerFunction : ℕ := 256
def maxParametersPerProgram : ℕ := 262144
/-- Maximum blocks in one function. -/
def maxBlocksPerFunction : ℕ := 4096
def maxBlocksPerProgram : ℕ := 65536
/-- Maximum parameters on one block. -/
def maxBlockParameters : ℕ := 256
def maxValuesPerFunction : ℕ := 16384
/-- Maximum values in one program. -/
def maxValuesPerProgram : ℕ := 262144
def maxCfgEdgesPerFunction : ℕ := 8192
/-- Maximum CFG edges in one program. -/
def maxCfgEdgesPerProgram : ℕ := 131072
def maxCallEdges : ℕ := 65536
/-- Maximum acyclic direct-call depth. -/
def maxStaticCallDepth : ℕ := 128
def maxLoopNesting : ℕ := 128
/-- Maximum nominal declarations in one program. -/
def maxNominalDeclarations : ℕ := 4096
/-- Maximum types in one sealed universe. -/
def maxInstantiatedTypes : ℕ := 65536
/-- Maximum aggregate construction operands in one program. -/
def maxAggregateOperands : ℕ := 262144
def maxPlacesPerFunction : ℕ := 65536
/-- Maximum ownership transitions in one function. -/
def maxOwnershipTransitionsPerFunction : ℕ := 262144
def maxActiveBorrowsPerFunction : ℕ := 16384
/-- Maximum derived drop actions in one function. -/
def maxDropActionsPerFunction : ℕ := 262144
/-- Maximum cleanup plans, including empty plans, in one function. -/
def maxCleanupPlansPerFunction : ℕ := 65536
/-- Maximum cumulative UTF-8 literal bytes retained by one program. -/
def maxStringLiteralBytes : ℕ := 8 * 1024 * 1024
/-- Maximum retained diagnostics including the terminal diagnostic. -/
def maxDiagnostics : ℕ := 256
/-- Maximum total transient identities cached at block entries in one function. -/
def maxContinuedIndexedIdentitiesPerFunction : ℕ := 262144

def usizeMax : ℕ := 2 ^ 64 - 1

/-! ### Programs -/

/-- Runtime contract identity retained by this boundary. -/
inductive RuntimeContractIdentity where
  | ownershipRuntimeV1
  | commandH1V1
deriving DecidableEq

/-- Claimed canonical function identity. -/
structure FunctionId where
  module : ℕ
  declaration : ℕ
deriving DecidableEq

/-- The layout and runtime authorities a program claims to be built for. -/
structure AuthorityClaims where
  runtime : RuntimeContractIdentity
  typeUniverse : List ℕ
  linear32Fingerprint : List ℕ
  linuxX8664Fingerprint : List ℕ
deriving DecidableEq

/-- One claimed typed value definition. -/
structure ValueDefinition where
  id : ℕ
  ty : ℕ
  span : Span
deriving DecidableEq

inductive BorrowAccess where
  | shared
  | exclusive
deriving DecidableEq

structure BorrowParameter where
  id : ℕ
  referent : ℕ
  access : BorrowAccess
  span : Span
deriving DecidableEq

/-- A root, or a projection of an earlier place. -/
inductive PlaceKind where
  | parameter (index : ℕ)
  | local (index : ℕ)
  | temporary (value : ℕ)
  | structField (base ordinal : ℕ)
  | enumPayload (base variant : ℕ)
  | fixedArrayConstant (base index : ℕ)
deriving DecidableEq

structure Place where
  id : ℕ
  ty : ℕ
  span : Span
  kind : PlaceKind
deriving DecidableEq

structure BorrowDefinition where
  id : ℕ
  place : ℕ
  access : BorrowAccess
  span : Span
deriving DecidableEq

inductive CallArgument where
  | value (value : ℕ)
  | borrow (borrow : ℕ)
deriving DecidableEq

/-- Exhaustive operations in `DataOwnershipV1`. -/
inductive InstructionKind where
  | boolLiteral (value : Bool)
  | i32Literal (value : BitVec 32)
  | i32Add (lhs rhs : ℕ)
  | i32Sub (lhs rhs : ℕ)
  | i32Mul (lhs rhs : ℕ)
  | i32Neg (operand : ℕ)
  | eq (lhs rhs : ℕ)
  | ne (lhs rhs : ℕ)
  | i32LtS (lhs rhs : ℕ)
  | i32LeS (lhs rhs : ℕ)
  | i32GtS (lhs rhs : ℕ)
  | i32GeS (lhs rhs : ℕ)
  | directCall (callee : FunctionId) (arguments : List CallArgument) (cleanup : ℕ)
  | structConstruct (fields : List ℕ) (cleanup : Option ℕ)
  | enumConstruct (variant : ℕ) (payload : Option ℕ) (cleanup : Option ℕ)
  | environmentLookup (key : String) (cleanup : ℕ)
  | fixedArrayConstruct (elements : List ℕ) (cleanup : Option ℕ)
  | copyFromPlace (place : ℕ)
  | moveFromPlace (place : ℕ)
  | genericMoveFromPlace (place : ℕ)
  | clonePlace (place cleanup : ℕ) (elementCleanup : Option ℕ)
  | genericClonePlace (place cleanup prefixCleanup : ℕ)
  | genericCloneBorrow (borrow cleanup prefixCleanup : ℕ)
  | handleAwareClonePlace (place cleanup prefixCleanup : ℕ)
  | handleAwareCloneBorrow (borrow cleanup prefixCleanup : ℕ)
  | initializePlace (place value : ℕ)
  | replacePlace (place value : ℕ)
  | genericReplacePlace (place value : ℕ)
  | dropPlace (place : ℕ)
  | enumDiscriminant (place : ℕ)
  | fixedArrayIndexCopy (place index cleanup : ℕ)
  | vecIndexCopy (place index cleanup : ℕ)
  | stringFromUtf8 (bytes : List ℕ) (cleanup : ℕ)
  | stringClone (place cleanup : ℕ)
  | stringConcat (left right cleanup : ℕ)
  | vecClone (place cleanup : ℕ) (elementCleanup : Option ℕ)
  | vecConstruct (elements : List ℕ) (cleanup : ℕ)
  | vecPush (vector value cleanup : ℕ)
  | sharedConstruct (value cleanup : ℕ)
  | sharedClone (place cleanup : ℕ)
  | weakDowngrade (place cleanup : ℕ)
  | weakClone (place cleanup : ℕ)
  | beginBorrow (definition : BorrowDefinition)
  | beginIndexedBorrow (definition : BorrowDefinition) (index cleanup : ℕ)
  | beginIndexedAccess (definition : BorrowDefinition) (index cleanup : ℕ)
  | projectIndexedBorrow (parent borrow index cleanup : ℕ)
  | bindIndexedBorrow (parent borrow : ℕ)
  | borrowReplace (borrow value : ℕ)
  | borrowRead (borrow : ℕ)
  | borrowWrite (borrow value : ℕ)
  | endBorrow (borrow : ℕ)
deriving DecidableEq

structure Instruction where
  result : Option ValueDefinition
  span : Span
  kind : InstructionKind
deriving DecidableEq

/-- One claimed control-flow edge. -/
structure Edge where
  target : ℕ
  arguments : List ℕ
deriving DecidableEq

structure EnumArm where
  variant : ℕ
  edge : Edge
deriving DecidableEq

inductive TrapIdentity where
  | boundsV1
  | allocationV1
  | capacityV1
  | refcountV1
  | utf8V1
deriving DecidableEq

/-- Exhaustive terminators in `DataOwnershipV1`. -/
inductive Terminator where
  | return (value cleanup : ℕ)
  | jump (edge : Edge)
  | branch (condition : ℕ) (whenTrue whenFalse : Edge)
  | enumMatch (place : ℕ) (arms : List EnumArm)
  | weakUpgradeBranch (weak : ℕ) (success expired : Edge) (cleanup : ℕ)
  | trap (identity : TrapIdentity) (cleanup : ℕ)
deriving DecidableEq

structure SpannedTerminator where
  span : Span
  kind : Terminator
deriving DecidableEq

structure Block where
  id : ℕ
  parameters : List ValueDefinition
  instructions : List Instruction
  terminators : List SpannedTerminator
deriving DecidableEq

/-- One claimed destruction step of a cleanup plan. -/
inductive DropAction where
  | dropPlace (place : ℕ)
  | dropVecInitializedPrefix (place : ℕ)
  | dropAggregateInitializedPrefix (place : ℕ)
  | dropGenericCloneInitializedPrefix (place : ℕ)
deriving DecidableEq

/-- The place a destruction step names. -/
def DropAction.place : DropAction → ℕ
  | .dropPlace place | .dropVecInitializedPrefix place | .dropAggregateInitializedPrefix place
  | .dropGenericCloneInitializedPrefix place => place

structure CleanupPlan where
  id : ℕ
  span : Span
  actions : List DropAction
deriving DecidableEq

structure Function where
  id : FunctionId
  entryExport : Option String
  span : Span
  parameters : List ValueDefinition
  borrowParameters : List BorrowParameter
  result : ℕ
  places : List Place
  blocks : List Block
  cleanupPlans : List CleanupPlan
deriving DecidableEq

structure Module where
  id : ℕ
  sourceFile : FileId
  dataDeclarations : ℕ
  functions : List Function
deriving DecidableEq

/-- Complete raw `DataOwnershipV1` program. -/
structure Program where
  authorities : AuthorityClaims
  entryModule : ℕ
  modules : List Module
deriving DecidableEq

/-! ### Operands -/

def valueArguments (arguments : List CallArgument) : List ℕ :=
  arguments.filterMap fun
    | .value value => some value
    | .borrow _ => none

def borrowArguments (arguments : List CallArgument) : List ℕ :=
  arguments.filterMap fun
    | .borrow borrow => some borrow
    | .value _ => none

/-- Value operands an instruction takes over. -/
def consumingInstructionOperands : InstructionKind → List ℕ
  | .directCall _ arguments _ => valueArguments arguments
  | .structConstruct fields _ => fields
  | .enumConstruct _ payload _ => payload.toList
  | .fixedArrayConstruct elements _ | .vecConstruct elements _ => elements
  | .initializePlace _ value | .replacePlace _ value | .genericReplacePlace _ value
  | .vecPush _ value _ | .sharedConstruct value _ | .borrowWrite _ value
  | .borrowReplace _ value => [value]
  | _ => []

def instructionOperands : InstructionKind → List ℕ
  | .i32Add lhs rhs | .i32Sub lhs rhs | .i32Mul lhs rhs | .eq lhs rhs | .ne lhs rhs
  | .i32LtS lhs rhs | .i32LeS lhs rhs | .i32GtS lhs rhs | .i32GeS lhs rhs => [lhs, rhs]
  | .i32Neg operand => [operand]
  | .directCall _ arguments _ => valueArguments arguments
  | .structConstruct fields _ => fields
  | .enumConstruct _ payload _ => payload.toList
  | .fixedArrayConstruct elements _ | .vecConstruct elements _ => elements
  | .initializePlace _ value | .replacePlace _ value | .genericReplacePlace _ value
  | .vecPush _ value _ | .sharedConstruct value _ | .borrowWrite _ value
  | .borrowReplace _ value => [value]
  | .fixedArrayIndexCopy _ index _ | .vecIndexCopy _ index _ | .beginIndexedBorrow _ index _
  | .beginIndexedAccess _ index _ | .projectIndexedBorrow _ _ index _ => [index]
  | _ => []

def instructionPlaceOperands : InstructionKind → List ℕ
  | .copyFromPlace place | .moveFromPlace place | .genericMoveFromPlace place
  | .clonePlace place _ _ | .genericClonePlace place _ _ | .handleAwareClonePlace place _ _
  | .initializePlace place _ | .replacePlace place _ | .genericReplacePlace place _
  | .dropPlace place | .enumDiscriminant place | .fixedArrayIndexCopy place _ _
  | .vecIndexCopy place _ _ | .stringClone place _ | .vecClone place _ _
  | .sharedClone place _ | .weakDowngrade place _ | .weakClone place _ => [place]
  | .stringConcat left right _ => [left, right]
  | .vecPush vector _ _ => [vector]
  | .beginBorrow definition | .beginIndexedBorrow definition _ _
  | .beginIndexedAccess definition _ _ => [definition.place]
  | _ => []

/-- The plan that runs when an instruction fails before it has produced anything. -/
def instructionCleanup : InstructionKind → Option ℕ
  | .structConstruct _ cleanup | .enumConstruct _ _ cleanup
  | .fixedArrayConstruct _ cleanup => cleanup
  | .directCall _ _ cleanup | .environmentLookup _ cleanup | .clonePlace _ cleanup _
  | .genericClonePlace _ cleanup _ | .genericCloneBorrow _ cleanup _
  | .handleAwareClonePlace _ cleanup _ | .handleAwareCloneBorrow _ cleanup _
  | .fixedArrayIndexCopy _ _ cleanup | .vecIndexCopy _ _ cleanup | .stringFromUtf8 _ cleanup
  | .stringClone _ cleanup | .stringConcat _ _ cleanup | .vecClone _ cleanup _
  | .vecConstruct _ cleanup | .vecPush _ _ cleanup | .sharedConstruct _ cleanup
  | .sharedClone _ cleanup | .weakDowngrade _ cleanup | .weakClone _ cleanup
  | .beginIndexedBorrow _ _ cleanup | .beginIndexedAccess _ _ cleanup
  | .projectIndexedBorrow _ _ _ cleanup => some cleanup
  | _ => none

def terminatorEdges : Terminator → List Edge
  | .return .. | .trap .. => []
  | .jump edge => [edge]
  | .branch _ whenTrue whenFalse => [whenTrue, whenFalse]
  | .enumMatch _ arms => arms.map EnumArm.edge
  | .weakUpgradeBranch _ success expired _ => [success, expired]

/-- Edge `index` of a terminator is the success edge of a weak upgrade, whose target receives the
upgraded handle in its first parameter. The source compares edges by address; a success edge is
the first edge of its terminator. -/
def synthesizedEdge : Terminator → ℕ → Bool
  | .weakUpgradeBranch .., 0 => true
  | _, _ => false

def terminatorOperands (kind : Terminator) : List ℕ :=
  (terminatorEdges kind).flatMap Edge.arguments
    ++ match kind with
      | .return value _ => [value]
      | .branch condition _ _ => [condition]
      | _ => []

def isDirectCall : InstructionKind → Bool
  | .directCall .. => true
  | _ => false

def Function.instructions (function : Function) : List Instruction :=
  function.blocks.flatMap Block.instructions

def projectionBase : PlaceKind → Option ℕ
  | .structField base _ | .enumPayload base _ | .fixedArrayConstant base _ => some base
  | _ => none

def projectionStep : PlaceKind → Option (ℕ × ℕ × ℕ)
  | .structField base ordinal => some (base, 0, ordinal)
  | .enumPayload base variant => some (base, 1, variant)
  | .fixedArrayConstant base index => some (base, 2, index)
  | _ => none

def rootKey : PlaceKind → Option (ℕ × ℕ)
  | .parameter index => some (0, index)
  | .local index => some (1, index)
  | .temporary value => some (2, value)
  | _ => none

/-- The types of all values of a function, in the order of their identities. -/
def Function.valueTypes (function : Function) : List ℕ :=
  function.parameters.map ValueDefinition.ty
    ++ function.blocks.flatMap fun block =>
      block.parameters.map ValueDefinition.ty
        ++ block.instructions.filterMap fun instruction => instruction.result.map ValueDefinition.ty

def functionValueType (function : Function) (id : ℕ) : Option ℕ := function.valueTypes[id]?

end Zryna.Ir.DataOwnership
