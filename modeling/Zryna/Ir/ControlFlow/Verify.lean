import Zryna.Abi
import Zryna.Foundation.Kahn
import Zryna.Foundation.Report
import Zryna.Ir.ControlFlow.Cfg

/-!
# The `ControlFlowV1` verifier

`verify` checks a raw program against a source map and an expected entry file: resource limits,
module and function identities, spans, value numbering, instruction, terminator and edge types,
the control-flow graph of every function (reachability, dominance of every use, reducibility, loop
nesting), the call graph (acyclic, bounded depth) and the public scalar ABI.

Each check is a `Report`. The source threads one bounded `Errors` value through all checks and
returns early as soon as it is exhausted. After that point `Errors` retains nothing more, so the
early returns only save work: collecting the recorded events with `Errors.ofEvents` retains the
same diagnostics.
-/

namespace Zryna.Ir.ControlFlow

/-! ### Limits -/

/-- Maximum modules in one verified program. -/
def maxModules : ℕ := 4096
/-- Maximum functions in one module. -/
def maxFunctionsPerModule : ℕ := 4096
def maxFunctionsPerProgram : ℕ := 16384
/-- Maximum parameters in one function. -/
def maxParametersPerFunction : ℕ := 256
def maxParametersPerProgram : ℕ := 262144
/-- Maximum blocks in one function. -/
def maxBlocksPerFunction : ℕ := 4096
def maxBlocksPerProgram : ℕ := 65536
/-- Maximum block parameters on one block. -/
def maxBlockParameters : ℕ := 256
def maxValuesPerFunction : ℕ := 16384
/-- Maximum values in one program. -/
def maxValuesPerProgram : ℕ := 262144
def maxCfgEdgesPerFunction : ℕ := 8192
/-- Maximum CFG edges in one program. -/
def maxCfgEdgesPerProgram : ℕ := 131072
/-- Maximum direct-call sites in one program. -/
def maxCallEdges : ℕ := 65536
/-- Maximum static direct-call depth. -/
def maxStaticCallDepth : ℕ := 128
/-- Maximum verified natural-loop nesting. -/
def maxLoopNesting : ℕ := 128
/-- Maximum retained diagnostics, including the terminal diagnostic. -/
def maxDiagnostics : ℕ := 256

def usizeMax : ℕ := 2 ^ 64 - 1

/-! ### Diagnostics -/

def error (code message guidance : String) : Diagnostic :=
  Diagnostic.error code none message guidance

def errorAt (code : String) (span : Option Span) (message guidance : String) : Diagnostic :=
  match span with
  | some span => Diagnostic.errorAt code span message guidance
  | none => error code message guidance

def limitAt (label : String) (maximum : ℕ) : Diagnostic :=
  error "ZRYNA-I2201" s!"ControlFlowV1 {label} exceeds its limit of {maximum}"
    "reduce the program before IR verification"

/-- The bounded diagnostic collector. -/
structure Errors where
  diagnostics : List Diagnostic
  exhausted : Bool
deriving DecidableEq

namespace Errors

/-- Collects one event. -/
def add (errors : Errors) (event : Event Diagnostic) : Errors :=
  if errors.exhausted then errors
  else
    match event with
    | .limit d => ⟨errors.diagnostics ++ [d], true⟩
    | .push d =>
      if errors.diagnostics.length < maxDiagnostics - 1 then ⟨errors.diagnostics ++ [d], false⟩
      else
        ⟨errors.diagnostics ++ [error "ZRYNA-I2202"
          s!"ControlFlowV1 verification reached its diagnostic limit of {maxDiagnostics}"
          "fix retained diagnostics before verifying again"], true⟩

variable (events : List (Event Diagnostic))

/-- Collects events in order. -/
def ofEvents : Errors := events.foldl add ⟨[], false⟩

/-- The retained diagnostics. -/
def finish : List Diagnostic := (ofEvents events).diagnostics

end Errors

abbrev Check := Report Diagnostic

open Report

/-! ### Preflight -/

def checkedSum (current extra : ℕ) (label : String) : Check ℕ :=
  if current + extra ≤ usizeMax then pure (current + extra)
  else do limit (limitAt label usizeMax); pure usizeMax

/-- Adds to a running total and reports when it passes its maximum. -/
def addTotal (current extra maximum : ℕ) (label : String) : Check ℕ := do
  let total ← checkedSum current extra label
  limitIf (total > maximum) (limitAt label maximum)
  pure total

def isDirectCall (instruction : Instruction) : Bool :=
  match instruction.kind with
  | .directCall .. => true
  | _ => false

def terminatorEdges : Terminator → ℕ
  | .return _ => 0
  | .jump .. => 1
  | .branch .. => 2

/-- Running totals of the preflight walk. -/
structure Totals where
  functions : ℕ := 0
  parameters : ℕ := 0
  blocks : ℕ := 0
  values : ℕ := 0
  edges : ℕ := 0
  calls : ℕ := 0

/-- Values and edges of the function under the walk, and the call total. -/
structure BlockTotals where
  functionValues : ℕ
  functionEdges : ℕ
  calls : ℕ

def preflightArguments : Terminator → Check Unit
  | .return _ => pure ()
  | .jump _ arguments =>
    limitIf (arguments.length > maxBlockParameters)
      (limitAt "jump argument count" maxBlockParameters)
  | .branch _ _ trueArguments _ falseArguments => do
    limitIf (trueArguments.length > maxBlockParameters)
      (limitAt "true branch argument count" maxBlockParameters)
    limitIf (falseArguments.length > maxBlockParameters)
      (limitAt "false branch argument count" maxBlockParameters)

def preflightBlock (moduleIndex functionIndex : ℕ) (totals : BlockTotals) (block : Block) :
    Check BlockTotals := do
  limitIf (block.parameters.length > maxBlockParameters)
    (limitAt "block parameter count" maxBlockParameters)
  let values ← checkedSum totals.functionValues block.parameters.length "value count"
  let values ← checkedSum values block.instructions.length "value count"
  limitIf (values > maxValuesPerFunction)
    (limitAt s!"function #{moduleIndex}:{functionIndex} value count" maxValuesPerFunction)
  let calls ← checkedSum totals.calls (block.instructions.countP isDirectCall) "call edge count"
  limitIf (calls > maxCallEdges) (limitAt "call edge count" maxCallEdges)
  forM block.instructions fun instruction =>
    match instruction.kind with
    | .directCall _ arguments =>
      limitIf (arguments.length > maxParametersPerFunction)
        (limitAt "direct-call argument count" maxParametersPerFunction)
    | _ => pure ()
  match block.terminators with
  | [terminator] => do
    preflightArguments terminator.kind
    let edges ←
      checkedSum totals.functionEdges (terminatorEdges terminator.kind) "CFG edge count"
    limitIf (edges > maxCfgEdgesPerFunction)
      (limitAt s!"function #{moduleIndex}:{functionIndex} CFG edge count" maxCfgEdgesPerFunction)
    pure ⟨values, edges, calls⟩
  | _ => pure ⟨values, totals.functionEdges, calls⟩

def preflightFunction (moduleIndex functionIndex : ℕ) (totals : Totals) (function : Function) :
    Check Totals := do
  limitIf (function.parameters.length > maxParametersPerFunction)
    (limitAt s!"function #{moduleIndex}:{functionIndex} parameter count" maxParametersPerFunction)
  let parameters ←
    addTotal totals.parameters function.parameters.length maxParametersPerProgram
      "parameter count"
  limitIf (function.blocks = [] ∨ function.blocks.length > maxBlocksPerFunction)
    (limitAt s!"function #{moduleIndex}:{functionIndex} block count" maxBlocksPerFunction)
  let blocks ← addTotal totals.blocks function.blocks.length maxBlocksPerProgram "block count"
  let inner ←
    function.blocks.foldlM (preflightBlock moduleIndex functionIndex)
      ⟨function.parameters.length, 0, totals.calls⟩
  let values ← addTotal totals.values inner.functionValues maxValuesPerProgram "value count"
  let edges ← addTotal totals.edges inner.functionEdges maxCfgEdgesPerProgram "CFG edge count"
  pure { totals with
    parameters := parameters, blocks := blocks, values := values, edges := edges,
    calls := inner.calls }

def preflightModule (totals : Totals) (entry : Module × ℕ) : Check Totals := do
  let (module, moduleIndex) := entry
  limitIf (module.functions.length > maxFunctionsPerModule)
    (limitAt s!"module #{moduleIndex} function count" maxFunctionsPerModule)
  let functions ←
    addTotal totals.functions module.functions.length maxFunctionsPerProgram "function count"
  module.functions.zipIdx.foldlM
    (fun totals (function, functionIndex) =>
      preflightFunction moduleIndex functionIndex totals function)
    { totals with functions := functions }

section

variable (program : Program)

/-- Resource limits, before anything else is looked at. -/
def preflight : Check Unit :=
  if program.modules = [] then
    push (error "ZRYNA-I2001" "ControlFlowV1 program has no entry module"
      "provide the complete nonempty final module closure")
  else do
    limitIf (program.modules.length > maxModules) (limitAt "module count" maxModules)
    let totals ← program.modules.zipIdx.foldlM preflightModule {}
    limitIf (totals.calls > maxCallEdges) (limitAt "call edge count" maxCallEdges)

/-! ### Modules and signatures -/

def verifyModuleFunctions (module : Module) (moduleIndex : ℕ) : Check Unit :=
  forM module.functions.zipIdx fun (function, functionIndex) => do
    pushIf (function.id.module ≠ module.id ∨ function.id.declaration ≠ functionIndex)
      (error "ZRYNA-I2003"
        s!"function #{moduleIndex}:{functionIndex} has a noncanonical identity"
        "use its containing module and dense source declaration index")
    pushIf (module.id ≠ program.entryModule ∧ function.entryExport.isSome = true)
      (error "ZRYNA-I2004"
        s!"dependency function #{moduleIndex}:{functionIndex} claims a public entry export"
        "only entry-module exports may enter scalar ABI v1")

def verifyModules (sources : SourceMap) (expectedEntry : FileId) : Check Unit := do
  pushIf (program.modules.length ≠ sources.files.length)
    (error "ZRYNA-I2001" "module inventory does not exactly match the final source map"
      "provide every final source module exactly once in normalized path order")
  pushIf ((program.modules[program.entryModule]?).map Module.sourceFile ≠ some expectedEntry
      ∨ sources.source expectedEntry = none)
    (error "ZRYNA-I2002"
      "entry module is not bound to the independently supplied entry source"
      "use the exact entry FileId issued by the final SourceMap")
  forM program.modules.zipIdx fun (module, moduleIndex) => do
    pushIf (module.id ≠ moduleIndex
        ∨ (sources.verifyFileId moduleIndex).toOption ≠ some module.sourceFile)
      (error "ZRYNA-I2001"
        s!"module #{moduleIndex} has a noncanonical identity or source authority"
        "order dense modules by final normalized source path")
    verifyModuleFunctions program module moduleIndex

/-- Parameter and result types of a function. -/
abbrev FunctionSignature := List IrType × IrType

def Function.signature (function : Function) : FunctionSignature :=
  (function.parameters.map ValueDefinition.ty, function.result)

abbrev Signatures := List (List FunctionSignature)

def collectSignatures : Signatures :=
  program.modules.map fun module => module.functions.map Function.signature

/-! ### Value definitions -/

/-- Position of a function in the module table. -/
structure FunctionKey where
  module : ℕ
  function : ℕ
deriving DecidableEq

/-- Where a value is defined. -/
inductive DefinitionLocation where
  | parameter
  | blockParameter (block : ℕ)
  | instruction (block position : ℕ)
deriving DecidableEq

structure ValueInfo where
  ty : IrType
  location : DefinitionLocation
deriving DecidableEq

/-- One control-flow edge. -/
structure Edge where
  source : ℕ
  target : ℕ
  arguments : List ℕ
deriving DecidableEq

def validateType (ty : IrType) (span : Option Span) (label : String) : Check Unit :=
  pushIf (ty = .unit)
    (errorAt "ZRYNA-I2009" span s!"{label} uses unsupported unit type"
      "ControlFlowV1 admits only bool and i32 values")

def validateSpan (span : Span) (moduleFile : FileId) (sources : SourceMap) : Check Bool :=
  match sources.resolve span with
  | .ok source =>
    if source.id = moduleFile then pure true
    else do
      push (error "ZRYNA-I2023" "IR span belongs to a different module source file"
        ("bind every function, value, instruction, and terminator span to its "
          ++ "containing module"))
      pure false
  | .error sourceError => do
    push (Diagnostic.fromSourceError sourceError)
    pure false

/-- Every span of a function, in the order the verifier validates them. -/
def Function.spans (function : Function) : List Span :=
  function.span :: function.parameters.map ValueDefinition.span
    ++ function.blocks.flatMap fun block =>
      block.parameters.map ValueDefinition.span
        ++ block.instructions.map (fun instruction => instruction.result.span)
        ++ match block.terminators with
          | [terminator] => [terminator.span]
          | _ => []

def defineValue (location : DefinitionLocation) (values : List ValueInfo)
    (definition : ValueDefinition) : Check (List ValueInfo) := do
  pushIf (definition.id ≠ values.length)
    (error "ZRYNA-I2008"
      s!"value definition claims #{definition.id}, expected dense value #{values.length}"
      ("allocate function parameters, then block parameters and instruction results in "
        ++ "canonical order"))
  validateType definition.ty (some definition.span) "value"
  pure (values ++ [⟨definition.ty, location⟩])

section

variable (key : FunctionKey)

def defineBlock (values : List ValueInfo) (entry : Block × ℕ) : Check (List ValueInfo) := do
  let (block, blockIndex) := entry
  pushIf (block.id ≠ blockIndex)
    (error "ZRYNA-I2005"
      (s!"function #{key.module}:{key.function} block #{blockIndex} "
        ++ "has a noncanonical identity")
      "use dense block identifiers in arena order")
  pushIf (blockIndex = 0 ∧ block.parameters ≠ [])
    (error "ZRYNA-I2006" "entry block declares block parameters"
      "function parameters are the only entry-block parameters")
  let values ← block.parameters.foldlM (defineValue (.blockParameter blockIndex)) values
  block.instructions.zipIdx.foldlM
    (fun values (instruction, position) =>
      defineValue (.instruction blockIndex position) values instruction.result) values

def defineValues (function : Function) : Check (List ValueInfo) := do
  let values ← function.parameters.foldlM (defineValue .parameter) []
  function.blocks.zipIdx.foldlM (defineBlock key) values

/-! ### Instructions, terminators and edges -/

def checkedUse (id : ℕ) (block position : ℕ) (values : List ValueInfo) (span : Span) :
    Check (Option ValueInfo) :=
  match values[id]? with
  | none => do
    push (errorAt "ZRYNA-I2012" (some span) s!"operand references unknown value #{id}"
      "reference one value in the same verified function")
    pure none
  | some value => do
    match value.location with
    | .instruction definitionBlock definitionPosition =>
      pushIf (definitionBlock = block ∧ definitionPosition ≥ position)
        (errorAt "ZRYNA-I2013" (some span) s!"value #{id} is used before its definition"
          "use only earlier instruction results in the same block")
    | _ => pure ()
    pure (some value)

def expectResult (actual expected : IrType) (span : Span) (label : String) : Check Unit :=
  pushIf (actual ≠ expected)
    (errorAt "ZRYNA-I2010" (some span) s!"{label} has the wrong result type"
      "use the exact literal type")

/-- Operands are checked left to right up to the first one of an unexpected type. -/
def operandsValid (block position : ℕ) (values : List ValueInfo) (span : Span) :
    List (ℕ × IrType) → Check Bool
  | [] => pure true
  | (operand, expected) :: rest => do
    let use ← checkedUse operand block position values span
    if use.map ValueInfo.ty = some expected then operandsValid block position values span rest
    else pure false

def expectValues (operands : List (ℕ × IrType)) (result expectedResult : IrType)
    (block position : ℕ) (values : List ValueInfo) (span : Span) : Check Unit := do
  let valid ← operandsValid block position values span operands
  pushIf (valid = false ∨ result ≠ expectedResult)
    (errorAt "ZRYNA-I2010" (some span) "instruction operand or result type is invalid"
      "use exact ControlFlowV1 operation types")

/-- The shared check of equality and inequality. -/
def expectEquality (lhs rhs : ℕ) (result : IrType) (block position : ℕ)
    (values : List ValueInfo) (span : Span) : Check Unit := do
  let left ← checkedUse lhs block position values span
  let right ← checkedUse rhs block position values span
  pushIf (result ≠ .bool ∨ left.map ValueInfo.ty ≠ right.map ValueInfo.ty)
    (errorAt "ZRYNA-I2010" (some span)
      "equality requires two values of one exact scalar type and a bool result"
      "use matching bool or matching i32 operands")

def calleeSignature (signatures : Signatures) (callee : FunctionId) : Option FunctionSignature :=
  (signatures[callee.module]?).bind fun functions => functions[callee.declaration]?

def verifyDirectCall (callee : FunctionId) (arguments : List ℕ)
    (result : IrType) (block position : ℕ) (values : List ValueInfo) (signatures : Signatures)
    (span : Span) : Check (List (FunctionKey × FunctionKey)) :=
  match calleeSignature signatures callee with
  | none => do
    push (errorAt "ZRYNA-I2011" (some span) "direct call targets an unknown function identity"
      "call one function in the sealed module closure")
    pure []
  | some (parameters, targetResult) => do
    pushIf (arguments.length ≠ parameters.length ∨ result ≠ targetResult)
      (errorAt "ZRYNA-I2011" (some span) "direct call signature does not match its target"
        "use exact arity, argument types, and result type")
    forM arguments.zipIdx fun (argument, argumentIndex) => do
      let actual ← checkedUse argument block position values span
      pushIf (actual.map ValueInfo.ty ≠ parameters[argumentIndex]?)
        (errorAt "ZRYNA-I2011" (some span)
          s!"direct call argument #{argumentIndex} has the wrong type"
          "preserve source argument order and exact parameter types")
    pure [(key, ⟨callee.module, callee.declaration⟩)]

/-- Checks one instruction and returns the call edge it contributes. -/
def verifyInstruction (block position : ℕ) (instruction : Instruction)
    (values : List ValueInfo) (signatures : Signatures) :
    Check (List (FunctionKey × FunctionKey)) :=
  let result := instruction.result.ty
  let span := instruction.result.span
  let expect (operands : List (ℕ × IrType)) (expected : IrType) :
      Check (List (FunctionKey × FunctionKey)) := do
    expectValues operands result expected block position values span
    pure []
  match instruction.kind with
  | .boolLiteral _ => do expectResult result .bool span "bool literal"; pure []
  | .i32Literal _ => do expectResult result .i32 span "i32 literal"; pure []
  | .i32Neg operand => expect [(operand, .i32)] .i32
  | .i32Add lhs rhs | .i32Sub lhs rhs | .i32Mul lhs rhs =>
    expect [(lhs, .i32), (rhs, .i32)] .i32
  | .i32LtS lhs rhs | .i32LeS lhs rhs | .i32GtS lhs rhs | .i32GeS lhs rhs =>
    expect [(lhs, .i32), (rhs, .i32)] .bool
  | .eq lhs rhs | .ne lhs rhs => do
    expectEquality lhs rhs result block position values span
    pure []
  | .directCall callee arguments =>
    verifyDirectCall key callee arguments result block position values signatures span

/-- Checks one edge and returns it when its target exists. -/
def verifyEdge (source : ℕ) (target : ℕ) (arguments : List ℕ)
    (function : Function) (position : ℕ) (values : List ValueInfo) (span : Span) :
    Check (List Edge) :=
  match function.blocks[target]? with
  | none => do
    push (errorAt "ZRYNA-I2016" (some span)
      s!"function #{key.module}:{key.function} has an edge to unknown block #{target}"
      "target one block in the same function")
    pure []
  | some targetBlock => do
    pushIf (target = 0)
      (errorAt "ZRYNA-I2016" (some span) "control-flow edge targets the entry block"
        "entry block zero must have no predecessor")
    pushIf (arguments.length ≠ targetBlock.parameters.length)
      (errorAt "ZRYNA-I2017" (some span)
        "block argument arity does not match target parameters"
        "pass one exact argument for each target block parameter")
    forM arguments.zipIdx fun (argument, index) => do
      let actual ← checkedUse argument source position values span
      pushIf (actual.map ValueInfo.ty ≠ (targetBlock.parameters[index]?).map ValueDefinition.ty)
        (errorAt "ZRYNA-I2017" (some span) s!"block argument #{index} has the wrong type"
          "match target block parameter types exactly")
    pure [⟨source, target, arguments⟩]

def verifyTerminator (block position : ℕ) (function : Function)
    (terminator : SpannedTerminator) (values : List ValueInfo) : Check (List Edge) :=
  match terminator.kind with
  | .return value => do
    let actual ← checkedUse value block position values terminator.span
    pushIf (actual.map ValueInfo.ty ≠ some function.result)
      (errorAt "ZRYNA-I2014" (some terminator.span) "return value has the wrong type"
        "return one value of the exact function result type")
    pure []
  | .jump target arguments =>
    verifyEdge key block target arguments function position values terminator.span
  | .branch condition trueTarget trueArguments falseTarget falseArguments => do
    let actual ← checkedUse condition block position values terminator.span
    pushIf (actual.map ValueInfo.ty ≠ some .bool)
      (errorAt "ZRYNA-I2015" (some terminator.span) "branch condition is not bool"
        "branch only on an exact bool value")
    let trueEdge ←
      verifyEdge key block trueTarget trueArguments function position values terminator.span
    let falseEdge ←
      verifyEdge key block falseTarget falseArguments function position values terminator.span
    pure (trueEdge ++ falseEdge)

section

variable (count : ℕ) (edges : List Edge)

/-- What the body walk of a function collects. -/
structure BodyFacts where
  calls : List (FunctionKey × FunctionKey)
  edges : List Edge

def verifyBlock (function : Function) (values : List ValueInfo)
    (signatures : Signatures) (facts : BodyFacts) (entry : Block × ℕ) : Check BodyFacts := do
  let (block, blockIndex) := entry
  let calls ← block.instructions.zipIdx.foldlM (fun calls (instruction, position) => do
    let call ← verifyInstruction key blockIndex position instruction values signatures
    pure (calls ++ call)) facts.calls
  match block.terminators with
  | [terminator] => do
    let edges ←
      verifyTerminator key blockIndex block.instructions.length function terminator values
    pure ⟨calls, facts.edges ++ edges⟩
  | terminators => do
    push (error "ZRYNA-I2007"
      (s!"function #{key.module}:{key.function} block #{blockIndex} has "
        ++ s!"{terminators.length} terminators; expected exactly one")
      "emit exactly one return, jump, or branch terminator")
    pure ⟨calls, facts.edges⟩

/-! ### The control-flow graph -/

def successorLists : Adjacency :=
  (List.range count).map fun block =>
    ((edges.filter (·.source = block)).map Edge.target).insertionSort (· ≤ ·)

def predecessorLists : Adjacency :=
  (List.range count).map fun block =>
    ((edges.filter (·.target = block)).map Edge.source).insertionSort (· ≤ ·)

/-- The definition of the operand is available at the use. -/
def dominanceValid (times : Intervals) (value : ValueInfo) (useBlock usePosition : ℕ) : Bool :=
  match value.location with
  | .parameter => true
  | .blockParameter block => times.dominates block useBlock
  | .instruction block position =>
    if block = useBlock then position < usePosition else times.dominates block useBlock

def verifyDominance (times : Intervals) (values : List ValueInfo) (useBlock usePosition : ℕ)
    (span : Span) (operand : ℕ) : Check Unit :=
  match values[operand]? with
  | none => pure ()
  | some value =>
    pushIf (dominanceValid times value useBlock usePosition = false)
      (errorAt "ZRYNA-I2013" (some span) s!"value #{operand} does not dominate its use"
        "use only values available on every path to this operation")

def verifyBlockDominance (times : Intervals) (values : List ValueInfo) (entry : Block × ℕ) :
    Check Unit := do
  let (block, useBlock) := entry
  forM block.instructions.zipIdx fun (instruction, position) =>
    forM (instructionOperands instruction.kind)
      (verifyDominance times values useBlock position instruction.result.span)
  match block.terminators with
  | [terminator] =>
    forM (terminatorOperands terminator.kind)
      (verifyDominance times values useBlock block.instructions.length terminator.span)
  | _ => pure ()

/-- Edges that are not back edges, as successor lists. -/
def forwardLists (times : Intervals) : Adjacency :=
  (List.range count).map fun block =>
    (edges.filter fun edge => edge.source = block && !times.dominates edge.target edge.source).map
      Edge.target

def naturalLoops (predecessors : Adjacency) (times : Intervals) : LoopTable :=
  edges.foldl (fun loops edge =>
    if times.dominates edge.target edge.source then
      loops.addBackEdge predecessors count edge.source edge.target
    else loops) []

def verifyReducibility (predecessors : Adjacency) (times : Intervals) : Check Unit := do
  pushIf ((Kahn.run (forwardLists count edges times)).seen ≠ count)
    (error "ZRYNA-I2020"
      s!"function #{key.module}:{key.function} contains irreducible control flow"
      "every cycle must have one dominating nonentry header")
  let loops := naturalLoops count edges predecessors times
  let maximumNesting := ((List.range count).map loops.nesting).foldl max 0
  limitIf (maximumNesting > maxLoopNesting)
    (limitAt s!"function #{key.module}:{key.function} loop nesting" maxLoopNesting)

end

def verifyCfg (function : Function) (values : List ValueInfo) (edges : List Edge) : Check Unit :=
  if function.blocks = [] then pure ()
  else
    let count := function.blocks.length
    let successors := successorLists count edges
    let predecessors := predecessorLists count edges
    let reachable := reachableFromEntry successors
    do
    forM ((List.range count).drop 1) fun block =>
      pushIf (predecessors.at block = [] ∨ reachable.getD block false = false)
        (error "ZRYNA-I2018"
          (s!"function #{key.module}:{key.function} block #{block} "
            ++ "is unreachable or has no predecessor")
          "emit only blocks reachable from entry")
    if reachable.all id then
      match immediateDominators successors predecessors with
      | none =>
        push (error "ZRYNA-I2019" "failed to construct deterministic dominators"
          "provide one reachable reducible CFG")
      | some idom => do
        let times := dominatorIntervals idom
        forM function.blocks.zipIdx (verifyBlockDominance times values)
        verifyReducibility key count edges predecessors times
    else pure ()

/-! ### Functions, calls and the public ABI -/

/-- Checks one function and returns the call edges of its body. -/
def verifyFunction (function : Function) (moduleFile : FileId)
    (signatures : Signatures) (sources : SourceMap) : Check (List (FunctionKey × FunctionKey)) := do
  let spansValid ← function.spans.mapM fun span => validateSpan span moduleFile sources
  if spansValid.all id then do
    validateType function.result none "function result"
    let values ← defineValues key function
    let facts ←
      function.blocks.zipIdx.foldlM (verifyBlock key function values signatures) ⟨[], []⟩
    verifyCfg key function values facts.edges
    pure facts.calls
  else pure []

/-- Position of the first function of each module in the flat function table. -/
def functionOffsets : List ℕ :=
  (List.range (program.modules.length + 1)).map fun index =>
    ((program.modules.take index).map fun module => module.functions.length).sum

def flatIndex : ℕ :=
  (functionOffsets program).getD key.module 0 + key.function

end

/-- Callees of each function, in the order the calls were recorded. -/
def callLists (calls : List (FunctionKey × FunctionKey)) : Adjacency :=
  let functionCount := ((functionOffsets program).getLast?).getD 0
  (List.range functionCount).map fun function =>
    (calls.filter fun call => flatIndex program call.1 = function).map fun call =>
      flatIndex program call.2

def verifyCallGraph (calls : List (FunctionKey × FunctionKey)) : Check Unit :=
  let successors := callLists program calls
  let swept := Kahn.run successors
  if swept.seen ≠ successors.length then
    push (error "ZRYNA-I2021" "resolved direct-call graph contains a cycle"
      "ControlFlowV1 requires an acyclic complete call graph")
  else
    limitIf (swept.depth.foldl max 0 > maxStaticCallDepth)
      (limitAt "static call depth" maxStaticCallDepth)

def rawAbiType : IrType → Abi.RawType
  | .unit => .unit
  | .bool => .bool
  | .i32 => .i32

/-- Message and guidance of an ABI violation. -/
def abiMessage : Abi.AbiViolationKind → String × String
  | .invalidLogicalName =>
    ("entry export has an invalid logical name",
      "use the exact scalar ABI v1 logical-name grammar")
  | .duplicateLogicalName _ =>
    ("entry exports contain a duplicate logical name",
      "give every public entry export a unique exact name")
  | .portableNameCollision _ =>
    ("entry exports collide under portable target identity",
      "use names unique under ASCII case folding")
  | .unsupportedScalarType =>
    ("entry export uses an unsupported scalar ABI type", "use only bool and i32")
  | .tooManyExports | .tooManyParameters | .tooManyParametersInModule =>
    ("entry scalar ABI exceeds its resource limits", "reduce the public entry surface")
  | .violationBudgetExceeded =>
    ("entry scalar ABI diagnostics exceeded their limit", "fix earlier ABI diagnostics")

def entryExports : List Abi.RawExport :=
  match program.modules[program.entryModule]? with
  | none => []
  | some module =>
    module.functions.filterMap fun function =>
      function.entryExport.map fun name =>
        ⟨name, ⟨function.parameters.map fun parameter => rawAbiType parameter.ty,
          rawAbiType function.result⟩⟩

def verifyPublicAbi : Check (Option (List Abi.VerifiedExport)) :=
  match Abi.verifyV1 (entryExports program) with
  | .ok abi => pure (some abi)
  | .error violations => do
    forM violations fun violation =>
      push (error "ZRYNA-I2022" (abiMessage violation.kind).1 (abiMessage violation.kind).2)
    pure none

/-- The checks after preflight. -/
def verifyBody (sources : SourceMap) (expectedEntry : FileId) :
    Check (Option (List Abi.VerifiedExport)) := do
  verifyModules program sources expectedEntry
  let signatures := collectSignatures program
  let calls ← program.modules.zipIdx.foldlM (fun calls (module, moduleIndex) =>
    module.functions.zipIdx.foldlM (fun calls (function, functionIndex) => do
      let more ←
        verifyFunction ⟨moduleIndex, functionIndex⟩ function module.sourceFile signatures sources
      pure (calls ++ more)) calls) []
  verifyCallGraph program calls
  verifyPublicAbi program

end

/-- Program proven to satisfy every `ControlFlowV1` invariant, with its public ABI. -/
structure VerifiedProgram where
  program : Program
  abi : List Abi.VerifiedExport
deriving DecidableEq

/-- Verifies a raw program against the exact source and entry authorities. -/
def verify (program : Program) (sources : SourceMap) (expectedEntry : FileId) :
    Except (List Diagnostic) VerifiedProgram :=
  if (preflight program).events ≠ [] then .error (Errors.finish (preflight program).events)
  else
    let body := verifyBody program sources expectedEntry
    if body.events ≠ [] then .error (Errors.finish body.events)
    else
      match body.value with
      | some abi => .ok ⟨program, abi⟩
      | none =>
        .error [Diagnostic.error "ZRYNA-I2202" none
          "ControlFlowV1 verifier could not construct its bounded scalar ABI table"
          "report this compiler invariant failure with the smallest reproducible source"]

end Zryna.Ir.ControlFlow
