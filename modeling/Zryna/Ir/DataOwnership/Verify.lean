import Zryna.Abi
import Zryna.Foundation.Kahn
import Zryna.Ir.DataOwnership.Contexts

/-!
# The `DataOwnershipV1` verifier

`verify` binds a raw program to a source map, an entry file and the sealed layouts of both storage
targets. It checks resource limits, authorities, the structure of every function, its graph and its
ownership dataflow, the call graph and the public scalar ABI, and stops after the first phase that
reports anything.

The source threads one bounded `Errors` value through a phase. Events are collected by
`Errors.finish`, which retains what the source retains.
-/

namespace Zryna.Ir.DataOwnership

open Layout Report

/-! ### Retained diagnostics -/

/-- The bounded diagnostic collector. -/
structure Errors where
  diagnostics : List Diagnostic
  exhausted : Bool
deriving DecidableEq

namespace Errors

/-- Collects one event. -/
def add (errors : Errors) (event : Event Diagnostic) : Errors :=
  if errors.exhausted then errors
  else
    match event with
    | .limit d => ⟨errors.diagnostics ++ [d], true⟩
    | .push d =>
      if errors.diagnostics.length < maxDiagnostics - 1 then ⟨errors.diagnostics ++ [d], false⟩
      else
        ⟨errors.diagnostics ++ [error "ZRYNA-I3202"
          s!"DataOwnershipV1 verification reached its diagnostic limit of {maxDiagnostics}"
          "fix retained diagnostics before verifying again"], true⟩

/-- The retained diagnostics. -/
def finish (events : List (Event Diagnostic)) : List Diagnostic :=
  (events.foldl add ⟨[], false⟩).diagnostics

end Errors

/-! ### Preflight -/

def checkedAdd (current extra : ℕ) (label : String) : Check ℕ :=
  if current + extra ≤ usizeMax then pure (current + extra)
  else do limit (limitAt label usizeMax); pure usizeMax

/-- Adds to a running total and reports when it passes its maximum. -/
def addTotal (current extra maximum : ℕ) (label : String) : Check ℕ := do
  let total ← checkedAdd current extra label
  limitIf (total > maximum) (limitAt label maximum)
  pure total

def aggregateOperandCount : InstructionKind → ℕ
  | .structConstruct fields _ => fields.length
  | .fixedArrayConstruct elements _ | .vecConstruct elements _ => elements.length
  | .enumConstruct _ payload _ => payload.toList.length
  | _ => 0

def terminatorEdgeCount (kind : Terminator) : ℕ := (terminatorEdges kind).length

/-- Totals over the program. -/
structure Totals where
  functions : ℕ := 0
  parameters : ℕ := 0
  blocks : ℕ := 0
  values : ℕ := 0
  edges : ℕ := 0
  aggregateOperands : ℕ := 0
  stringLiteralBytes : ℕ := 0
  nominals : ℕ := 0
  calls : ℕ := 0

/-- Totals over one function, next to those over the program. -/
structure FunctionTotals where
  program : Totals
  values : ℕ
  transitions : ℕ := 0
  edges : ℕ := 0
  drops : ℕ
  peakBorrows : ℕ

/-- Active borrows of the block under the walk, and their peak. -/
def countBorrow (kind : InstructionKind) (active peak : ℕ) : ℕ × ℕ :=
  match kind with
  | .beginBorrow _ | .beginIndexedBorrow .. | .beginIndexedAccess .. =>
    (active + 1, max peak (active + 1))
  | .endBorrow _ => (active - 1, peak)
  | _ => (active, peak)

def preflightInstruction (entry : FunctionTotals × ℕ) (instruction : Instruction) :
    Check (FunctionTotals × ℕ) := do
  let (totals, active) := entry
  let (active, peak) := countBorrow instruction.kind active totals.peakBorrows
  let aggregateOperands ← checkedAdd totals.program.aggregateOperands
    (aggregateOperandCount instruction.kind) "aggregate operand count"
  let stringLiteralBytes ←
    match instruction.kind with
    | .stringFromUtf8 bytes _ =>
      addTotal totals.program.stringLiteralBytes bytes.length maxStringLiteralBytes
        "String literal byte count"
    | _ => pure totals.program.stringLiteralBytes
  let calls ←
    if isDirectCall instruction.kind then checkedAdd totals.program.calls 1 "call edge count"
    else pure totals.program.calls
  let drops ←
    match instruction.kind with
    | .dropPlace _ => do
      let drops ← checkedAdd totals.drops 1 "drop action count"
      limitIf (drops > maxDropActionsPerFunction)
        (limitAt "drop actions per function" maxDropActionsPerFunction)
      pure drops
    | _ => pure totals.drops
  pure ({ totals with
    program := { totals.program with
      aggregateOperands := aggregateOperands, stringLiteralBytes := stringLiteralBytes
      calls := calls }
    drops := drops, peakBorrows := peak }, active)

def preflightBlock (function : Function) (totals : FunctionTotals) (block : Block) :
    Check FunctionTotals := do
  limitIf (block.parameters.length > maxBlockParameters)
    (limitAt "block parameter count" maxBlockParameters)
  let values ← checkedAdd totals.values
    (block.parameters.length + block.instructions.countP fun instruction =>
      instruction.result.isSome) "value count"
  limitIf (values > maxValuesPerFunction) (limitAt "values per function" maxValuesPerFunction)
  let transitions ← checkedAdd totals.transitions block.instructions.length
    "ownership transition count"
  let (totals, _) ← block.instructions.foldlM preflightInstruction
    ({ totals with values := values, transitions := transitions },
      function.borrowParameters.length)
  limitIf (transitions > maxOwnershipTransitionsPerFunction)
    (limitAt "ownership transitions per function" maxOwnershipTransitionsPerFunction)
  match block.terminators with
  | [terminator] => do
    let edges ← checkedAdd totals.edges (terminatorEdgeCount terminator.kind)
      "CFG edges per function"
    pure { totals with edges := edges }
  | _ => pure totals

def preflightFunction (totals : Totals) (function : Function) : Check Totals := do
  limitIf (function.parameters.length > maxParametersPerFunction)
    (limitAt "parameters per function" maxParametersPerFunction)
  limitIf (function.borrowParameters.length > maxActiveBorrowsPerFunction)
    (limitAt "active borrows per function" maxActiveBorrowsPerFunction)
  let parameters ← addTotal totals.parameters function.parameters.length maxParametersPerProgram
    "parameter count"
  limitIf (function.places.length > maxPlacesPerFunction)
    (limitAt "places per function" maxPlacesPerFunction)
  limitIf (function.cleanupPlans.length > maxCleanupPlansPerFunction)
    (limitAt "cleanup plans per function" maxCleanupPlansPerFunction)
  limitIf (function.blocks = [] ∨ function.blocks.length > maxBlocksPerFunction)
    (limitAt "blocks per function" maxBlocksPerFunction)
  let blocks ← addTotal totals.blocks function.blocks.length maxBlocksPerProgram "block count"
  let drops ← function.cleanupPlans.foldlM
    (fun drops plan => checkedAdd drops plan.actions.length "drop action count") 0
  limitIf (drops > maxDropActionsPerFunction)
    (limitAt "drop actions per function" maxDropActionsPerFunction)
  let inner ← function.blocks.foldlM (preflightBlock function)
    { program := { totals with parameters := parameters, blocks := blocks }
      values := function.parameters.length, drops := drops
      peakBorrows := function.borrowParameters.length }
  limitIf (inner.peakBorrows > maxActiveBorrowsPerFunction)
    (limitAt "simultaneously active borrows per function" maxActiveBorrowsPerFunction)
  limitIf (inner.edges > maxCfgEdgesPerFunction)
    (limitAt "CFG edges per function" maxCfgEdgesPerFunction)
  let values ← checkedAdd totals.values inner.values "value count"
  let edges ← checkedAdd totals.edges inner.edges "CFG edge count"
  limitIf (values > maxValuesPerProgram ∨ edges > maxCfgEdgesPerProgram
      ∨ inner.program.aggregateOperands > maxAggregateOperands
      ∨ inner.program.calls > maxCallEdges)
    (limitAt "program IR count" maxValuesPerProgram)
  pure { inner.program with values := values, edges := edges }

def preflightModule (totals : Totals) (module : Module) : Check Totals := do
  let nominals ← addTotal totals.nominals module.dataDeclarations maxNominalDeclarations
    "nominal declaration count"
  limitIf (module.functions.length > maxFunctionsPerModule)
    (limitAt "functions per module" maxFunctionsPerModule)
  let functions ← addTotal totals.functions module.functions.length maxFunctionsPerProgram
    "function count"
  module.functions.foldlM preflightFunction
    { totals with nominals := nominals, functions := functions }

/-- Resource limits, before anything else is looked at. -/
def preflight (program : Program) (layouts : VerifiedLayouts) : Check Unit := do
  limitIf (program.modules = [] ∨ program.modules.length > maxModules)
    (limitAt "module count" maxModules)
  limitIf (layouts.records.length > maxInstantiatedTypes)
    (limitAt "instantiated type count" maxInstantiatedTypes)
  let _ ← program.modules.foldlM preflightModule {}
  pure ()

/-! ### Authorities -/

/-- What two targets share of a record. -/
structure LogicalRecord where
  id : ℕ
  category : TypeCategory
  nominalIdentity : Option (ℕ × ℕ)
  fields : List VerifiedField
  variants : List VerifiedVariant
  arrayLength : Option ℕ
  referencedType : Option ℕ
deriving DecidableEq

def logicalRecord (record : VerifiedType) : LogicalRecord where
  id := record.id
  category := record.category
  nominalIdentity := record.nominalIdentity
  fields := record.fields
  variants := record.variants
  arrayLength := record.arrayLength
  referencedType := record.referencedType

def sameLogicalUniverse (left right : VerifiedLayouts) : Bool :=
  decide (left.records.map logicalRecord = right.records.map logicalRecord)

def verifyAuthorities (program : Program) (sources : SourceMap) (expectedEntry : FileId)
    (linear linux : VerifiedLayouts) : Check Unit :=
  let claims := program.authorities
  let expectedNominals := program.modules.flatMap fun module =>
    (List.range module.dataDeclarations).map fun declaration => (module.id, declaration)
  let layoutNominals := linear.records.filterMap VerifiedType.nominalIdentity
  if claims.runtime ≠ .ownershipRuntimeV1 ∨ linear.sourceMapIdentity ≠ sources.id
      ∨ linux.sourceMapIdentity ≠ sources.id ∨ linear.target ≠ .linear32V1
      ∨ linux.target ≠ .linuxX8664V1 ∨ linear.universeIdentity ≠ linux.universeIdentity
      ∨ claims.typeUniverse ≠ linear.universeIdentity
      ∨ claims.linear32Fingerprint ≠ linear.fingerprint
      ∨ claims.linuxX8664Fingerprint ≠ linux.fingerprint
      ∨ sameLogicalUniverse linear linux = false then
    push (error "ZRYNA-I3003"
      "DataOwnershipV1 layout or runtime authority does not match its sealed claim"
      "use both exact layouts issued from the final source-bound type universe")
  else if sameElements expectedNominals layoutNominals = false then
    push (error "ZRYNA-I3003"
      "module nominal declaration inventory does not match the sealed layout universe"
      "bind every source-ordered nominal declaration exactly once")
  else do
    pushIf (program.modules.length ≠ sources.files.length)
      (error "ZRYNA-I3001" "module inventory does not match the final SourceMap"
        "provide every final module exactly once in canonical order")
    pushIf ((program.modules[program.entryModule]?).map Module.sourceFile ≠ some expectedEntry
        ∨ sources.source expectedEntry = none)
      (error "ZRYNA-I3001"
        "entry module is not bound to the independently supplied entry source"
        "use the exact entry FileId from the final SourceMap")

/-! ### Structure -/

def checkSpan (span : Span) (file : FileId) (sources : SourceMap) : Check Unit :=
  pushIf ((sources.resolve span).toOption.map SourceFile.id ≠ some file)
    (error "ZRYNA-I3004" "span is not owned by its containing module"
      "use an exact span from the module's final source file")

section Structure

variable (file : FileId) (sources : SourceMap) (layouts : VerifiedLayouts)

/-- One value definition under the next dense identity. -/
def checkValue (expected : ℕ) (value : ValueDefinition) : Check ℕ := do
  pushIf (value.id ≠ expected) (errorAt "ZRYNA-I3002" value.span
    "value definitions are not in canonical dense order"
    "allocate parameters, block parameters, and results in canonical order")
  pushIf ((layoutType layouts value.ty).isNone = true) (errorAt "ZRYNA-I3003" value.span
    "value names an unknown layout TypeId" "use a type from the exact sealed universe")
  checkSpan value.span file sources
  pure (expected + 1)

def checkBorrowParameter (expected : ℕ) (borrow : BorrowParameter) : Check ℕ := do
  pushIf (borrow.id ≠ expected ∨ (layoutType layouts borrow.referent).isNone = true)
    (errorAt "ZRYNA-I3011" borrow.span
      "borrow parameter has a noncanonical identity or unknown referent type"
      "use dense borrow parameters bound to sealed types")
  checkSpan borrow.span file sources
  pure (expected + 1)

/-- The projection stands for a member its base really has. -/
def projectionValid (place : Place) (function : Function) : Bool :=
  let baseRecord (base : ℕ) : Option VerifiedType :=
    if base < place.id then placeRecord base function layouts else none
  match place.kind with
  | .parameter parameter =>
    (function.parameters[parameter]?).any fun value => value.ty = place.ty
  | .local local_ => local_ < maxPlacesPerFunction
  | .temporary value => functionValueType function value = some place.ty
  | .structField base ordinal =>
    (baseRecord base).any fun ty => (ty.fields[ordinal]?).any fun field =>
      field.ordinal = ordinal && field.ty = place.ty
  | .enumPayload base variant =>
    (baseRecord base).any fun ty => (ty.variants[variant]?).any fun record =>
      record.payload = some place.ty
  | .fixedArrayConstant base index =>
    (baseRecord base).any fun ty =>
      ty.arrayLength.any (fun length => index < length) && ty.referencedType = some place.ty

/-- The type a root must have. -/
def mappedType (place : Place) (function : Function) : Option ℕ :=
  match place.kind with
  | .parameter index => (function.parameters[index]?).map ValueDefinition.ty
  | .temporary value => functionValueType function value
  | _ => some place.ty

variable (function : Function)

def checkPlace (entry : Place × ℕ) : Check Unit := do
  let (place, index) := entry
  let earlier := function.places.take index
  pushIf (place.id ≠ index ∨ (layoutType layouts place.ty).isNone = true)
    (errorAt "ZRYNA-I3006" place.span "place has a noncanonical identity or unknown type"
      "use dense places and sealed layout types")
  pushIf ((rootKey place.kind).any (fun key =>
      earlier.any fun other => rootKey other.kind = some key) = true)
    (errorAt "ZRYNA-I3006" place.span
      "place root aliases an existing parameter, local, or temporary owner"
      "declare exactly one root place for each owned storage identity")
  pushIf ((projectionStep place.kind).any (fun key =>
      earlier.any fun other => projectionStep other.kind = some key) = true)
    (errorAt "ZRYNA-I3006" place.span "projection aliases an existing base and selector"
      "declare each canonical field, payload, or array projection once")
  pushIf (mappedType place function ≠ some place.ty)
    (errorAt "ZRYNA-I3006" place.span
      "root place does not exactly match its parameter or temporary value type"
      "bind roots only to existing values of the same sealed type")
  checkSpan place.span file sources
  pushIf (projectionValid layouts place function = false)
    (errorAt "ZRYNA-I3006" place.span "place projection does not match its sealed layout"
      "use an in-range source ordinal and the exact projected type")

def checkPlan (entry : CleanupPlan × ℕ) : Check Unit := do
  let (plan, index) := entry
  let places := plan.actions.map DropAction.place
  pushIf (plan.id ≠ index ∨ places.any (fun place => place ≥ function.places.length) = true
      ∨ ¬ places.Nodup)
    (errorAt "ZRYNA-I3012" plan.span
      "cleanup plan has a noncanonical identity or foreign place"
      "use dense plans containing each local verified place at most once")
  checkSpan plan.span file sources

def isEffectOnly : InstructionKind → Bool
  | .initializePlace .. | .replacePlace .. | .genericReplacePlace .. | .dropPlace _ | .vecPush ..
  | .beginBorrow _ | .beginIndexedBorrow .. | .beginIndexedAccess .. | .projectIndexedBorrow ..
  | .bindIndexedBorrow .. | .borrowReplace .. | .borrowWrite .. | .endBorrow _ => true
  | _ => false

/-- The plan of a half-built result. -/
def prefixCleanup : InstructionKind → Option ℕ
  | .clonePlace _ _ elementCleanup | .vecClone _ _ elementCleanup => elementCleanup
  | .genericClonePlace _ _ cleanup | .genericCloneBorrow _ _ cleanup
  | .handleAwareClonePlace _ _ cleanup | .handleAwareCloneBorrow _ _ cleanup => some cleanup
  | _ => none

/-- The plans an instruction refers to. -/
def instructionReferences (kind : InstructionKind) : List ℕ :=
  (instructionCleanup kind).toList ++ (prefixCleanup kind).toList

/-- The plans an instruction names in places where they must be local. -/
def checkedPlans : InstructionKind → List ℕ
  | .structConstruct .. | .enumConstruct .. | .fixedArrayConstruct .. => []
  | kind => instructionReferences kind

/-- The places an instruction names where they must be local. An initialisation is checked by the
dataflow instead. -/
def checkedPlaces : InstructionKind → List ℕ
  | .initializePlace .. => []
  | kind => instructionPlaceOperands kind

def verifyInstructionShape (instruction : Instruction) (function : Function) : Check Unit := do
  pushIf (isEffectOnly instruction.kind = instruction.result.isSome)
    (errorAt "ZRYNA-I3005" instruction.span
      "instruction result shape does not match its operation"
      "emit a result exactly for value-producing operations")
  pushIf ((checkedPlaces instruction.kind).any (fun place => place ≥ function.places.length) = true
      ∨ (checkedPlans instruction.kind).any (fun plan => plan ≥ function.cleanupPlans.length)
        = true)
    (errorAt "ZRYNA-I3006" instruction.span
      "instruction references a foreign place or cleanup plan"
      "use identities owned by the containing function")

def verifyTerminator (terminator : SpannedTerminator) (function : Function) : Check Unit :=
  let blockOk (edge : Edge) : Bool :=
    edge.target < function.blocks.length && edge.arguments.length ≤ maxBlockParameters
  let cleanupOk (id : ℕ) : Bool := id < function.cleanupPlans.length
  let valid :=
    match terminator.kind with
    | .return _ cleanup | .trap _ cleanup => cleanupOk cleanup
    | .jump edge => blockOk edge
    | .branch _ whenTrue whenFalse => blockOk whenTrue && blockOk whenFalse
    | .enumMatch _ arms => !arms.isEmpty && arms.all fun arm => blockOk arm.edge
    | .weakUpgradeBranch _ success expired cleanup =>
      blockOk success && blockOk expired && cleanupOk cleanup
  pushIf (valid = false) (errorAt "ZRYNA-I3007" terminator.span
    "terminator contains an invalid edge or cleanup identity"
    "use local blocks, bounded edge arguments, and local cleanup plans")

def definedBorrow : InstructionKind → Option ℕ
  | .beginBorrow definition | .beginIndexedBorrow definition _ _
  | .beginIndexedAccess definition _ _ => some definition.id
  | .projectIndexedBorrow _ borrow _ _ | .bindIndexedBorrow _ borrow => some borrow
  | _ => none

/-- The span of a borrow definition. A projection or a rebinding of an access has none of its
own. -/
def borrowSpan : InstructionKind → Option Span
  | .beginBorrow definition | .beginIndexedBorrow definition _ _
  | .beginIndexedAccess definition _ _ => some definition.span
  | _ => none

/-- The identities a walk over a function has handed out so far. -/
structure NextIds where
  value : ℕ
  borrow : ℕ

def checkInstruction (next : NextIds) (instruction : Instruction) : Check NextIds := do
  checkSpan instruction.span file sources
  let value ←
    match instruction.result with
    | some result => checkValue file sources layouts next.value result
    | none => pure next.value
  let borrow ←
    match definedBorrow instruction.kind with
    | none => pure next.borrow
    | some id => do
      let span := borrowSpan instruction.kind
      pushIf (id ≠ next.borrow) (errorAt "ZRYNA-I3011" (span.getD instruction.span)
        "borrow definitions are not in canonical dense order"
        "allocate borrow parameters then lexical borrows in instruction order")
      forM span.toList fun span => checkSpan span file sources
      pure (next.borrow + 1)
  verifyInstructionShape instruction function
  pure ⟨value, borrow⟩

def checkBlock (next : NextIds) (entry : Block × ℕ) : Check NextIds := do
  let (block, index) := entry
  pushIf (block.id ≠ index) (errorAt "ZRYNA-I3002" function.span "block identity is not dense"
    "use dense block identities in arena order")
  pushIf (index = 0 ∧ block.parameters ≠ []) (errorAt "ZRYNA-I3007" function.span
    "entry block declares block parameters" "use function parameters for entry values")
  let value ← block.parameters.foldlM (checkValue file sources layouts) next.value
  let next ← block.instructions.foldlM (checkInstruction file sources layouts function)
    { next with value := value }
  pushIf (block.terminators.length ≠ 1) (errorAt "ZRYNA-I3007" function.span
    "block does not contain exactly one terminator"
    "emit exactly one closed DataOwnershipV1 terminator")
  match block.terminators with
  | [] => pure next
  | terminator :: _ => do
    checkSpan terminator.span file sources
    verifyTerminator terminator function
    pure next

end Structure

/-- The references of a block to cleanup plans, each with the site that makes it. A terminator is a
site behind the last instruction. -/
def blockReferences (blockIndex : ℕ) (block : Block) : List CleanupSite :=
  block.instructions.zipIdx.flatMap (fun (instruction, instructionIndex) =>
    (instructionReferences instruction.kind).map (⟨blockIndex, instructionIndex, ·⟩))
    ++ block.terminators.head?.toList.flatMap fun terminator =>
      (terminatorCleanup terminator.kind).toList.map (⟨blockIndex, block.instructions.length, ·⟩)

def cleanupReferences (function : Function) : List CleanupSite :=
  function.blocks.zipIdx.flatMap fun (block, blockIndex) => blockReferences blockIndex block

/-- The borrows an instruction reads, writes or passes on. -/
def usedBorrows : InstructionKind → List ℕ
  | .borrowRead borrow | .genericCloneBorrow borrow _ _ | .handleAwareCloneBorrow borrow _ _
  | .borrowWrite borrow _ | .borrowReplace borrow _ => [borrow]
  | .directCall _ arguments _ => borrowArguments arguments
  | _ => []

def verifyBorrowParameterUsage (function : Function) : Check Unit :=
  let used := function.instructions.flatMap fun instruction => usedBorrows instruction.kind
  let slots := function.borrowParameters.length + function.instructions.length
  forM function.borrowParameters fun parameter =>
    pushIf (parameter.id ≥ slots ∨ parameter.id ∉ used) (errorAt "ZRYNA-I3011" parameter.span
      "borrow parameter is not used by an access or direct call"
      ("use every borrow authority through BorrowRead, BorrowWrite, BorrowReplace, or one exact "
        ++ "borrow argument"))

/-- The structure of one function: identities, spans, places, plans, blocks and their references. -/
def verifyFunctionStructure (module : Module) (functionIndex : ℕ) (function : Function)
    (sources : SourceMap) (layouts : VerifiedLayouts) : Check Unit := do
  let file := module.sourceFile
  pushIf (function.id.module ≠ module.id ∨ function.id.declaration ≠ functionIndex)
    (errorAt "ZRYNA-I3002" function.span
      "function has a noncanonical owner or declaration identity"
      "use its containing module and dense declaration index")
  checkSpan function.span file sources
  pushIf ((layoutType layouts function.result).isNone = true)
    (errorAt "ZRYNA-I3003" function.span "function result names an unknown layout TypeId"
      "use a type from the exact sealed universe")
  let nextValue ← function.parameters.foldlM (checkValue file sources layouts) 0
  let nextBorrow ← function.borrowParameters.foldlM (checkBorrowParameter file sources layouts) 0
  forM function.places.zipIdx (checkPlace file sources layouts function)
  forM function.cleanupPlans.zipIdx (checkPlan file sources function)
  let _ ← function.blocks.zipIdx.foldlM (checkBlock file sources layouts function)
    ⟨nextValue, nextBorrow⟩
  match function.cleanupPlans.find? fun plan =>
      ((cleanupReferences function).map CleanupSite.plan).count plan.id ≠ 1 with
  | some plan => push (errorAt "ZRYNA-I3012" plan.span
      "cleanup plan is not bound to exactly one operation or exit site"
      ("create one dense cleanup plan for each exact prepare, call, return, or trap site"))
  | none => pure ()
  verifyBorrowParameterUsage function

/-- The checks of one function. Its graph is checked when nothing has been reported, `earlier`
included. -/
def verifyFunction (earlier : Check Unit) (module : Module) (functionIndex : ℕ)
    (function : Function) (sources : SourceMap) (layouts : VerifiedLayouts) (types : CloneTypes) :
    Check BorrowIndex :=
  ifClean (do earlier; verifyFunctionStructure module functionIndex function sources layouts)
    ⟨[], []⟩ fun _ =>
      verifyFunctionGraph function layouts types (BorrowIndex.new function layouts)

/-- The functions of a module from `functionIndex` on. The first one that reports anything ends the
walk. -/
def verifyFunctions (module : Module) (sources : SourceMap) (layouts : VerifiedLayouts)
    (types : CloneTypes) :
    Check Unit → List Function → ℕ → List BorrowIndex → Check (List BorrowIndex)
  | earlier, [], _, indices => do
    earlier
    pure indices
  | earlier, function :: functions, functionIndex, indices =>
    ifClean (verifyFunction earlier module functionIndex function sources layouts types) indices
      fun index => verifyFunctions module sources layouts types (pure ()) functions
        (functionIndex + 1) (indices ++ [index])

def verifyModuleHeader (module : Module) (moduleIndex : ℕ) (sources : SourceMap) : Check Unit :=
  pushIf (module.id ≠ moduleIndex
      ∨ (sources.verifyFileId moduleIndex).toOption ≠ some module.sourceFile)
    (error "ZRYNA-I3002" "module has a noncanonical identity or source owner"
      "use dense modules in final SourceMap order")

/-- The modules from `moduleIndex` on. What the header of a module reports ends the walk at the next
function only, so it waits in `earlier` while modules have no function. -/
def verifyModules (sources : SourceMap) (layouts : VerifiedLayouts) (types : CloneTypes) :
    Check Unit → List Module → ℕ → List (List BorrowIndex) → Check (List (List BorrowIndex))
  | earlier, [], _, indices => do
    earlier
    pure indices
  | earlier, module :: modules, moduleIndex, indices =>
    let header := do earlier; verifyModuleHeader module moduleIndex sources
    if module.functions = [] then
      verifyModules sources layouts types header modules (moduleIndex + 1) (indices ++ [[]])
    else
      ifClean (verifyFunctions module sources layouts types header module.functions 0 []) indices
        fun found => verifyModules sources layouts types (pure ()) modules (moduleIndex + 1)
          (indices ++ [found])

section

variable (program : Program)

section

variable (layouts : VerifiedLayouts)

/-- The types whose recursive clones the program may use. -/
def cloneTypes : CloneTypes :=
  ⟨classifyGenericClone program layouts, classifyHandleAwareClone program layouts⟩

def verifyStructure (sources : SourceMap) (layouts : VerifiedLayouts) :
    Check (List (List BorrowIndex)) :=
  verifyModules sources layouts (cloneTypes program layouts) (pure ()) program.modules 0 []

/-! ### Calls -/

def callGuidance : String := "use one acyclic exact-signature direct call graph"

def callError (message : String) : Diagnostic := error "ZRYNA-I3009" message callGuidance

def callErrorAt (span : Span) (message : String) : Diagnostic :=
  errorAt "ZRYNA-I3009" span message callGuidance

def Program.function? (id : FunctionId) : Option Function :=
  (program.modules[id.module]?).bind fun module => module.functions[id.declaration]?

def valueArgumentValid (function : Function) : CallArgument × ValueDefinition → Bool
  | (.value value, parameter) => functionValueType function value = some parameter.ty
  | (.borrow _, _) => false

/-- A borrow argument next to the parameter that takes it. Exclusive arguments are also compared
with the exclusive ones before them. -/
def borrowArgumentValid (function : Function) (borrows : BorrowIndex)
    (entry : Bool × List ℕ) : CallArgument × BorrowParameter → Bool × List ℕ
  | (.value _, _) => (false, entry.2)
  | (.borrow borrow, parameter) =>
    let (valid, exclusive) := entry
    let valid := valid && borrows.definition borrow = some (parameter.referent, parameter.access)
    if parameter.access = .exclusive then
      let clash := exclusive.any fun prior => prior = borrow
        || ((borrows.region prior).any fun left => (borrows.region borrow).any fun right =>
          placesOverlap left right function.places)
      (valid && !clash, exclusive ++ [borrow])
    else (valid, exclusive)

/-- Types of the arguments and of the result, and disjointness of the exclusive arguments. -/
def callValid (function target : Function) (borrows : BorrowIndex) (arguments : List CallArgument)
    (result : Option ValueDefinition) : Bool :=
  (arguments.zip target.parameters).all (valueArgumentValid function)
    && (((arguments.drop target.parameters.length).zip target.borrowParameters).foldl
      (borrowArgumentValid function borrows) (true, [])).1
    && result.any fun result => result.ty = target.result

/-- One call of a function. The result is the callee, as an edge of the call graph. -/
def verifyCall (function : Function) (borrows : BorrowIndex)
    (instruction : Instruction) : Check (List FunctionId) :=
  match instruction.kind with
  | .directCall callee arguments _ =>
    match program.modules[callee.module]? with
    | none => do
      push (callErrorAt instruction.span "direct call names an unknown module")
      pure []
    | some calleeModule =>
      match calleeModule.functions[callee.declaration]? with
      | none => do
        push (callErrorAt instruction.span "direct call names an unknown function")
        pure []
      | some target =>
        if target.id ≠ callee
            ∨ arguments.length ≠ target.parameters.length + target.borrowParameters.length then do
          push (callErrorAt instruction.span
            "direct call identity or arity does not match its callee")
          pure []
        else do
          pushIf (callValid function target borrows arguments instruction.result = false)
            (callErrorAt instruction.span
              "direct call argument or result type does not match its callee")
          pure [callee]
  | _ => pure []

/-- The position of a function in the list of all functions. -/
def functionOffset (id : FunctionId) : ℕ :=
  ((program.modules.take id.module).map fun module => module.functions.length).sum
    + id.declaration

def verifyCallGraph (successors : List (List ℕ)) : Check Unit :=
  let final := Kahn.run successors
  if final.depth.any (fun depth => depth > maxStaticCallDepth) then
    push (callError "static call depth exceeds its limit")
  else
    pushIf (final.seen ≠ successors.length) (callError "direct call graph contains a cycle")

def indexedFunctions (indices : List (List BorrowIndex)) : List (Function × BorrowIndex) :=
  program.modules.zipIdx.flatMap fun (module, moduleIndex) =>
    module.functions.zipIdx.map fun (function, functionIndex) =>
      (function, (((indices[moduleIndex]?).getD [])[functionIndex]?).getD ⟨[], []⟩)

def verifyCalls (indices : List (List BorrowIndex)) : Check Unit := do
  let callees ← (indexedFunctions program indices).mapM fun (function, borrows) =>
    function.instructions.foldlM
      (fun found instruction => do
        let more ← verifyCall program function borrows instruction
        pure (found ++ more)) []
  verifyCallGraph (callees.map fun found => found.map (functionOffset program))

/-! ### The public ABI -/

def abiType (id : ℕ) : Option Abi.RawType :=
  (layoutType layouts id).bind fun record =>
    match record.category with
    | .bool => some .bool
    | .i32 => some .i32
    | _ => none

/-- One export claim. The result is the claim, when its types are scalar. -/
def verifyExport (module : Module)
    (function : Function) (name : String) : Check (Option Abi.RawExport) :=
  let guidance := "public DataOwnershipV1 ABI remains scalar bool/i32 v1"
  if module.id ≠ program.entryModule ∨ function.borrowParameters ≠ [] then do
    push (errorAt "ZRYNA-I3009" function.span
      "only borrow-free entry-module functions may claim public exports"
      "keep aggregate and borrowed functions internal")
    pure none
  else
    match function.parameters.mapM fun parameter => abiType layouts parameter.ty with
    | none => do
      push (errorAt "ZRYNA-I3009" function.span "public export contains a non-scalar parameter"
        guidance)
      pure none
    | some parameters =>
      match abiType layouts function.result with
      | none => do
        push (errorAt "ZRYNA-I3009" function.span "public export contains a non-scalar result"
          guidance)
        pure none
      | some result => pure (some ⟨name, ⟨parameters, result⟩⟩)

/-- The export claims so far, and the position of each function's claim among them. -/
def collectExport (module : Module)
    (entry : List Abi.RawExport × List (Option ℕ)) (function : Function) :
    Check (List Abi.RawExport × List (Option ℕ)) := do
  let (exports, indices) := entry
  match function.entryExport with
  | none => pure (exports, indices ++ [none])
  | some name => do
    match ← verifyExport program layouts module function name with
    | none => pure (exports, indices ++ [none])
    | some claim => pure (exports ++ [claim], indices ++ [some exports.length])

def verifyPublicAbi : Check (Option (List Abi.VerifiedExport) × List (List (Option ℕ))) := do
  let (exports, indices) ← program.modules.foldlM
    (fun (entry : List Abi.RawExport × List (List (Option ℕ))) module => do
      let (exports, found) ← module.functions.foldlM (collectExport program layouts module)
        (entry.1, [])
      pure (exports, entry.2 ++ [found])) ([], [])
  match Abi.verifyV1 exports with
  | .ok abi => pure (some abi, indices)
  | .error _ => do
    let claimed := program.modules.flatMap fun module =>
      module.functions.filter fun function => function.entryExport.isSome
    push ((claimed.head?).elim
      (error "ZRYNA-I3009" "public scalar ABI claims are invalid"
        "use unique portable scalar ABI v1 exports")
      fun function => errorAt "ZRYNA-I3009" function.span "public scalar ABI claims are invalid"
        "use unique portable scalar ABI v1 exports")
    pure (none, indices)

end

/-! ### The verifier -/

/-- Environment lookups belong to the command contract and cannot enter on their own. -/
def admitBody : Except (List Diagnostic) Unit :=
  let isLookup : InstructionKind → Bool
    | .environmentLookup .. => true
    | _ => false
  if program.modules.any fun module => module.functions.any fun function =>
      function.instructions.any fun instruction => isLookup instruction.kind then
    .error [error "ZRYNA-I4100" "environment operations cannot enter DataOwnershipV1"
      ("derive command source, entry, exact environment effect and owned cleanup before "
        ++ "admission")]
  else .ok ()

end

/-- A verified program with the authorities it was verified against. -/
structure VerifiedProgram where
  program : Program
  sourceMapIdentity : ℕ
  universeIdentity : List ℕ
  linear32 : VerifiedLayouts
  linuxX8664 : VerifiedLayouts
  abi : List Abi.VerifiedExport
  abiIndices : List (List (Option ℕ))
  borrowIndices : List (List BorrowIndex)

/-- The value of a phase that reports nothing, or what the phase reports. -/
def phase {α : Type} (check : Check α) : Except (List Diagnostic) α :=
  if check.events = [] then .ok check.value else .error (Errors.finish check.events)

/-- Verifies one raw program against exact source and dual-target layout authorities. -/
def verify (program : Program) (sources : SourceMap) (expectedEntry : FileId)
    (linear32 linuxX8664 : VerifiedLayouts) : Except (List Diagnostic) VerifiedProgram := do
  phase (preflight program linear32)
  phase (verifyAuthorities program sources expectedEntry linear32 linuxX8664)
  admitBody program
  let borrowIndices ← phase (verifyStructure program sources linear32)
  phase (verifyCalls program borrowIndices)
  match ← phase (verifyPublicAbi program linear32) with
  | (none, _) => .error [error "ZRYNA-I3202"
      "DataOwnershipV1 verifier could not seal scalar ABI authority"
      "report the smallest reproducible compiler invariant failure"]
  | (some abi, abiIndices) =>
    .ok ⟨program, sources.id, linear32.universeIdentity, linear32, linuxX8664, abi, abiIndices,
      borrowIndices⟩

end Zryna.Ir.DataOwnership
