import Zryna.Ir.DataOwnership.Graph

/-!
# Admitted contexts of aggregate moves, clones and assignments

Four checks bound the use of aggregate projections. Each looks for the instructions of its kind,
rejects a second one, and requires the first to stand in one exact shape: a payload move in its
canonical enum arm, and a subobject move, clone or assignment in a private straight-line function
next to its consumer.

`verifyFunctionGraph` assembles these with the graph checks and the ownership dataflow.
-/

namespace Zryna.Ir.DataOwnership

open Layout Report

/-! ### Shared shapes -/

/-- One instruction with its position. -/
structure Located where
  blockIndex : ℕ
  block : Block
  index : ℕ
  instruction : Instruction

variable (function : Function)

def locatedInstructions : List Located :=
  function.blocks.zipIdx.flatMap fun (block, blockIndex) =>
    block.instructions.zipIdx.map fun (instruction, index) => ⟨blockIndex, block, index, instruction⟩

/-- For each place the innermost enum payload it lies in: the payload, its enum and its variant. -/
def classifyEnumPayloadProjections : List (Option (ℕ × ℕ × ℕ)) :=
  function.places.zipIdx.foldl
    (fun classifications (place, id) =>
      classifications ++ [match place.kind with
        | .structField base _ | .fixedArrayConstant base _ => (classifications[base]?).join
        | .enumPayload base variant => some (id, base, variant)
        | _ => none]) []

variable (layouts : VerifiedLayouts)

def isAggregateType (ty : ℕ) : Bool :=
  (layoutCategory layouts ty).any isAggregateCategory

def Function.operands : List ℕ :=
  function.blocks.flatMap fun block =>
    block.instructions.flatMap (fun instruction => instructionOperands instruction.kind)
      ++ block.terminators.flatMap fun terminator => terminatorOperands terminator.kind

def valueUseCount (value : ℕ) : ℕ := function.operands.count value

/-- The temporaries of a value, at its type. -/
def temporaryOwners (value ty : ℕ) : List ℕ :=
  (function.places.zipIdx.filter fun (place, _) =>
    place.ty = ty && place.kind = .temporary value).map Prod.snd

def uniqueTemporaryOwner (value ty : ℕ) : Option ℕ :=
  match temporaryOwners function value ty with
  | [owner] => some owner
  | _ => none

def isLocalPlace (place : ℕ) : Bool :=
  match placeKind function.places place with
  | some (.local _) => true
  | _ => false

/-- A private function of one block without successors. -/
def privateStraightLine : Bool :=
  function.entryExport.isNone && function.blocks.length = 1
    && (function.blocks.head?.bind fun block => block.terminators.head?).any fun terminator =>
      (terminatorEdges terminator.kind).isEmpty

/-- The next instruction initialises a local of the result's type with the result. -/
def directLocal (next : Option Instruction) (result : ValueDefinition) : Option ℕ :=
  next.bind fun next =>
    match next.kind with
    | .initializePlace target value =>
      if value = result.id ∧ placeType function target = some result.ty
          ∧ isLocalPlace function target = true then some target
      else none
    | _ => none

/-- An instruction replaces a static projection of another local by a subobject. -/
def isCompleteProjectedSubobjectReplacement (instruction : Instruction) (source : ℕ)
    (result : ValueDefinition) (temporaryOwner : Option ℕ) (function : Function) : Bool :=
  match instruction.kind with
  | .replacePlace target value =>
    let sourceRoot := rootPlace source function
    let targetRoot := rootPlace target function
    value = result.id && function.parameters.isEmpty && function.borrowParameters.isEmpty
      && sourceRoot ≠ targetRoot && isLocalPlace function sourceRoot
      && isLocalPlace function targetRoot && placeType function target = some result.ty
      && staticProjectionPath target function && temporaryOwner.isSome
  | _ => false

def isProjection (place : ℕ) : Bool :=
  ((placeKind function.places place).bind projectionBase).isSome

/-! ### Enum payload moves -/

/-- The move of an aggregate out of an enum payload. -/
structure PayloadMove where
  at_ : Located
  source : ℕ
  result : ValueDefinition
  payload : ℕ
  enumRoot : ℕ
  variant : ℕ

def payloadMoves : List PayloadMove :=
  (locatedInstructions function).filterMap fun located =>
    match located.instruction.kind, located.instruction.result with
    | .moveFromPlace place, some result =>
      if isAggregateType layouts result.ty then
        (((classifyEnumPayloadProjections function)[place]?).join).map
          fun (payload, enumRoot, variant) => ⟨located, place, result, payload, enumRoot, variant⟩
      else none
    | _, _ => none

/-- The enum has one variant, and the moved payload is its payload. -/
def oneExactVariant (move : PayloadMove) : Bool :=
  (placeRecord move.enumRoot function layouts).any fun ty =>
    match ty.kind with
    | .enum _ _ [variant] =>
      variant.ordinal = move.variant && variant.payload = some move.result.ty
    | _ => false

/-- The entry does nothing but match the enum, with one arm. -/
def canonicalEntry (move : PayloadMove) : Bool :=
  function.blocks.head?.any fun entry =>
    entry.instructions.isEmpty && match entry.terminators with
      | [terminator] =>
        match terminator.kind with
        | .enumMatch place [arm] =>
          place = move.enumRoot && arm.variant = move.variant
            && arm.edge.target = move.at_.blockIndex && arm.edge.arguments.isEmpty
        | _ => false
      | _ => false

/-- The block the arm continues in, without arguments. -/
def continuationIndex (block : Block) : Option ℕ :=
  block.terminators.head?.bind fun terminator =>
    match terminator.kind with
    | .jump edge => if edge.arguments.isEmpty then some edge.target else none
    | _ => none

/-- The continuation moves the local out and returns it, with nothing to clean up. -/
def canonicalContinuation (move : PayloadMove) (target : ℕ)
    (continuation : Block) : Option (ValueDefinition × ℕ) :=
  match continuation.instructions, continuation.terminators with
  | [finalMove], [terminator] =>
    match finalMove.kind, finalMove.result, terminator.kind with
    | .moveFromPlace place, some finalResult, .return value cleanup =>
      if place = target ∧ finalResult.ty = move.result.ty ∧ function.result = move.result.ty
          ∧ value = finalResult.id
          ∧ (function.cleanupPlans[cleanup]?).any (fun plan => plan.actions.isEmpty) = true then
        (uniqueTemporaryOwner function finalResult.id finalResult.ty).map (finalResult, ·)
      else none
    | _, _, _ => none
  | _, _ => none

/-- The exact shape around a payload move: three blocks, one parameter, and no other place, value
or plan. -/
def canonicalPayloadMove (move : PayloadMove) : Bool :=
  let arm := move.at_.block
  let moveOwner := uniqueTemporaryOwner function move.result.id move.result.ty
  let local? := directLocal function arm.instructions[move.at_.index + 1]? move.result
  let exactDrop := (arm.instructions[move.at_.index + 2]?).any fun next =>
    next.kind = .dropPlace move.enumRoot
  let continuation := continuationIndex arm
  let final? := local?.bind fun target => (continuation.bind fun index => function.blocks[index]?).bind
    (canonicalContinuation function move target)
  let exactParameter := match function.parameters with
    | [parameter] => parameter.id = 0 && placeType function move.enumRoot = some parameter.ty
        && placeKind function.places move.enumRoot = some (.parameter 0)
    | _ => false
  let results := function.instructions.filterMap Instruction.result
  let exactValues := final?.any fun (finalResult, _) => results = [move.result, finalResult]
  let descendants := (List.range function.places.length).filter fun place =>
    isProjectionBelow place move.source function.places
  let exactPlaces := moveOwner.any fun moveOwner => local?.any fun target =>
    final?.any fun (_, finalOwner) =>
      let expected := descendants ++ [move.enumRoot, move.source, moveOwner, target, finalOwner]
      function.places.length = descendants.length + 5 && expected.dedup.length = function.places.length
        && (List.range function.places.length).all (· ∈ expected)
  let exactPlans := match function.cleanupPlans with
    | [plan] => plan.id = 0 && plan.actions.isEmpty
    | _ => false
  let exactShape := function.entryExport.isNone && function.borrowParameters.isEmpty
    && function.blocks.length = 3 && function.blocks.all (fun block => block.parameters.isEmpty)
    && move.at_.blockIndex ≠ 0 && arm.instructions.length = 3 && arm.terminators.length = 1
    && move.at_.index = 0
    && continuation.any fun index => index ≠ 0 && index ≠ move.at_.blockIndex
  exactShape && move.source = move.payload && isAggregateType layouts move.result.ty
    && oneExactVariant function layouts move && exactParameter && canonicalEntry function move
    && moveOwner.isSome && local?.isSome && exactDrop
    && valueUseCount function move.result.id = 1
    && hasExactProjectionTopology move.source function layouts && final?.isSome && exactValues
    && exactPlaces && exactPlans

def verifyEnumPayloadMoveContexts : Check Unit :=
  match payloadMoves function layouts with
  | [] => pure ()
  | [move] =>
    pushIf (canonicalPayloadMove function layouts move = false)
      (errorAt "ZRYNA-I3010" move.at_.instruction.span
        "enum payload move escapes its exact canonical arm"
        ("move one complete active Struct or fixed-array payload into the immediately following "
          ++ "same-type local, drop its one-variant enum root, and jump without ownership "
          ++ "arguments to an exact local return"))
  | _ :: move :: _ =>
    push (errorAt "ZRYNA-I3010" move.at_.instruction.span
      "function contains more than one enum payload move"
      ("move at most one complete active Struct or fixed-array payload through its exact "
        ++ "canonical enum arm"))

/-! ### Subobject moves, clones and assignments -/

/-- At most one instruction of a kind, in an exact context. -/
def verifyOneContext (found : List (Located × Bool)) (several severalGuidance escapes
    escapesGuidance : String) : Check Unit :=
  match found with
  | [] => pure ()
  | [(located, valid)] =>
    pushIf (valid = false) (errorAt "ZRYNA-I3010" located.instruction.span escapes escapesGuidance)
  | _ :: (located, _) :: _ =>
    push (errorAt "ZRYNA-I3010" located.instruction.span several severalGuidance)

def nextInstruction (located : Located) : Option Instruction :=
  located.block.instructions[located.index + 1]?

/-- The move is the last thing the function does before it returns the result. -/
def directReturn (located : Located) (result : ValueDefinition) : Bool :=
  located.index + 1 = located.block.instructions.length
    && match located.block.terminators with
      | [terminator] =>
        match terminator.kind with
        | .return value _ => value = result.id && function.result = result.ty
        | _ => false
      | _ => false

def subobjectMoveValid (located : Located) (place : ℕ) (result : ValueDefinition) : Bool :=
  let temporaryOwner := uniqueTemporaryOwner function result.id result.ty
  let next := nextInstruction located
  let exactConsumer := (directLocal function next result).isSome
    || next.any (fun next =>
      isCompleteProjectedSubobjectReplacement next place result temporaryOwner function)
    || (directReturn function located result && function.parameters.isEmpty
      && function.borrowParameters.isEmpty && isLocalPlace function (rootPlace place function))
  privateStraightLine function && staticProjectionPath place function
    && hasExactProjectionTopology place function layouts && temporaryOwner.isSome
    && exactConsumer && valueUseCount function result.id = 1

def verifyAggregateSubobjectMoveContexts : Check Unit :=
  verifyOneContext
    ((locatedInstructions function).filterMap fun located =>
      match located.instruction.kind, located.instruction.result with
      | .moveFromPlace place, some result =>
        if isProjection function place
            ∧ ((classifyEnumPayloadProjections function)[place]?).join.isNone = true
            ∧ isAggregateType layouts result.ty = true then
          some (located, subobjectMoveValid function layouts located place result)
        else none
      | _, _ => none)
    "function contains more than one aggregate projection move"
    ("move at most one complete static Struct or fixed-array subobject into one exact direct "
      ++ "local, final return, or static replacement under a distinct local root")
    ("aggregate projection move escapes its exact direct-local, final-return, or "
      ++ "projected-assignment context")
    ("move one complete static Struct or fixed-array subobject immediately into one same-type "
      ++ "local initialization, final return, or static replacement under a distinct local root")

/-- The type is a struct or a fixed array with something to drop. -/
def ownedAggregate (ty : ℕ) : Bool :=
  typeNeedsDrop layouts ty && isAggregateType layouts ty

def projectedCloneValid (located : Located) (place : ℕ) (result : ValueDefinition) : Bool :=
  let temporaryOwner := uniqueTemporaryOwner function result.id result.ty
  let next := nextInstruction located
  privateStraightLine function && ownedAggregate layouts result.ty
    && staticProjectionPath place function && temporaryOwner.isSome
    && ((directLocal function next result).isSome
      || next.any (fun next =>
        isCompleteProjectedSubobjectReplacement next place result temporaryOwner function))
    && valueUseCount function result.id = 1

def verifyProjectedAggregateCloneContexts : Check Unit :=
  verifyOneContext
    ((locatedInstructions function).filterMap fun located =>
      match located.instruction.kind, located.instruction.result with
      | .clonePlace place _ _, some result =>
        if isProjection function place then
          some (located, projectedCloneValid function layouts located place result)
        else none
      | _, _ => none)
    "function contains more than one projected aggregate clone"
    ("clone at most one static Struct or fixed-array subobject into one exact direct local or "
      ++ "static replacement under a distinct local root")
    ("projected aggregate clone escapes its exact direct-local or projected-assignment context")
    ("clone one initialized static Struct or fixed-array subobject immediately into one same-type "
      ++ "local initialization or static replacement under a distinct local root")

/-- The value assigned to a projection comes from another local, whole or as a static subobject. -/
def admittedProjectedAssignmentSource (source : ℕ) (result : ValueDefinition) (cloned : Bool)
    (target : ℕ) (temporaryOwner : Option ℕ) (function : Function) (layouts : VerifiedLayouts) :
    Bool :=
  let sourceRoot := rootPlace source function
  let targetRoot := rootPlace target function
  let sameType := placeType function source = some result.ty
    && placeType function target = some result.ty
  let directRoot := source = sourceRoot && isLocalPlace function source
  let projected := source ≠ sourceRoot && function.parameters.isEmpty
    && function.borrowParameters.isEmpty && isLocalPlace function sourceRoot
    && staticProjectionPath source function && temporaryOwner.isSome
    && (cloned || hasExactProjectionTopology source function layouts)
  sourceRoot ≠ targetRoot && sameType && (directRoot || projected)

/-- The instruction before an assignment, when it produces the assigned value by a move or a
clone. -/
def precedingSource (located : Located) (value : ℕ) : Option (ℕ × ValueDefinition × Bool) :=
  if located.index = 0 then none
  else
    (located.block.instructions[located.index - 1]?).bind fun preceding =>
      preceding.result.bind fun result =>
        if result.id = value then
          match preceding.kind with
          | .moveFromPlace source => some (source, result, false)
          | .clonePlace source _ _ => some (source, result, true)
          | _ => none
        else none

def projectedAssignmentValid (located : Located) (target value : ℕ) : Bool :=
  let temporaryOwner := (placeType function target).bind fun ty =>
    uniqueTemporaryOwner function value ty
  let validType := (placeType function target).any fun ty =>
    ownedAggregate layouts ty && structuralCloneCapable ty layouts
  privateStraightLine function && validType
    && isLocalPlace function (rootPlace target function) && staticProjectionPath target function
    && (precedingSource located value).any (fun (source, result, cloned) =>
      admittedProjectedAssignmentSource source result cloned target temporaryOwner function layouts)
    && temporaryOwner.isSome && valueUseCount function value = 1

def verifyProjectedAggregateAssignmentContexts : Check Unit :=
  verifyOneContext
    ((locatedInstructions function).filterMap fun located =>
      match located.instruction.kind with
      | .replacePlace place value =>
        if isProjection function place
            ∧ (placeType function place).any (isAggregateType layouts) = true then
          some (located, projectedAssignmentValid function layouts located place value)
        else none
      | _ => none)
    "function contains more than one projected aggregate assignment"
    ("move or clone at most one complete static aggregate subobject, or move or clone one complete "
      ++ "aggregate root, into one static Struct or fixed-array projection")
    ("projected aggregate assignment escapes its exact source-to-static-projection context")
    ("move or clone one distinct complete static Struct or fixed-array subobject, or move or clone "
      ++ "one distinct complete local root, immediately into one same-type static projection")

/-! ### Owners of values -/

/-- The value a root place stands for. A parameter place names its value by position. -/
def rootValue : PlaceKind → Option ℕ
  | .parameter index => some index
  | .temporary value => some value
  | _ => none

section

variable (values : List ValueInfo) (layouts : VerifiedLayouts)

def registerOwner (owners : ValueOwners) (entry : Place × ℕ) : Check ValueOwners :=
  let (place, id) := entry
  match rootValue place.kind with
  | none => pure owners
  | some value =>
    match valueInfo values value with
    | none => pure owners
    | some info =>
      if info.ty ≠ place.ty then do
        push (errorAt "ZRYNA-I3008" place.span
          "parameter or temporary place root is ill-typed"
          "bind each addressable root to one existing value of the exact sealed type")
        pure owners
      else if typeNeedsDrop layouts info.ty = false then pure owners
      else do
        pushIf ((ownerOf owners value).isSome = true)
          (errorAt "ZRYNA-I3008" place.span "non-Copy value has more than one root owner"
            "bind each non-Copy value to exactly one parameter or temporary root")
        pure (owners.set value (some id))

/-- Exactly one root for every value with something to drop. -/
def deriveValueOwners : Check ValueOwners := do
  let owners ← function.places.zipIdx.foldlM (registerOwner values layouts)
    (List.replicate values.length none)
  forM values.zipIdx fun (info, index) =>
    let nonCopy := typeNeedsDrop layouts info.ty
    pushIf (nonCopy ≠ (ownerOf owners index).isSome)
      (errorAt "ZRYNA-I3008" function.span
        (if nonCopy then "non-Copy value has no root owner"
          else "Copy value unexpectedly has a root owner")
        "derive exactly one owner root for every non-Copy value and none for Copy values")
  pure owners

/-! ### The whole function -/

/-- Continue only when nothing has been reported. -/
def ifClean {α β : Type} (m : Check α) (otherwise : β) (next : α → Check β) : Check β :=
  if m.events = [] then next m.value else ⟨otherwise, m.events⟩

/-- Edge arities and types, the entry block and reachability, and the shape of loops. -/
def verifyFlowGraph (values : List ValueInfo) : Check Unit := do
  let successors := successorLists function
  let predecessors := predecessorLists successors
  let reachable := reachableBlocks successors
  forM function.blocks fun block =>
    match block.terminators with
    | [] => pure ()
    | terminator :: _ => forM (blockEdges block) (verifyEdgeTypes function values terminator)
  pushIf ((predecessors[0]?).getD [] ≠ [])
    (errorAt "ZRYNA-I3007" function.span "entry block has a predecessor"
      "never target the entry block")
  pushIf (reachable.any (fun reached => !reached) = true
      ∨ (predecessors.drop 1).any List.isEmpty = true)
    (errorAt "ZRYNA-I3007" function.span
      "function contains an unreachable or predecessor-free nonentry block"
      "emit only blocks reachable from entry")
  verifyReducibleLoops successors predecessors (computeDominators predecessors reachable)
    function.span

/-- Uses, types and contexts of the instructions and terminators. -/
def verifyOperations
    (types : CloneTypes) (borrows : BorrowIndex) (dominators : List (List ℕ)) : Check Unit := do
  forM function.blocks.zipIdx fun (block, blockIndex) => do
    forM block.instructions.zipIdx fun (instruction, instructionIndex) => do
      forM (instructionOperands instruction.kind)
        (verifyUse blockIndex instructionIndex instruction.span values dominators)
      verifyOperationTypes function values layouts types borrows instruction
    match block.terminators with
    | [] => pure ()
    | terminator :: _ => do
      forM (terminatorOperands terminator.kind)
        (verifyUse blockIndex block.instructions.length terminator.span values dominators)
      verifyTerminatorTypes function values layouts terminator
  verifyEnumPayloadMoveContexts function layouts
  verifyAggregateSubobjectMoveContexts function layouts
  verifyProjectedAggregateCloneContexts function layouts
  verifyProjectedAggregateAssignmentContexts function layouts

end

/-- The checks of one function behind its structure. The result is the borrow index together with
the open accesses of its blocks. -/
def verifyFunctionGraph (types : CloneTypes) (borrows : BorrowIndex) : Check BorrowIndex :=
  let values := valueTable function
  let successors := successorLists function
  let predecessors := predecessorLists successors
  let dominators := computeDominators predecessors (reachableBlocks successors)
  ifClean (verifyFlowGraph function values) borrows fun _ =>
    ifClean (verifyOperations function values layouts types borrows dominators) borrows fun _ =>
      ifClean (deriveValueOwners function values layouts) borrows fun owners =>
        ifClean (deriveTransient function successors dominators borrows)
          { borrows with incoming := [] } fun incoming => do
            let borrows := { borrows with incoming := incoming }
            verifyOwnershipDataflow ⟨function, layouts, borrows, owners⟩
            pure borrows

end Zryna.Ir.DataOwnership
