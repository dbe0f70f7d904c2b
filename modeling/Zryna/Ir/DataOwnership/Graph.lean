import Zryna.Foundation.Utf8
import Zryna.Ir.DataOwnership.Dataflow

/-!
# The graph of a function

Values, edges, reachability, dominators, loops, operand and result types, and the contexts in
which moves, clones and replacements of aggregate projections are admitted. `verifyFunctionGraph`
runs these checks and then the ownership dataflow.
-/

namespace Zryna.Ir.DataOwnership

open Layout Report

/-! ### Values -/

/-- Where a value is defined. -/
inductive DefinitionSite where
  | functionParameter
  | blockParameter (block : ℕ)
  | instruction (block position : ℕ)
deriving DecidableEq

structure ValueInfo where
  ty : ℕ
  site : DefinitionSite
deriving DecidableEq

section

variable (function : Function)

def valueTable : List ValueInfo :=
  function.parameters.map (fun value => ⟨value.ty, .functionParameter⟩)
    ++ function.blocks.zipIdx.flatMap fun (block, blockIndex) =>
      block.parameters.map (fun value => ⟨value.ty, .blockParameter blockIndex⟩)
        ++ block.instructions.zipIdx.filterMap fun (instruction, instructionIndex) =>
          instruction.result.map fun result =>
            ⟨result.ty, .instruction blockIndex instructionIndex⟩

def valueInfo (values : List ValueInfo) (id : ℕ) : Option ValueInfo := values[id]?

/-! ### Edges and reachability -/

def blockEdges (block : Block) : List (Edge × ℕ) :=
  match block.terminators with
  | [] => []
  | terminator :: _ => (terminatorEdges terminator.kind).zipIdx

def blockSuccessors (block : Block) : List ℕ :=
  ((blockEdges block).map fun (edge, _) => edge.target).filter (· < function.blocks.length)

def successorLists : List (List ℕ) :=
  function.blocks.map (blockSuccessors function)

/-- The blocks an edge enters `target` from, once for each edge. -/
def predecessorsOf (successors : List (List ℕ)) (target : ℕ) : List ℕ :=
  successors.zipIdx.flatMap fun (targets, block) =>
    (targets.filter (· = target)).map fun _ => block

def predecessorLists (successors : List (List ℕ)) : List (List ℕ) :=
  (List.range successors.length).map (predecessorsOf successors)

def verifyEdgeTypes (values : List ValueInfo)
    (terminator : SpannedTerminator) (entry : Edge × ℕ) : Check Unit :=
  let (edge, edgeIndex) := entry
  match function.blocks[edge.target]? with
  | none => pure ()
  | some target =>
    let parameters := edgeParameters target (synthesizedEdge terminator.kind edgeIndex)
    if edge.arguments.length ≠ parameters.length then
      push (errorAt "ZRYNA-I3007" terminator.span
        "CFG edge argument arity does not match target block parameters"
        "pass one exact typed value for every target block parameter")
    else
      forM (edge.arguments.zip parameters) fun (argument, parameter) =>
        pushIf ((valueInfo values argument).map ValueInfo.ty ≠ some parameter.ty)
          (errorAt "ZRYNA-I3007" terminator.span
            "CFG edge argument type does not match its target parameter"
            "pass exact sealed types across every edge")

end

def reachRounds (successors : List (List ℕ)) : ℕ → List ℕ → List Bool → List Bool
  | 0, _, reachable => reachable
  | fuel + 1, queue, reachable =>
    match queue with
    | [] => reachable
    | block :: queue =>
      if reachable.getD block false then reachRounds successors fuel queue reachable
      else
        reachRounds successors fuel (queue ++ (successors[block]?).getD [])
          (reachable.set block true)

/-- The blocks reachable from the entry. A block is expanded once, so the queue takes at most one
entry for each edge after the first. -/
def reachableBlocks (successors : List (List ℕ)) : List Bool :=
  reachRounds successors ((successors.map List.length).sum + 1) [0]
    (List.replicate successors.length false)

/-! ### Dominators -/

section

variable (predecessors : List (List ℕ))

/-- One pass of the dominator iteration over the blocks after the entry. -/
def dominatorPass (reachable : List Bool) (all : List ℕ) (result : List (List ℕ)) : List (List ℕ) :=
  ((List.range predecessors.length).drop 1).foldl
    (fun result block =>
      if reachable.getD block false then
        let next := ((predecessors[block]?).getD []).foldl
          (fun next predecessor =>
            next.filter fun dominator => dominator ∈ (result[predecessor]?).getD []) all
        result.set block (insertAscending block next)
      else result) result

def dominatorRounds (predecessors : List (List ℕ)) (reachable : List Bool) (all : List ℕ) :
    ℕ → List (List ℕ) → List (List ℕ)
  | 0, result => result
  | fuel + 1, result =>
    let next := dominatorPass predecessors reachable all result
    if next = result then result else dominatorRounds predecessors reachable all fuel next

/-- The dominators of every block. A pass that changes anything removes a dominator of some block,
which bounds the number of passes. -/
def computeDominators (reachable : List Bool) : List (List ℕ) :=
  let all := (List.range predecessors.length).filter fun block => reachable.getD block false
  dominatorRounds predecessors reachable all (predecessors.length * predecessors.length + 1)
    ((List.replicate predecessors.length all).set 0 [0])

def dominates (dominators : List (List ℕ)) (block dominator : ℕ) : Bool :=
  dominator ∈ (dominators[block]?).getD []

/-! ### Loops -/

def finishRounds (successors : List (List ℕ)) :
    ℕ → List (ℕ × ℕ) → List Bool → List ℕ → List Bool × List ℕ
  | 0, _, visited, order => (visited, order)
  | fuel + 1, stack, visited, order =>
    match stack with
    | [] => (visited, order)
    | (node, edge) :: stack =>
      match ((successors[node]?).getD [])[edge]? with
      | some target =>
        let stack := (node, edge + 1) :: stack
        if visited.getD target false then finishRounds successors fuel stack visited order
        else finishRounds successors fuel ((target, 0) :: stack) (visited.set target true) order
      | none => finishRounds successors fuel stack visited (order ++ [node])

def stackBudget (successors : List (List ℕ)) : ℕ :=
  (successors.map List.length).sum + successors.length + 1

/-- The nodes in the order a depth-first traversal leaves them. -/
def finishOrder (successors : List (List ℕ)) : List ℕ :=
  ((List.range successors.length).foldl
    (fun (visited, order) start =>
      if visited.getD start false then (visited, order)
      else finishRounds successors (stackBudget successors) [(start, 0)] (visited.set start true)
        order)
    (List.replicate successors.length false, [])).2

def componentRounds (reverse : List (List ℕ)) : ℕ → List ℕ → List Bool → List ℕ → List Bool × List ℕ
  | 0, _, visited, component => (visited, component)
  | fuel + 1, stack, visited, component =>
    match stack with
    | [] => (visited, component)
    | node :: stack =>
      let (visited, stack) := ((reverse[node]?).getD []).foldl
        (fun (visited, stack) predecessor =>
          if visited.getD predecessor false then (visited, stack)
          else (visited.set predecessor true, predecessor :: stack)) (visited, stack)
      componentRounds reverse fuel stack visited (component ++ [node])

def stronglyConnectedComponents (successors : List (List ℕ)) : List (List ℕ) :=
  ((finishOrder successors).reverse.foldl
    (fun (visited, components) start =>
      if visited.getD start false then (visited, components)
      else
        let (visited, component) := componentRounds (predecessorLists successors)
          (stackBudget successors) [start] (visited.set start true) []
        (visited, components ++ [component.foldl (fun sorted node => insertAscending node sorted) []]))
    (List.replicate successors.length false, [])).2

def loopRounds (predecessors : List (List ℕ)) : ℕ → List ℕ → List ℕ → List ℕ
  | 0, _, members => members
  | fuel + 1, work, members =>
    match work with
    | [] => members
    | node :: work =>
      let (members, work) := ((predecessors[node]?).getD []).foldl
        (fun (members, work) predecessor =>
          if predecessor ∈ members then (members, work)
          else (insertAscending predecessor members, work ++ [predecessor])) (members, work)
      loopRounds predecessors fuel work members

/-- The blocks collected backwards from the source of a back edge up to its target. -/
def loopMembers (target source : ℕ) : List ℕ :=
  loopRounds predecessors (predecessors.length + 1) [source]
    (insertAscending source [target])

end

def backEdges (successors : List (List ℕ)) (dominators : List (List ℕ)) (component : List ℕ) :
    List (ℕ × ℕ) :=
  component.flatMap fun source =>
    (((successors[source]?).getD []).filter fun target =>
      target ∈ component && dominates dominators source target).map fun target => (source, target)

def countLoop (nesting members : List ℕ) : List ℕ :=
  members.foldl (fun nesting node => nesting.set node (nesting.getD node 0 + 1)) nesting

def componentHeaders (dominators : List (List ℕ)) (component : List ℕ) : List ℕ :=
  component.filter fun candidate => component.all fun node => dominates dominators node candidate

def isCyclic (successors : List (List ℕ)) (component : List ℕ) : Bool :=
  component.length > 1 || component.head?.any fun node => node ∈ (successors[node]?).getD []

/-- The walk over the components stops at the first one it rejects. -/
def verifyComponents (successors predecessors : List (List ℕ)) (dominators : List (List ℕ))
    (span : Span) : List (List ℕ) → List ℕ → Check Unit
  | [], _ => pure ()
  | component :: components, nesting =>
    if isCyclic successors component then
      match componentHeaders dominators component with
      | [header] =>
        if component.any fun node => ((predecessors[node]?).getD []).any fun predecessor =>
            predecessor ∉ component && node ≠ header then
          push (errorAt "ZRYNA-I3007" span "loop has an entry that bypasses its verified header"
            "route every external loop entry through its dominating header")
        else
          let nesting := (backEdges successors dominators component).foldl
            (fun nesting (source, target) =>
              countLoop nesting (loopMembers predecessors target source)) nesting
          -- Counts only grow, so the limit is passed during the walk or not at all.
          if nesting.any (· > maxLoopNesting) then
            limit (limitAt "verified loop nesting" maxLoopNesting)
          else verifyComponents successors predecessors dominators span components nesting
      | _ =>
        push (errorAt "ZRYNA-I3007" span "CFG contains an irreducible control-flow cycle"
          "use one dominating loop header for every cycle")
    else verifyComponents successors predecessors dominators span components nesting

def verifyReducibleLoops (successors predecessors : List (List ℕ)) (dominators : List (List ℕ))
    (span : Span) : Check Unit :=
  verifyComponents successors predecessors dominators span (stronglyConnectedComponents successors)
    (List.replicate successors.length 0)

/-! ### Uses -/

def verifyUse (block position : ℕ) (span : Span) (values : List ValueInfo)
    (dominators : List (List ℕ)) (value : ℕ) : Check Unit :=
  match valueInfo values value with
  | none => push (errorAt "ZRYNA-I3008" span "operation references a foreign or undefined value"
      "use a value defined by the containing function")
  | some info =>
    let available :=
      match info.site with
      | .functionParameter => true
      | .blockParameter definitionBlock => dominates dominators block definitionBlock
      | .instruction definitionBlock definitionPosition =>
        if definitionBlock = block then definitionPosition < position
        else dominates dominators block definitionBlock
    pushIf (available = false) (errorAt "ZRYNA-I3008" span
      "value definition does not dominate its use"
      "use only earlier same-block or dominating definitions")

/-! ### Clone capabilities -/

def cloneCapableRounds (layouts : VerifiedLayouts) : ℕ → ℕ → List ℕ → Bool → Bool
  | 0, _, _, _ => false
  | fuel + 1, ty, active, root =>
    if ty ∈ active then false
    else
      match (layoutType layouts ty).map VerifiedType.kind with
      | some .bool | some .i32 | some .string => true
      | some (.struct _ _ fields) =>
        fields.all fun field => cloneCapableRounds layouts fuel field.ty (ty :: active) false
      | some (.enum _ _ variants) =>
        root && variants.all fun variant => variant.payload.all fun payload =>
          cloneCapableRounds layouts fuel payload (ty :: active) false
      | some (.fixedArray element _) => cloneCapableRounds layouts fuel element (ty :: active) false
      | _ => false

/-- The type is an aggregate of scalars and strings, with an enum at the top at most. -/
def structuralCloneCapable (ty : ℕ) (layouts : VerifiedLayouts) : Bool :=
  (match layoutCategory layouts ty with
    | some .struct | some .enum | some .fixedArray => true
    | _ => false)
    && cloneCapableRounds layouts (layouts.records.length + 1) ty [] true

/-- The records that refer to each type. -/
def typeParents (layouts : VerifiedLayouts) (children : VerifiedType → List ℕ) (child : ℕ) :
    List ℕ :=
  (layouts.records.filter fun record => child ∈ children record).map VerifiedType.id

def propagateRounds (parents : ℕ → List ℕ) : ℕ → List ℕ → List Bool → List Bool
  | 0, _, marked => marked
  | fuel + 1, pending, marked =>
    match pending with
    | [] => marked
    | child :: pending =>
      let (marked, pending) := (parents child).foldl
        (fun (marked, pending) parent =>
          if marked.getD parent false then (marked, pending)
          else (marked.set parent true, parent :: pending)) (marked, pending)
      propagateRounds parents fuel pending marked

/-- Everything that reaches a marked type through `parents` is marked. -/
def propagateMarks (parents : ℕ → List ℕ) (marked : List Bool) : List Bool :=
  propagateRounds parents (marked.length + 1)
    (((List.range marked.length).filter fun index => marked.getD index false).reverse) marked

/-- A vector whose elements take no storage, or a container without an element. -/
def unsizedContainer (layouts : VerifiedLayouts) (record : VerifiedType) : Bool :=
  match record.kind with
  | .vec element => (layouts.typeById element).all fun element => element.size = 0
  | _ => false

def structuralChildren (record : VerifiedType) : List ℕ :=
  match record.kind with
  | .struct _ _ fields => fields.map VerifiedField.ty
  | .enum _ _ variants => variants.filterMap VerifiedVariant.payload
  | .fixedArray element _ | .vec element => [element]
  | _ => []

def Program.instructions (program : Program) : List Instruction :=
  (program.modules.flatMap Module.functions).flatMap Function.instructions

def usesGenericClone (instruction : Instruction) : Bool :=
  match instruction.kind with
  | .genericClonePlace .. | .genericCloneBorrow .. | .genericMoveFromPlace _
  | .genericReplacePlace .. => true
  | _ => false

def usesHandleAwareClone (instruction : Instruction) : Bool :=
  match instruction.kind with
  | .handleAwareClonePlace .. | .handleAwareCloneBorrow .. | .genericMoveFromPlace _
  | .genericReplacePlace .. => true
  | _ => false

def isHandle (record : VerifiedType) : Bool :=
  match record.kind with
  | .shared _ | .weak _ => true
  | _ => false

/-- The types without handles that the generic clone accepts. -/
def classifyGenericClone (program : Program) (layouts : VerifiedLayouts) : List Bool :=
  if program.instructions.any usesGenericClone then
    let invalid := propagateMarks (typeParents layouts structuralChildren)
      (layouts.records.map fun record => isHandle record || unsizedContainer layouts record)
    layouts.records.map fun record => record.dropKind ≠ 0 && !invalid.getD record.id false
  else []

/-- The types with handles that the handle-aware clone accepts. -/
def classifyHandleAwareClone (program : Program) (layouts : VerifiedLayouts) : List Bool :=
  if program.instructions.any usesHandleAwareClone then
    let parents := typeParents layouts structuralChildren
    let handles := propagateMarks parents (layouts.records.map isHandle)
    let invalid := propagateMarks parents (layouts.records.map (unsizedContainer layouts))
    layouts.records.map fun record =>
      handles.getD record.id false && !invalid.getD record.id false
  else []

/-- The classification of each type by the two recursive clones. -/
structure CloneTypes where
  generic : List Bool
  handleAware : List Bool

def CloneTypes.transferable (types : CloneTypes) (ty : ℕ) : Bool :=
  types.generic.getD ty false || types.handleAware.getD ty false

def validReplaceType (place : ℕ) (function : Function) (types : CloneTypes) : Bool :=
  staticProjectionPath place function && (placeType function place).any types.transferable

def validMoveType (place : ℕ) (function : Function) (types : CloneTypes) : Bool :=
  (placeType function place).any types.transferable && rootPlace place function ≠ place

/-! ### Operation types -/

section OperationTypes

variable (function : Function) (values : List ValueInfo) (layouts : VerifiedLayouts)

def valueCategory (value : ℕ) : Option TypeCategory :=
  (valueInfo values value).bind fun info => layoutCategory layouts info.ty

def valueHasType (value ty : ℕ) : Bool := (valueInfo values value).map ValueInfo.ty = some ty

def indexedResult (place index : ℕ) (category : TypeCategory) (result : Option ℕ) : Bool :=
  (valueCategory values layouts index = some .i32)
    && (placeRecord place function layouts).any fun ty =>
      ty.category = category && ty.referencedType.any fun element =>
        result = some element && typeIsCopy layouts element

def containerElements (elements : List ℕ) (category : TypeCategory) (result : Option ℕ) : Bool :=
  (result.bind (layoutType layouts)).any fun ty =>
    ty.category = category && ty.referencedType.any fun element =>
      elements.all fun value => valueHasType values value element

def vecCloneElement (elementCleanup : Option ℕ) (element : VerifiedType) : Bool :=
  match element.kind with
  | .bool | .i32 => element.dropKind = 0 && elementCleanup.isNone
  | .string => element.dropKind ≠ 0 && elementCleanup.isSome
  | _ => false

/-- The nominal identity of an enum whose first variant holds a string and whose second holds
nothing. -/
def outcomeShape (ty : ℕ) : Option (ℕ × ℕ) :=
  (layoutType layouts ty).bind fun record =>
    match record.variants with
    | [found, missing] =>
      (found.payload.bind layouts.typeById).bind fun string =>
        if record.category = .enum ∧ record.dropKind ≠ 0 ∧ found.ordinal = 0
            ∧ missing.ordinal = 1 ∧ missing.payload = none ∧ string.category = .string then
          record.nominalIdentity
        else none
    | _ => none

section

variable (types : CloneTypes) (borrows : BorrowIndex) (instruction : Instruction)

/-- The operands and the result of an instruction have the types its operation requires. -/
def operationTypesValid : Bool :=
  let resultType := instruction.result.map ValueDefinition.ty
  let resultRecord := resultType.bind (layoutType layouts)
  let result := resultRecord.map VerifiedType.category
  let category := valueCategory values layouts
  match instruction.kind with
  | .boolLiteral _ => result = some .bool
  | .i32Literal _ => result = some .i32
  | .i32Add lhs rhs | .i32Sub lhs rhs | .i32Mul lhs rhs =>
    category lhs = some .i32 && category rhs = some .i32 && result = some .i32
  | .i32Neg operand => category operand = some .i32 && result = some .i32
  | .i32LtS lhs rhs | .i32LeS lhs rhs | .i32GtS lhs rhs | .i32GeS lhs rhs =>
    category lhs = some .i32 && category rhs = some .i32 && result = some .bool
  | .eq lhs rhs | .ne lhs rhs =>
    (valueInfo values lhs).any fun left => (valueInfo values rhs).any fun right =>
      left.ty = right.ty && (category lhs = some .bool || category lhs = some .i32)
        && result = some .bool
  | .structConstruct fields cleanup =>
    cleanup.isNone && resultRecord.any fun ty =>
      ty.category = .struct && fields.length = ty.fields.length
        && (fields.zip ty.fields).all fun (value, field) => valueHasType values value field.ty
  | .enumConstruct variant payload cleanup =>
    cleanup.isNone && (resultRecord.bind fun ty => ty.variants[variant]?).any fun record =>
      match payload, record.payload with
      | none, none => true
      | some value, some ty => valueHasType values value ty
      | _, _ => false
  | .fixedArrayConstruct elements cleanup =>
    cleanup.isNone && resultRecord.any fun ty =>
      ty.category = .fixedArray && ty.arrayLength = some elements.length
        && ty.referencedType.any fun element =>
          elements.all fun value => valueHasType values value element
  | .environmentLookup .. => resultType.any fun ty => (outcomeShape layouts ty).isSome
  | .copyFromPlace place | .moveFromPlace place => placeType function place = resultType
  | .clonePlace place _ elementCleanup =>
    placeType function place = resultType && resultType.any fun ty =>
      structuralCloneCapable ty layouts && (layoutType layouts ty).any fun record =>
        (record.dropKind = 0) = elementCleanup.isNone
  | .genericClonePlace place _ _ =>
    placeType function place = resultType && resultType.any fun ty => types.generic.getD ty false
  | .genericCloneBorrow borrow _ _ =>
    (borrows.definition borrow).any fun (referent, _) =>
      some referent = resultType && types.generic.getD referent false
  | .handleAwareClonePlace place _ _ =>
    placeType function place = resultType
      && resultType.any fun ty => types.handleAware.getD ty false
  | .handleAwareCloneBorrow borrow _ _ =>
    (borrows.definition borrow).any fun (referent, _) =>
      some referent = resultType && types.handleAware.getD referent false
  | .genericMoveFromPlace place =>
    placeType function place = resultType && validMoveType place function types
  | .genericReplacePlace place value =>
    instruction.result.isNone
      && placeType function place = (valueInfo values value).map ValueInfo.ty
      && validReplaceType place function types
  | .initializePlace place value | .replacePlace place value =>
    placeType function place = (valueInfo values value).map ValueInfo.ty
  | .borrowWrite borrow value =>
    instruction.result.isNone && (borrows.definition borrow).any fun (referent, access) =>
      access = .exclusive && typeIsCopy layouts referent && valueHasType values value referent
  | .borrowReplace borrow value =>
    instruction.result.isNone && (borrows.definition borrow).any fun (referent, access) =>
      access = .exclusive && typeNeedsDrop layouts referent && valueHasType values value referent
  | .beginIndexedBorrow definition index _ | .beginIndexedAccess definition index _ =>
    instruction.result.isNone && (elementType function definition.place layouts).isSome
      && category index = some .i32
  | .projectIndexedBorrow parent borrow index _ =>
    instruction.result.isNone && parent < borrow && (borrows.origin parent).isSome
      && (borrows.definition parent).any (fun (ty, _) => (containerElementType ty layouts).isSome)
      && category index = some .i32
  | .bindIndexedBorrow parent borrow =>
    instruction.result.isNone && parent < borrow && (borrows.origin parent).isSome
      && (borrows.definition parent).isSome
  | .dropPlace _ | .beginBorrow _ | .endBorrow _ => instruction.result.isNone
  | .enumDiscriminant place =>
    (placeRecord place function layouts).any (fun ty => ty.category = .enum)
      && result = some .i32
  | .fixedArrayIndexCopy place index _ =>
    indexedResult function values layouts place index .fixedArray resultType
  | .vecIndexCopy place index _ =>
    indexedResult function values layouts place index .vec resultType
  | .stringFromUtf8 bytes _ => result = some .string && Utf8.valid bytes
  | .stringClone place _ => placeType function place = resultType && result = some .string
  | .stringConcat left right _ =>
    placeType function left = resultType && placeType function right = resultType
      && result = some .string
  | .vecClone place _ elementCleanup =>
    placeType function place = resultType && resultRecord.any fun ty =>
      ty.category = .vec && (ty.referencedType.bind layouts.typeById).any
        (vecCloneElement elementCleanup)
  | .vecConstruct elements _ => containerElements values layouts elements .vec resultType
  | .vecPush vector value _ =>
    instruction.result.isNone && (placeRecord vector function layouts).any fun ty =>
      ty.category = .vec && ty.referencedType.any fun element => valueHasType values value element
  | .sharedConstruct value _ =>
    resultRecord.any fun ty =>
      ty.category = .shared && ty.referencedType.any fun payload =>
        valueHasType values value payload
  | .sharedClone place _ => placeType function place = resultType && result = some .shared
  | .weakDowngrade place _ =>
    (placeRecord place function layouts).any fun shared => resultRecord.any fun weak =>
      shared.category = .shared && weak.category = .weak
        && shared.referencedType = weak.referencedType
  | .weakClone place _ => placeType function place = resultType && result = some .weak
  | .borrowRead borrow =>
    (borrows.definition borrow).any fun (ty, _) =>
      resultType = some ty && typeIsCopy layouts ty
  | .directCall .. => true

def verifyOperationTypes : Check Unit :=
  pushIf (operationTypesValid function values layouts types borrows instruction = false)
    (errorAt "ZRYNA-I3005" instruction.span
      "instruction operands or result have an invalid sealed type"
      "use the exact operand and result types required by the operation")

end

def weakUpgradeShapeValid (weakType : VerifiedType) (success expired : Edge) : Bool :=
  weakType.referencedType.any fun payload =>
    weakType.category = .weak
      && (function.blocks[success.target]?).any fun successBlock =>
        successBlock.parameters.head?.any fun first =>
          ((layoutType layouts first.ty).any fun shared =>
              shared.category = .shared && shared.referencedType = some payload
                && success.arguments.length + 1 = successBlock.parameters.length)
            && (function.blocks[expired.target]?).any fun block =>
              expired.arguments.length = block.parameters.length

def terminatorTypesValid : Terminator → Bool
  | .return value _ => valueHasType values value function.result
  | .branch condition _ _ => valueCategory values layouts condition = some .bool
  | .enumMatch place arms =>
    (placeRecord place function layouts).any fun ty =>
      ty.category = .enum && arms.length = ty.variants.length
        && (arms.zip ty.variants).all fun (arm, variant) => arm.variant = variant.ordinal
  | .weakUpgradeBranch weak success expired _ =>
    (placeRecord weak function layouts).any fun weakType =>
      weakUpgradeShapeValid function layouts weakType success expired
  | .jump _ | .trap .. => true

def verifyTerminatorTypes (terminator : SpannedTerminator) : Check Unit :=
  pushIf (terminatorTypesValid function values layouts terminator.kind = false)
    (errorAt "ZRYNA-I3014" terminator.span
      "terminator result, condition, enum arms, or weak-upgrade edge shape is invalid"
      "use exact return/bool/exhaustive-enum/weak-upgrade types and successor shapes")

end OperationTypes

end Zryna.Ir.DataOwnership
