import Zryna.Ir.DataOwnership.Flow

/-!
# The ownership dataflow

`verifyOwnershipDataflow` visits every block once, lowest block first, with the flow of the first
edge that arrived there. It checks each instruction, each terminator and each cleanup plan against
the flow at that point, and compares every further arrival with the flow already recorded.

`deriveFlowBefore` is the replay that hands the flow of one site to a backend. It visits blocks in
the order their first arrival was found, ignores what the transfers report, and stops at the site.

The dataflow state carries one field that the source does not have: `checked` records which flow
each cleanup plan was checked against.
-/

namespace Zryna.Ir.DataOwnership

open Layout Report

/-! ### Cleanup plans -/

/-- The roots that are still pending, most recently completed first. -/
def pendingDrops (flow : OwnershipFlow) : List DropAction :=
  flow.pending.reverse.map DropAction.dropPlace

/-- A partially initialised or partially moved enum without a known variant. -/
def unrefinedPartialEnum (function : Function) (layouts : VerifiedLayouts) (flow : OwnershipFlow)
    (place : ℕ) : Bool :=
  isPartial (flow.state place)
    && (placeRecord place function layouts).any (fun ty => ty.category = .enum)
    && (flow.variant place).isNone

def verifyCleanup (id : ℕ) (function : Function) (layouts : VerifiedLayouts)
    (flow : OwnershipFlow) : Check Unit :=
  match function.cleanupPlans[id]? with
  | none => pure ()
  | some plan => do
    pushIf (plan.actions ≠ pendingDrops flow) (errorAt "ZRYNA-I3012" plan.span
      "cleanup plan is incomplete, duplicated, or out of reverse-completion order"
      "drop every live non-Copy root exactly once in reverse completion order")
    forM flow.pending.reverse fun root =>
      forM (List.range function.places.length) fun place =>
        pushIf ((place = root ∨ isProjectionBelow place root function.places = true)
            ∧ unrefinedPartialEnum function layouts flow place = true)
          (errorAt "ZRYNA-I3013" plan.span
            "partial enum cleanup lacks an exact active-variant refinement"
            "derive cleanup only while every partial enum's active variant is sealed")

/-- The shared check of the plans that first destroy a half-built destination. -/
def verifyPrefixPlan (plan : CleanupPlan) (first : ℕ → DropAction) (destination : Option ℕ)
    (flow : OwnershipFlow) (lacking lackingGuidance misordered misorderedGuidance : String) :
    Check Unit :=
  match destination with
  | none => push (errorAt "ZRYNA-I3012" plan.span lacking lackingGuidance)
  | some owner =>
    pushIf (plan.actions ≠ first owner :: pendingDrops flow)
      (errorAt "ZRYNA-I3013" plan.span misordered misorderedGuidance)

def verifyVecCloneElementCleanup (id : ℕ) (destination : Option ℕ) (function : Function)
    (flow : OwnershipFlow) : Check Unit :=
  match function.cleanupPlans[id]? with
  | none => pure ()
  | some plan =>
    verifyPrefixPlan plan .dropVecInitializedPrefix destination flow
      "Vec clone element cleanup lacks its distinct destination owner"
      "bind the clone result to one exact temporary owner"
      ("Vec clone element cleanup does not reverse-drop the completed destination prefix before "
        ++ "live roots")
      ("drop the initialized destination prefix first, then every pre-existing owner in reverse "
        ++ "order")

/-- The number of fallible string clones below a type, where the variant of an enum at the top is
known. Products that leave 64 bits have no count. -/
def aggregateCloneFallibleLeafCount (layouts : VerifiedLayouts) : ℕ → ℕ → Option ℕ → Bool → Option ℕ
  | 0, _, _, _ => none
  | fuel + 1, ty, rootVariant, root =>
    match (layoutType layouts ty).map VerifiedType.kind with
    | some .bool | some .i32 => some 0
    | some .string => some 1
    | some (.struct _ _ fields) =>
      fields.foldlM
        (fun total field =>
          (aggregateCloneFallibleLeafCount layouts fuel field.ty none false).bind fun count =>
            if total + count < 2 ^ 64 then some (total + count) else none) 0
    | some (.fixedArray element length) =>
      (aggregateCloneFallibleLeafCount layouts fuel element none false).bind fun count =>
        if length * count < 2 ^ 64 then some (length * count) else none
    | some (.enum _ _ variants) =>
      if root then
        rootVariant.bind fun variant => (variants[variant]?).bind fun record =>
          match record.payload with
          | none => some 0
          | some payload => aggregateCloneFallibleLeafCount layouts fuel payload none false
      else none
    | _ => none

def verifyAggregateCloneElementCleanup (id : ℕ) (destination : Option ℕ) (source : ℕ)
    (function : Function) (layouts : VerifiedLayouts) (flow : OwnershipFlow) : Check Unit :=
  match function.cleanupPlans[id]? with
  | none => pure ()
  | some plan => do
    verifyPrefixPlan plan .dropAggregateInitializedPrefix destination flow
      "aggregate clone element cleanup lacks its distinct destination owner"
      "bind the clone result to one exact temporary owner"
      ("aggregate clone element cleanup does not reverse-drop the recursive destination prefix "
        ++ "before live roots")
      ("drop the initialized structural destination prefix first, then every pre-existing owner "
        ++ "in reverse order")
    let sourceType := placeRecord source function layouts
    let activeVariant := sourceType.bind fun record =>
      if record.category = .enum then flow.variant source else none
    -- Without a destination the source returns before it looks at the shape.
    pushIf (destination.isSome = true ∧ (sourceType.bind fun record =>
        aggregateCloneFallibleLeafCount layouts (layouts.records.length + 1) record.id
          activeVariant true) = none)
      (errorAt "ZRYNA-I3013" plan.span
        "aggregate clone element cleanup lacks an authenticated active root shape"
        ("clone a structurally supported source whose root Enum variant is known at this program "
          ++ "point"))

/-- The destination of a recursive clone, which must not own the source. -/
def cloneDestination (instruction : Instruction) (sourceRegion : Option ℕ)
    (valueOwners : ValueOwners) (function : Function) : Option ℕ :=
  (resultOwner instruction valueOwners).filter fun destination =>
    sourceRegion.all fun source => rootPlace source function ≠ destination

/-- The recursive clones, with the region they read and the plan of a half-built result. -/
def recursiveClone (borrows : BorrowIndex) : InstructionKind → Option (String × Option ℕ × ℕ)
  | .genericClonePlace place _ prefixCleanup => some ("generic", some place, prefixCleanup)
  | .genericCloneBorrow borrow _ prefixCleanup =>
    some ("generic", borrows.region borrow, prefixCleanup)
  | .handleAwareClonePlace place _ prefixCleanup => some ("handle-aware", some place, prefixCleanup)
  | .handleAwareCloneBorrow borrow _ prefixCleanup =>
    some ("handle-aware", borrows.region borrow, prefixCleanup)
  | _ => none

section

variable (instruction : Instruction) (valueOwners : ValueOwners) (function : Function)

def verifyClonePrefixCleanup (borrows : BorrowIndex) (flow : OwnershipFlow) : Check Unit :=
  match recursiveClone borrows instruction.kind with
  | none => pure ()
  | some (family, sourceRegion, prefixCleanup) =>
    match function.cleanupPlans[prefixCleanup]? with
    | none => pure ()
    | some plan =>
      verifyPrefixPlan plan .dropGenericCloneInitializedPrefix
        (cloneDestination instruction sourceRegion valueOwners function) flow
        s!"{family} clone prefix cleanup lacks its distinct destination owner"
        "bind the clone result to one exact temporary owner distinct from its retained source"
        s!"{family} clone prefix cleanup does not unwind its destination before live roots"
        ("unwind the exact recursive destination frontier first, then all pre-existing owners in "
          ++ "reverse order")

/-! ### One instruction -/

/-- The arguments of a call change hands before its cleanup plan is looked at. -/
def transferCall (borrows : BorrowIndex) (flow : OwnershipFlow) : Check OwnershipFlow :=
  if isDirectCall instruction.kind then
    transferConsumedValues (consumingInstructionOperands instruction.kind) valueOwners function
      { flow with
        variants := invalidateCallVariants instruction.kind function borrows flow.variants }
      instruction.span
  else pure flow

def isPlaceMove : InstructionKind → Bool
  | .moveFromPlace _ | .genericMoveFromPlace _ => true
  | _ => false

/-- The variant a fresh result is known to hold. -/
def resultVariant (kind : InstructionKind) (owner : ℕ) (flow : OwnershipFlow) : Option ℕ :=
  match kind with
  | .enumConstruct variant _ _ => some variant
  | .clonePlace place _ _ | .genericClonePlace place _ _ | .handleAwareClonePlace place _ _ =>
    flow.variant place
  | .moveFromPlace _ | .genericMoveFromPlace _ => flow.variant owner
  | _ => none

def publishResult (flow : OwnershipFlow) : Check OwnershipFlow :=
  match resultOwner instruction valueOwners with
  | none => pure flow
  | some owner => do
    let flow ←
      if isPlaceMove instruction.kind then pure flow
      else pushPendingOwner owner function flow instruction.span
    pure (flow.setVariant owner (resultVariant instruction.kind owner flow))

variable (layouts : VerifiedLayouts) (borrows : BorrowIndex) (flow : OwnershipFlow)

/-- The state change of an instruction, after a call has handed over its arguments. -/
def commitInstruction (active : Active) : Check (OwnershipFlow × Active) := do
  let (flow, active) ←
    applyOwnershipInstruction instruction function layouts borrows flow active
  let flow ←
    if isDirectCall instruction.kind then pure flow
    else applyValueTransfers instruction valueOwners function layouts flow
  let flow ← publishResult instruction valueOwners function flow
  pure (flow, active)

/-- The plans an instruction names, with the check of each. -/
def instructionPlans : List (ℕ × Check Unit) :=
  let destination := resultOwner instruction valueOwners
  (instructionCleanup instruction.kind).toList.map
      (fun cleanup => (cleanup, verifyCleanup cleanup function layouts flow))
    ++ match instruction.kind with
      | .vecClone _ _ (some cleanup) =>
        [(cleanup, verifyVecCloneElementCleanup cleanup destination function flow)]
      | .clonePlace place _ (some cleanup) =>
        [(cleanup,
          verifyAggregateCloneElementCleanup cleanup destination place function layouts flow)]
      | .genericClonePlace _ _ cleanup | .genericCloneBorrow _ _ cleanup
      | .handleAwareClonePlace _ _ cleanup | .handleAwareCloneBorrow _ _ cleanup =>
        [(cleanup, verifyClonePrefixCleanup instruction valueOwners function borrows flow)]
      | _ => []

end

/-- A program point that names a cleanup plan: an instruction of a block, or its terminator. -/
structure CleanupSite where
  block : ℕ
  instruction : ℕ
  plan : ℕ
deriving DecidableEq

/-- The cleanup plans checked so far, each with the flow it was checked against. -/
abbrev Checked := List (CleanupSite × OwnershipFlow)

/-- The flow inside a block, its active borrows and the plans checked on the way. -/
structure BlockState where
  flow : OwnershipFlow
  active : Active
  checked : Checked

/-- What every step of the dataflow of one function reads. -/
structure FlowContext where
  function : Function
  layouts : VerifiedLayouts
  borrows : BorrowIndex
  valueOwners : ValueOwners

variable (context : FlowContext)

def verifyInstruction (block : ℕ) (state : BlockState) (entry : Instruction × ℕ) :
    Check BlockState := do
  let (instruction, index) := entry
  verifyConsumption instruction context.function context.layouts state.active
  let flow ←
    transferCall instruction context.valueOwners context.function context.borrows state.flow
  let plans := instructionPlans instruction context.valueOwners context.function context.layouts
    context.borrows flow
  forM plans fun (_, check) => check
  let (next, active) ← commitInstruction instruction context.valueOwners context.function
    context.layouts context.borrows flow state.active
  pure ⟨next, active,
    state.checked ++ plans.map fun (plan, _) => (⟨block, index, plan⟩, flow)⟩

/-! ### Terminators -/

section

variable (function : Function)

/-- A lexical borrow ends before its block does, and no borrow is left open by a return. -/
def verifyCompletion (borrows : BorrowIndex) (active : Active)
    (terminator : SpannedTerminator) : Check Unit :=
  let isReturn := match terminator.kind with
    | .return .. => true
    | _ => false
  pushIf ((active.zipIdx.drop function.borrowParameters.length).any
      (fun (entry, id) => entry.isSome && ((borrows.origin id).isNone || isReturn)) = true)
    (borrowError terminator.span "borrow remains active at a control-flow edge"
      "end every borrow before a branch, jump, loop edge, return, or trap")

def terminatorPlaceOperand : Terminator → Option ℕ
  | .enumMatch place _ | .weakUpgradeBranch place _ _ _ => some place
  | _ => none

/-- The flow at which the plan of a terminator runs: a return has handed over its value. -/
def terminatorFlow (terminator : SpannedTerminator) (flow : OwnershipFlow) : Check OwnershipFlow :=
  match terminator.kind with
  | .return value _ =>
    transferReturnValue value context.valueOwners context.function context.layouts flow
      terminator.span
  | _ => pure flow

def terminatorCleanup : Terminator → Option ℕ
  | .return _ cleanup | .trap _ cleanup | .weakUpgradeBranch _ _ _ cleanup => some cleanup
  | _ => none

def verifyTerminatorFlow (block : ℕ) (state : BlockState) (position : ℕ)
    (terminator : SpannedTerminator) : Check BlockState := do
  verifyCompletion context.function context.borrows state.active terminator
  pushIf ((terminatorPlaceOperand terminator.kind).any
      (fun place => unreadable place context.function state.flow state.active) = true)
    (errorAt "ZRYNA-I3010" terminator.span
      "enum or weak terminator reads an unavailable or exclusively borrowed owner"
      "branch only on one initialized owner not hidden by an exclusive borrow")
  let flow ← terminatorFlow context terminator state.flow
  match terminatorCleanup terminator.kind with
  | none => pure { state with flow := flow }
  | some cleanup => do
    verifyCleanup cleanup context.function context.layouts flow
    pure ⟨flow, state.active, state.checked ++ [(⟨block, position, cleanup⟩, flow)]⟩

/-! ### Edges -/

/-- No owner handed over by an edge may be borrowed. -/
def verifyEdgeConsumption (edge : Edge) (valueOwners : ValueOwners) (function : Function)
    (active : Active) (span : Span) : Check Unit :=
  pushIf ((edge.arguments.filterMap (ownerOf valueOwners)).any
      (fun owner => overlapsActive owner active function.places) = true)
    (errorAt "ZRYNA-I3010" span "owned edge argument overlaps an active borrow"
      "retain the borrowed owner until its indexed operation completes")

/-- An arm of an enum match knows the variant it is taken for. -/
def refineArm (terminator : Terminator) (edgeIndex : ℕ) (flow : OwnershipFlow) : OwnershipFlow :=
  match terminator with
  | .enumMatch place arms =>
    match arms[edgeIndex]? with
    | some arm => flow.setVariant place (some arm.variant)
    | none => flow
  | _ => flow

/-- The flow an edge delivers to its target. -/
def edgeFlow (terminator : SpannedTerminator) (edgeIndex : ℕ) (edge : Edge)
    (flow : OwnershipFlow) : Check OwnershipFlow := do
  let incoming ← transferEdgeOwners edge (synthesizedEdge terminator.kind edgeIndex)
    context.function context.valueOwners (refineArm terminator.kind edgeIndex flow)
    terminator.span
  pure (normalizeDeadPlaces incoming context.function context.layouts)

/-! ### The traversal -/

/-- Insert into an ascending list without repetition. -/
def insertAscending (x : ℕ) : List ℕ → List ℕ
  | [] => [x]
  | y :: ys => if x < y then x :: y :: ys else if x = y then y :: ys else y :: insertAscending x ys

structure DataflowState where
  entries : List (Option OwnershipFlow)
  queue : List ℕ
  checked : Checked

def recordArrival (span : Span) (state : DataflowState) (target : ℕ) (incoming : OwnershipFlow) :
    Check DataflowState :=
  match (state.entries[target]?).join with
  | none => pure { state with
      entries := state.entries.set target (some incoming)
      queue := insertAscending target state.queue }
  | some existing => do
    pushIf (existing ≠ incoming) (errorAt "ZRYNA-I3010" span
      "ownership, initialization, or active-enum state differs across a CFG join or backedge"
      "restore every live place and enum refinement to one exact state on every incoming edge")
    pure state

def verifyEdge (block : BlockState) (terminator : SpannedTerminator) (state : DataflowState)
    (entry : Edge × ℕ) : Check DataflowState := do
  let (edge, edgeIndex) := entry
  verifyEdgeConsumption edge context.valueOwners context.function block.active terminator.span
  let incoming ← edgeFlow context terminator edgeIndex edge block.flow
  recordArrival terminator.span state edge.target incoming

def verifyBlockFlow (state : DataflowState) (index : ℕ) (block : Block) (flow : OwnershipFlow) :
    Check DataflowState := do
  let inner ← block.instructions.zipIdx.foldlM (verifyInstruction context index)
    ⟨flow, context.borrows.entryActive context.function index, state.checked⟩
  match block.terminators with
  | [] => pure { state with checked := inner.checked }
  | terminator :: _ => do
    let inner ← verifyTerminatorFlow context index inner block.instructions.length terminator
    (terminatorEdges terminator.kind).zipIdx.foldlM (verifyEdge context inner terminator)
      { state with checked := inner.checked }

/-- Each round takes the lowest queued block. A block enters the queue once, when its entry flow is
recorded, so as many rounds as there are blocks empty the queue. -/
def dataflowRounds : ℕ → DataflowState → Check DataflowState
  | 0, state => pure state
  | fuel + 1, state =>
    match state.queue with
    | [] => pure state
    | index :: queue =>
      match (state.entries[index]?).join, context.function.blocks[index]? with
      | some flow, some block => do
        let state ← verifyBlockFlow context { state with queue := queue } index block flow
        dataflowRounds fuel state
      | _, _ => dataflowRounds fuel { state with queue := queue }

/-- Parameters and everything below them are initialised at the entry. -/
def initialStates : List PlaceState :=
  (List.range function.places.length).foldl
    (fun states place =>
      match placeBase function.places place with
      | some base =>
        if states.getD base .uninitialized = .initialized then states.set place .initialized
        else states
      | none => states)
    (function.places.map fun place =>
      match place.kind with
      | .parameter _ => .initialized
      | _ => .uninitialized)

def initialFlow (valueOwners : ValueOwners) : OwnershipFlow where
  states := initialStates function
  variants := List.replicate function.places.length none
  pending := function.parameters.filterMap fun parameter => ownerOf valueOwners parameter.id

def initialEntries (valueOwners : ValueOwners) : List (Option OwnershipFlow) :=
  (List.replicate function.blocks.length none).set 0 (some (initialFlow function valueOwners))

def ownershipDataflow : Check DataflowState :=
  dataflowRounds context context.function.blocks.length
    ⟨initialEntries context.function context.valueOwners, [0], []⟩

def verifyOwnershipDataflow : Check Unit := do
  let _ ← ownershipDataflow context
  pure ()

/-! ### Open accesses on edges -/

/-- The open accesses at the entry of each block, while they are being derived. -/
structure TransientState where
  incoming : List (Option (List ℕ))
  queue : List ℕ
  cached : ℕ

/-- The borrows open at the end of a block. A function with too many at once is rejected. -/
def advanceBlock (active : List ℕ) (block : Block) : Check (Option (List ℕ)) :=
  block.instructions.foldlM
    (fun active instruction =>
      match active with
      | none => pure none
      | some active =>
        let active := advance active instruction.kind
        if active.length + function.borrowParameters.length > maxActiveBorrowsPerFunction then do
          limit (limitAt "simultaneously active borrows per function" maxActiveBorrowsPerFunction)
          pure none
        else pure (some active)) (some active)

end

def transientArrival (span : Span) (dominators : List (List ℕ)) (block : ℕ) (active : List ℕ)
    (state : Option TransientState) (target : ℕ) : Check (Option TransientState) :=
  match state with
  | none => pure none
  | some state =>
    if active ≠ [] ∧ target ∈ (dominators[block]?).getD [] then do
      push (borrowError span "transient indexed authority remains active on a backedge"
        "complete indexed operations before restoring a loop header")
      pure none
    else
      match (state.incoming[target]?).join with
      | none =>
        if state.cached + active.length ≤ maxContinuedIndexedIdentitiesPerFunction then
          pure (some ⟨state.incoming.set target (some active),
            insertAscending target state.queue, state.cached + active.length⟩)
        else do
          limit (limitAt "continued indexed identities per function"
            maxContinuedIndexedIdentitiesPerFunction)
          pure none
      | some existing =>
        if existing ≠ active then do
          push (borrowError span
            "transient indexed identities or issuance order differ across a continuation"
            "preserve the same live indexed authority on every incoming edge")
          pure none
        else pure (some state)

def transientRounds (function : Function) (successors : List (List ℕ))
    (dominators : List (List ℕ)) (borrows : BorrowIndex) :
    ℕ → TransientState → Check (Option TransientState)
  | 0, state => pure (some state)
  | fuel + 1, state =>
    match state.queue with
    | [] => pure (some state)
    | index :: queue =>
      match (state.incoming[index]?).join, function.blocks[index]? with
      | some active, some block => do
        let open? ← advanceBlock function active block
        match open?, block.terminators with
        | some active, terminator :: _ => do
          -- Lexical borrows never become incoming state; the dataflow reports them.
          let active := active.filter fun id => (borrows.origin id).isSome
          let state ← ((successors[index]?).getD []).foldlM
            (transientArrival terminator.span dominators index active)
            (some { state with queue := queue })
          match state with
          | none => pure none
          | some state => transientRounds function successors dominators borrows fuel state
        | _, _ => pure none
      | _, _ => transientRounds function successors dominators borrows fuel
          { state with queue := queue }

def isIndexedAccess (instruction : Instruction) : Bool :=
  match instruction.kind with
  | .beginIndexedAccess .. => true
  | _ => false

variable (function : Function) (layouts : VerifiedLayouts)

/-- The open accesses at the entry of each block. -/
def deriveTransient (successors : List (List ℕ))
    (dominators : List (List ℕ)) (borrows : BorrowIndex) : Check (List (List ℕ)) :=
  if function.instructions.any isIndexedAccess then do
    let state ← transientRounds function successors dominators borrows function.blocks.length
      ⟨(List.replicate function.blocks.length none).set 0 (some []), [0], 0⟩
    pure (match state with
      | none => []
      | some state => state.incoming.map (·.getD []))
  else pure (List.replicate function.blocks.length [])

/-! ### The replay -/

def replayOwners : ValueOwners :=
  let definitions := function.parameters ++ function.blocks.flatMap Block.parameters
    ++ function.instructions.filterMap Instruction.result
  let valueCount := definitions.foldl (fun count value => max count (value.id + 1)) 0
  function.places.zipIdx.foldl
    (fun owners (place, id) =>
      let value :=
        match place.kind with
        | .parameter index => (function.parameters[index]?).map ValueDefinition.id
        | .temporary value => some value
        | _ => none
      match value with
      | some value =>
        if typeNeedsDrop layouts place.ty then owners.set value (some id) else owners
      | none => owners)
    (List.replicate valueCount none)

/-- The replay of an instruction before the site. -/
def replayInstruction (state : OwnershipFlow × Active) (instruction : Instruction) :
    Check (OwnershipFlow × Active) := do
  let flow ←
    transferCall instruction context.valueOwners context.function context.borrows state.1
  commitInstruction instruction context.valueOwners context.function context.layouts
    context.borrows flow state.2

/-- The flow handed out for an instruction: a call has transferred its arguments. -/
def replayTarget (instruction : Instruction) (flow : OwnershipFlow) : Check OwnershipFlow :=
  if isDirectCall instruction.kind then do
    let flow ← transferConsumedValues (consumingInstructionOperands instruction.kind)
      context.valueOwners context.function flow instruction.span
    pure { flow with
      variants :=
        invalidateCallVariants instruction.kind context.function context.borrows flow.variants }
  else pure flow

structure ReplayState where
  entries : List (Option OwnershipFlow)
  queue : List ℕ

def replayArrival (state : ReplayState) (target : ℕ) (incoming : OwnershipFlow) : ReplayState :=
  match (state.entries[target]?).join with
  | none => ⟨state.entries.set target (some incoming), state.queue ++ [target]⟩
  | some _ => state

section

variable (index : ℕ) (block : Block) (flow : OwnershipFlow) (position : ℕ)

/-- The flow before instruction `position` of a block that is entered with `flow`. -/
def replayBlock : Check (OwnershipFlow × Active) :=
  (block.instructions.take position).foldlM (replayInstruction context)
    (flow, context.borrows.entryActive context.function index)

/-- The flow handed out for position `position` of a block entered with `flow`. -/
def replaySite : Check OwnershipFlow := do
  let (flow, _) ← replayBlock context index block flow position
  match block.instructions[position]?, block.terminators with
  | some instruction, _ => replayTarget context instruction flow
  | none, terminator :: _ => terminatorFlow context terminator flow
  | none, [] => pure flow

end

/-- The arrivals of a block the replay passes through. -/
def replayEdges (block : Block) (flow : OwnershipFlow) (state : ReplayState) : ReplayState :=
  match block.terminators with
  | [] => state
  | terminator :: _ =>
    (terminatorEdges terminator.kind).zipIdx.foldl
      (fun state (edge, edgeIndex) =>
        replayArrival state edge.target (edgeFlow context terminator edgeIndex edge flow).value)
      state

def replayRounds (targetBlock targetInstruction : ℕ) : ℕ → ReplayState → Option OwnershipFlow
  | 0, _ => none
  | fuel + 1, state =>
    match state.queue with
    | [] => none
    | index :: queue =>
      match (state.entries[index]?).join, context.function.blocks[index]? with
      | some flow, some block =>
        if index = targetBlock ∧ targetInstruction ≤ block.instructions.length then
          some (replaySite context index block flow targetInstruction).value
        else
          replayRounds targetBlock targetInstruction fuel
            (replayEdges context block
              (replayBlock context index block flow block.instructions.length).value.1
              { state with queue := queue })
      | _, _ => none

/-- The flow a backend is handed for a site. -/
def deriveFlowBefore (borrows : BorrowIndex)
    (targetBlock targetInstruction : ℕ) : Option OwnershipFlow :=
  let owners := replayOwners function layouts
  replayRounds ⟨function, layouts, borrows, owners⟩ targetBlock targetInstruction
    function.blocks.length ⟨initialEntries function owners, [0]⟩

/-! ### Drop masks -/

/-- A destruction step as a backend executes it: which parts of the root are gone, which are
complete, and which variants its enums hold. -/
structure VerifiedDropAction where
  action : DropAction
  movedProjections : List ℕ
  initializedProjections : List ℕ
  activeVariant : Option ℕ
  activeVariants : List (ℕ × ℕ)
deriving DecidableEq

def sealedDropAction (flow : OwnershipFlow) (action : DropAction) : VerifiedDropAction where
  action := action
  movedProjections := (List.range function.places.length).filter fun place =>
    isProjectionBelow place action.place function.places
      && (flow.state place = .moved || flow.state place = .dropped)
  initializedProjections := (List.range function.places.length).filter fun place =>
    isProjectionBelow place action.place function.places && flow.state place = .initialized
  activeVariant := flow.variant action.place
  activeVariants := (List.range function.places.length).filterMap fun place =>
    if place = action.place ∨ isProjectionBelow place action.place function.places = true then
      (flow.variant place).map (place, ·)
    else none

/-- The steps of a cleanup plan under the flow of its site. -/
def sealedDropActions (plan : ℕ) (flow : OwnershipFlow) : List VerifiedDropAction :=
  (((function.cleanupPlans[plan]?).map CleanupPlan.actions).getD []).map
    (sealedDropAction function flow)

/-- The steps a backend is handed for a cleanup site. -/
def derivedDropActions (borrows : BorrowIndex)
    (site : CleanupSite) : Option (List VerifiedDropAction) :=
  (deriveFlowBefore function layouts borrows site.block site.instruction).map
    (sealedDropActions function site.plan)

end Zryna.Ir.DataOwnership
