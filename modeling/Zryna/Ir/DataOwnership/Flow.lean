import Zryna.Ir.DataOwnership.BorrowIndex

/-!
# Ownership flow and its transfer functions

The verifier tracks, for every declared place, one of six states and the enum variant it is known
to hold, and keeps the list of *pending* owners: the roots whose content the function still has to
destroy, in the order they were completed. `OwnershipFlow` is that state. The functions of this
file are the transfers: of one instruction (`applyOwnershipInstruction`, `applyValueTransfers`), of
a returned value and of a control-flow edge.

A transfer reports what is illegal about it and continues with the state the source leaves behind.
-/

namespace Zryna.Ir.DataOwnership

open Layout Report

inductive PlaceState where
  | uninitialized
  | initialized
  | partiallyInitialized
  | partiallyMoved
  | moved
  | dropped
deriving DecidableEq

structure OwnershipFlow where
  states : List PlaceState
  variants : List (Option ℕ)
  pending : List ℕ
deriving DecidableEq

namespace OwnershipFlow

variable (flow : OwnershipFlow) (place : ℕ)

def state : PlaceState := flow.states.getD place .uninitialized

def variant : Option ℕ := flow.variants.getD place none

def setState (state : PlaceState) : OwnershipFlow :=
  { flow with states := flow.states.set place state }

def setVariant (variant : Option ℕ) : OwnershipFlow :=
  { flow with variants := flow.variants.set place variant }

end OwnershipFlow

/-- Give every proper projection of `root` the entry `entry`. -/
def setBelow {α : Type} (places : List Place) (root : ℕ) (entry : α) (entries : List α) : List α :=
  entries.mapIdx fun place old => if isProjectionBelow place root places then entry else old

/-- Every declared projection of an initialised place is initialised. The source visits the
projections breadth first. -/
def initializeProjections (root : ℕ) (function : Function) (states : List PlaceState) :
    List PlaceState :=
  setBelow function.places root .initialized states

def walkPartial (places : List Place) : ℕ → ℕ → List PlaceState → List PlaceState
  | 0, _, states => states
  | fuel + 1, place, states =>
    match placeBase places place with
    | none => states
    | some base =>
      walkPartial places fuel base
        (if states.getD base .uninitialized = .initialized then states.set base .partiallyMoved
          else states)

/-- Every initialised place above `place` is left partially moved. -/
def markAncestorsPartial (place : ℕ) (function : Function) (states : List PlaceState) :
    List PlaceState :=
  walkPartial function.places (function.places.length + 1) place states

/-! ### Pending owners -/

def pendingSlot (flow : OwnershipFlow) (owner : ℕ) : Option ℕ := flow.pending.idxOf? owner

section

variable (owner : ℕ) (function : Function) (flow : OwnershipFlow)

/-- A place and everything below it is marked moved. -/
def markMoved : OwnershipFlow where
  states := setBelow function.places owner .moved (flow.states.set owner .moved)
  variants := setBelow function.places owner none (flow.variants.set owner none)
  pending := flow.pending

def removePendingOwner (span : Span) : Check OwnershipFlow :=
  match pendingSlot flow owner with
  | none => do
    push (ownershipError span "non-Copy value owner is unavailable or already consumed")
    pure flow
  | some slot => pure (markMoved owner function { flow with pending := flow.pending.eraseIdx slot })

def pushPendingOwner (span : Span) : Check OwnershipFlow :=
  match pendingSlot flow owner with
  | some _ => do
    push (ownershipError span "non-Copy result owner is already live")
    pure flow
  | none =>
    pure { flow with
      states := initializeProjections owner function (flow.states.set owner .initialized)
      pending := flow.pending ++ [owner] }

end

/-- What is known about the projections of a place, by path. -/
abbrev Refinements := List (List (ℕ × ℕ) × PlaceState × Option ℕ)

def projectionFacts (source : ℕ) (function : Function) (flow : OwnershipFlow) : Refinements :=
  (List.range function.places.length).filterMap fun place =>
    (projectionPath place source function.places).map fun path =>
      (path, flow.state place, flow.variant place)

/-- The projections of `target` take over the facts recorded under the same path. A path without a
record is initialised when the whole source was, and is an error otherwise. -/
def adoptFacts (facts : Refinements) (sourceState : PlaceState) (target : ℕ) (function : Function)
    (message : String) (span : Span) (flow : OwnershipFlow) : Check OwnershipFlow :=
  (List.range function.places.length).foldlM
    (fun flow place =>
      match projectionPath place target function.places with
      | none => pure flow
      | some path =>
        match facts.lookup path with
        | some (state, variant) => pure ((flow.setState place state).setVariant place variant)
        | none =>
          if sourceState = .initialized then
            pure ((flow.setState place .initialized).setVariant place none)
          else do
            push (ownershipError span message)
            pure flow) flow

def renamePendingOwner (source target : ℕ) (function : Function) (flow : OwnershipFlow)
    (span : Span) : Check OwnershipFlow :=
  match pendingSlot flow source with
  | none => do
    push (ownershipError span "ownership rename source is unavailable")
    pure flow
  | some slot =>
    if source ≠ target ∧ (pendingSlot flow target).isSome = true then do
      push (ownershipError span "ownership rename target is already live")
      pure flow
    else if source = target then pure flow
    else
      let sourceState := flow.state source
      let sourceVariant := flow.variant source
      let facts := projectionFacts source function flow
      if sourceState ≠ .initialized
          ∧ sameElements (facts.map Prod.fst) (declaredPaths target function.places) = false then do
        push (ownershipError span "partial owner rename requires exact matching projection metadata")
        pure flow
      else
        let flow := markMoved source function { flow with pending := flow.pending.set slot target }
        adoptFacts facts sourceState target function
          "partial owner rename lacks matching projection metadata" span
          ((flow.setState target sourceState).setVariant target sourceVariant)

def consumeOwnerIntoProjection (source target targetRoot : ℕ) (function : Function)
    (flow : OwnershipFlow) (span : Span) : Check OwnershipFlow :=
  if placesOverlap source targetRoot function.places then do
    push (ownershipError span "projection transfer source overlaps its destination owner")
    pure flow
  else
    match pendingSlot flow source with
    | none => do
      push (ownershipError span "projection transfer source is unavailable")
      pure flow
    | some slot =>
      let sourceState := flow.state source
      let sourceVariant := flow.variant source
      let facts := projectionFacts source function flow
      let pending :=
        if (pendingSlot flow targetRoot).isNone then flow.pending.set slot targetRoot
        else flow.pending.eraseIdx slot
      let flow := markMoved source function { flow with pending := pending }
      adoptFacts facts sourceState target function
        "projection transfer lacks matching projection metadata" span
        ((flow.setState target sourceState).setVariant target sourceVariant)

/-! ### Consumed and returned values -/

abbrev ValueOwners := List (Option ℕ)

def ownerOf (valueOwners : ValueOwners) (value : ℕ) : Option ℕ := (valueOwners[value]?).join

/-- One owned value is handed over. -/
def transferConsumedValue (valueOwners : ValueOwners) (function : Function) (span : Span)
    (flow : OwnershipFlow) (value : ℕ) : Check OwnershipFlow :=
  match ownerOf valueOwners value with
  | none => pure flow
  | some owner =>
    if flow.state owner ≠ .initialized then do
      push (ownershipError span
        "partial non-Copy owner cannot enter a context without mask transfer")
      pure flow
    else removePendingOwner owner function flow span

def transferConsumedValues (values : List ℕ) (valueOwners : ValueOwners) (function : Function)
    (flow : OwnershipFlow) (span : Span) : Check OwnershipFlow :=
  values.foldlM (transferConsumedValue valueOwners function span) flow

def isPartial : PlaceState → Bool
  | .partiallyInitialized | .partiallyMoved => true
  | _ => false

def transferReturnValue (value : ℕ) (valueOwners : ValueOwners) (function : Function)
    (layouts : VerifiedLayouts) (flow : OwnershipFlow) (span : Span) : Check OwnershipFlow :=
  match ownerOf valueOwners value with
  | none => pure flow
  | some owner =>
    if flow.state owner = .initialized then removePendingOwner owner function flow span
    else if isPartial (flow.state owner) = true
        ∧ placeKind function.places owner = some (.temporary value) then
      if hasExactProjectionTopology owner function layouts then
        removePendingOwner owner function flow span
      else do
        push (ownershipError span "partial return owner lacks exact sealed projection topology")
        pure flow
    else do
      push (ownershipError span
        "partial non-Copy owner cannot enter a context without mask transfer")
      pure flow

/-! ### Value transfers of an instruction -/

/-- A complete static subobject is moved into its own root together with what is known about it. -/
def transferComplete (source destination : ℕ) (function : Function) (flow : OwnershipFlow)
    (span : Span) : Check OwnershipFlow :=
  let root := rootPlace source function
  if flow.state source ≠ .initialized ∨ (pendingSlot flow root).isNone = true
      ∨ root = destination then do
    push (ownershipError span "generic static move requires one complete pending subobject")
    pure flow
  else do
    let variant := flow.variant source
    let refinements := (projectionFacts source function flow).filterMap fun (path, _, variant) =>
      variant.map (path, ·)
    let flow := markMoved source function flow
    let flow := { flow with states := markAncestorsPartial source function flow.states }
    let flow ← pushPendingOwner destination function flow span
    let flow := flow.setVariant destination variant
    pure ((List.range function.places.length).foldl
      (fun flow place =>
        match projectionPath place destination function.places with
        | none => flow
        | some path =>
          (flow.setState place .initialized).setVariant place (refinements.lookup path)) flow)

/-- The move of a non-Copy place into the owner of the result. -/
def transferMove (place resultOwner : ℕ) (function : Function) (layouts : VerifiedLayouts)
    (flow : OwnershipFlow) (span : Span) : Check OwnershipFlow :=
  if rootPlace place function = place then
    renamePendingOwner place resultOwner function flow span
  else
    let flow := flow.setState place .moved
    let flow :=
      if ((placeType function place).bind (layoutCategory layouts)).any isAggregateCategory then
        { flow with
          states := setBelow function.places place .moved flow.states
          variants := setBelow function.places place none flow.variants }
      else flow
    pushPendingOwner resultOwner function
      { flow with states := markAncestorsPartial place function flow.states } span

section

variable (place value : ℕ) (valueOwners : ValueOwners) (function : Function)
  (layouts : VerifiedLayouts) (flow : OwnershipFlow) (span : Span)

def transferInitialize : Check OwnershipFlow :=
  let target := rootPlace place function
  match ownerOf valueOwners value with
  | some source =>
    if target = place then renamePendingOwner source target function flow span
    else if flow.state source ≠ .initialized then do
      push (ownershipError span
        "partial owner cannot initialize a projection without exact mask transfer")
      pure flow
    else consumeOwnerIntoProjection source place target function flow span
  | none =>
    if target ≠ place ∧ placeIsCopy target function layouts = false
        ∧ (pendingSlot flow target).isNone = true then
      pure { flow with pending := flow.pending ++ [target] }
    else pure flow

def transferReplace : Check OwnershipFlow :=
  let target := rootPlace place function
  match ownerOf valueOwners value with
  | none => pure flow
  | some source =>
    if target ≠ place then
      if flow.state place ≠ .initialized then do
        push (ownershipError span "projection replacement target is unavailable")
        pure flow
      else if flow.state source ≠ .initialized then do
        push (ownershipError span
          "partial owner cannot replace a projection without exact mask transfer")
        pure flow
      else if (pendingSlot flow target).isNone then do
        push (ownershipError span "projection replacement root is not pending")
        pure flow
      else consumeOwnerIntoProjection source place target function flow span
    else if isPartial (flow.state source) = true
        ∧ hasExactProjectionTopology source function layouts = false then do
      push (ownershipError span "partial replacement owner lacks exact sealed projection topology")
      pure flow
    else
      match pendingSlot flow target with
      | none => do
        push (ownershipError span "replacement target is not pending")
        pure flow
      | some slot =>
        renamePendingOwner source target function
          { flow with pending := flow.pending.eraseIdx slot } span

end

def transferDrop (place : ℕ) (function : Function) (flow : OwnershipFlow) (span : Span) :
    Check OwnershipFlow :=
  if rootPlace place function = place then
    match pendingSlot flow place with
    | some slot => pure { flow with pending := flow.pending.eraseIdx slot }
    | none => do
      push (ownershipError span "dropped owner is not pending")
      pure flow
  else pure flow

/-- The owner of an instruction's result. -/
def resultOwner (instruction : Instruction) (valueOwners : ValueOwners) : Option ℕ :=
  instruction.result.bind fun result => ownerOf valueOwners result.id

def applyValueTransfers (instruction : Instruction) (valueOwners : ValueOwners)
    (function : Function) (layouts : VerifiedLayouts) (flow : OwnershipFlow) :
    Check OwnershipFlow :=
  let span := instruction.span
  let consume := transferConsumedValues (consumingInstructionOperands instruction.kind) valueOwners
    function flow span
  match instruction.kind with
  | .genericMoveFromPlace place =>
    match resultOwner instruction valueOwners with
    | some destination => transferComplete place destination function flow span
    | none => pure flow
  | .moveFromPlace place =>
    if placeIsCopy place function layouts then consume
    else
      match resultOwner instruction valueOwners with
      | some destination => transferMove place destination function layouts flow span
      | none => pure flow
  | .initializePlace place value =>
    transferInitialize place value valueOwners function layouts flow span
  | .replacePlace place value | .genericReplacePlace place value =>
    transferReplace place value valueOwners function layouts flow span
  | .vecPush _ value _ => transferConsumedValues [value] valueOwners function flow span
  | .dropPlace place => transferDrop place function flow span
  | _ => consume

/-! ### Edges -/

/-- The parameters an edge passes arguments to. -/
def edgeParameters (block : Block) (synthesized : Bool) : List ValueDefinition :=
  if synthesized then block.parameters.drop 1 else block.parameters

def transferEdgeArgument (valueOwners : ValueOwners) (function : Function) (span : Span)
    (flow : OwnershipFlow) (binding : ℕ × ValueDefinition) : Check OwnershipFlow :=
  match ownerOf valueOwners binding.1, ownerOf valueOwners binding.2.id with
  | some source, some target =>
    if flow.state source ≠ .initialized then do
      push (ownershipError span
        "partial non-Copy owner cannot enter a CFG edge without mask transfer")
      pure flow
    else renamePendingOwner source target function flow span
  | none, none => pure flow
  | _, _ => do
    push (ownershipError span "CFG ownership argument and parameter disagree")
    pure flow

def transferEdgeOwners (edge : Edge) (synthesized : Bool) (function : Function)
    (valueOwners : ValueOwners) (flow : OwnershipFlow) (span : Span) : Check OwnershipFlow :=
  match function.blocks[edge.target]? with
  | none => pure flow
  | some block => do
    let flow ←
      match if synthesized then block.parameters.head? else none with
      | none => pure flow
      | some parameter =>
        match ownerOf valueOwners parameter.id with
        | none => pure flow
        | some owner => pushPendingOwner owner function flow span
    (edge.arguments.zip (edgeParameters block synthesized)).foldlM
      (transferEdgeArgument valueOwners function span) flow

/-- A non-Copy root that no longer owns anything is forgotten. -/
def normalizeDeadPlaces (flow : OwnershipFlow) (function : Function) (layouts : VerifiedLayouts) :
    OwnershipFlow :=
  function.places.zipIdx.foldl
    (fun flow (place, id) =>
      if (projectionBase place.kind).isNone = true ∧ typeNeedsDrop layouts place.ty = true
          ∧ id ∉ flow.pending then
        { flow with
          states := setBelow function.places id .uninitialized (flow.states.set id .uninitialized)
          variants := setBelow function.places id none (flow.variants.set id none) }
      else flow) flow

/-! ### States and borrows of an instruction -/

def walkInitialization (function : Function) (layouts : VerifiedLayouts) (states : List PlaceState)
    (variants : List (Option ℕ)) (span : Span) : ℕ → ℕ → Bool → Check Bool
  | 0, _, valid => pure valid
  | fuel + 1, child, valid =>
    match placeKind function.places child with
    | none => pure valid
    | some kind =>
      match projectionBase kind with
      | none => pure valid
      | some base =>
        match placeRecord base function layouts with
        | none => pure valid
        | some baseType =>
          match baseType.category with
          | .struct | .fixedArray =>
            match canonicalChildren base function layouts with
            | none => do
              push (errorAt "ZRYNA-I3013" span
                "partial aggregate initialization lacks complete canonical child projections"
                "declare every immediate field or fixed-array index before prefix initialization")
              pure false
            | some children =>
              match children.idxOf? child with
              | none => do
                push (errorAt "ZRYNA-I3013" span
                  "partial aggregate initialization does not follow a canonical child path"
                  "initialize one exact declared field or fixed-array index")
                pure false
              | some selected =>
                let inOrder := (children.take selected).all
                    (fun place => states.getD place .uninitialized = .initialized)
                  && (children.drop (selected + 1)).all
                    (fun place => states.getD place .uninitialized = .uninitialized)
                do
                  pushIf (inOrder = false) (errorAt "ZRYNA-I3013" span
                    "aggregate projection initialization contains a hole or is out of order"
                    "commit fields or fixed-array elements in exact declaration or index order")
                  walkInitialization function layouts states variants span fuel base
                    (valid && inOrder)
          | .enum =>
            match kind with
            | .enumPayload _ variant =>
              let agrees := (variants.getD base none).all (· = variant)
              do
                pushIf (agrees = false) (errorAt "ZRYNA-I3013" span
                  "enum payload initialization conflicts with the active variant"
                  "continue initializing only the already active variant payload")
                walkInitialization function layouts states variants span fuel base
                  (valid && agrees)
            | _ => do
              push (errorAt "ZRYNA-I3013" span
                "partial enum initialization does not enter one payload projection"
                "initialize only the exact payload projection of one variant")
              pure false
          | _ => walkInitialization function layouts states variants span fuel base valid

/-- A projection is initialised in declaration order, and inside one variant only. -/
def validateProjectionInitialization (child : ℕ) (function : Function) (layouts : VerifiedLayouts)
    (states : List PlaceState) (variants : List (Option ℕ)) (span : Span) : Check Bool :=
  walkInitialization function layouts states variants span (function.places.length + 1) child true

/-- The state of a base after one of its projections has been initialised. -/
def promotedState (base child : ℕ) (baseType : VerifiedType) (function : Function)
    (layouts : VerifiedLayouts) (states : List PlaceState) : PlaceState :=
  match baseType.category with
  | .struct | .fixedArray =>
    if (canonicalChildren base function layouts).any fun children =>
        !children.isEmpty && children.all fun place =>
          states.getD place .uninitialized = .initialized then .initialized
    else .partiallyInitialized
  | .enum =>
    if states.getD child .uninitialized = .initialized then .initialized
    else .partiallyInitialized
  | _ => states.getD base .uninitialized

def walkPromote (function : Function) (layouts : VerifiedLayouts) :
    ℕ → ℕ → OwnershipFlow → OwnershipFlow
  | 0, _, flow => flow
  | fuel + 1, child, flow =>
    match placeKind function.places child with
    | none => flow
    | some kind =>
      match projectionBase kind with
      | none => flow
      | some base =>
        match placeRecord base function layouts with
        | none => flow
        | some baseType =>
          let promoted :=
            flow.setState base (promotedState base child baseType function layouts flow.states)
          let promoted :=
            match baseType.category, kind with
            | .enum, .enumPayload _ variant => promoted.setVariant base (some variant)
            | _, _ => promoted
          walkPromote function layouts fuel base promoted

/-- Every place above a freshly initialised one becomes initialised or partially so. -/
def promoteInitializedAncestors (child : ℕ) (function : Function) (layouts : VerifiedLayouts)
    (flow : OwnershipFlow) : OwnershipFlow :=
  walkPromote function layouts (function.places.length + 1) child flow

def borrowError (span : Span) (message guidance : String) : Diagnostic :=
  errorAt "ZRYNA-I3011" span message guidance

/-- A projected or bound access replaces its parent. -/
def applyProjection (borrows : BorrowIndex) (parent borrow : ℕ) (span : Span) (active : Active) :
    Check Active :=
  let authority := active.get parent
  if (borrows.origin parent).isNone = true ∨ parent ≥ borrow ∨ authority.isNone = true
      ∨ (active.get borrow).isSome = true then do
    push (borrowError span "indexed projection requires one active transient parent authority"
      ("project a fresh child from a checked temporary access, never a lexical or formal "
        ++ "alias"))
    pure active
  else pure (Active.put (active.set parent none) borrow authority)

/-- An operation on a payload needs the enclosing enums to be refined to its variants. -/
def verifyPayloadRefinement (instruction : Instruction) (function : Function)
    (flow : OwnershipFlow) : Check Unit :=
  match instruction.kind with
  | .initializePlace .. => pure ()
  | kind =>
    forM ((instructionPlaceOperands kind).flatMap fun place =>
        enumPayloadAncestors place function) fun (base, variant) =>
      pushIf (flow.variant base ≠ some variant) (errorAt "ZRYNA-I3013" instruction.span
        "enum payload ownership operation does not match the active variant"
        "operate on a payload only in its exact refined enum arm")

def declaredState (flow : OwnershipFlow) (place : ℕ) : Option PlaceState := flow.states[place]?

/-- A read needs an initialised place that no exclusive borrow hides. -/
def unreadable (place : ℕ) (function : Function) (flow : OwnershipFlow) (active : Active) : Bool :=
  declaredState flow place ≠ some .initialized || overlapsExclusive place active function.places

/-- A state in which some content may be left. -/
def isOccupied : PlaceState → Bool
  | .initialized | .partiallyInitialized | .partiallyMoved => true
  | _ => false

section

variable (place : ℕ) (function : Function) (layouts : VerifiedLayouts) (flow : OwnershipFlow)
  (active : Active)

def unmovable : Bool :=
  let wholeNonCopy := rootPlace place function = place && !placeIsCopy place function layouts
  !((declaredState flow place).any fun state =>
      if wholeNonCopy then isOccupied state else state = .initialized)
    || overlapsActive place active function.places

def applyInitialize (span : Span) : Check OwnershipFlow :=
  match declaredState flow place with
  | none => pure flow
  | some state =>
    if state ≠ .uninitialized ∨ overlapsActive place active function.places = true then do
      push (ownershipError span "initialization targets an initialized or borrowed place")
      pure flow
    else do
      let valid ← validateProjectionInitialization place function layouts flow.states flow.variants
        span
      if valid then
        let flow := { flow with
          states := initializeProjections place function (flow.states.set place .initialized) }
        pure (promoteInitializedAncestors place function layouts (flow.setVariant place none))
      else pure flow

def applyDrop (span : Span) : Check OwnershipFlow :=
  if (declaredState flow place).any isOccupied = false
      ∨ overlapsActive place active function.places = true
      ∨ placeIsCopy place function layouts = true then do
    push (ownershipError span "drop targets a Copy, unavailable, or borrowed place")
    pure flow
  else
    let flow := flow.setState place .dropped
    pure { flow with states := markAncestorsPartial place function flow.states }

end

def applyBeginBorrow (definition : BorrowDefinition) (function : Function) (flow : OwnershipFlow)
    (active : Active) (span : Span) : Check Active :=
  if declaredState flow definition.place ≠ some .initialized
      ∨ conflicts definition active function.places = true then do
    push (borrowError span "borrow identity, owner state, or overlap is invalid"
      "use a dense borrow ID and obey shared/exclusive overlap rules")
    pure active
  else if (active.get definition.id).isSome then do
    push (borrowError span "borrow identity is defined more than once" "define each borrow once")
    pure active
  else pure (active.put definition.id (some (definition.place, definition.access)))

def applyEndBorrow (borrow : ℕ) (function : Function) (active : Active) (span : Span) :
    Check Active :=
  if borrow < function.borrowParameters.length then do
    push (borrowError span "borrow end uses an inactive authority"
      "end each active borrow exactly once")
    pure active
  else do
    pushIf ((active.get borrow).isNone = true)
      (borrowError span "borrow end uses an inactive authority"
        "end each active borrow exactly once")
    pure (active.set borrow none)

/-- The effect of an instruction on place states, variants and active borrows. -/
def applyOwnershipInstruction (instruction : Instruction) (function : Function)
    (layouts : VerifiedLayouts) (borrows : BorrowIndex) (flow : OwnershipFlow) (active : Active) :
    Check (OwnershipFlow × Active) := do
  let span := instruction.span
  verifyPayloadRefinement instruction function flow
  match instruction.kind with
  | .copyFromPlace place => do
    pushIf (unreadable place function flow active = true
        ∨ placeIsCopy place function layouts = false)
      (ownershipError span "copy from a non-Copy or non-initialized place")
    pure (flow, active)
  | .moveFromPlace place | .genericMoveFromPlace place => do
    pushIf (unmovable place function layouts flow active = true)
      (ownershipError span "move from an unavailable or borrowed place")
    pure (flow, active)
  | .clonePlace place _ _ | .genericClonePlace place _ _ | .handleAwareClonePlace place _ _
  | .enumDiscriminant place | .fixedArrayIndexCopy place _ _ | .vecIndexCopy place _ _
  | .stringClone place _ | .vecClone place _ _ | .sharedClone place _ | .weakDowngrade place _
  | .weakClone place _ => do
    pushIf (unreadable place function flow active = true)
      (ownershipError span "operation reads an unavailable place")
    pure (flow, active)
  | .stringConcat left right _ => do
    pushIf (unreadable left function flow active = true
        ∨ unreadable right function flow active = true)
      (ownershipError span "string concatenation reads an unavailable place")
    pure (flow, active)
  | .vecPush vector _ _ => do
    pushIf (declaredState flow vector ≠ some .initialized
        ∨ overlapsActive vector active function.places = true)
      (ownershipError span "vector push mutates an unavailable or borrowed place")
    pure (flow, active)
  | .initializePlace place _ => do
    let flow ← applyInitialize place function layouts flow active span
    pure (flow, active)
  | .replacePlace place _ | .genericReplacePlace place _ =>
    if declaredState flow place ≠ some .initialized
        ∨ overlapsActive place active function.places = true then do
      push (ownershipError span "replacement targets an unavailable or borrowed place")
      pure (flow, active)
    else pure (flow.setVariant place none, active)
  | .dropPlace place => do
    let flow ← applyDrop place function layouts flow active span
    pure (flow, active)
  | .beginBorrow definition | .beginIndexedBorrow definition _ _
  | .beginIndexedAccess definition _ _ => do
    let active ← applyBeginBorrow definition function flow active span
    pure (flow, active)
  | .projectIndexedBorrow parent borrow _ _ | .bindIndexedBorrow parent borrow => do
    let active ← applyProjection borrows parent borrow span active
    pure (flow, active)
  | .borrowRead borrow | .genericCloneBorrow borrow _ _ | .handleAwareCloneBorrow borrow _ _ => do
    pushIf ((active.get borrow).isNone = true)
      (borrowError span "borrow read uses an inactive authority"
        "read only through one active borrow")
    pure (flow, active)
  | .borrowWrite borrow _ | .borrowReplace borrow _ => do
    pushIf ((active.get borrow).map Prod.snd ≠ some .exclusive)
      (borrowError span "borrow write lacks an active exclusive authority"
        "write only through one active exclusive borrow")
    pure ({ flow with
      variants := invalidateBorrowVariants function borrows borrow flow.variants }, active)
  | .directCall _ arguments _ => do
    pushIf ((borrowArguments arguments).any (fun borrow => (active.get borrow).isNone) = true)
      (borrowError span "direct call uses an inactive borrow authority"
        "pass only a borrow parameter or a currently active lexical borrow")
    pure (flow, active)
  | .endBorrow borrow => do
    let active ← applyEndBorrow borrow function active span
    pure (flow, active)
  | _ => pure (flow, active)

end Zryna.Ir.DataOwnership
