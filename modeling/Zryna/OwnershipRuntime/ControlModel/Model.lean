import Mathlib.Order.Nat
import Zryna.Foundation.OrderedMap
import Zryna.Layout
import Zryna.OwnershipRuntime.Abi

/-!
# Symbolic control traces

The replay model of `zryna-ownership-runtime-abi::control_model`. A trace is a list of claimed
events: constructions of Shared control blocks with a typed payload, operations on handles, drops
of payload nodes, and the end of a last-strong release. `Model.replay` accepts or rejects one event
against the state reached so far; `verifyControlTrace` replays a whole trace and compares the
surviving external owners with the expected ones.

A replayed event either rejects the trace, and then the state is never looked at again, or returns
the next state. An index that the source would panic on is the violation kind `panic`.
-/

namespace Zryna.OwnershipRuntime.ControlModel

open Zryna.Layout

def maxLiveAllocations : ℕ := 1048576
/-- Universal maximum allocation operations in one invocation. -/
def maxAllocationOperations : ℕ := 1048576
/-- Universal maximum runtime status transitions in one invocation. -/
def maxStatusTransitions : ℕ := 4194304

/-! ### Authorities -/

/-- Canonical type identity branded by its type universe. -/
structure TypeId where
  universeIdentity : List ℕ
  index : ℕ
deriving DecidableEq

/-- A type of the table, branded. -/
def brand (layouts : VerifiedLayouts) (index : ℕ) : TypeId := ⟨layouts.universeIdentity, index⟩

/-- Looks up one branded identity. -/
def typeById (layouts : VerifiedLayouts) (id : TypeId) : Option VerifiedType :=
  if id.universeIdentity = layouts.universeIdentity then layouts.typeById id.index else none

/-- Sealed control-block metadata of one payload type. -/
structure ControlLayout where
  target : StorageTarget
  payload : TypeId
  size : ℕ
  alignment : ℕ
deriving DecidableEq

/-- The verified ABI declaration, as far as traces read it. -/
structure VerifiedOwnershipRuntimeAbi where
  identity : List ℕ
  universeIdentity : List ℕ
  linear32Fingerprint : List ℕ
  linuxX8664Fingerprint : List ℕ
  controlLayouts : List ControlLayout

inductive ViolationKind where
  | evidence
  | budget
  | contract
  | panic
deriving DecidableEq

structure RuntimeAbiViolation where
  kind : ViolationKind
  message : String
deriving DecidableEq

def violation {α : Type} (message : String) : Except RuntimeAbiViolation α :=
  .error ⟨.evidence, message⟩

def budget {α : Type} : Except RuntimeAbiViolation α :=
  .error ⟨.budget, "control trace exceeds the checked invocation budget"⟩

def panicked {α : Type} : Except RuntimeAbiViolation α := .error ⟨.panic, "index out of bounds"⟩

/-- A value that must be there. -/
def expect {α : Type} (message : String) : Option α → Except RuntimeAbiViolation α
  | some a => .ok a
  | none => violation message

/-- An indexed element that the source reads without a check. -/
def indexed {α : Type} : Option α → Except RuntimeAbiViolation α
  | some a => .ok a
  | none => panicked

/-- Rejects with a message unless the condition holds. -/
def require (c : Bool) (message : String) : Except RuntimeAbiViolation Unit :=
  if c then .ok () else violation message

/-- A `u64` sum. -/
def checkedAdd (a b : ℕ) : Except RuntimeAbiViolation ℕ :=
  if a + b < 2 ^ 64 then .ok (a + b) else budget

def checkedModelCount (before extra maximum : ℕ) : Except RuntimeAbiViolation ℕ :=
  if before + extra < 2 ^ 64 ∧ before + extra ≤ maximum then .ok (before + extra) else budget

def validateTransition (operation : LogicalOperation) (before : ControlState)
    (status : RuntimeStatus) (boolResult : Option Bool) (after : ControlState) :
    Except RuntimeAbiViolation Unit :=
  if validateControlTransition operation before status boolResult after then .ok ()
  else .error ⟨.contract,
    "runtime transition claim violates the frozen v1 state/result contract"⟩

/-! ### Events -/

/-- Complete initialized shape of one payload node. -/
inductive PayloadKind where
  | copy
  | string
  | children (children : List ℕ)
  | variant (variant : ℕ) (child : Option ℕ)
  | handle (owner : ℕ)
deriving DecidableEq

/-- One exact typed node of an initialized payload. -/
structure PayloadNode where
  ty : TypeId
  kind : PayloadKind
deriving DecidableEq

/-- Untrusted construction or handle-operation claims. -/
inductive ControlEventKind where
  | construct (payload : TypeId) (nodes : List PayloadNode) (status : RuntimeStatus)
      (base size alignment : ℕ) (control owner : Option ℕ)
  | handle (operation : LogicalOperation) (owner : ℕ) (status : RuntimeStatus)
      (result : Option ℕ) (boolean : Option Bool) (after : ControlState)
  | dropPayloadNode (control node : ℕ)
  | finish (control : ℕ) (after : ControlState)
deriving DecidableEq

/-- One untrusted site-bound operation. -/
structure ControlEvent where
  site : ℕ
  kind : ControlEventKind
deriving DecidableEq

/-- Exact model invocation input. -/
structure ControlTrace where
  invocation : ℕ
  abi : List ℕ
  target : StorageTarget
  events : List ControlEvent
deriving DecidableEq

/-- Independently expected surviving external owner. -/
structure ExpectedOwner where
  owner : ℕ
  control : ℕ
  weak : Bool
deriving DecidableEq

/-- Opaque complete symbolic proof. -/
structure VerifiedControlTrace where
  invocation : ℕ
  states : List ControlState
  liveOwners : ℕ
deriving DecidableEq

/-! ### State -/

inductive Location where
  | external
  | payload (control : ℕ)
  | dropped
deriving DecidableEq

structure Owner where
  control : ℕ
  weak : Bool
  location : Location
deriving DecidableEq

inductive Drop where
  | handle (owner : ℕ)
  | node (index : ℕ)
deriving DecidableEq

structure Control where
  payload : TypeId
  state : ControlState
  base : ℕ
  drops : List Drop
  next : ℕ
deriving DecidableEq

/-- Controls and owners in order of issue, live address intervals by base, and the controls whose
last-strong release is under way, innermost first. -/
structure Model where
  controls : List Control
  owners : List Owner
  intervals : OrderedMap ℕ ℕ
  pending : List ℕ
  allocations : ℕ
  nodes : ℕ

def Model.empty : Model := ⟨[], [], .empty, [], 0, 0⟩

section Replay

variable (abi : VerifiedOwnershipRuntimeAbi) (layouts : VerifiedLayouts)

/-! ### Payloads -/

/-- Uses of each node and the handles seen so far. -/
structure PayloadTable where
  uses : List ℕ
  handles : List ℕ

/-- One child reference. -/
def payloadEdge (nodes : List PayloadNode) (index child : ℕ) (expected : TypeId)
    (uses : List ℕ) : Except RuntimeAbiViolation (List ℕ) :=
  if child ≥ index || (nodes[child]?).map PayloadNode.ty ≠ some expected
      || uses.getD child 0 ≠ 0 then
    violation "payload children have wrong type, order or unique ownership"
  else .ok (uses.set child 1)

/-- Child references in order. -/
def payloadEdges (nodes : List PayloadNode) (index : ℕ) :
    List (ℕ × TypeId) → List ℕ → Except RuntimeAbiViolation (List ℕ)
  | [], uses => .ok uses
  | (child, expected) :: children, uses => do
    let uses ← payloadEdge nodes index child expected uses
    payloadEdges nodes index children uses

section

variable (model : Model)

/-- A handle of the payload: an external owner of the exact referent, used once. -/
def payloadHandle (id : ℕ) (category : TypeCategory) (referent : Option TypeId)
    (handles : List ℕ) : Except RuntimeAbiViolation (List ℕ) := do
  let owner ← expect "payload handle was never issued" model.owners[id]?
  let control ← indexed model.controls[owner.control]?
  if owner.location ≠ .external || handles.contains id
      || owner.weak ≠ decide (category = .weak) || referent ≠ some control.payload then
    violation "payload handle is foreign, moved, duplicated or has wrong referent"
  else .ok (id :: handles)

/-- The checks of an array or a vector before its elements. -/
def payloadSequence (record : VerifiedType) (count : ℕ) : Except RuntimeAbiViolation TypeId := do
  match record.arrayLength with
  | some length =>
    require (count = length) "payload array length is not exact"
  | none => do
    let referenced ← expect "element type absent" record.referencedType
    let element ← expect "element layout absent" (typeById layouts (brand layouts referenced))
    require (count ≤ maxVecElements && element.size ≠ 0
        && count * element.size ≤ maxDynamicAllocationBytes)
      "payload Vec length or element stride is invalid"
  let element ← expect "element type absent" record.referencedType
  pure (brand layouts element)

/-- One round of the payload check. -/
def payloadNode (nodes : List PayloadNode) (table : PayloadTable)
    (entry : PayloadNode × ℕ) : Except RuntimeAbiViolation PayloadTable := do
  let (node, index) := entry
  let record ← expect "payload node has a foreign layout type" (typeById layouts node.ty)
  match node.kind, record.category with
  | .copy, .bool | .copy, .i32 | .string, .string => pure table
  | .children children, .struct => do
    require (children.length = record.fields.length) "payload Struct fields are incomplete"
    let uses ← payloadEdges nodes index
      (children.zip (record.fields.map fun field => brand layouts field.ty)) table.uses
    pure { table with uses }
  | .children children, .fixedArray | .children children, .vec => do
    let element ← payloadSequence layouts record children.length
    let uses ← payloadEdges nodes index (children.map fun child => (child, element)) table.uses
    pure { table with uses }
  | .variant variant child, .enum => do
    let variant ← expect "payload Enum variant is absent" record.variants[variant]?
    match child, variant.payload with
    | some child, some ty => do
      let uses ← payloadEdge nodes index child (brand layouts ty) table.uses
      pure { table with uses }
    | none, none => pure table
    | _, _ => violation "payload Enum active shape is not exact"
  | .handle id, .shared | .handle id, .weak => do
    let handles ← payloadHandle model id record.category
      (record.referencedType.map (brand layouts)) table.handles
    pure { table with handles }
  | _, _ => violation "payload node does not match its sealed category"

/-- The loop of `payloadDrops`, on a stack of nodes and vector storages. -/
def payloadDropsLoop (nodes : List PayloadNode) : ℕ → List (ℕ × Bool) → List Drop → List Drop
  | 0, _, drops => drops
  | _ + 1, [], drops => drops
  | rounds + 1, (index, storage) :: stack, drops =>
    match nodes[index]? with
    | none => drops
    | some node =>
      match node.kind with
      | .copy => payloadDropsLoop nodes rounds stack drops
      | .string => payloadDropsLoop nodes rounds stack (drops ++ [.node index])
      | .handle owner => payloadDropsLoop nodes rounds stack (drops ++ [.handle owner])
      | .children children =>
        if storage then payloadDropsLoop nodes rounds stack (drops ++ [.node index])
        else
          let stack :=
            if (typeById layouts node.ty).map VerifiedType.category = some .vec then
              (index, true) :: stack
            else stack
          payloadDropsLoop nodes rounds
            ((children.reverse.map fun child => (child, false)) ++ stack) drops
      | .variant _ child =>
        payloadDropsLoop nodes rounds
          ((child.toList.map fun child => (child, false)) ++ stack) drops

/-- The drops of a payload in cleanup order. In a checked payload every node but the root has one
parent, so each is visited once, and once more when it is the storage of a vector. -/
def payloadDrops (nodes : List PayloadNode) : List Drop :=
  payloadDropsLoop layouts nodes (2 * nodes.length) [(nodes.length - 1, false)] []

/-- Checks a payload and returns the new node total and its drops. -/
def Model.payload (model : Model) (ty : TypeId) (nodes : List PayloadNode) :
    Except RuntimeAbiViolation (ℕ × List Drop) := do
  let total ← checkedModelCount model.nodes nodes.length maxStatusTransitions
  if nodes.isEmpty then budget
  else if (nodes.getLast?).map PayloadNode.ty ≠ some ty then
    violation "payload root has the wrong exact type"
  else do
    let table ← nodes.zipIdx.foldlM (payloadNode layouts model nodes)
      ⟨List.replicate nodes.length 0, []⟩
    require ((table.uses.take (nodes.length - 1)).all (· = 1))
      "payload contains orphan initialized nodes"
    pure (total, payloadDrops layouts nodes)

/-! ### Replay -/

def Model.requirePublicationPhase : Except RuntimeAbiViolation Unit :=
  require model.pending.isEmpty "payload destruction cannot allocate or publish"

def Model.nextOwner : Except RuntimeAbiViolation ℕ :=
  if model.owners.length < 2 ^ 32 then .ok model.owners.length else budget

/-- The owner that an operation issues, if it issues one. -/
def Model.issuedOwner (issues : Bool) : Except RuntimeAbiViolation (Option ℕ) :=
  if issues then some <$> model.nextOwner else .ok none

/-- The owners of the handles in `drops` move into the payload of `control`. -/
def moveIntoPayload (control : ℕ) (drops : List Drop) (owners : List Owner) : List Owner :=
  drops.foldl (fun owners drop =>
    match drop with
    | .handle owner => owners.modify owner fun o => { o with location := .payload control }
    | .node _ => owners) owners

def Model.construct (payload : TypeId) (nodes : List PayloadNode)
    (status : RuntimeStatus) (base size alignment : ℕ) (control owner : Option ℕ) :
    Except RuntimeAbiViolation Model := do
  model.requirePublicationPhase
  let layout ← expect "construction has no exact sealed control layout"
    (abi.controlLayouts.find? fun layout =>
      layout.payload = payload && layout.target = layouts.target)
  require (size = layout.size && alignment = layout.alignment)
    "construction size or alignment differs from sealed control layout"
  let (nodeTotal, drops) ← model.payload layouts payload nodes
  let allocations ← checkedAdd model.allocations 1
  let model := { model with nodes := nodeTotal, allocations }
  let capacity : Bool := size > maxDynamicAllocationBytes || allocations > maxAllocationOperations
    || model.intervals.size ≥ maxLiveAllocations
  if status ≠ .ok then
    if base ≠ 0 || control.isSome || owner.isSome
        || (status ≠ .capacity || !capacity) && (status ≠ .allocation || capacity) then
      violation "construction failure has wrong status or nonzero publication"
    else .ok model
  else if capacity then budget
  else if 2 ^ 64 ≤ base + size then violation "control allocation interval overflow"
  else
    let stop := base + size
    if base = 0 || size = 0 || alignment = 0 || base % alignment ≠ 0
        || layouts.target = .linear32V1 && stop > 2 ^ 32
        || (model.intervals.lastLE? base).any (fun entry => entry.2 > base)
        || (model.intervals.firstGE? base).any (fun entry => entry.1 < stop) then
      violation "control allocation is null, misaligned, overlapping or nonrepresentable"
    else if 2 ^ 32 ≤ model.controls.length then budget
    else
      let id := model.controls.length
      if control ≠ some id then
        violation "construction control or owner identity is not fresh and dense"
      else do
        let fresh ← model.nextOwner
        if owner ≠ some fresh then
          violation "construction control or owner identity is not fresh and dense"
        else
          .ok { model with
            owners := moveIntoPayload id drops model.owners ++ [⟨id, false, .external⟩]
            intervals := model.intervals.insert base stop
            controls := model.controls ++ [⟨payload, ⟨1, 1, false, true, true⟩, base, drops, 0⟩] }

/-- Consumes the next drop of the innermost pending control. -/
def Model.nextDrop (id : ℕ) (expected : Drop) : Except RuntimeAbiViolation Model := do
  require (model.pending.head? = some id) "cleanup targets a foreign or nonpending control"
  let control ← indexed model.controls[id]?
  if control.drops[control.next]? ≠ some expected then
    violation "payload cleanup is omitted, duplicated or out of reverse order"
  else
    .ok { model with
      controls := model.controls.modify id fun control => { control with next := control.next + 1 } }

section

variable (operation : LogicalOperation)

def isRelease : Bool :=
  operation = .strongReleaseBegin || operation = .weakRelease

def isWeakOperation : Bool :=
  operation = .weakClone || operation = .weakUpgrade || operation = .weakRelease

def isHandleOperation : Bool :=
  operation = .strongClone || operation = .weakDowngrade || operation = .weakClone
    || operation = .weakUpgrade || operation = .strongReleaseBegin || operation = .weakRelease

/-- The owner may be used now. -/
def Model.checkAvailable (owner : Owner) : Except RuntimeAbiViolation Unit :=
  match model.pending.head? with
  | some pending =>
    require (isRelease operation && owner.location = .payload pending)
      "payload cleanup cannot invoke unrelated or retained handle operations"
  | none =>
    require (owner.location = .external)
      "payload-owned handle is not an independently available owner"

end

/-- A release takes its owner out of the payload or the caller; another operation keeps it. -/
def Model.releaseOwner (release : Bool) (status : RuntimeStatus) (id : ℕ)
    (owner : Owner) : Except RuntimeAbiViolation Model :=
  if !release then .ok model
  else if status ≠ .ok then violation "verified release is infallible"
  else
    let drop (model : Model) : Model :=
      { model with owners := model.owners.modify id fun o => { o with location := .dropped } }
    match owner.location with
    | .payload pending => drop <$> model.nextDrop pending (.handle id)
    | _ => .ok (drop model)

def Model.setState (id : ℕ) (state : ControlState) : Model :=
  { model with controls := model.controls.modify id fun control => { control with state } }

/-- Forgets the address interval of a control that is no longer allocated. -/
def Model.forget (base : ℕ) (after : ControlState) : Model :=
  if after.allocated then model else { model with intervals := model.intervals.erase base }

def Model.handle (model : Model) (operation : LogicalOperation) (id : ℕ) (status : RuntimeStatus)
    (result : Option ℕ) (boolean : Option Bool) (after : ControlState) :
    Except RuntimeAbiViolation Model := do
  let owner ← expect "handle was never issued" model.owners[id]?
  let release := isRelease operation
  if owner.location = .dropped then violation "handle owner is moved or already released"
  else do
    model.checkAvailable operation owner
    require (isWeakOperation operation = owner.weak && isHandleOperation operation)
      "handle mode does not match the exact operation"
    let control ← indexed model.controls[owner.control]?
    let before := control.state
    if before.pendingLastStrong || !before.allocated || status = .abiViolation then
      violation "operation reenters a pending or deallocated control"
    else do
      validateTransition operation before status boolean after
      let issues : Bool := !release && status = .ok
      let fresh ← model.issuedOwner issues
      if result ≠ fresh then
        violation "only successful clone or upgrade may issue one fresh owner"
      else do
        let model ← model.releaseOwner release status id owner
        let model := model.setState owner.control after
        let model :=
          if issues then
            { model with owners := model.owners ++ [⟨owner.control,
              operation = .weakClone || operation = .weakDowngrade, .external⟩] }
          else model
        let model :=
          if after.pendingLastStrong then { model with pending := owner.control :: model.pending }
          else model
        pure (model.forget control.base after)

def Model.finish (model : Model) (id : ℕ) (after : ControlState) :
    Except RuntimeAbiViolation Model := do
  require (model.pending.head? = some id) "last-release receipt is foreign or replayed"
  let control ← indexed model.controls[id]?
  if control.next ≠ control.drops.length then
    violation "last-release finish precedes complete payload destruction"
  else do
    validateTransition .strongReleaseFinish { control.state with payloadInitialized := false }
      .ok none after
    let model := model.setState id after
    let model := { model with pending := model.pending.tail }
    pure (model.forget control.base after)

def Model.replay : ControlEventKind → Except RuntimeAbiViolation Model
  | .construct payload nodes status base size alignment control owner =>
    model.construct abi layouts payload nodes status base size alignment control owner
  | .handle operation owner status result boolean after =>
    model.handle operation owner status result boolean after
  | .dropPayloadNode control node => model.nextDrop control (.node node)
  | .finish control after => model.finish control after

def Model.replayAll (events : List ControlEventKind) : Except RuntimeAbiViolation Model :=
  events.foldlM (Model.replay abi layouts) model

/-! ### Traces -/

/-- The owners that the invocation leaves to its caller. -/
def Model.surviving : Except RuntimeAbiViolation (List ExpectedOwner) :=
  (model.owners.zipIdx.filter fun entry => entry.1.location = .external).mapM fun entry =>
    if entry.2 < 2 ^ 32 then .ok ⟨entry.2, entry.1.control, entry.1.weak⟩ else budget

/-- One site of the trace. -/
def replaySite (entry : ControlEvent × ℕ) : Except RuntimeAbiViolation Model := do
  require (entry.1.site = entry.2) "control transition site is not dense or was replayed"
  model.replay abi layouts entry.1.kind

end

def verifyControlTrace (expectedInvocation : ℕ) (expectedOwners : List ExpectedOwner)
    (trace : ControlTrace) : Except RuntimeAbiViolation VerifiedControlTrace := do
  require (trace.invocation = expectedInvocation && trace.abi = abi.identity
      && trace.target = layouts.target && layouts.universeIdentity = abi.universeIdentity
      && layouts.fingerprint = (match trace.target with
        | .linear32V1 => abi.linear32Fingerprint
        | .linuxX8664V1 => abi.linuxX8664Fingerprint))
    "control trace has foreign ABI, layout, target or invocation authority"
  let _ ← checkedModelCount 0 trace.events.length maxStatusTransitions
  let model ← trace.events.zipIdx.foldlM (replaySite abi layouts) Model.empty
  require model.pending.isEmpty "last-strong payload cleanup is incomplete"
  let surviving ← model.surviving
  require (surviving = expectedOwners)
    "surviving external owners differ from the independent exit contract"
  pure ⟨expectedInvocation, model.controls.map Control.state,
    model.owners.countP fun owner => owner.location ≠ .dropped⟩

end Replay

end Zryna.OwnershipRuntime.ControlModel
