import Zryna.Foundation.Outcome
import Zryna.Semantics.Instantiation.Types

/-!
# Discovery

The roots of a project, the worklist that processes interned types and functions in the order of
their keys, and the propagation of non-storable members over what was found.
-/

namespace Zryna.Semantics.Instantiation

open Zryna.Ir.Generic

/-- The types that are written in a declaration of a module, in the order of their spans. -/
def occurrencesOf (module : Module) (owner : DeclarationIdentity) : List UInt32 :=
  let written := ((BodyTypes.sourceOwners module).filter fun row => row.1 = owner).map Prod.snd
  let order (occurrence : UInt32) : List ℕ :=
    (module.sources[occurrence.toNat]?).elim [] fun record =>
      [record.span.start.toNat, record.span.stop.toNat, occurrence.toNat]
  written.insertionSort fun a b => order a ≤ order b

namespace Builder

variable (bodies : BodyTypes) (builder : Builder)

/-! ### Roots -/

/-- A type that is written in a declaration. It is closed only when no parameter occurs in it. -/
def rootOccurrence (owner : DeclarationIdentity) (occurrence : UInt32) :
    Except InstantiationFailure Builder := do
  let (builder, type) ← builder.source bodies ⟨owner, []⟩ occurrence [] none
  match type with
  | some id =>
    if bodies.sourceArgument owner occurrence then
      .ok (builder.argumentUse id ((bodies.record? owner occurrence).map SourceRecord.span))
    else .ok builder
  | none => .ok builder

/-- A declaration: an instance when it is not generic, and the types that are written in it. -/
def rootDeclaration (module : Module) (owner : DeclarationIdentity) :
    Except InstantiationFailure Builder := do
  let builder ←
    if bodies.typeParameters? owner = some 0 then
      match owner.kind with
      | .function => do
        let (builder, _) ← builder.function owner [] none
        .ok builder
      | .struct | .enum => do
        let (builder, _) ← builder.nominal bodies owner [] none
        .ok builder
    else .ok builder
  (occurrencesOf module owner).foldlM (fun builder occurrence =>
    builder.rootOccurrence bodies owner occurrence) builder

def roots : Except InstantiationFailure Builder :=
  (bodies.modules.zipIdx).foldlM (fun builder row =>
    (BodyTypes.declarations row.2 row.1).foldlM (fun builder declaration =>
      builder.rootDeclaration bodies row.1 declaration.2) builder) builder

/-! ### Processing -/

def modifyType (id : ℕ) (f : Node → Node) : Builder :=
  { builder with types := builder.types.modify id f }

def modifyFunction (id : ℕ) (f : Function → Function) : Builder :=
  { builder with functions := builder.functions.modify id f }

/-- A member of an interned nominal type. -/
def member (id : ℕ) (environment : Environment) (key : List UInt8) (occurrence : UInt32) :
    Except InstantiationFailure Builder := do
  let (builder, type) ← builder.source bodies environment occurrence key (some id)
  match type with
  | some member =>
    .ok (builder.modifyType id fun node => { node with members := node.members ++ [member] })
  | none => .ok (builder.modifyType id fun node => { node with value := false })

def processType (id : ℕ) : Except InstantiationFailure Builder :=
  match builder.types[id]? with
  | none => .error .internalFailure
  | some node =>
    let builder := builder.modifyType id fun node => { node with processed := true }
    match node.shape with
    | .option | .result =>
      node.arguments.foldlM (fun builder argument =>
        builder.dependency bodies node.key argument none) builder
    | .nominal owner =>
      match bodies.data? owner with
      | none => .error .internalFailure
      | some data =>
        data.kind.members.foldlM (fun builder occurrence =>
          builder.member bodies id ⟨owner, node.arguments⟩ node.key occurrence) builder
    | _ => .ok builder

section

variable (environment : Environment) (key : List UInt8)

/-- A type that is written in a function. -/
def functionOccurrence (occurrence : UInt32) : Except InstantiationFailure Builder := do
  let (builder, _) ← builder.source bodies environment occurrence key none
  .ok builder

/-- The type arguments of a call. Each of them has to be closed. -/
def callArguments (occurrences : List UInt32) : Except InstantiationFailure (Builder × List ℕ) :=
  occurrences.foldlM (fun (state : Builder × List ℕ) occurrence => do
    let (builder, argument) ← state.1.source bodies environment occurrence key none
    match argument with
    | none => .error .internalFailure
    | some id =>
      let span := (bodies.record? environment.owner occurrence).map SourceRecord.span
      .ok (builder.argumentUse id span, state.2 ++ [id])) (builder, [])

/-- A call: its type arguments, its target, and an edge to a generic target. -/
def call (environment : Environment) (key : List UInt8) (call : Call) :
    Except InstantiationFailure Builder :=
  match bodies.target environment.owner call.callee with
  | none => .error .internalFailure
  | some target => do
    let (builder, arguments) ←
      builder.callArguments bodies environment key (call.typeArguments.getD [])
    let (builder, id) ← builder.function target arguments (some call.calleeSpan)
    if (builder.functions[id]?).any Function.generic then
      builder.edge key (builder.functionKey id) (some call.calleeSpan)
    else .ok builder

def processExpression (expression : Expression) : Except InstantiationFailure Builder := do
  let builder ← match expression.type with
    | some view => do
      let (builder, _) ← builder.close bodies environment key none (some expression.span) view
      .ok builder
    | none => .ok builder
  match expression.call with
  | some row =>
    if expression.intrinsic then .ok builder else builder.call bodies environment key row
  | none => .ok builder

end

/-- The types that are written in a function: its parameters, its result and its locals. -/
def FunctionDeclaration.written (function : FunctionDeclaration) : List UInt32 :=
  function.parameters ++ [function.resultType] ++ function.statements.filterMap fun
    | .localDeclaration typeSyntax => some typeSyntax
    | .other => none

def processFunction (id : ℕ) : Except InstantiationFailure Builder :=
  match builder.functions[id]? with
  | none => .error .internalFailure
  | some instance_ =>
    let builder := builder.modifyFunction id fun function => { function with processed := true }
    let environment : Environment := ⟨instance_.owner, instance_.arguments⟩
    match bodies.function? instance_.owner with
    | none => .error .internalFailure
    | some function => do
      let builder ← (FunctionDeclaration.written function).foldlM (fun builder occurrence =>
        builder.functionOccurrence bodies environment instance_.key occurrence) builder
      function.expressions.foldlM (fun builder expression =>
        builder.processExpression bodies environment instance_.key expression) builder

/-- What the worklist takes next. -/
inductive Job where
  | type (id : ℕ)
  | function (id : ℕ)
deriving DecidableEq

/-- The least type or function by key that is not processed. -/
def next : Option Job :=
  let type := builder.typeOrder.find? fun id =>
    (builder.types[id]?).any fun node => !node.processed
  let function := builder.functionOrder.find? fun id =>
    (builder.functions[id]?).any fun function => !function.processed
  match type, function with
  | some type, some function =>
    if builder.functionKey function < builder.typeKey type then some (.function function)
    else some (.type type)
  | some type, none => some (.type type)
  | none, some function => some (.function function)
  | none, none => none

def process (builder : Builder) : Job → Except InstantiationFailure Builder
  | .type id => builder.processType bodies id
  | .function id => builder.processFunction bodies id

/-- The worklist, for a number of rounds. -/
def pending : ℕ → Builder → Outcome InstantiationFailure Builder
  | 0, _ => .timeout
  | rounds + 1, builder =>
    match builder.next with
    | none => .done builder
    | some job =>
      match builder.process bodies job with
      | .error failure => .fault failure
      | .ok builder => pending rounds builder

/-! ### Value arguments -/

/-- The types that have a type as an argument or as a member. -/
def dependents (id : ℕ) : List ℕ :=
  builder.types.zipIdx.flatMap fun row =>
    (row.1.arguments ++ row.1.members).filterMap fun child =>
      if child = id then some row.2 else none

/-- The values once non-storable members are passed on to everything that depends on them. -/
def finalValues : List Bool :=
  let values := builder.types.map Node.value
  let unset := ((List.range values.length).filter fun id => values[id]? = some false).reverse
  spread builder.dependents values unset

def valueArguments : Builder :=
  let values := builder.finalValues
  let builder := { builder with
    types := List.zipWith (fun (node : Node) value => { node with value := value })
      builder.types values }
  builder.argumentUses.foldl (fun builder use => builder.reportArgument use.1 use.2) builder

end Builder

end Zryna.Semantics.Instantiation
