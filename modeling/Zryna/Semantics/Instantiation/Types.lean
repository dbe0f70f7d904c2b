import Zryna.Semantics.Instantiation.Expansion

/-!
# Closing types

Interning of closed types, and the closing of a symbolic view in an environment, which interns
every closed part of it on the way. The explicit stack of the source is the recursion here.
-/

namespace Zryna.Semantics.Instantiation

open Zryna.Ir.Generic

namespace Builder

variable (bodies : BodyTypes) (builder : Builder)

/-- Whether an interned type has been found to be a value. -/
def isValue (id : ℕ) : Bool := (builder.types[id]?).any Node.value

def depthOf (id : ℕ) : ℕ := (builder.types[id]?).elim 0 Node.depth

/-- The tag and the lanes of a shape over a number of arguments. -/
def lead (shape : TypeShape) (count : ℕ) : Except InstantiationFailure (UInt8 × List UInt32) :=
  match shape with
  | .bool => .ok (0, [])
  | .i32 => .ok (1, [])
  | .string => .ok (2, [])
  | .option => .ok (0x14, [1])
  | .result => .ok (0x15, [2])
  | .vec => .ok (0x21, [])
  | .shared => .ok (0x22, [])
  | .weak => .ok (0x23, [])
  | .fixedArray length => .ok (0x20, [length.value])
  | .nominal owner =>
    if owner.kind = .function then .error .internalFailure
    else
      match bodies.data? owner with
      | none => .error .internalFailure
      | some data =>
        let enumeration := data.kind.declarationKind = .enum
        let lanes := [owner.module, owner.sourceIndex]
          ++ if count = 0 then [] else [UInt32.ofNat count]
        .ok (if count = 0 then if enumeration then 0x11 else 0x10
          else if enumeration then 0x13 else 0x12, lanes)
  | _ => .error .internalFailure

/-- Notes the arguments of a generic type as uses, each where it is written. -/
def noteArguments (arguments : List ℕ) (spans : List (Option UntrustedSpan))
    (span : Option UntrustedSpan) : Builder :=
  (arguments.zip spans).foldl (fun builder use => builder.argumentUse use.1 (use.2.or span)) builder

/-- The bound of a shape, before its arguments: that of the declaration of a nominal type. -/
def boundOf (shape : TypeShape) : Except InstantiationFailure Bool :=
  match shape with
  | .nominal owner => builder.bounds.value owner
  | _ => .ok true

def internShape (shape : TypeShape) (arguments : List ℕ) (spans : List (Option UntrustedSpan))
    (span : Option UntrustedSpan) : Except InstantiationFailure (Builder × ℕ) :=
  let children := arguments.map builder.typeKey
  let depth := ((arguments.map builder.depthOf).max?).elim 0 (· + 1)
  if depth > maxDepth then .error (budget "type application depth" maxDepth depth span)
  else do
    let (tag, lanes) ← lead bodies shape children.length
    let encoded := encode tag lanes children
    if encoded.1.isEmpty then
      .error (budget "instance key bytes" maxKeyBytes encoded.2 span)
    else
      let noted := if generic bodies shape then builder.noteArguments arguments spans span
        else builder
      let bound ← noted.boundOf shape
      noted.intern bodies
        ⟨encoded.1, shape, arguments, depth, false, [], bound && arguments.all noted.isValue⟩ span

/-- Interns a nominal type. -/
def nominal (owner : DeclarationIdentity) (arguments : List ℕ) (span : Option UntrustedSpan) :
    Except InstantiationFailure (Builder × ℕ) :=
  builder.internShape bodies (.nominal owner) arguments (arguments.map fun _ => span) span

/-- An edge from `source` to every generic type in an interned type. Arguments are interned before
the types they occur in. -/
def dependencyOn (source : List UInt8) (span : Option UntrustedSpan) (id : ℕ) (builder : Builder) :
    Except InstantiationFailure Builder :=
  match builder.types[id]? with
  | none => .error .internalFailure
  | some node => do
    let builder ← if generic bodies node.shape then builder.edge source node.key span
      else .ok builder
    node.arguments.reverse.foldlM (fun builder argument =>
      if argument < id then dependencyOn source span argument builder
      else .error .internalFailure) builder
termination_by id

/-- Nothing depends on a type that is written outside of an instance. -/
def dependency (source : List UInt8) (id : ℕ) (span : Option UntrustedSpan) :
    Except InstantiationFailure Builder :=
  if source.isEmpty then .ok builder else dependencyOn bodies source span id builder

/-- An edge of the graph of applications that declarations generate. -/
def generatedEdge (source target : ℕ) (span : Option UntrustedSpan) :
    Except InstantiationFailure Builder :=
  match SortedSlice.search toLex (toLex (source, target)) builder.generated with
  | .ok _ => .ok builder
  | .error position => do
    match ← Expansion.path bodies builder source target with
    | some path =>
      let witness := path.map builder.typeKey
      .error (failure "ZRYNA-M7003" span
        s!"declaration-generated application repeats a generic declaration with different closed arguments; canonical retained-graph path {witness}")
    | none =>
      .ok { builder with
        generated := SortedSlice.insertAt position (source, target) builder.generated
        generatedReverse :=
          builder.generatedReverse.modify target fun origins => origins ++ [source] }

/-- What a view of a shape closes to, once its children are closed. -/
def closeShape (environment : Environment) (shape : TypeShape) (results : List (Option ℕ))
    (spans : List (Option UntrustedSpan)) (span : Option UntrustedSpan) :
    Except InstantiationFailure (Builder × Option ℕ) :=
  match shape with
  | .parameter parameter =>
    .ok (builder, if parameter.declaration = environment.owner
      then environment.arguments[parameter.index]? else none)
  | .unit | .borrow | .borrowMut | .function _ => .ok (builder, none)
  | shape =>
    match results.mapM id with
    | none => .ok (builder, none)
    | some arguments => do
      let (builder, id) ← builder.internShape bodies shape arguments spans span
      .ok (builder, some id)

/-- The edges of a closed part of a view. A parameter copies a supplied type; only an application
that the declaration itself writes takes part in generated expansion. -/
def recordUse (source : List UInt8) (origin : Option ℕ) (shape : TypeShape) (id : ℕ)
    (span : Option UntrustedSpan) : Except InstantiationFailure Builder := do
  let builder ← builder.dependency bodies source id span
  match shape, origin with
  | .parameter _, _ => .ok builder
  | _, none => .ok builder
  | _, some origin =>
    if (builder.types[id]?).any fun node => generic bodies node.shape then
      builder.generatedEdge bodies origin id span
    else .ok builder

/-- Closes a view in an environment. A view that is not closed has no type. -/
def close (environment : Environment) (source : List UInt8) (origin : Option ℕ)
    (span : Option UntrustedSpan) :
    TypeView → Builder → Except InstantiationFailure (Builder × Option ℕ)
  | .node shape _ headSpan count children, builder => do
    let (builder, results) ← (List.finRange count).foldlM
      (fun (state : Builder × List (Option ℕ)) i => do
        let (builder, result) ← close environment source origin span (children i) state.1
        .ok (builder, state.2 ++ [result]))
      (builder, [])
    let span := headSpan.or span
    let spans := (List.finRange count).map fun i => (children i).originalSpan
    let (builder, result) ← builder.closeShape bodies environment shape results spans span
    match result with
    | none => .ok (builder, none)
    | some id => do
      let builder ← builder.recordUse bodies source origin shape id span
      .ok (builder, some id)

/-- Closes a type that is written in the declaration of the environment. -/
def source (environment : Environment) (occurrence : UInt32) (key : List UInt8)
    (origin : Option ℕ) : Except InstantiationFailure (Builder × Option ℕ) :=
  match bodies.sourceType environment.owner occurrence with
  | none => .ok (builder, none)
  | some view =>
    let span := (bodies.record? environment.owner occurrence).map SourceRecord.span
    close bodies environment key origin span view builder

end Builder

end Zryna.Semantics.Instantiation
