import Mathlib.Data.Prod.Lex
import Mathlib.Data.List.Sort
import Zryna.Foundation.SortedSlice
import Zryna.Foundation.Spreading
import Zryna.Semantics.Instantiation.Program

/-!
# The builder of closed instances

The inventory that discovery fills: interned types and functions with their keys, each with an
order by key, the dependency edges, and the errors that are reported at the end.
-/

namespace Zryna.Semantics.Instantiation

open Zryna.Ir.Generic

/-! ### Failures -/

structure Diagnostic where
  code : String
  span : Option UntrustedSpan
  message : String
  guidance : String
deriving DecidableEq

/-- Atomic discovery failure. Allocation failure is not modelled. -/
inductive InstantiationFailure where
  | diagnostics (rows : List Diagnostic)
  | internalFailure
deriving DecidableEq

def maxFunctionInstances : ℕ := 4096
def maxDataInstances : ℕ := 4096
def maxEdges : ℕ := 65536
def maxDepth : ℕ := 64
def maxKeyBytes : ℕ := 4096
/-- Most closed types, inherited from the layouts. -/
def maxTypeNodes : ℕ := 65536

section

variable (code : String) (span : Option UntrustedSpan) (message : String)

/-- The spans of a checked project are authentic, so none of them is rejected here. -/
def diagnostic : Diagnostic :=
  ⟨code, span, message, "use the admitted bounded closed-instantiation graph"⟩

def failure : InstantiationFailure :=
  .diagnostics [diagnostic code span message]

end

section

variable (metric : String) (limit actual : ℕ) (span : Option UntrustedSpan)

def budget : InstantiationFailure :=
  failure "ZRYNA-M7201" span s!"{metric} limit {limit}; rejected count {actual}"

def budgetKey (key : List UInt8) : InstantiationFailure :=
  if span.isNone then budget metric limit actual span
  else failure "ZRYNA-M7201" span
    s!"{metric} limit {limit}; rejected count {actual}; canonical offending key {key}"

end

/-- The order of a span: file, start and end, and no span after every span. -/
def spanOrder : Option UntrustedSpan → List ℕ
  | some span => [0, span.file.toNat, span.start.toNat, span.stop.toNat]
  | none => [1, 0, 0, 0]

namespace Errors

def maxDiagnostics : ℕ := 256

structure Candidate where
  diagnostic : Diagnostic
  key : List UInt8
  witness : List ℕ
deriving DecidableEq

end Errors

/-- Bounded canonical rejection candidates, in the order of their spans, codes, keys and
witnesses. -/
structure Errors where
  candidates : List Errors.Candidate
deriving DecidableEq

namespace Errors

def order (row : Candidate) : List ℕ ×ₗ List ℕ ×ₗ List UInt8 ×ₗ List ℕ :=
  toLex (spanOrder row.diagnostic.span, toLex (row.diagnostic.code.toList.map Char.toNat,
    toLex (row.key, row.witness)))

def insert (errors : Errors) (candidate : Candidate) : Errors :=
  match SortedSlice.search order (order candidate) errors.candidates with
  | .ok _ => errors
  | .error position =>
    if position < maxDiagnostics then
      let kept := if errors.candidates.length = maxDiagnostics then errors.candidates.dropLast
        else errors.candidates
      ⟨SortedSlice.insertAt position candidate kept⟩
    else errors

def atSpan (errors : Errors) (code : String) (span : Option UntrustedSpan) (key : List UInt8)
    (witness : List ℕ) (message : String) : Errors :=
  errors.insert ⟨diagnostic code span message, key, witness⟩

end Errors

/-! ### Value bounds -/

/-- Nominal value bounds over original declarations. The owners are in their order. -/
structure Bounds where
  owners : List DeclarationIdentity
  values : List Bool
deriving DecidableEq

/-- The order of declaration identities: module, kind, index. -/
def ownerOrder (owner : DeclarationIdentity) : List ℕ :=
  [owner.module.toNat, match owner.kind with | .struct => 0 | .enum => 1 | .function => 2,
    owner.sourceIndex.toNat]

namespace Bounds

def index (owners : List DeclarationIdentity) (owner : DeclarationIdentity) :
    Except InstantiationFailure ℕ :=
  (SortedSlice.search ownerOrder (ownerOrder owner) owners).mapError fun _ => .internalFailure

/-- One type that is written in a data declaration: a type without values makes the declaration one
without values, and a nominal type passes on to the declaration what becomes of its own. -/
def row (bodies : BodyTypes) (owners : List DeclarationIdentity)
    (state : List Bool × List (List ℕ)) (written : DeclarationIdentity × UInt32) :
    Except InstantiationFailure (List Bool × List (List ℕ)) :=
  if written.1.kind = .function then .ok state
  else do
    let i ← index owners written.1
    match bodies.sourceType written.1 written.2 with
    | none => .error .internalFailure
    | some view =>
      match view.shape with
      | .unit | .borrow | .borrowMut | .function _ => .ok (state.1.set i false, state.2)
      | .nominal target => do
        let t ← index owners target
        .ok (state.1, state.2.modify t fun parents => parents ++ [i])
      | _ => .ok state

def new (bodies : BodyTypes) : Except InstantiationFailure Bounds := do
  let owners := bodies.dataIdentities.insertionSort fun a b => ownerOrder a ≤ ownerOrder b
  let (values, reverse) ← (bodies.modules.flatMap BodyTypes.sourceOwners).foldlM
    (row bodies owners) (List.replicate owners.length true, List.replicate owners.length [])
  let pending := ((List.range owners.length).filter fun i => values[i]? = some false).reverse
  .ok ⟨owners, spread (fun i => reverse.getD i []) values pending⟩

def value (bounds : Bounds) (owner : DeclarationIdentity) : Except InstantiationFailure Bool := do
  let i ← index bounds.owners owner
  match bounds.values[i]? with
  | some value => .ok value
  | none => .error .internalFailure

end Bounds

/-! ### The builder -/

structure Node where
  key : List UInt8
  shape : TypeShape
  arguments : List ℕ
  depth : ℕ
  processed : Bool
  members : List ℕ
  value : Bool
deriving DecidableEq

structure Function where
  key : List UInt8
  owner : DeclarationIdentity
  arguments : List ℕ
  generic : Bool
  processed : Bool
deriving DecidableEq

/-- What the parameters of a declaration stand for. -/
structure Environment where
  owner : DeclarationIdentity
  arguments : List ℕ
deriving DecidableEq

structure Builder where
  types : List Node
  typeOrder : List ℕ
  functions : List Function
  functionOrder : List ℕ
  edges : List (List UInt8 × List UInt8)
  generated : List (ℕ × ℕ)
  generatedReverse : List (List ℕ)
  argumentUses : List (ℕ × Option UntrustedSpan)
  bounds : Bounds
  errors : Errors
  genericData : ℕ
  genericFunctions : ℕ
deriving DecidableEq

/-- The size of a key. -/
def encodedSize (lanes : ℕ) (children : List ℕ) : ℕ :=
  children.foldl (fun size child => size + 4 + child) (1 + lanes * 4)

/-- A key with its size. It is empty when it would be too long. -/
def encode (tag : UInt8) (lanes : List UInt32) (children : List (List UInt8)) : List UInt8 × ℕ :=
  let size := encodedSize lanes.length (children.map List.length)
  if size > maxKeyBytes then ([], size) else (encodeKey tag lanes children, size)

namespace Builder

variable (bodies : BodyTypes) (builder : Builder)

def typeKey (id : ℕ) : List UInt8 := (builder.types[id]?).elim [] Node.key

def functionKey (id : ℕ) : List UInt8 := (builder.functions[id]?).elim [] Function.key

/-- Whether types of a shape are closed generic instances. -/
def generic (shape : TypeShape) : Bool :=
  match shape with
  | .option | .result => true
  | .nominal owner => (bodies.typeParameters? owner).any (0 < ·)
  | _ => false

def intern (node : Node) (span : Option UntrustedSpan) :
    Except InstantiationFailure (Builder × ℕ) :=
  match SortedSlice.search builder.typeKey node.key builder.typeOrder with
  | .ok index =>
    match builder.typeOrder[index]? with
    | some id => .ok (builder, id)
    | none => .error .internalFailure
  | .error position =>
    if generic bodies node.shape ∧ builder.genericData = maxDataInstances then
      .error (budgetKey "closed generic data instances" maxDataInstances (builder.genericData + 1)
        span node.key)
    else if builder.types.length = maxTypeNodes then
      .error (budgetKey "closed types" maxTypeNodes (builder.types.length + 1) span node.key)
    else
      .ok ({ builder with
        types := builder.types ++ [node]
        generatedReverse := builder.generatedReverse ++ [[]]
        typeOrder := SortedSlice.insertAt position builder.types.length builder.typeOrder
        genericData := builder.genericData + if generic bodies node.shape then 1 else 0 },
        builder.types.length)

def function (owner : DeclarationIdentity) (arguments : List ℕ) (span : Option UntrustedSpan) :
    Except InstantiationFailure (Builder × ℕ) :=
  let children := arguments.map builder.typeKey
  let isGeneric := !children.isEmpty
  let lanes := [owner.module, owner.sourceIndex]
    ++ if isGeneric then [UInt32.ofNat children.length] else []
  let encoded := encode (if isGeneric then 0x40 else 0x41) lanes children
  if encoded.1.isEmpty then .error (budget "instance key bytes" maxKeyBytes encoded.2 span)
  else
    match SortedSlice.search builder.functionKey encoded.1 builder.functionOrder with
    | .ok index =>
      match builder.functionOrder[index]? with
      | some id => .ok (builder, id)
      | none => .error .internalFailure
    | .error position =>
      if isGeneric ∧ builder.genericFunctions = maxFunctionInstances then
        .error (budgetKey "closed generic functions" maxFunctionInstances
          (builder.genericFunctions + 1) span encoded.1)
      else
        .ok ({ builder with
          functions := builder.functions ++ [⟨encoded.1, owner, arguments, isGeneric, false⟩]
          functionOrder :=
            SortedSlice.insertAt position builder.functions.length builder.functionOrder
          genericFunctions := builder.genericFunctions + if isGeneric then 1 else 0 },
          builder.functions.length)

def edge (source target : List UInt8) (span : Option UntrustedSpan) :
    Except InstantiationFailure Builder :=
  match SortedSlice.search toLex (toLex (source, target)) builder.edges with
  | .ok _ => .ok builder
  | .error position =>
    if builder.edges.length = maxEdges then
      .error (budgetKey "instantiation edges" maxEdges (builder.edges.length + 1) span target)
    else
      .ok { builder with edges := SortedSlice.insertAt position (source, target) builder.edges }

/-- The order of the uses of a type as an argument. -/
def useOrder (use : ℕ × Option UntrustedSpan) : List ℕ ×ₗ List UInt8 :=
  toLex (spanOrder use.2, builder.typeKey use.1)

/-- Reports a closed argument that is not a value. -/
def reportArgument (id : ℕ) (span : Option UntrustedSpan) : Builder :=
  if (builder.types[id]?).any fun node => !node.value then
    { builder with
      errors := builder.errors.atSpan "ZRYNA-M7001" span (builder.typeKey id) []
        "closed argument contains a non-storable nominal member" }
  else builder

def argumentUse (id : ℕ) (span : Option UntrustedSpan) : Builder :=
  let builder := builder.reportArgument id span
  match SortedSlice.search builder.useOrder (builder.useOrder (id, span)) builder.argumentUses with
  | .ok _ => builder
  | .error position =>
    { builder with
      argumentUses := SortedSlice.insertAt position (id, span) builder.argumentUses }

/-- The builder of a project, with the three scalar types. -/
def new : Except InstantiationFailure Builder := do
  let bounds ← Bounds.new bodies
  let empty : Builder := ⟨[], [], [], [], [], [], [], [], bounds, ⟨[]⟩, 0, 0⟩
  let scalar (tag : UInt8) (shape : TypeShape) : Node := ⟨[tag], shape, [], 0, true, [], true⟩
  let (builder, _) ← empty.intern bodies (scalar 0 .bool) none
  let (builder, _) ← builder.intern bodies (scalar 1 .i32) none
  let (builder, _) ← builder.intern bodies (scalar 2 .string) none
  .ok builder

end Builder

end Zryna.Semantics.Instantiation
