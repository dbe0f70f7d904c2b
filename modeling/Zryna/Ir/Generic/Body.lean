import Zryna.Ir.Generic.Cfg

/-!
# Bodies of closed functions

The second half of the closed check: signatures, operations, terminators and edges of every closed
function, and the graph of calls between the original declarations.
-/

namespace Zryna.Ir.Generic

open Layout.Generic (VerifiedLayouts TypeView)
open Raw

namespace Calls

variable (count : ℕ) (calls : List (ℕ × ℕ))

/-- Adjacency lists of the calls, each target once. -/
def successorLists : List (List ℕ) :=
  (List.range count).map fun source =>
    Cfg.sortDedup ((calls.filter fun call => call.1 = source).map Prod.snd)

/-- Call cycles and static call depth. The source stops at the first depth beyond the ceiling; a
depth never decreases, so it is still found when the sweep has ended. -/
def check : Except Failure Unit :=
  let swept := Kahn.run (successorLists count calls)
  if swept.depth.any fun depth => DataOwnership.maxStaticCallDepth < depth then
    .error (budget "inherited static call depth limit 128; first extra 129")
  else if swept.seen ≠ count then
    .error (reject "used original function call graph is recursive, regardless of argument keys")
  else .ok ()

end Calls

namespace Body

def exact (actual expected : Ty) : Except Failure Unit :=
  if actual ≠ expected then
    .error (reject "closed operand/binding/result types differ")
  else .ok ()

/-- Operands of exactly some types, from left to right. -/
def exactAll (operand : UInt32 → Except Failure Ty) (arguments : List (UInt32 × Ty)) :
    Except Failure Unit :=
  arguments.forM fun (argument, expected) => do
    let actual ← operand argument
    exact actual expected

def layout (layouts : List TypeView) (index : UInt32) : Except Failure TypeView :=
  match layouts[index.toNat]? with
  | none => .error (reject "unknown closed layout type ID")
  | some view => .ok view

def isEnum (key : List UInt8) : Bool :=
  match key.head? with
  | some tag => tag = 0x11 ∨ tag = 0x13 ∨ tag = 0x14 ∨ tag = 0x15
  | none => false

def variants (layouts : List TypeView) (index : UInt32) : Except Failure TypeView := do
  let view ← layout layouts index
  if !isEnum view.key then
    .error (reject "enum operation claimed a scalar, struct or container type")
  else .ok view

def rootKey (module function : UInt32) : List UInt8 :=
  0x41 :: (laneBytes module ++ laneBytes function)

/-- The closed function that an operation calls, by its position. -/
def callTarget (program : Program) (genericCount : ℕ) : Operation → Except Failure (Option ℕ)
  | .closedGenericCall target _ =>
    if target.toNat ≥ genericCount then
      .error (reject "generic call target is unknown or a nongeneric root")
    else .ok (some target.toNat)
  | .sourceCall module function _ =>
    match SortedSlice.search Function.key (rootKey module function) program.functions with
    | .error _ => .error (reject "nongeneric call target is absent or a generic template")
    | .ok index => .ok (some index)
  | _ => .ok none

/-- A call of a closed function with arguments of exactly its parameter types. -/
def call (program : Program) (genericCount : ℕ) (operand : UInt32 → Except Failure Ty)
    (operation : Operation) (arguments : List UInt32) : Except Failure Ty := do
  match ← callTarget program genericCount operation with
  | none => .error .internalFailure
  | some index =>
    match program.functions[index]? with
    | none => .error .internalFailure
    | some target =>
      if arguments.length ≠ target.parameters.length then
        .error (reject "closed call value arity differs from its target")
      else
        exactAll operand (arguments.zip target.parameters)
        .ok target.result

/-- The type of the result of an operation. -/
def operation (program : Program) (layouts : List TypeView) (genericCount : ℕ)
    (operand : UInt32 → Except Failure Ty) : Operation → Except Failure Ty
  | .boolLiteral _ => .ok (.stored 0)
  | .i32Literal _ => .ok (.stored 1)
  | .unit => .ok .unit
  | .copy value => do
    match ← operand value with
    | .stored id =>
      let view ← layout layouts id
      if view.dropKind ≠ 0 then
        .error (reject "owned value requires explicit ownership transfer, not Copy")
      else .ok (.stored id)
    | _ => .error (reject "copy cannot duplicate a loan or unit")
  | .i32Add left right => do
    exact (← operand left) (.stored 1)
    exact (← operand right) (.stored 1)
    .ok (.stored 1)
  | .closedGenericCall target arguments =>
    call program genericCount operand (.closedGenericCall target arguments) arguments
  | .sourceCall module function arguments =>
    call program genericCount operand (.sourceCall module function arguments) arguments
  | .closedEnumConstruct ty ordinal payload => do
    let view ← variants layouts ty
    match view.variants[ordinal.toNat]? with
    | none => .error (reject "constructor selected an unknown enum ordinal")
    | some (_, expected) =>
      match expected, payload with
      | none, none => .ok (.stored ty)
      | some expected, some value =>
        exact (← operand value) (.stored expected)
        .ok (.stored ty)
      | _, _ =>
        .error (reject "constructor payload presence differs from the selected fixed variant")

/-- An edge gives the parameters of its target their values; a binding is the first of them. -/
def edge (function : Function) (operand : UInt32 → Except Failure Ty) (edge : Edge)
    (binding : Option Definition) : Except Failure Unit :=
  match function.blocks[edge.target.toNat]? with
  | none => .error (reject "unknown edge target")
  | some block =>
    let offset := binding.isSome.toNat
    if (binding.isSome ∧ block.parameters.head? ≠ binding)
        ∨ block.parameters.length ≠ edge.arguments.length + offset then
      .error (reject "edge payload binding or exact parameter arity differs")
    else
      exactAll operand (edge.arguments.zip ((block.parameters.drop offset).map Definition.ty))

/-- The type of a scrutinee or of an active payload, as a match of some mode sees it. -/
def matched (mode : MatchMode) (id : UInt32) : Ty :=
  match mode with
  | .value => .stored id
  | .sharedBorrow => .borrow id false
  | .exclusiveBorrow => .borrow id true

def arm (function : Function) (operand : UInt32 → Except Failure Ty) (mode : MatchMode) (arm : Arm)
    (variant : UInt32 × Option UInt32) : Except Failure Unit :=
  if arm.ordinal ≠ variant.1 then
    .error (reject "match successors are duplicate, forged or not ordinal-ordered")
  else
    let mismatch : Except Failure Unit := .error (reject
      "match active payload binding/type differs from its fixed variant and loan mode")
    match variant.2.map (matched mode), arm.binding with
    | none, none => edge function operand arm.edge none
    | some expected, some binding =>
      if binding.ty = expected then edge function operand arm.edge (some binding) else mismatch
    | _, _ => mismatch

def terminator (layouts : List TypeView) (function : Function)
    (operand : UInt32 → Except Failure Ty) : Terminator → Except Failure Unit
  | .return value => do exact (← operand value) function.result
  | .jump next => edge function operand next none
  | .branch condition yes no => do
    exact (← operand condition) (.stored 0)
    edge function operand yes none
    edge function operand no none
  | .closedEnumMatch ty scrutinee mode arms => do
    exact (← operand scrutinee) (matched mode ty)
    let view ← variants layouts ty
    if arms.length ≠ view.variants.length then
      .error (reject "match successors are missing or extra")
    else
      (arms.zip view.variants).forM fun (a, variant) => arm function operand mode a variant

variable (program : Program) (sources : SourceMap) (layouts : VerifiedLayouts)
  (inventory : Inventory)

def signatureParameter (parameter : Ty) : Except Failure Unit := do
  Cfg.ty parameter program.typeKeys.length
  if parameter = .unit then .error (reject "unit is not a value parameter") else .ok ()

def isBorrow : Ty → Bool
  | .borrow _ _ => true
  | _ => false

def signature (function : Function) : Except Failure Unit := do
  function.parameters.forM (signatureParameter program)
  Cfg.ty function.result program.typeKeys.length
  if isBorrow function.result then
    .error (reject "a function result cannot carry an escaping loan")
  else .ok ()

/-- One instruction. A call is added to the calls between original declarations. -/
def instruction (graph : Graph) (caller block : ℕ) (calls : List (ℕ × ℕ))
    (entry : Instruction × ℕ) : Except Failure (List (ℕ × ℕ)) := do
  let operand := graph.operand block entry.2
  let expected ←
    operation program layouts.types inventory.genericCount operand entry.1.operation
  if entry.1.result.ty ≠ expected then
    .error (reject "instruction result differs from its exact closed operation type")
  else
    match ← callTarget program inventory.genericCount entry.1.operation with
    | none => .ok calls
    | some target =>
      match inventory.declarations[caller]?, inventory.declarations[target]? with
      | some source, some target => .ok (calls ++ [(source, target)])
      | _, _ => .error .internalFailure

def block (function : Function) (graph : Graph) (caller : ℕ) (calls : List (ℕ × ℕ))
    (entry : Block × ℕ) : Except Failure (List (ℕ × ℕ)) := do
  let calls ← entry.1.instructions.zipIdx.foldlM
    (instruction program layouts inventory graph caller entry.2) calls
  terminator layouts.types function (graph.operand entry.2 entry.1.instructions.length)
    entry.1.terminator
  .ok calls

def function (calls : List (ℕ × ℕ)) (entry : Function × ℕ) : Except Failure (List (ℕ × ℕ)) := do
  signature program entry.1
  let graph ← Cfg.build entry.1 sources program.typeKeys.length
  entry.1.blocks.zipIdx.foldlM (block program layouts inventory entry.1 graph entry.2) calls

/-- The check of all bodies. -/
def check : Except Failure Unit := do
  let calls ← program.functions.zipIdx.foldlM (function program sources layouts inventory) []
  Calls.check program.declarations.length calls

end Body

end Zryna.Ir.Generic
