import Mathlib.Data.Prod.Lex
import Zryna.Ir.DataOwnership.Raw
import Zryna.Ir.Generic.Keys
import Zryna.Ir.Generic.Raw

/-!
# The inventory of a closed generic program

The first half of the closed check: the inherited amplification ceilings (`preflight`), the layout
authorities, the complete inventory of original declarations, and the key of every closed function.
Counters are natural numbers; they are compared with a ceiling after every addition, so the checked
additions of the source cannot overflow.

`check_eq_ok` reads an accepted inventory back as `Inventoried`.
-/

namespace Zryna.Ir.Generic

open Layout (StorageTarget)
open Layout.Generic (VerifiedLayouts TypeView)
open DataOwnership (maxModules maxFunctionsPerModule maxFunctionsPerProgram
  maxParametersPerFunction maxParametersPerProgram maxBlocksPerFunction maxBlocksPerProgram
  maxBlockParameters maxValuesPerFunction maxValuesPerProgram maxCfgEdgesPerFunction
  maxCfgEdgesPerProgram maxCallEdges maxInstantiatedTypes maxAggregateOperands)
open Raw

namespace Inventory

/-! ### Preflight -/

/-- What a program has spent of the ceilings. -/
structure Totals where
  parameters : ℕ
  blocks : ℕ
  values : ℕ
  edges : ℕ
  calls : ℕ
  operands : ℕ
deriving DecidableEq

def add (total amount limit : ℕ) (label : String) : Except Failure ℕ :=
  if total + amount > limit then .error (budget label) else .ok (total + amount)

/-- The calls after an operation, and its aggregate operands. -/
def operationLimits (calls : ℕ) : Operation → Except Failure (ℕ × ℕ)
  | .closedGenericCall _ arguments | .sourceCall _ _ arguments => do
    let calls ← add calls 1 maxCallEdges "program call edge limit exceeded"
    if arguments.length > maxParametersPerFunction then
      .error (reject "call argument count exceeds the inherited exact signature bound")
    else .ok (calls, 0)
  | .closedEnumConstruct _ _ payload => .ok (calls, payload.isSome.toNat)
  | _ => .ok (calls, 0)

def instructionLimits (totals : Totals) (instruction : Instruction) : Except Failure Totals := do
  let (calls, count) ← operationLimits totals.calls instruction.operation
  let operands ←
    add totals.operands count maxAggregateOperands "program aggregate operand limit exceeded"
  .ok { totals with calls, operands }

/-- The totals after a block, with the values and the edges of its function so far. -/
def blockLimits (state : Totals × ℕ × ℕ) (block : Block) : Except Failure (Totals × ℕ × ℕ) :=
  let (totals, localValues, localEdges) := state
  if block.parameters.length > maxBlockParameters then
    .error (budget "block parameter limit exceeded")
  else do
    let localValues ← add localValues block.parameters.length maxValuesPerFunction
      "function value limit exceeded"
    let localValues ← add localValues block.instructions.length maxValuesPerFunction
      "function value limit exceeded"
    let localEdges ← add localEdges (edges block.terminator).length maxCfgEdgesPerFunction
      "function CFG edge limit exceeded"
    let totals ← block.instructions.foldlM instructionLimits totals
    .ok (totals, localValues, localEdges)

def functionLimits (totals : Totals) (function : Function) : Except Failure Totals :=
  if function.parameters.length > maxParametersPerFunction
      ∨ function.blocks.length > maxBlocksPerFunction then
    .error (budget "inherited function parameter/block limit exceeded")
  else do
    let parameters ← add totals.parameters function.parameters.length maxParametersPerProgram
      "program parameter limit exceeded"
    let blocks ← add totals.blocks function.blocks.length maxBlocksPerProgram
      "program block limit exceeded"
    let (totals, localValues, localEdges) ←
      function.blocks.foldlM blockLimits ({ totals with parameters, blocks }, 0, 0)
    let values ← add totals.values localValues maxValuesPerProgram "program value limit exceeded"
    let edges ← add totals.edges localEdges maxCfgEdgesPerProgram
      "program CFG edge limit exceeded"
    .ok { totals with values, edges }

def preflight (program : Program) : Except Failure Unit :=
  if program.modules.length > maxModules
      ∨ (∃ module ∈ program.modules, module.functions.toNat > maxFunctionsPerModule)
      ∨ program.declarations.length > maxFunctionsPerProgram
      ∨ program.functions.length > maxFunctionsPerProgram
      ∨ program.typeKeys.length > maxInstantiatedTypes then
    .error (budget "inherited module/function/type inventory limit exceeded")
  else do
    let _ ← program.functions.foldlM functionLimits ⟨0, 0, 0, 0, 0, 0⟩
    .ok ()

/-! ### Original declarations -/

variable (program : Program) (sources : SourceMap)

def original (row : Module) (next function : ℕ) : Except Failure ℕ :=
  match program.declarations[next]? with
  | none => .error (reject "original function declaration inventory is incomplete")
  | some declaration =>
    if declaration.module ≠ row.id ∨ declaration.function.toNat ≠ function
        ∨ declaration.parameters.toNat > 2 ∨ declaration.span.file ≠ row.id
        ∨ (sources.verifySpan declaration.span).isOk = false then
      .error (reject "original declaration/module/arity/source range differs")
    else .ok (next + 1)

def originalModule (next : ℕ) (entry : Module × ℕ) : Except Failure ℕ :=
  if entry.1.id.toNat ≠ entry.2 then .error (reject "original module IDs are not dense")
  else (List.range entry.1.functions.toNat).foldlM (original program sources entry.1) next

def originals : Except Failure Unit :=
  if program.modules.length ≠ sources.files.length then
    .error (reject "original module inventory differs from the exact source map")
  else do
    let next ← program.modules.zipIdx.foldlM (originalModule program sources) 0
    if next ≠ program.declarations.length then
      .error (reject "extra original declaration claims")
    else .ok ()

/-! ### Closed functions -/

/-- The order of the declarations. -/
def declarationKey (row : Raw.Declaration) : ℕ ×ₗ ℕ := toLex (row.module.toNat, row.function.toNat)

/-- What the loop over the closed functions keeps: how many are generic, the original declaration of
each, and which declarations are represented. -/
structure Seen where
  genericCount : ℕ
  declarations : List ℕ
  represented : List Bool
deriving DecidableEq

/-- A key that does not follow the one before it. -/
def unordered (function : Function) (index : ℕ) : Bool :=
  match index with
  | 0 => false
  | before + 1 => (program.functions[before]?).any fun previous => function.key ≤ previous.key

/-- The key of a generic instance. -/
def isGeneric (key : List UInt8) : Bool := key.head? = some 0x40

def keyDomain (key : List UInt8) : Domain :=
  if isGeneric key then .functionInstance else .sourceRoot

/-- The original declaration of a closed function, by its position. -/
def originalOf (function : Function) (key : Keys.DecodedKey) : Except Failure ℕ :=
  match key.declaration with
  | none => .error .internalFailure
  | some owner =>
    match SortedSlice.search declarationKey (toLex (owner.1.toNat, owner.2.toNat))
        program.declarations with
    | .error _ => .error (reject "closed function refers to an unknown original declaration")
    | .ok declaration =>
      match program.declarations[declaration]? with
      | none => .error .internalFailure
      | some original =>
        if function.span ≠ original.span ∨ key.arguments.length ≠ original.parameters.toNat
            ∨ isGeneric function.key ≠ decide (original.parameters ≠ 0) then
          .error (reject "function kind, arity or original declaration range differs")
        else .ok declaration

def absent (argument : List UInt8) : Bool :=
  (SortedSlice.search id argument program.typeKeys).isOk = false

def checkFunction (seen : Seen) (entry : Function × ℕ) : Except Failure Seen :=
  let (function, index) := entry
  if unordered program function index then
    .error (reject "function keys/IDs are duplicate or not in unsigned canonical order")
  else do
    let key ← Keys.decode function.key (keyDomain function.key)
    let declaration ← originalOf program function key
    if isGeneric function.key ∧ function.publicExport.isSome then
      .error (reject "a generic instance cannot enter the scalar executable export inventory")
    else if key.arguments.any (absent program) then
      .error (reject "function argument is absent from the complete stored universe")
    else
      let genericCount := seen.genericCount + (isGeneric function.key).toNat
      if genericCount > 4096 then
        .error (budget "closed generic function instance limit 4096; first extra 4097")
      else .ok ⟨genericCount, seen.declarations ++ [declaration],
        seen.represented.set declaration true⟩

end Inventory

/-- The closed functions: how many are generic instances, and the original declaration of each, by
its position in the list of declarations. -/
structure Inventory where
  genericCount : ℕ
  declarations : List ℕ
deriving DecidableEq

namespace Inventory

/-- The type keys are those of both layouts, and each is the key of a closed type. -/
def checkTypeKeys (program : Program) (linear linux : VerifiedLayouts) : Except Failure Unit :=
  if program.typeKeys.length ≠ linear.types.length
      ∨ program.typeKeys.length ≠ linux.types.length then
    .error (reject "omitted or extra complete stored type inventory")
  else
    ((program.typeKeys.zip linear.types).zip linux.types).forM fun ((key, left), right) => do
      if key ≠ left.key ∨ key ≠ right.key then
        .error (reject "claimed type key/ID order differs from both successor layouts")
      else
        let _ ← Keys.decode key .type
        .ok ()

def check (program : Program) (sources : SourceMap) (linear linux : VerifiedLayouts) :
    Except Failure Inventory := do
  preflight program
  if linear.sourceMapIdentity ≠ sources.id ∨ linux.sourceMapIdentity ≠ sources.id
      ∨ linear.target ≠ .linear32V1 ∨ linux.target ≠ .linuxX8664V1
      ∨ linear.universeIdentity ≠ linux.universeIdentity
      ∨ program.universeIdentity ≠ linear.universeIdentity
      ∨ program.linear32 ≠ linear.fingerprint ∨ program.linuxX8664 ≠ linux.fingerprint then
    .error (reject "foreign source/universe, wrong target or successor fingerprint")
  else
    checkTypeKeys program linear linux
    originals program sources
    let seen ← program.functions.zipIdx.foldlM (checkFunction program)
      ⟨0, [], List.replicate program.declarations.length false⟩
    if (program.declarations.zip seen.represented).any fun (declaration, represented) =>
        declaration.parameters = 0 ∧ represented = false then
      .error (reject "nongeneric original function root is missing")
    else .ok ⟨seen.genericCount, seen.declarations⟩

end Inventory

end Zryna.Ir.Generic
