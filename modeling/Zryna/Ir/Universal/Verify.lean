import Zryna.Abi
import Zryna.Foundation.Report
import Zryna.Ir.ControlFlow.Raw

/-!
# Universal IR and its verifier

The default profile `I32V1` of `zryna-ir`. A function is an arena of expressions with a body root.
`verify` accepts it when every type is `i32`, every operand precedes its expression, every
expression has exactly one owner (a parent, or the function as its body), and the arena lists the
tree of the body in left-to-right postorder.

The last two demands are separate passes over the arena: `verifyExpressions` counts owners, and
`verifyCanonicalPostorder` walks the tree with an explicit stack.

As in the control-flow verifier, checks are reports. The source stops early once its bounded
collector is full; from there on nothing is retained, so the early exits only save work.
-/

namespace Zryna.Ir.Universal

open Report

abbrev I32 := BitVec 32

/-! ### Limits -/

def maxIrFunctions : ℕ := 16384
/-- Maximum parameters in one function. -/
def maxIrParametersPerFunction : ℕ := 256
def maxIrParametersPerProgram : ℕ := 262144
/-- Maximum expressions in one function. -/
def maxIrExpressionsPerFunction : ℕ := 16384
def maxIrExpressionsPerProgram : ℕ := 262144
/-- Maximum depth of an expression tree. -/
def maxIrExpressionDepth : ℕ := 128
/-- Maximum retained diagnostics, including the terminal one. -/
def maxIrDiagnostics : ℕ := 256

/-- The largest `usize`. -/
def usizeMax : ℕ := 2 ^ 64 - 1

/-- Saturating addition in `u32`. -/
def saturatingAdd (a b : ℕ) : ℕ := min (a + b) (2 ^ 32 - 1)

/-! ### Raw programs -/

/-- Exact target-neutral expression operations. -/
inductive ExprKind where
  | parameter (index : BitVec 32)
  | boolLiteral (value : Bool)
  | i32Add (lhs rhs : ℕ)
  | i32Literal (value : I32)
deriving DecidableEq

/-- Typed expression before verification. -/
structure Expr where
  ty : IrType
  span : Span
  kind : ExprKind
deriving DecidableEq

/-- Typed function before verification. -/
structure Function where
  name : String
  parameters : List IrType
  returnType : IrType
  expressions : List Expr
  body : ℕ
deriving DecidableEq

/-- Compilation unit before verification. -/
structure Program where
  functions : List Function
deriving DecidableEq

/-! ### Diagnostics -/

def limitError (label : String) (limit : ℕ) : Diagnostic :=
  Diagnostic.error "ZRYNA-I1201" none s!"Universal IR {label} exceeds its limit of {limit}"
    "reduce the program before Universal IR verification"

def functionLimitError (functionIndex : ℕ) (label : String) (limit : ℕ) : Diagnostic :=
  Diagnostic.error "ZRYNA-I1201" none
    s!"function #{functionIndex} has too many {label}; the limit is {limit}"
    "reduce the function before Universal IR verification"

def unsupportedTypeError (functionIndex : ℕ) (label : String) (itemIndex : ℕ) : Diagnostic :=
  Diagnostic.error "ZRYNA-I1006" none
    s!"function #{functionIndex} {label} #{itemIndex} has an unsupported type"
    "use only i32 until a wider universal backend profile is enabled"

/-- A diagnostic at an expression, located only when its span is valid. -/
def expressionError (validSpan : Bool) (span : Span) (code message guidance : String) :
    Diagnostic :=
  if validSpan then Diagnostic.errorAt code span message guidance
  else Diagnostic.error code none message guidance

/-- The bounded collector. -/
def collect (diagnostics : List Diagnostic) : Event Diagnostic → List Diagnostic
  | .push d | .limit d =>
    if diagnostics.length < maxIrDiagnostics - 1 then diagnostics ++ [d]
    else if diagnostics.length = maxIrDiagnostics - 1 then
      diagnostics ++ [Diagnostic.error "ZRYNA-I1202" none
        s!"Universal IR verification reached its diagnostic limit of {maxIrDiagnostics}"
        "fix the retained diagnostics before verifying the program again"]
    else diagnostics

/-- The retained diagnostics. -/
def finish (events : List (Event Diagnostic)) : List Diagnostic := events.foldl collect []

abbrev Check := Report Diagnostic

/-! ### Resource limits -/

/-- Per-function limits and running totals, from function `functionIndex` on. -/
def verifyTotals : ℕ → List Function → ℕ → ℕ → Check Unit
  | _, [], parameters, expressions => do
    pushIf (parameters > maxIrParametersPerProgram)
      (limitError "aggregate parameter count" maxIrParametersPerProgram)
    pushIf (expressions > maxIrExpressionsPerProgram)
      (limitError "aggregate expression count" maxIrExpressionsPerProgram)
  | functionIndex, function :: functions, parameters, expressions => do
    pushIf (function.parameters.length > maxIrParametersPerFunction)
      (functionLimitError functionIndex "parameters" maxIrParametersPerFunction)
    pushIf (function.expressions.length > maxIrExpressionsPerFunction)
      (functionLimitError functionIndex "expressions" maxIrExpressionsPerFunction)
    if parameters + function.parameters.length > usizeMax then
      push (limitError "aggregate parameter count" maxIrParametersPerProgram)
    else if expressions + function.expressions.length > usizeMax then
      push (limitError "aggregate expression count" maxIrExpressionsPerProgram)
    else
      verifyTotals (functionIndex + 1) functions (parameters + function.parameters.length)
        (expressions + function.expressions.length)

def verifyResourceLimits (program : Program) : Check Unit :=
  if program.functions.length > maxIrFunctions then
    push (limitError "function count" maxIrFunctions)
  else verifyTotals 0 program.functions 0 0

/-! ### Exports -/

def rawAbiType : IrType → Abi.RawType
  | .unit => .unit
  | .bool => .bool
  | .i32 => .i32

/-- The diagnostic of an ABI violation. Unsupported types are reported with the function. -/
def abiDiagnostic (violation : Abi.AbiViolation) : Option Diagnostic :=
  let functionIndex := violation.exportIndex.getD 0
  match violation.kind with
  | .invalidLogicalName =>
    some (Diagnostic.error "ZRYNA-I1009" none
      s!"function #{functionIndex} has an invalid logical export name"
      ("use 1 to 128 ASCII bytes matching [A-Za-z_][A-Za-z0-9_]* and avoid reserved "
        ++ "bindings"))
  | .duplicateLogicalName firstIndex =>
    some (Diagnostic.error "ZRYNA-I1010" none
      s!"function #{functionIndex} duplicates the logical export of function #{firstIndex}"
      "give every exported function one exact unique logical name")
  | .portableNameCollision firstIndex =>
    some (Diagnostic.error "ZRYNA-I1011" none
      (s!"function #{functionIndex} collides with function #{firstIndex} under the portable "
        ++ "target-symbol identity")
      "use export names that remain unique when ASCII case is ignored")
  | .unsupportedScalarType => none
  | .tooManyExports | .tooManyParameters | .tooManyParametersInModule =>
    some (Diagnostic.error "ZRYNA-I1201" none
      "Universal IR scalar ABI claims exceed their resource limits"
      "reduce the program before Universal IR verification")
  | .violationBudgetExceeded =>
    some (Diagnostic.error "ZRYNA-I1202" none
      "Universal IR scalar ABI diagnostics exceeded their limit"
      "fix earlier scalar ABI diagnostics before compiling again")

def verifyAbi (program : Program) : Check (Option (List Abi.VerifiedExport)) :=
  let exports := program.functions.map fun function =>
    (⟨function.name, ⟨function.parameters.map rawAbiType, rawAbiType function.returnType⟩⟩ :
      Abi.RawExport)
  match Abi.verifyV1 exports with
  | .ok abi => pure (some abi)
  | .error violations => do
    forM violations fun violation =>
      match abiDiagnostic violation with
      | some d => push d
      | none => pure ()
    pure none

/-! ### Expressions -/

def profileSupports (ty : IrType) : Bool := ty = .i32

/-- An operand that precedes the expression `current`. -/
def predecessor (id current : ℕ) : Option ℕ := if id < current then some id else none

/-- One more owner of an expression. -/
def addOwner (owners : List ℕ) (index : ℕ) : List ℕ :=
  owners.set index (saturatingAdd (owners.getD index 0) 1)

/-- Depth, validity and owner counts after one expression. -/
structure ExpressionFacts where
  depth : ℕ
  graphValid : Bool
  owners : List ℕ
deriving DecidableEq

def verifyExpression (functionIndex : ℕ) (function : Function) (expressionIndex : ℕ)
    (expression : Expr) (validSpan : Bool) (depths owners : List ℕ) : Check ExpressionFacts :=
  let report (code message guidance : String) : Diagnostic :=
    expressionError validSpan expression.span code message guidance
  match expression.kind with
  | .parameter index => do
    pushIf (function.parameters[index.toNat]? ≠ some expression.ty)
      (report "ZRYNA-I1003"
        (s!"function #{functionIndex} expression #{expressionIndex} references an invalid "
          ++ "parameter")
        "use an existing parameter index with the exact verified type")
    pure ⟨1, true, owners⟩
  | .boolLiteral _ => do
    pushIf (expression.ty ≠ .bool)
      (report "ZRYNA-I1005"
        (s!"function #{functionIndex} expression #{expressionIndex} is a mistyped bool "
          ++ "literal")
        "assign Type::Bool to every bool literal")
    pure ⟨1, true, owners⟩
  | .i32Literal _ => do
    pushIf (expression.ty ≠ .i32)
      (report "ZRYNA-I1005"
        (s!"function #{functionIndex} expression #{expressionIndex} is a mistyped i32 "
          ++ "literal")
        "assign Type::I32 to every i32 literal")
    pure ⟨1, true, owners⟩
  | .i32Add lhs rhs =>
    match predecessor lhs expressionIndex, predecessor rhs expressionIndex with
    | some left, some right =>
      if lhs ≠ rhs then do
        let owners := addOwner (addOwner owners left) right
        let operandsAreI32 := (function.expressions[left]?).map Expr.ty = some .i32
          ∧ (function.expressions[right]?).map Expr.ty = some .i32
        pushIf (expression.ty ≠ .i32 ∨ ¬ operandsAreI32)
          (report "ZRYNA-I1004"
            (s!"function #{functionIndex} expression #{expressionIndex} is an invalid i32 "
              ++ "addition")
            "i32 addition requires two earlier i32 operands and an i32 result")
        pure ⟨saturatingAdd (max (depths.getD left 0) (depths.getD right 0)) 1, true, owners⟩
      else do
        push (report "ZRYNA-I1007"
          (s!"function #{functionIndex} expression #{expressionIndex} has a missing, shared, "
            ++ "self, or forward operand")
          "reference two distinct earlier expressions in canonical postorder")
        pure ⟨1, false, owners⟩
    | _, _ => do
      push (report "ZRYNA-I1007"
        (s!"function #{functionIndex} expression #{expressionIndex} has a missing, shared, "
          ++ "self, or forward operand")
        "reference two distinct earlier expressions in canonical postorder")
      pure ⟨1, false, owners⟩

/-- The accumulator of the expression loop. -/
structure ExpressionTable where
  depths : List ℕ
  owners : List ℕ
  graphValid : Bool
deriving DecidableEq

/-- One round of the expression loop. -/
def verifyArenaEntry (functionIndex : ℕ) (function : Function) (validSpans : List Bool)
    (table : ExpressionTable) (entry : Expr × ℕ) : Check ExpressionTable := do
  let (expression, expressionIndex) := entry
  let validSpan := validSpans.getD expressionIndex false
  pushIf (profileSupports expression.ty = false)
    (expressionError validSpan expression.span "ZRYNA-I1006"
      (s!"function #{functionIndex} expression #{expressionIndex} has an unsupported type")
      "use only i32 until a wider universal backend profile is enabled")
  let facts ←
    verifyExpression functionIndex function expressionIndex expression validSpan table.depths
      table.owners
  pushIf (facts.depth > maxIrExpressionDepth)
    (expressionError validSpan expression.span "ZRYNA-I1008"
      (s!"function #{functionIndex} expression #{expressionIndex} exceeds depth "
        ++ s!"{maxIrExpressionDepth}")
      "split the expression before Universal IR verification")
  pure
    { depths := table.depths ++ [facts.depth]
      owners := facts.owners
      graphValid := table.graphValid && facts.graphValid
        && decide (facts.depth ≤ maxIrExpressionDepth) }

/-- The loop of `verifyCanonicalPostorder`: a stack of expressions to enter or to leave, the
expressions that have been left, and the index expected next. -/
def postorderLoop (functionIndex : ℕ) (function : Function) (validSpans : List Bool) :
    ℕ → List (ℕ × Bool) → List Bool → ℕ → Check Unit
  | 0, _, _, _ => pure ()
  | _ + 1, [], _, _ => pure ()
  | rounds + 1, (index, exiting) :: stack, emitted, expected =>
    let continueWith := postorderLoop functionIndex function validSpans rounds
    if exiting then
      if emitted.getD index false then continueWith stack emitted expected
      else if index ≠ expected then
        match function.expressions[index]? with
        | none => pure ()
        | some expression =>
          push (expressionError (validSpans.getD index false) expression.span "ZRYNA-I1008"
            (s!"function #{functionIndex} expression arena is not canonical postorder: "
              ++ s!"expected #{expected}, found #{index}")
            "emit the one expression tree left-to-right in exact postorder")
      else continueWith stack (emitted.set index true) (expected + 1)
    else if emitted.getD index false then continueWith stack emitted expected
    else
      match (function.expressions[index]?).map Expr.kind with
      | some (.i32Add lhs rhs) =>
        match predecessor lhs index with
        | none => pure ()
        | some left =>
          match predecessor rhs index with
          | none => pure ()
          | some right =>
            continueWith ((left, false) :: (right, false) :: (index, true) :: stack) emitted
              expected
      | _ => continueWith ((index, true) :: stack) emitted expected

/-- Operands precede their expression, so an expression that is entered is left before it could be
entered again. Hence at most three entries are pushed for each expression. -/
def verifyCanonicalPostorder (functionIndex : ℕ) (function : Function) (bodyIndex : ℕ)
    (validSpans : List Bool) : Check Unit :=
  let count := function.expressions.length
  postorderLoop functionIndex function validSpans (3 * count + 1) [(bodyIndex, false)]
    (List.replicate count false) 0

def verifyExpressions (functionIndex : ℕ) (function : Function) (validSpans : List Bool)
    (bodyIndex : Option ℕ) : Check Unit := do
  let table ←
    function.expressions.zipIdx.foldlM (verifyArenaEntry functionIndex function validSpans)
      ⟨[], List.replicate function.expressions.length 0, true⟩
  match bodyIndex with
  | none => pure ()
  | some bodyIndex =>
    let owners := addOwner table.owners bodyIndex
    if table.graphValid then
      match owners.zipIdx.find? fun (count, _) => count ≠ 1 with
      | some (ownerCount, expressionIndex) =>
        match function.expressions[expressionIndex]? with
        | none => pure ()
        | some expression =>
          push (expressionError (validSpans.getD expressionIndex false) expression.span
            "ZRYNA-I1008"
            (s!"function #{functionIndex} expression #{expressionIndex} has {ownerCount} "
              ++ "owners; expected exactly one")
            "return one expression tree with no shared or orphan arena entries")
      | none => verifyCanonicalPostorder functionIndex function bodyIndex validSpans
    else pure ()

/-! ### Functions and programs -/

def verifySpan (sources : SourceMap) (expression : Expr) : Check Bool :=
  match sources.resolve expression.span with
  | .ok _ => pure true
  | .error sourceError => do
    push (Diagnostic.fromSourceError sourceError)
    pure false

def verifyFunction (sources : SourceMap) (entry : Function × ℕ) : Check Unit := do
  let (function, functionIndex) := entry
  forM function.parameters.zipIdx fun (ty, parameterIndex) =>
    pushIf (profileSupports ty = false)
      (unsupportedTypeError functionIndex "parameter" parameterIndex)
  pushIf (profileSupports function.returnType = false)
    (Diagnostic.error "ZRYNA-I1006" none
      s!"function #{functionIndex} has an unsupported result type"
      "use only i32 until a wider universal backend profile is enabled")
  let validSpans ← function.expressions.mapM (verifySpan sources)
  match function.expressions[function.body]? with
  | none => do
    push (Diagnostic.error "ZRYNA-I1001" none
      s!"function #{functionIndex} has an invalid body expression"
      "produce one body root that belongs to the same canonical expression arena")
    verifyExpressions functionIndex function validSpans none
  | some body => do
    pushIf (validSpans.getD function.body false = true ∧ body.ty ≠ function.returnType)
      (Diagnostic.errorAt "ZRYNA-I1002" body.span
        s!"function #{functionIndex} returns the wrong IR type"
        "make the body expression type equal the declared return type")
    verifyExpressions functionIndex function validSpans (some function.body)

/-- The checks after the resource limits. -/
def verifyBody (program : Program) (sources : SourceMap) :
    Check (Option (List Abi.VerifiedExport)) := do
  let abi ← verifyAbi program
  forM program.functions.zipIdx (verifyFunction sources)
  pure abi

/-- Program proven to satisfy every invariant of the profile, with its public ABI. -/
structure VerifiedProgram where
  program : Program
  abi : List Abi.VerifiedExport
deriving DecidableEq

/-- View of one function inside a verified program. -/
structure VerifiedFunction where
  function : Function
  abiExport : Abi.VerifiedExport
deriving DecidableEq

/-- Function views in source order. -/
def VerifiedProgram.functions (verified : VerifiedProgram) : List VerifiedFunction :=
  (verified.program.functions.zip verified.abi).map fun (function, abiExport) =>
    ⟨function, abiExport⟩

/-- Verifies all invariants required by every backend in the profile. -/
def verify (program : Program) (sources : SourceMap) : Except (List Diagnostic) VerifiedProgram :=
  let limits := verifyResourceLimits program
  if limits.events ≠ [] then .error (finish limits.events)
  else
    let body := verifyBody program sources
    if body.events ≠ [] then .error (finish body.events)
    else
      match body.value with
      | some abi => .ok ⟨program, abi⟩
      | none =>
        .error [Diagnostic.error "ZRYNA-I1202" none
          "IR verifier could not construct its bounded scalar ABI table"
          "report this compiler invariant failure with the smallest reproducible source"]

end Zryna.Ir.Universal
