import Mathlib.Algebra.Ring.Nat

/-!
# The scalar ABI, version 1

`zryna-abi` decides which entry functions may be exported: their number and arity are bounded,
their types are scalar, and their names follow a fixed grammar, are not reserved by a target and
stay distinct when ASCII case is ignored.
-/

namespace Zryna.Abi

def maxLogicalExportNameBytes : ℕ := 128
/-- Maximum exports in one module. -/
def maxAbiExports : ℕ := 16384
def maxAbiParametersPerExport : ℕ := 256
/-- Maximum parameters of one module in aggregate. -/
def maxAbiParametersPerModule : ℕ := 262144
/-- Maximum retained violations, including the terminal one. -/
def maxAbiViolations : ℕ := 256

/-- Claimed ABI type. -/
inductive RawType where
  | unit
  | bool
  | i32
deriving DecidableEq

inductive ScalarType where
  | bool
  | i32
deriving DecidableEq

/-- Claimed export signature. -/
structure RawSignature where
  parameters : List RawType
  result : RawType
deriving DecidableEq

/-- Claimed export. -/
structure RawExport where
  logicalName : String
  signature : RawSignature
deriving DecidableEq

/-- Stable scalar ABI violation kinds. -/
inductive AbiViolationKind where
  | tooManyExports
  | tooManyParameters
  | tooManyParametersInModule
  | invalidLogicalName
  | duplicateLogicalName (firstIndex : ℕ)
  | portableNameCollision (firstIndex : ℕ)
  | unsupportedScalarType
  | violationBudgetExceeded
deriving DecidableEq

/-- One deterministic scalar ABI violation. -/
structure AbiViolation where
  exportIndex : Option ℕ
  kind : AbiViolationKind
deriving DecidableEq

/-- One verified export. The JavaScript and WebAssembly names are the logical name itself. -/
structure VerifiedExport where
  logicalName : String
  nativeSymbol : String
  parameters : List ScalarType
  result : ScalarType
deriving DecidableEq

/-- Append a violation to the bounded buffer. -/
def ViolationBuffer.push (values : List AbiViolation) (violation : AbiViolation) :
    List AbiViolation :=
  if values.length < maxAbiViolations - 1 then values ++ [violation]
  else if values.length = maxAbiViolations - 1 then
    values ++ [⟨none, .violationBudgetExceeded⟩]
  else values

def reservedExports : List String :=
  ["arguments", "await", "break", "case", "catch", "class", "const", "constructor", "continue",
    "debugger", "default", "delete", "do", "else", "enum", "eval", "export", "extends", "false",
    "finally", "for", "function", "if", "implements", "import", "in", "instanceof", "interface",
    "let", "new", "null", "package", "private", "protected", "prototype", "public", "return",
    "static", "super", "switch", "then", "this", "throw", "true", "try", "typeof", "var", "void",
    "while", "with", "yield", "__proto__"]

/-- The name is reserved by a target. -/
def reservedExport (name : String) : Bool := reservedExports.contains name

def isAsciiAlphabetic (c : Char) : Bool :=
  ('a' ≤ c && c ≤ 'z') || ('A' ≤ c && c ≤ 'Z')

def isAsciiAlphanumeric (c : Char) : Bool :=
  isAsciiAlphabetic c || ('0' ≤ c && c ≤ '9')

/-- The logical-name grammar. A name all of whose bytes are ASCII has as many bytes as
characters. -/
def validLogicalName (name : String) : Bool :=
  match name.toList with
  | [] => false
  | first :: rest =>
    (rest.length + 1 ≤ maxLogicalExportNameBytes)
      && (isAsciiAlphabetic first || first == '_')
      && rest.all (fun c => isAsciiAlphanumeric c || c == '_')
      && !reservedExport name

/-- ASCII lower-casing of a name. -/
def toAsciiLowercase (name : String) : String :=
  String.ofList (name.toList.map fun c =>
    if 'A' ≤ c && c ≤ 'Z' then Char.ofNat (c.toNat + 32) else c)

/-- The names seen so far, with the index of the export that introduced each. -/
structure NameTables where
  exactNames : List (String × ℕ) := []
  portableNames : List (String × ℕ) := []

def verifyType (exportIndex : ℕ) (ty : RawType) (errors : List AbiViolation) :
    Option ScalarType × List AbiViolation :=
  match ty with
  | .bool => (some .bool, errors)
  | .i32 => (some .i32, errors)
  | .unit => (none, ViolationBuffer.push errors ⟨some exportIndex, .unsupportedScalarType⟩)

/-- `verifyType` on each type of a parameter list, left to right. The first unsupported type stops
the walk, as collecting into an option does. -/
def verifyTypes (exportIndex : ℕ) : List RawType → List AbiViolation →
    Option (List ScalarType) × List AbiViolation
  | [], errors => (some [], errors)
  | ty :: tys, errors =>
    match verifyType exportIndex ty errors with
    | (none, errors) => (none, errors)
    | (some t, errors) =>
      match verifyTypes exportIndex tys errors with
      | (none, errors) => (none, errors)
      | (some ts, errors) => (some (t :: ts), errors)

/-- Checks one logical name against the grammar and the names seen before it. -/
def verifyExportMapping (exportIndex : ℕ) (name : String) (tables : NameTables)
    (errors : List AbiViolation) : Option String × NameTables × List AbiViolation :=
  if !validLogicalName name then
    (none, tables, ViolationBuffer.push errors ⟨some exportIndex, .invalidLogicalName⟩)
  else
    match tables.exactNames.lookup name with
    | some firstIndex =>
      (none, tables,
        ViolationBuffer.push errors ⟨some exportIndex, .duplicateLogicalName firstIndex⟩)
    | none =>
      let tables := { tables with exactNames := (name, exportIndex) :: tables.exactNames }
      let portable := toAsciiLowercase name
      match tables.portableNames.lookup portable with
      | some firstIndex =>
        (none, tables,
          ViolationBuffer.push errors ⟨some exportIndex, .portableNameCollision firstIndex⟩)
      | none =>
        let tables :=
          { tables with portableNames := (portable, exportIndex) :: tables.portableNames }
        (some s!"zryna_v1_e_{name}", tables, errors)

/-- The per-export loop of `verifyV1`. -/
def verifyExports : ℕ → List RawExport → NameTables → List AbiViolation → List VerifiedExport →
    List VerifiedExport × List AbiViolation
  | _, [], _, errors, verified => (verified, errors)
  | index, e :: es, tables, errors, verified =>
    if errors.length = maxAbiViolations then (verified, errors)
    else
      let (parameters, errors) := verifyTypes index e.signature.parameters errors
      let (result, errors) := verifyType index e.signature.result errors
      let (mapping, tables, errors) := verifyExportMapping index e.logicalName tables errors
      let verified :=
        match parameters, result, mapping with
        | some parameters, some result, some native =>
          verified ++ [⟨e.logicalName, native, parameters, result⟩]
        | _, _, _ => verified
      verifyExports (index + 1) es tables errors verified

/-- The index of the first export with too many parameters. -/
def firstOverfull (exports : List RawExport) : Option ℕ :=
  exports.findIdx? fun e => e.signature.parameters.length > maxAbiParametersPerExport

/-- Verifies a claimed module against scalar ABI version 1. -/
def verifyV1 (exports : List RawExport) : Except (List AbiViolation) (List VerifiedExport) :=
  if exports.length > maxAbiExports then .error [⟨none, .tooManyExports⟩]
  else
    match firstOverfull exports with
    | some index => .error [⟨some index, .tooManyParameters⟩]
    | none =>
      if (exports.map fun e => e.signature.parameters.length).sum > maxAbiParametersPerModule then
        .error [⟨none, .tooManyParametersInModule⟩]
      else
        match verifyExports 0 exports {} [] [] with
        | (verified, []) => .ok verified
        | (_, errors) => .error errors

end Zryna.Abi
