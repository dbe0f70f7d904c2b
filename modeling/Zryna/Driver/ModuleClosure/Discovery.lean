import Mathlib.Data.Finset.Card
import Zryna.Driver.ModuleClosure.Snapshots
import Zryna.Foundation.Checked

/-!
# Rounds of module discovery

Discovery reads the modules that are pending, has a provider analyze them in one batch, and records
what they import; targets that are new are pending in the next round. Every quantity has a budget
that is charged before the work it pays for.

A workspace answers the same question twice in the same way. The clock is a function of the number
of readings before.
-/

namespace Zryna.Driver.ModuleClosure

def maxModuleFiles : ℕ := 4096
/-- Maximum aggregate source bytes in one M2 closure. -/
def maxModuleSourceBytes : ℕ := 8 * 1024 * 1024
/-- Maximum fixed-point discovery rounds. -/
def maxModuleDiscoveryRounds : ℕ := 4096
/-- Maximum physical provider analyses including final full-map authentication. -/
def maxModuleProviderCalls : ℕ := 4097
/-- Maximum aggregate wall-clock duration of one discovery, in nanoseconds. -/
def maxModuleDiscoveryWallTime : ℕ := 120 * 1000000000
/-- Maximum cumulative source bytes supplied to the provider. -/
def maxModuleProviderSourceBytes : ℕ := 16 * 1024 * 1024
def maxModuleImportEdges : ℕ := 65536
/-- Maximum conservative canonical manifest bytes attributable to named-import edges. -/
def maxModuleEdgeManifestBytes : ℕ := 32 * 1024 * 1024
/-- Maximum import declarations across the complete closure. -/
def maxModuleImportDeclarations : ℕ := 65536
/-- Maximum aggregate UTF-8 bytes in one source map. -/
def maxSourceBytes : ℕ := 64 * 1024 * 1024

/-! ### Errors -/

/-- Failure before a complete module closure can become compiler authority. -/
inductive ModuleClosureError (WorkerError : Type) where
  | frontend (error : WorkerError)
  | rejected (diagnostics : List Diagnostic)

section Errors

variable {WorkerError : Type}

def moduleDiagnostic (code : String) (path : Option NormalizedSourcePath)
    (message guidance : String) : Diagnostic :=
  .error code none ((path.map fun path => s!"{path.asStr}: {message}").getD message) guidance

def rejected (diagnostic : Diagnostic) : ModuleClosureError WorkerError := .rejected [diagnostic]

def budgetRejection (message : String) : ModuleClosureError WorkerError :=
  rejected (moduleDiagnostic "ZRYNA-D3201" none message
    "reduce the module graph before deterministic discovery")

def invariantRejection : ModuleClosureError WorkerError :=
  rejected (moduleDiagnostic "ZRYNA-D3102" none
    "module closure violated an internal source-map binding invariant"
    "report this compiler invariant failure with the smallest reproducible workspace")

def invalidSpecifier (importer : NormalizedSourcePath) : ModuleClosureError WorkerError :=
  rejected (moduleDiagnostic "ZRYNA-D3001" (some importer)
    "module specifier does not resolve to one explicit portable relative .zry path"
    "use an explicit ./ or ../ named .zry import that remains inside the workspace root")

/-- An addition of machine integers that pay for work. -/
def checkedAdd (left right : ℕ) : Except (ModuleClosureError WorkerError) ℕ :=
  if left + right < 2 ^ 64 then .ok (left + right)
  else .error (budgetRejection "module discovery accounting exceeded the supported integer range")

def checkedIncrement (value : ℕ) : Except (ModuleClosureError WorkerError) ℕ := checkedAdd value 1

end Errors

/-! ### Surroundings -/

structure Sha256 where
  bytes : List UInt8
  length_eq : bytes.length = 32
deriving DecidableEq

structure StableSource where
  text : String
  sha256 : Sha256

/-- Retained authority for source reads; a session answers out of it. -/
structure Workspace where
  beginSession : Except Diagnostic Unit
  readSource : NormalizedSourcePath → Except Diagnostic StableSource
  validateProviderBatch : List SourceFileInput → Except Diagnostic Unit
  revalidateAll : List NormalizedSourcePath → Except Diagnostic Unit

structure Frontend (WorkerError : Type) where
  analysisWorkUnits : ℕ
  minimumAnalysisTimeout : ℕ
  analyze : List SourceFileInput → ℕ →
    Except (ModuleClosureError WorkerError) ProjectSyntaxSnapshot

/-! ### Source maps -/

/-- The check of one more file against those before it. -/
def sourceMapFile (accepted : List SourceFileInput) (input : SourceFileInput) :
    Option (List SourceFileInput) :=
  if accepted.any fun file => file.path.portableIdentity = input.path.portableIdentity then none
  else if ((accepted ++ [input]).map fun file => utf8Length file.text.toList).sum > maxSourceBytes
    then none
  else some (accepted ++ [input])

/-- The files of a source map, in path order, if they are within its limits. -/
def buildSourceMap (inputs : List SourceFileInput) : Option (List SourceFileInput) :=
  if inputs.length > maxSourceFiles then none
  else
    let sorted := inputs.mergeSort fun left right => left.path ≤ right.path
    if sorted.any fun input => utf8Length input.text.toList > maxSourceFileBytes then none
    else sorted.foldlM sourceMapFile []

/-! ### Edges -/

structure EdgeIdentity where
  importer : NormalizedSourcePath
  specifier : String
  imported : String
  localName : String
deriving DecidableEq

structure ResolvedEdge where
  identity : EdgeIdentity
  target : NormalizedSourcePath
deriving DecidableEq

structure DiscoveredSource where
  stable : StableSource
  imports : List ImportFingerprint

/-- What discovery knows between two rounds. -/
structure Discovery where
  discovered : OrderedMap NormalizedSourcePath DiscoveredSource
  portablePaths : OrderedMap String NormalizedSourcePath
  pending : OrderedMap NormalizedSourcePath Unit
  edgeIdentities : Finset EdgeIdentity
  resolvedEdges : List ResolvedEdge
  aggregateBytes : ℕ
  providerBytes : ℕ
  providerCalls : ℕ
  rounds : ℕ
  importDeclarations : ℕ
  edgeManifestBytes : ℕ

section Recording

variable {WorkerError : Type}

def registerPortablePath (paths : OrderedMap String NormalizedSourcePath)
    (path : NormalizedSourcePath) :
    Except (ModuleClosureError WorkerError) (OrderedMap String NormalizedSourcePath) :=
  match paths.get? path.portableIdentity with
  | some existing =>
    if existing ≠ path then
      .error (rejected (moduleDiagnostic "ZRYNA-D3005" (some path)
        s!"module path collides with '{existing.asStr}' when portable ASCII case is ignored"
        "use one exact path spelling for every module"))
    else .ok paths
  | none => .ok (paths.insert path.portableIdentity path)

def accountEdgeManifestBudget (total estimated : ℕ) : Except (ModuleClosureError WorkerError) ℕ := do
  let total ← checkedAdd total estimated
  if total > maxModuleEdgeManifestBytes then
    .error (budgetRejection "module discovery exceeded the canonical edge-manifest byte budget")
  else .ok total

/-- Charges an edge: six bytes for every byte of its texts, and a fixed allowance. -/
def accountEdgeManifestBytes (total : ℕ) (importer target specifier importedBinding localName :
    String) : Except (ModuleClosureError WorkerError) ℕ := do
  let raw ← [importer, target, specifier, importedBinding, localName].foldlM
    (fun sum value => checkedAdd sum (utf8Length value.toList)) 0
  if raw * 6 ≥ 2 ^ 64 then
    .error (budgetRejection
      "module edge manifest accounting exceeded the supported integer range")
  else
    let estimated ← checkedAdd (raw * 6) 128
    accountEdgeManifestBudget total estimated

def registerEdge (d : Discovery) (identity : EdgeIdentity) (target : NormalizedSourcePath) :
    Except (ModuleClosureError WorkerError) Discovery :=
  if identity ∈ d.edgeIdentities then
    .error (rejected (moduleDiagnostic "ZRYNA-D3006" (some identity.importer)
      "duplicate named-import edge is not permitted"
      "remove the repeated imported/local binding edge"))
  else if d.edgeIdentities.card ≥ maxModuleImportEdges then
    .error (budgetRejection "module discovery exceeded the fixed named-import edge budget")
  else .ok { d with
    edgeIdentities := insert identity d.edgeIdentities
    resolvedEdges := d.resolvedEdges ++ [⟨identity, target⟩] }

def recordBinding (path target : NormalizedSourcePath) (specifier : String) (d : Discovery)
    (binding : BindingFingerprint) : Except (ModuleClosureError WorkerError) Discovery := do
  let edgeManifestBytes ← accountEdgeManifestBytes d.edgeManifestBytes path.asStr target.asStr
    specifier binding.imported binding.localName
  registerEdge { d with edgeManifestBytes := edgeManifestBytes }
    ⟨path, specifier, binding.imported, binding.localName⟩ target

variable (batchImports : OrderedMap NormalizedSourcePath (List ImportFingerprint))

def recordImport (path : NormalizedSourcePath) (d : Discovery) (declaration : ImportFingerprint) :
    Except (ModuleClosureError WorkerError) Discovery := do
  let importDeclarations ← checkedIncrement d.importDeclarations
  if importDeclarations > maxModuleImportDeclarations then
    .error (budgetRejection
      "module discovery exceeded the aggregate import-declaration budget")
  else match resolveExplicitZryImport path declaration.specifier with
    | none => .error (invalidSpecifier path)
    | some target =>
      let portablePaths ← registerPortablePath d.portablePaths target
      let d ← declaration.bindings.foldlM (recordBinding path target declaration.specifier)
        { d with importDeclarations := importDeclarations, portablePaths := portablePaths }
      if (d.discovered.get? target).isNone ∧ (batchImports.get? target).isNone then
        .ok { d with pending := d.pending.insert target () }
      else .ok d

def recordModule (d : Discovery) (source : NormalizedSourcePath × StableSource) :
    Except (ModuleClosureError WorkerError) Discovery :=
  match batchImports.get? source.1 with
  | none => .error invariantRejection
  | some imports => do
    let d ← imports.foldlM (recordImport batchImports source.1) d
    .ok { d with discovered := d.discovered.insert source.1 ⟨source.2, imports⟩ }

end Recording

/-! ### Budgets of providers and of time -/

section Budgets

variable {WorkerError : Type}

inductive ProviderCallPhase where
  | discovery
  | final
deriving DecidableEq

def accountProviderCallUnits (calls : ℕ) (phase : ProviderCallPhase) (workUnits : ℕ) :
    Except (ModuleClosureError WorkerError) ℕ := do
  if workUnits = 0 then
    .error (budgetRejection "module provider analysis work must be positive")
  else
    let calls ← checkedAdd calls workUnits
    match phase with
    | .discovery =>
      let reserved ← checkedAdd calls workUnits
      if reserved > maxModuleProviderCalls then
        .error (budgetRejection (if workUnits = 1 then
          "module discovery left no provider call for final authentication"
          else "module discovery left too few provider calls for final authentication"))
      else .ok calls
    | .final =>
      if calls > maxModuleProviderCalls then
        .error (budgetRejection "module discovery exceeded the fixed provider-call budget")
      else .ok calls

def accountProviderBytes (total input : ℕ) : Except (ModuleClosureError WorkerError) ℕ := do
  let total ← checkedAdd total input
  if total > maxModuleProviderSourceBytes then
    .error (budgetRejection "module discovery exceeded the cumulative provider source-byte budget")
  else .ok total

/-- Charges the provider for one analysis; discovery leaves room for the final one. -/
def accountProviderWork (calls bytes inputBytes aggregateBytes workUnits : ℕ)
    (phase : ProviderCallPhase) : Except (ModuleClosureError WorkerError) (ℕ × ℕ) := do
  let nextCalls ← accountProviderCallUnits calls phase workUnits
  if inputBytes * workUnits ≥ 2 ^ 64 then
    .error (budgetRejection
      "module provider source-byte accounting exceeded the supported integer range")
  else
    let nextBytes ← accountProviderBytes bytes (inputBytes * workUnits)
    match phase with
    | .discovery =>
      if aggregateBytes * workUnits ≥ 2 ^ 64 then
        .error (budgetRejection
          "module final provider source-byte reserve exceeded the supported integer range")
      else
        let _ ← accountProviderBytes nextBytes (aggregateBytes * workUnits)
        .ok (nextCalls, nextBytes)
    | .final => .ok (nextCalls, nextBytes)

def enforceDiscoveryWallTime (started current : ℕ) : Except (ModuleClosureError WorkerError) Unit :=
  if current < started ∨ current - started > maxModuleDiscoveryWallTime then
    .error (budgetRejection "module discovery exceeded the aggregate wall-clock budget")
  else .ok ()

def remainingDiscoveryWallTime (started current minimumProviderTimeout : ℕ) :
    Except (ModuleClosureError WorkerError) ℕ :=
  if current < started then
    .error (budgetRejection "module discovery clock moved before the authenticated start")
  else if current - started > maxModuleDiscoveryWallTime then
    .error (budgetRejection "module discovery exceeded the aggregate wall-clock budget")
  else if maxModuleDiscoveryWallTime - (current - started) < minimumProviderTimeout then
    .error (budgetRejection
      "module discovery left no safe worker cleanup reserve inside the aggregate deadline")
  else .ok (maxModuleDiscoveryWallTime - (current - started))

end Budgets

/-! ### Rounds -/

section Rounds

variable {WorkerError : Type} (workspace : Workspace) (frontend : Frontend WorkerError)
  (clock : ℕ → ℕ)

/-- What is read for one batch. -/
structure Batch where
  stable : OrderedMap NormalizedSourcePath StableSource
  bytes : ℕ
  aggregateBytes : ℕ

def readOne (batch : Batch) (path : NormalizedSourcePath) :
    Except (ModuleClosureError WorkerError) Batch := do
  let stable ← (workspace.readSource path).mapError rejected
  let bytes ← checkedAdd batch.bytes (utf8Length stable.text.toList)
  let aggregateBytes ← checkedAdd batch.aggregateBytes (utf8Length stable.text.toList)
  if aggregateBytes > maxModuleSourceBytes then
    .error (budgetRejection "module discovery exceeded the fixed aggregate source-byte budget")
  else .ok ⟨batch.stable.insert path stable, bytes, aggregateBytes⟩

def Batch.inputs (batch : Batch) : List SourceFileInput :=
  batch.stable.entries.map fun entry => ⟨entry.1, entry.2.text⟩

def rejectProviderErrors (snapshot : ProjectSyntaxSnapshot) :
    Except (ModuleClosureError WorkerError) Unit :=
  if snapshot.hasErrors then
    .error (rejected (moduleDiagnostic "ZRYNA-D3101" none
      "exact-v3 provider rejected a module-discovery batch"
      "fix the reported source syntax before module discovery"))
  else .ok ()

/-- Analyzes a source map within the time that is left, between two readings of the clock. -/
def analyzeWithin (sources : List SourceFileInput) (reading : ℕ) :
    Except (ModuleClosureError WorkerError) ProjectSyntaxSnapshot := do
  let remaining ← remainingDiscoveryWallTime (clock 0) (clock reading)
    frontend.minimumAnalysisTimeout
  let snapshot := frontend.analyze sources remaining
  enforceDiscoveryWallTime (clock 0) (clock (reading + 1))
  let snapshot ← snapshot
  rejectProviderErrors snapshot
  .ok snapshot

/-- One round: the modules that are pending are read, analyzed and recorded. -/
def discoverRound (d : Discovery) : Except (ModuleClosureError WorkerError) Discovery := do
  let rounds ← checkedIncrement d.rounds
  if rounds > maxModuleDiscoveryRounds then
    .error (budgetRejection "module discovery exceeded the fixed round budget")
  else if d.discovered.size + d.pending.size > maxModuleFiles then
    .error (budgetRejection "module discovery exceeded the fixed file budget")
  else
    let batch ← d.pending.keys.foldlM (readOne workspace) ⟨.empty, 0, d.aggregateBytes⟩
    let (providerCalls, providerBytes) ← accountProviderWork d.providerCalls d.providerBytes
      batch.bytes batch.aggregateBytes frontend.analysisWorkUnits .discovery
    let sources ← (buildSourceMap batch.inputs).elim (.error invariantRejection) .ok
    (workspace.validateProviderBatch sources).mapError rejected
    let snapshot ← analyzeWithin frontend clock sources (2 * rounds - 1)
    batch.stable.entries.foldlM (recordModule (snapshotFingerprints snapshot)) { d with
      pending := .empty
      aggregateBytes := batch.aggregateBytes
      providerBytes := providerBytes
      providerCalls := providerCalls
      rounds := rounds }

/-- Rounds until nothing is pending. One more than the budget allows is refused by its own check. -/
def discoverRounds : ℕ → Discovery → Except (ModuleClosureError WorkerError) Discovery
  | 0, d => .ok d
  | fuel + 1, d =>
    if d.pending.size = 0 then .ok d
    else do
      let d ← discoverRound workspace frontend clock d
      discoverRounds fuel d

/-- What discovery knows before the first round. -/
def Discovery.start (entrypoint : NormalizedSourcePath) : Discovery where
  discovered := .empty
  portablePaths := OrderedMap.empty.insert entrypoint.portableIdentity entrypoint
  pending := OrderedMap.empty.insert entrypoint ()
  edgeIdentities := ∅
  resolvedEdges := []
  aggregateBytes := 0
  providerBytes := 0
  providerCalls := 0
  rounds := 0
  importDeclarations := 0
  edgeManifestBytes := 0

end Rounds

end Zryna.Driver.ModuleClosure
