import Zryna.Driver.ModuleClosure.Discovery
import Zryna.Foundation.Elimination
import Zryna.Foundation.Json
import Zryna.Foundation.LittleEndian

/-!
# Module closures

What follows the rounds of discovery: the graph of the recorded edges is checked for cycles, all
modules are analyzed once more in one map, and the closure is sealed with the hash of a canonical
document.
-/

namespace Zryna.Driver.ModuleClosure

open Json (utf8Bytes)

variable {WorkerError : Type}

/-! ### Cycles -/

/-- The sets of targets and the numbers of importers of all modules. -/
structure ModuleGraph where
  outgoing : OrderedMap NormalizedSourcePath (OrderedMap NormalizedSourcePath Unit)
  indegree : OrderedMap NormalizedSourcePath ℕ

def linkEdge (graph : ModuleGraph) (edge : ResolvedEdge) :
    Except (ModuleClosureError WorkerError) ModuleGraph :=
  match graph.outgoing.get? edge.identity.importer with
  | none => .error invariantRejection
  | some targets =>
    if (targets.get? edge.target).isSome then .ok graph
    else match graph.indegree.get? edge.target with
      | none => .error invariantRejection
      | some degree => .ok {
        outgoing := graph.outgoing.insert edge.identity.importer (targets.insert edge.target ())
        indegree := graph.indegree.insert edge.target (degree + 1) }

section

variable (discovered : OrderedMap NormalizedSourcePath DiscoveredSource)

/-- The modules without edges. -/
def unlinked : ModuleGraph where
  outgoing := ⟨discovered.entries.map fun entry => (entry.1, .empty), by
    rw [List.pairwise_map]
    exact discovered.sorted⟩
  indegree := ⟨discovered.entries.map fun entry => (entry.1, 0), by
    rw [List.pairwise_map]
    exact discovered.sorted⟩

def rejectCycles (edges : List ResolvedEdge) : Except (ModuleClosureError WorkerError) Unit := do
  let graph ← edges.foldlM linkEdge (unlinked discovered)
  let (processed, s) ← Elimination.drain invariantRejection graph.outgoing graph.outgoing.size
    ⟨graph.indegree, Elimination.initialReady graph.indegree⟩ 0
  if processed ≠ discovered.size then
    .error (rejected (moduleDiagnostic "ZRYNA-D3007"
      ((s.indegree.entries.find? fun entry => entry.2 > 0).map Prod.fst)
      "module import graph contains a cycle" "remove self imports and cyclic dependency paths"))
  else .ok ()

/-! ### Sealed modules and edges -/

/-- One canonical module identity in normalized path order. -/
structure ModuleRecord where
  id : ℕ
  path : NormalizedSourcePath
  sourceSha256 : Sha256
deriving DecidableEq

/-- One canonical named-import binding edge carrying only final-map spans. -/
structure ModuleEdge where
  importer : NormalizedSourcePath
  target : NormalizedSourcePath
  specifier : String
  imported : String
  localName : String
  declarationSpan : Span
  specifierSpan : Span
  importedSpan : Span
  localSpan : Span
deriving DecidableEq

def ModuleEdge.identity (edge : ModuleEdge) : EdgeIdentity :=
  ⟨edge.importer, edge.specifier, edge.imported, edge.localName⟩

/-- What edges are sorted by. -/
def EdgeIdentity.key (identity : EdgeIdentity) : List String :=
  [identity.importer.asStr, identity.specifier, identity.imported, identity.localName]

def importEdges (path target : NormalizedSourcePath) (declaration : ImportSyntax) :
    List ModuleEdge :=
  declaration.bindings.map fun binding => {
    importer := path
    target := target
    specifier := declaration.specifier.text
    imported := binding.imported.text
    localName := binding.localName.text
    declarationSpan := declaration.span
    specifierSpan := declaration.specifier.tokenSpan
    importedSpan := binding.imported.span
    localSpan := binding.localName.span }

def fileEdges (file : SourceUnit) : Except (ModuleClosureError WorkerError) (List ModuleEdge) := do
  let edges ← file.imports.mapM fun declaration =>
    match resolveExplicitZryImport file.path declaration.specifier.text with
    | none => .error (invalidSpecifier file.path)
    | some target => .ok (importEdges file.path target declaration)
  .ok edges.flatten

def finalEdges (snapshot : ProjectSyntaxSnapshot) :
    Except (ModuleClosureError WorkerError) (List ModuleEdge) := do
  let edges ← snapshot.files.mapM fileEdges
  .ok (edges.flatten.mergeSort fun left right => left.identity.key ≤ right.identity.key)

/-! ### The graph document -/

def graphDomain : List UInt8 := utf8Bytes "ZRYNA-M2-GRAPH\x00".toList

section

variable (document : List UInt8)

def pushU32 (value : ℕ) : Except (ModuleClosureError WorkerError) (List UInt8) :=
  if value < 2 ^ 32 then .ok (document ++ (leBytes 4 value).map UInt8.ofNat)
  else .error invariantRejection

def pushText (value : String) : Except (ModuleClosureError WorkerError) (List UInt8) := do
  let document ← pushU32 document (utf8Bytes value.toList).length
  .ok (document ++ utf8Bytes value.toList)

def pushModule (module : ModuleRecord) : Except (ModuleClosureError WorkerError) (List UInt8) := do
  let document ← pushText document module.path.asStr
  .ok (document ++ module.sourceSha256.bytes)

def pushEdge (edge : ModuleEdge) : Except (ModuleClosureError WorkerError) (List UInt8) :=
  [edge.importer.asStr, edge.specifier, edge.imported, edge.localName].foldlM pushText document

end

/-- The canonical bytes of a module graph. -/
def graphDocument (entrypoint : NormalizedSourcePath) (modules : List ModuleRecord)
    (edges : List ModuleEdge) : Except (ModuleClosureError WorkerError) (List UInt8) := do
  let document ← pushU32 graphDomain 1
  let document ← pushText document entrypoint.asStr
  let document ← pushU32 document modules.length
  let document ← modules.foldlM pushModule document
  let document ← pushU32 document edges.length
  edges.foldlM pushEdge document

/-! ### Discovery -/

/-- Immutable module closure authenticated against one final source map. -/
structure VerifiedModuleClosure where
  entrypoint : NormalizedSourcePath
  sources : List SourceFileInput
  syntaxSnapshot : ProjectSyntaxSnapshot
  modules : List ModuleRecord
  edges : List ModuleEdge
  graphSha256 : Sha256

def moduleRecords : Except (ModuleClosureError WorkerError) (List ModuleRecord) :=
  discovered.entries.zipIdx.mapM fun entry =>
    if entry.2 < 2 ^ 32 then .ok ⟨entry.2, entry.1.1, entry.1.2.stable.sha256⟩
    else .error invariantRejection

end

/-- The final imports of a module are the ones that were discovered. -/
def checkFinalImports (finalImports : OrderedMap NormalizedSourcePath (List ImportFingerprint))
    (entry : NormalizedSourcePath × DiscoveredSource) :
    Except (ModuleClosureError WorkerError) Unit :=
  if finalImports.get? entry.1 ≠ some entry.2.imports then
    .error (rejected (moduleDiagnostic "ZRYNA-D3102" (some entry.1)
      "final authenticated imports differ from fixed-point discovery"
      "use a deterministic exact-v3 provider and retry from unchanged source bytes"))
  else .ok ()

section Discover

variable (sha256 : List UInt8 → Sha256) (workspace : Workspace) (frontend : Frontend WorkerError)
  (clock : ℕ → ℕ) (entrypoint : NormalizedSourcePath)

/-- Analyzes all modules in one map and seals the closure. -/
def sealClosure (d : Discovery) :
    Except (ModuleClosureError WorkerError) VerifiedModuleClosure := do
  let inputs : List SourceFileInput :=
    d.discovered.entries.map fun entry => ⟨entry.1, entry.2.stable.text⟩
  let sources ← (buildSourceMap inputs).elim (.error invariantRejection) .ok
  let _ ← accountProviderWork d.providerCalls d.providerBytes d.aggregateBytes d.aggregateBytes
    frontend.analysisWorkUnits .final
  let snapshot ← analyzeWithin frontend clock sources (2 * d.rounds + 1)
  (workspace.revalidateAll d.discovered.keys).mapError rejected
  if snapshot.sources ≠ sources then .error invariantRejection
  else
    let finalImports := snapshotFingerprints snapshot
    d.discovered.entries.forM (checkFinalImports finalImports)
    if finalImports.size ≠ d.discovered.size then .error invariantRejection
    else
      let modules ← moduleRecords d.discovered
      let edges ← finalEdges snapshot
      if (edges.map ModuleEdge.identity).toFinset ≠ d.edgeIdentities then
        .error (rejected (moduleDiagnostic "ZRYNA-D3102" none
          "final authenticated edge set differs from fixed-point discovery"
          "use a deterministic exact-v3 provider and retry from unchanged source bytes"))
      else
        let document ← graphDocument entrypoint modules edges
        enforceDiscoveryWallTime (clock 0) (clock (2 * d.rounds + 3))
        .ok ⟨entrypoint, sources, snapshot, modules, edges, sha256 document⟩

def discoverModuleClosure : Except (ModuleClosureError WorkerError) VerifiedModuleClosure :=
  if ¬hasExactZryExtension entrypoint.asStr.toList then
    .error (rejected (moduleDiagnostic "ZRYNA-D3001" (some entrypoint)
      "entry module must use the exact lowercase .zry extension"
      "select one normalized portable .zry entry module"))
  else do
    workspace.beginSession.mapError rejected
    let d ← discoverRounds workspace frontend clock (maxModuleDiscoveryRounds + 1)
      (.start entrypoint)
    rejectCycles d.discovered d.resolvedEdges
    (workspace.revalidateAll d.discovered.keys).mapError rejected
    sealClosure sha256 workspace frontend clock entrypoint d

end Discover

end Zryna.Driver.ModuleClosure
