import Zryna.Driver.ModuleClosure.Recording

/-!
# The import graph of a workspace

What discovery computes, in its own terms: the modules of a workspace, the relation that their
imports make, and the modules that an entrypoint reaches. The texts of the workspace do not change
and the frontend treats every file by itself, so that the graph does not depend on how discovery
goes through it.
-/

namespace Zryna.Driver.ModuleClosure

open List

open Checked (ErrorsIn)

variable {WorkerError : Type}

/-! ### Surroundings -/

/-- A workspace of fixed texts: it refuses nothing but to read what it does not have. -/
structure Workspace.Stable (workspace : Workspace) : Prop where
  begins : workspace.beginSession = .ok ()
  text_le : ∀ {path source}, workspace.readSource path = .ok source →
    utf8Length source.text.toList ≤ maxSourceFileBytes
  validates : ∀ {sources : List SourceFileInput}, (∀ input ∈ sources, ∃ source,
    workspace.readSource input.path = .ok source ∧ source.text = input.text) →
    workspace.validateProviderBatch sources = .ok ()
  revalidates : ∀ {paths : List NormalizedSourcePath},
    (∀ path ∈ paths, ∃ source, workspace.readSource path = .ok source) →
    workspace.revalidateAll paths = .ok ()

/-- A frontend that treats every file by itself: `parse` has the imports of a file without errors.
On such files it can only run out of its own limits. -/
structure Frontend.PerFile (frontend : Frontend WorkerError) (timedOut : WorkerError → Prop)
    (parse : SourceFileInput → Option (List ImportFingerprint)) : Prop where
  files : ∀ {sources timeout snapshot}, frontend.analyze sources timeout = .ok snapshot →
    snapshot.hasErrors = false → snapshot.sources = sources ∧ List.Forall₂ (fun input file =>
      file.path = input.path ∧ parse input = some file.fingerprints) sources snapshot.files
  accepts : ∀ {sources timeout snapshot}, (∀ input ∈ sources, (parse input).isSome) →
    frontend.analyze sources timeout = .ok snapshot → snapshot.hasErrors = false
  errors : ∀ {sources timeout}, (∀ input ∈ sources, (parse input).isSome) →
    ErrorsIn (OverBudget timedOut) (frontend.analyze sources timeout)

/-! ### Modules and imports -/

section Graph

variable (workspace : Workspace) (parse : SourceFileInput → Option (List ImportFingerprint))

/-- The imports of a module, if it exists and parses. -/
def importsOf (path : NormalizedSourcePath) : Option (List ImportFingerprint) :=
  match workspace.readSource path with
  | .ok source => parse ⟨path, source.text⟩
  | .error _ => none

/-- A module imports a target. -/
def Imports (importer target : NormalizedSourcePath) : Prop :=
  ∃ imports, importsOf workspace parse importer = some imports
    ∧ target ∈ targetsOf importer imports

/-- An entrypoint reaches a module. -/
def Reach (entrypoint : NormalizedSourcePath) : NormalizedSourcePath → Prop :=
  Relation.ReflTransGen (Imports workspace parse) entrypoint

/-- A named binding of an import: the edge that it makes, and where its parts are written. -/
structure NamedBinding where
  edge : ResolvedEdge
  declarationSpan : SpanFingerprint
  specifierSpan : SpanFingerprint
  importedSpan : SpanFingerprint
  localSpan : SpanFingerprint
deriving DecidableEq

def bindingsOfImport (path : NormalizedSourcePath) (declaration : ImportFingerprint) :
    List NamedBinding :=
  match resolveExplicitZryImport path declaration.specifier with
  | none => []
  | some target => declaration.bindings.map fun binding => {
    edge := bindingEdge path target declaration.specifier binding
    declarationSpan := declaration.span
    specifierSpan := declaration.specifierTokenSpan
    importedSpan := binding.importedSpan
    localSpan := binding.localSpan }

def namedBindings (path : NormalizedSourcePath) (imports : List ImportFingerprint) :
    List NamedBinding :=
  imports.flatMap (bindingsOfImport path)

/-- The modules that an entrypoint reaches can be closed: all are there and parse, their specifiers
resolve, no two of them are one file to a host that folds case, none has an edge twice, and none
imports itself, however indirectly. -/
structure Closed (entrypoint : NormalizedSourcePath) : Prop where
  extension : hasExactZryExtension entrypoint.asStr.toList
  available : ∀ path, Reach workspace parse entrypoint path →
    ∃ imports, importsOf workspace parse path = some imports
  resolves : ∀ path imports, Reach workspace parse entrypoint path →
    importsOf workspace parse path = some imports →
    ∀ declaration ∈ imports, (resolveExplicitZryImport path declaration.specifier).isSome
  apart : ∀ path other, Reach workspace parse entrypoint path →
    Reach workspace parse entrypoint other → path.portableIdentity = other.portableIdentity →
    path = other
  distinct : ∀ path imports, Reach workspace parse entrypoint path →
    importsOf workspace parse path = some imports →
    ((edgesOf path imports).map ResolvedEdge.identity).Nodup
  acyclic : ∀ path, Reach workspace parse entrypoint path →
    ¬Relation.TransGen (Imports workspace parse) path path

end Graph

section

variable {workspace : Workspace} {parse : SourceFileInput → Option (List ImportFingerprint)}
  {path : NormalizedSourcePath} {imports : List ImportFingerprint}

theorem importsOf_of_read {source : StableSource} (h : workspace.readSource path = .ok source) :
    importsOf workspace parse path = parse ⟨path, source.text⟩ := by
  rw [importsOf, h]

theorem importsOf_eq_some : importsOf workspace parse path = some imports ↔
    ∃ source, workspace.readSource path = .ok source
      ∧ parse ⟨path, source.text⟩ = some imports := by
  unfold importsOf
  cases workspace.readSource path with
  | error error => simp
  | ok source => simp

theorem Imports.iff_mem (h : importsOf workspace parse path = some imports)
    {target : NormalizedSourcePath} :
    Imports workspace parse path target ↔ target ∈ targetsOf path imports := by
  constructor
  · rintro ⟨imports', himports, hmem⟩
    obtain rfl := Option.some.inj (h.symm.trans himports)
    exact hmem
  · exact fun hmem => ⟨imports, h, hmem⟩

theorem map_edge_namedBindings :
    (namedBindings path imports).map NamedBinding.edge = edgesOf path imports := by
  rw [namedBindings, map_flatMap, edgesOf]
  congr 1
  funext declaration
  unfold bindingsOfImport edgesOfImport
  cases resolveExplicitZryImport path declaration.specifier with
  | none => rfl
  | some target => rw [map_map]; rfl

theorem target_mem_of_mem_edgesOf {edge : ResolvedEdge} (h : edge ∈ edgesOf path imports) :
    edge.target ∈ targetsOf path imports := by
  obtain ⟨declaration, hdeclaration, hedge⟩ := mem_flatMap.mp h
  unfold edgesOfImport at hedge
  split at hedge
  · cases hedge
  · next target hresolve =>
    obtain ⟨binding, -, rfl⟩ := mem_map.mp hedge
    exact mem_filterMap.mpr ⟨declaration, hdeclaration, hresolve⟩

theorem exists_edge_of_mem_targetsOf (hbound : ∀ declaration ∈ imports, declaration.bindings ≠ [])
    {target : NormalizedSourcePath} (h : target ∈ targetsOf path imports) :
    ∃ edge ∈ edgesOf path imports, edge.target = target := by
  obtain ⟨declaration, hdeclaration, hresolve⟩ := mem_filterMap.mp h
  obtain ⟨binding, hbinding⟩ := exists_mem_of_ne_nil _ (hbound declaration hdeclaration)
  refine ⟨bindingEdge path target declaration.specifier binding,
    mem_flatMap.mpr ⟨declaration, hdeclaration, ?_⟩, rfl⟩
  rw [edgesOfImport, hresolve]
  exact mem_map_of_mem hbinding

end

end Zryna.Driver.ModuleClosure
