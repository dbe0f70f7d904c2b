import Zryna.Driver.ModuleClosure.Cycles
import Zryna.Driver.ModuleClosure.Documents
import Zryna.Driver.ModuleClosure.Rounds

/-!
# Sealing

What follows when nothing is pending: the cycle check asks about the imports of the modules that are
reached, the second analysis finds what the rounds found, and the sealed closure holds these modules
and their bindings.
-/

namespace Zryna.Driver.ModuleClosure

open OrderedMap List

open Checked (ErrorsIn bind_eq_ok ite_error_eq_ok)

variable {WorkerError : Type} {timedOut : WorkerError → Prop} {workspace : Workspace}
  {frontend : Frontend WorkerError} {clock : ℕ → ℕ} {sha256 : List UInt8 → Sha256}
  {parse : SourceFileInput → Option (List ImportFingerprint)} {entrypoint : NormalizedSourcePath}
  {d : Discovery}

/-! ### Cycles -/

theorem Inv.leads_iff (h : Inv workspace parse entrypoint d)
    {importer target : NormalizedSourcePath} : Leads d.resolvedEdges importer target ↔
      (∃ source, d.discovered.get? importer = some source)
        ∧ Imports workspace parse importer target := by
  constructor
  · rintro ⟨edge, hedge, rfl, rfl⟩
    obtain ⟨path, source, hget, hmem⟩ := h.edges edge hedge
    rw [importer_of_mem_edgesOf hmem]
    exact ⟨⟨source, hget⟩,
      (Imports.iff_mem (h.read path source hget).2).mpr (target_mem_of_mem_edgesOf hmem)⟩
  · rintro ⟨⟨source, hget⟩, himports⟩
    rw [Imports.iff_mem (h.read importer source hget).2] at himports
    obtain ⟨edge, hedge, rfl⟩ :=
      exists_edge_of_mem_targetsOf (h.bound importer source hget) himports
    exact ⟨edge, (h.sublist importer source hget).subset hedge, importer_of_mem_edgesOf hedge, rfl⟩

theorem Inv.acyclic_iff (h : Inv workspace parse entrypoint d) (hdone : d.pending.size = 0) :
    (∀ path, ¬Relation.TransGen (Leads d.resolvedEdges) path path) ↔
      ∀ path, Reach workspace parse entrypoint path →
        ¬Relation.TransGen (Imports workspace parse) path path := by
  constructor
  · intro hacyclic path hreach hcycle
    have hleads {target : NormalizedSourcePath}
        (himports : Relation.TransGen (Imports workspace parse) path target) :
        Relation.TransGen (Leads d.resolvedEdges) path target := by
      induction himports with
      | single himports =>
        exact .single (h.leads_iff.mpr ⟨(h.reach_iff hdone path).mp hreach, himports⟩)
      | tail hbefore himports ih =>
        have hreach' := hreach.trans hbefore.to_reflTransGen
        exact ih.tail (h.leads_iff.mpr ⟨(h.reach_iff hdone _).mp hreach', himports⟩)
    exact hacyclic path (hleads hcycle)
  · intro hacyclic path hcycle
    obtain ⟨target, hfirst, -⟩ := Relation.TransGen.head'_iff.mp hcycle
    refine hacyclic path ((h.reach_iff hdone path).mpr (h.leads_iff.mp hfirst).1) ?_
    exact Relation.TransGen.mono (fun _ _ hleads => (h.leads_iff.mp hleads).2) path path
      hcycle

/-- The cycle check passes exactly when no module that is reached imports itself. -/
theorem Inv.rejectCycles_eq_ok (h : Inv workspace parse entrypoint d) (hdone : d.pending.size = 0) :
    (rejectCycles d.discovered d.resolvedEdges : Except (ModuleClosureError WorkerError) _)
      = .ok () ↔ ∀ path, Reach workspace parse entrypoint path →
        ¬Relation.TransGen (Imports workspace parse) path path := by
  rw [← h.acyclic_iff hdone]
  refine ModuleClosure.rejectCycles_eq_ok fun edge hedge => ?_
  have hleads : Leads d.resolvedEdges edge.identity.importer edge.target := ⟨edge, hedge, rfl, rfl⟩
  obtain ⟨hget, himports⟩ := h.leads_iff.mp hleads
  have hreach := (h.reach_iff hdone _).mpr hget
  rw [OrderedMap.mem_keys, OrderedMap.mem_keys, Option.isSome_iff_exists,
    Option.isSome_iff_exists]
  exact ⟨hget, (h.reach_iff hdone _).mp (hreach.tail himports)⟩

/-! ### The second analysis -/

/-- The files of the second analysis. -/
def Discovery.inputs (d : Discovery) : List SourceFileInput :=
  d.discovered.entries.map fun entry => ⟨entry.1, entry.2.stable.text⟩

theorem Discovery.sorted_inputs (d : Discovery) :
    d.inputs.Pairwise fun left right => left.path < right.path := by
  rw [Discovery.inputs, pairwise_map]
  exact d.discovered.sorted

theorem Discovery.nodup_inputs (d : Discovery) : (d.inputs.map SourceFileInput.path).Nodup := by
  rw [List.Nodup, pairwise_map]
  exact d.sorted_inputs.imp fun hlt => hlt.ne

section Final

variable {snapshot : ProjectSyntaxSnapshot}

theorem Inv.parse_eq (h : Inv workspace parse entrypoint d)
    {entry : NormalizedSourcePath × DiscoveredSource} (hentry : entry ∈ d.discovered.entries) :
    parse ⟨entry.1, entry.2.stable.text⟩ = some entry.2.imports := by
  obtain ⟨hread, himports⟩ := h.read entry.1 entry.2 (get?_eq_some.mpr hentry)
  rwa [importsOf_of_read hread] at himports

/-- The second analysis finds the modules and the imports that the rounds found. -/
theorem Inv.map_files (h : Inv workspace parse entrypoint d)
    (hparsed : Parsed parse d.inputs snapshot) :
    snapshot.files.map (fun file => (file.path, file.fingerprints))
      = d.discovered.entries.map fun entry => (entry.1, entry.2.imports) := by
  have hmap := hparsed.map_files
  rw [Discovery.inputs, map_map] at hmap
  have hparse : d.discovered.entries.map ((fun input : SourceFileInput => (input.path, parse input))
        ∘ fun entry => ⟨entry.1, entry.2.stable.text⟩)
      = d.discovered.entries.map fun entry => (entry.1, some entry.2.imports) :=
    map_congr_left fun entry hentry => congrArg (Prod.mk entry.1) (h.parse_eq hentry)
  rw [hparse] at hmap
  have hinj : Function.Injective (Prod.map id some :
      NormalizedSourcePath × List ImportFingerprint → _) :=
    Function.injective_id.prodMap (Option.some_injective _)
  refine hinj.list_map ?_
  rw [map_map, map_map]
  exact hmap

theorem Inv.checkFinalImports_eq_ok (h : Inv workspace parse entrypoint d)
    (hparsed : Parsed parse d.inputs snapshot) :
    d.discovered.entries.forM (checkFinalImports (snapshotFingerprints snapshot))
      = (.ok () : Except (ModuleClosureError WorkerError) _) := by
  refine Checked.forM_eq_ok.mpr fun entry hentry => if_neg (not_not.mpr ?_)
  exact (hparsed.get?_fingerprints d.nodup_inputs).mpr
    ⟨_, mem_map_of_mem hentry, rfl, h.parse_eq hentry⟩

theorem Parsed.size_eq (hparsed : Parsed parse d.inputs snapshot) :
    (snapshotFingerprints snapshot).size = d.discovered.size := by
  rw [hparsed.size_fingerprints d.nodup_inputs, Discovery.inputs, length_map]
  rfl

/-! ### Modules -/

/-- The records of modules in path order. -/
def Discovery.records (d : Discovery) : List ModuleRecord :=
  d.discovered.entries.zipIdx.map fun entry => ⟨entry.2, entry.1.1, entry.1.2.stable.sha256⟩

theorem mapM_eq_ok_map {α β ε : Type} {f : α → Except ε β} {g : α → β} {xs : List α}
    (h : ∀ x ∈ xs, f x = .ok (g x)) : xs.mapM f = .ok (xs.map g) := Checked.mapM_eq_pure h

theorem moduleRecords_eq_ok (hsize : d.discovered.size ≤ maxModuleFiles) :
    (moduleRecords d.discovered : Except (ModuleClosureError WorkerError) _) = .ok d.records := by
  refine mapM_eq_ok_map fun entry hentry => if_pos ?_
  have hlt := (mem_zipIdx hentry).2.1
  have hmax : maxModuleFiles < 2 ^ 32 := by decide
  unfold size at hsize
  omega

theorem Discovery.map_path_records (d : Discovery) :
    d.records.map ModuleRecord.path = d.discovered.keys := by
  rw [Discovery.records, map_map, OrderedMap.keys]
  calc d.discovered.entries.zipIdx.map
        (ModuleRecord.path ∘ fun entry => ⟨entry.2, entry.1.1, entry.1.2.stable.sha256⟩)
    _ = (d.discovered.entries.zipIdx.map Prod.fst).map Prod.fst := by rw [map_map]; rfl
    _ = d.discovered.entries.map Prod.fst := by rw [zipIdx_map_fst]

theorem Discovery.map_id_records (d : Discovery) :
    d.records.map ModuleRecord.id = List.range d.records.length := by
  rw [Discovery.records, map_map, length_map, length_zipIdx]
  calc d.discovered.entries.zipIdx.map
        (ModuleRecord.id ∘ fun entry => ⟨entry.2, entry.1.1, entry.1.2.stable.sha256⟩)
    _ = d.discovered.entries.zipIdx.map Prod.snd := rfl
    _ = List.range d.discovered.entries.length := by
      rw [zipIdx_map_snd, range_eq_range']

/-! ### Edges -/

/-- The edges of a file, out of the imports that resolve. -/
def SourceUnit.edges (file : SourceUnit) : List ModuleEdge :=
  file.imports.flatMap fun declaration =>
    ((resolveExplicitZryImport file.path declaration.specifier.text).map fun target =>
      importEdges file.path target declaration).getD []

/-- The edges of a snapshot, in the order of their keys. -/
def ProjectSyntaxSnapshot.edges (snapshot : ProjectSyntaxSnapshot) : List ModuleEdge :=
  (snapshot.files.flatMap SourceUnit.edges).mergeSort fun left right =>
    left.identity.key ≤ right.identity.key

def ModuleEdge.namedBinding (edge : ModuleEdge) : NamedBinding where
  edge := ⟨edge.identity, edge.target⟩
  declarationSpan := .ofSpan edge.declarationSpan
  specifierSpan := .ofSpan edge.specifierSpan
  importedSpan := .ofSpan edge.importedSpan
  localSpan := .ofSpan edge.localSpan

theorem SourceUnit.map_edges (file : SourceUnit) :
    file.edges.map ModuleEdge.namedBinding = namedBindings file.path file.fingerprints := by
  rw [SourceUnit.edges, map_flatMap, namedBindings, SourceUnit.fingerprints,
    flatMap_map]
  congr 1
  funext declaration
  show _ = bindingsOfImport file.path declaration.fingerprint
  unfold bindingsOfImport
  rw [show declaration.fingerprint.specifier = declaration.specifier.text from rfl]
  cases resolveExplicitZryImport file.path declaration.specifier.text with
  | none => rfl
  | some target =>
    show (importEdges file.path target declaration).map ModuleEdge.namedBinding = _
    rw [importEdges, map_map]
    show _ = (declaration.bindings.map ImportBindingSyntax.fingerprint).map _
    rw [map_map]
    rfl

theorem fileEdges_eq_ok {file : SourceUnit} (hresolves : ∀ declaration ∈ file.fingerprints,
      (resolveExplicitZryImport file.path declaration.specifier).isSome) :
    (fileEdges file : Except (ModuleClosureError WorkerError) _) = .ok file.edges := by
  unfold fileEdges
  rw [mapM_eq_ok_map (g := fun declaration =>
    ((resolveExplicitZryImport file.path declaration.specifier.text).map fun target =>
      importEdges file.path target declaration).getD []) fun declaration hmem => ?_]
  · rfl
  · obtain ⟨target, hresolve⟩ := Option.isSome_iff_exists.mp
      (hresolves declaration.fingerprint (mem_map_of_mem hmem))
    rw [show declaration.fingerprint.specifier = declaration.specifier.text from rfl] at hresolve
    rw [hresolve]
    rfl

section

variable (h : Inv workspace parse entrypoint d) (hparsed : Parsed parse d.inputs snapshot)

include h hparsed

theorem Inv.finalEdges_eq_ok :
    (finalEdges snapshot : Except (ModuleClosureError WorkerError) _) = .ok snapshot.edges := by
  unfold finalEdges
  rw [mapM_eq_ok_map (g := SourceUnit.edges) fun file hfile => fileEdges_eq_ok ?_]
  · rfl
  · have hmem : (file.path, file.fingerprints) ∈
        snapshot.files.map fun file => (file.path, file.fingerprints) := mem_map_of_mem hfile
    rw [h.map_files hparsed, mem_map] at hmem
    obtain ⟨entry, hentry, heq⟩ := hmem
    obtain ⟨hpath, himports⟩ := Prod.mk.inj heq
    rw [← hpath, ← himports]
    exact h.resolves entry.1 entry.2 (get?_eq_some.mpr hentry)

/-- The edges of the second analysis are the bindings that the rounds found. -/
theorem Inv.perm_edges :
    (snapshot.edges.map ModuleEdge.namedBinding).Perm
      (d.discovered.entries.flatMap fun entry => namedBindings entry.1 entry.2.imports) := by
  have hfiles : (snapshot.files.flatMap SourceUnit.edges).map ModuleEdge.namedBinding
      = d.discovered.entries.flatMap fun entry => namedBindings entry.1 entry.2.imports := by
    calc (snapshot.files.flatMap SourceUnit.edges).map ModuleEdge.namedBinding
      _ = snapshot.files.flatMap fun file => namedBindings file.path file.fingerprints := by
        rw [map_flatMap]
        congr 1
        funext file
        exact file.map_edges
      _ = (snapshot.files.map fun file => (file.path, file.fingerprints)).flatMap
          fun entry => namedBindings entry.1 entry.2 := by rw [flatMap_map]
      _ = d.discovered.entries.flatMap fun entry => namedBindings entry.1 entry.2.imports := by
        rw [h.map_files hparsed, flatMap_map]
  rw [← hfiles]
  exact (mergeSort_perm _ _).map _

theorem Inv.perm_identities :
    (snapshot.edges.map ModuleEdge.identity).Perm ((d.discovered.entries.flatMap fun entry =>
      edgesOf entry.1 entry.2.imports).map ResolvedEdge.identity) := by
  have hperm := (h.perm_edges hparsed).map fun named => named.edge.identity
  rw [map_map, map_flatMap] at hperm
  rw [map_flatMap]
  refine hperm.trans (.of_eq ?_)
  congr 1
  funext entry
  rw [← map_edge_namedBindings, map_map]
  rfl

end

theorem EdgeIdentity.key_injective : Function.Injective EdgeIdentity.key := by
  rintro ⟨importer, specifier, imported, localName⟩ ⟨importer', _, _, _⟩ heq
  simp only [EdgeIdentity.key, List.cons.injEq, and_true] at heq
  obtain ⟨himporter, rfl, rfl, rfl⟩ := heq
  obtain rfl := NormalizedSourcePath.asStr_injective himporter
  rfl

section

variable (h : Inv workspace parse entrypoint d)

include h

variable (hparsed : Parsed parse d.inputs snapshot)

include hparsed

theorem Inv.nodup_edges : (snapshot.edges.map ModuleEdge.identity).Nodup := by
  refine (h.perm_identities hparsed).nodup_iff.mpr ?_
  refine nodup_edgesOf d.discovered.sorted fun entry hentry => ?_
  exact h.nodup.sublist
    ((h.sublist entry.1 entry.2 (get?_eq_some.mpr hentry)).map ResolvedEdge.identity)

/-- The edges are in the order of their keys, and no key occurs twice. -/
theorem Inv.sorted_edges :
    snapshot.edges.Pairwise fun left right => left.identity.key < right.identity.key := by
  have hsorted : snapshot.edges.Pairwise fun left right =>
      left.identity.key ≤ right.identity.key := by
    refine (pairwise_mergeSort ?_ ?_ _).imp fun hle => of_decide_eq_true hle
    · intro left middle right hleft hright
      exact decide_eq_true ((of_decide_eq_true hleft).trans (of_decide_eq_true hright))
    · intro left right
      simpa using le_total left.identity.key right.identity.key
  have hnodup := h.nodup_edges hparsed
  rw [List.Nodup, pairwise_map] at hnodup
  refine (hsorted.and hnodup).imp fun ⟨hle, hne⟩ => lt_of_le_of_ne hle fun heq => ?_
  exact hne (EdgeIdentity.key_injective heq)

theorem Inv.toFinset_edges :
    (snapshot.edges.map ModuleEdge.identity).toFinset = d.edgeIdentities := by
  ext identity
  rw [mem_toFinset, (h.perm_identities hparsed).mem_iff, h.identities, mem_toFinset,
    mem_map, mem_map]
  constructor
  · rintro ⟨edge, hedge, rfl⟩
    obtain ⟨entry, hentry, hedge⟩ := mem_flatMap.mp hedge
    have hsublist := h.sublist entry.1 entry.2 (get?_eq_some.mpr hentry)
    exact ⟨edge, hsublist.subset hedge, rfl⟩
  · rintro ⟨edge, hedge, rfl⟩
    obtain ⟨path, source, hget, hedge⟩ := h.edges edge hedge
    exact ⟨edge, mem_flatMap.mpr ⟨_, get?_eq_some.mp hget, hedge⟩, rfl⟩

/-- The lengths in the graph document of what was discovered can be written. -/
theorem Inv.shortGraph :
    ShortGraph entrypoint (d.records.map ModuleRecord.content)
      (snapshot.edges.map ModuleEdge.identity) := by
  have hpath (path : NormalizedSourcePath) : ShortText path.asStr := by
    have hle := path.utf8Length_le
    have hmax : maxSourcePathBytes < 2 ^ 32 := by decide
    rw [ShortText, length_utf8Bytes]
    omega
  refine ⟨hpath entrypoint, ⟨?_, fun _ _ => hpath _⟩, ⟨?_, fun identity hmem => ?_⟩⟩
  · have hle := h.size_le
    have hmax : maxModuleFiles < 2 ^ 32 := by decide
    rw [length_map, Discovery.records, length_map, length_zipIdx]
    unfold size at hle
    omega
  · have hle := h.card_le
    have hmax : maxModuleImportEdges < 2 ^ 32 := by decide
    rw [← h.toFinset_edges hparsed, toFinset_card_of_nodup (h.nodup_edges hparsed)] at hle
    omega
  · rw [← mem_toFinset, h.toFinset_edges hparsed, h.identities, mem_toFinset] at hmem
    obtain ⟨edge, hedge, rfl⟩ := mem_map.mp hmem
    obtain ⟨hspecifier, himported, hlocal⟩ := h.short edge hedge
    have hmax : maxModuleEdgeManifestBytes < 2 ^ 32 := by decide
    refine ⟨hpath _, ?_, ?_, ?_⟩
    · exact (length_utf8Bytes _).trans_lt (hspecifier.trans_lt hmax)
    · exact (length_utf8Bytes _).trans_lt (himported.trans_lt hmax)
    · exact (length_utf8Bytes _).trans_lt (hlocal.trans_lt hmax)

end

/-! ### The closure -/

/-- A sealed closure holds the modules that the entrypoint reaches, and their named bindings. -/
structure Sealed (workspace : Workspace)
    (parse : SourceFileInput → Option (List ImportFingerprint)) (entrypoint : NormalizedSourcePath)
    (modules : List ModuleRecord) (edges : List ModuleEdge) : Prop where
  ids : modules.map ModuleRecord.id = List.range modules.length
  sorted : modules.Pairwise fun left right => left.path < right.path
  reach : ∀ path, path ∈ modules.map ModuleRecord.path ↔ Reach workspace parse entrypoint path
  digests : ∀ module ∈ modules, ∃ source, workspace.readSource module.path = .ok source
    ∧ module.sourceSha256 = source.sha256
  keys : edges.Pairwise fun left right => left.identity.key < right.identity.key
  bindings : ∀ named, named ∈ edges.map ModuleEdge.namedBinding ↔
    ∃ path imports, Reach workspace parse entrypoint path
      ∧ importsOf workspace parse path = some imports ∧ named ∈ namedBindings path imports

theorem Inv.sealed (h : Inv workspace parse entrypoint d) (hdone : d.pending.size = 0)
    (hparsed : Parsed parse d.inputs snapshot) :
    Sealed workspace parse entrypoint d.records snapshot.edges where
  ids := d.map_id_records
  sorted := by
    rw [← pairwise_map (f := ModuleRecord.path) (R := (· < ·)), d.map_path_records,
      OrderedMap.keys, pairwise_map]
    exact d.discovered.sorted
  reach := fun path => by
    rw [d.map_path_records, OrderedMap.mem_keys, Option.isSome_iff_exists, h.reach_iff hdone]
  digests := fun module hmodule => by
    obtain ⟨⟨entry, index⟩, hentry, rfl⟩ := mem_map.mp hmodule
    have hmem : entry ∈ d.discovered.entries := by
      rw [← zipIdx_map_fst 0 d.discovered.entries]
      exact mem_map_of_mem hentry
    exact ⟨entry.2.stable, (h.read entry.1 entry.2 (get?_eq_some.mpr hmem)).1, rfl⟩
  keys := h.sorted_edges hparsed
  bindings := fun named => by
    rw [(h.perm_edges hparsed).mem_iff, mem_flatMap]
    constructor
    · rintro ⟨entry, hentry, hnamed⟩
      have hget := get?_eq_some.mpr hentry
      exact ⟨entry.1, entry.2.imports, (h.reach_iff hdone _).mpr ⟨_, hget⟩,
        (h.read entry.1 entry.2 hget).2, hnamed⟩
    · rintro ⟨path, imports, hreach, himports, hnamed⟩
      obtain ⟨source, hget⟩ := (h.reach_iff hdone path).mp hreach
      obtain rfl := Option.some.inj (himports.symm.trans (h.read path source hget).2)
      exact ⟨(path, source), get?_eq_some.mp hget, hnamed⟩

end Final

end Zryna.Driver.ModuleClosure
