import Zryna.Driver.ModuleClosure.Batches

/-!
# Rounds

What holds between the rounds of discovery, and what is left when nothing is pending: the modules
that are discovered are those that the entrypoint reaches. When these can be closed, a round stops
only at a budget.
-/

namespace Zryna.Driver.ModuleClosure

open OrderedMap List

open Checked (ErrorsIn bind_eq_ok ite_error_eq_ok)

variable {WorkerError : Type} {timedOut : WorkerError → Prop} {workspace : Workspace}
  {frontend : Frontend WorkerError} {clock : ℕ → ℕ}
  {parse : SourceFileInput → Option (List ImportFingerprint)} {entrypoint : NormalizedSourcePath}
  {d d' : Discovery}

def Discovery.Seen (d : Discovery) (path : NormalizedSourcePath) : Prop :=
  d.discovered.get? path ≠ none ∨ path ∈ d.pending.keys

/-- What holds between two rounds. -/
structure Inv (workspace : Workspace) (parse : SourceFileInput → Option (List ImportFingerprint))
    (entrypoint : NormalizedSourcePath) (d : Discovery) : Prop where
  read : ∀ path source, d.discovered.get? path = some source →
    workspace.readSource path = .ok source.stable
      ∧ importsOf workspace parse path = some source.imports
  apart : ∀ path ∈ d.pending.keys, d.discovered.get? path = none
  reach : ∀ path, d.Seen path → Reach workspace parse entrypoint path
  entry : d.Seen entrypoint
  targets : ∀ path source, d.discovered.get? path = some source →
    ∀ target ∈ targetsOf path source.imports, d.Seen target
  resolves : ∀ path source, d.discovered.get? path = some source →
    ∀ declaration ∈ source.imports, (resolveExplicitZryImport path declaration.specifier).isSome
  bound : ∀ path source, d.discovered.get? path = some source →
    ∀ declaration ∈ source.imports, declaration.bindings ≠ []
  portable : ∀ key path, d.portablePaths.get? key = some path ↔
    d.Seen path ∧ key = path.portableIdentity
  identities : d.edgeIdentities = (d.resolvedEdges.map ResolvedEdge.identity).toFinset
  nodup : (d.resolvedEdges.map ResolvedEdge.identity).Nodup
  edges : ∀ edge ∈ d.resolvedEdges, ∃ path source, d.discovered.get? path = some source
    ∧ edge ∈ edgesOf path source.imports
  sublist : ∀ path source, d.discovered.get? path = some source →
    (edgesOf path source.imports).Sublist d.resolvedEdges
  short : ∀ edge ∈ d.resolvedEdges, edge.identity.Short
  card_le : d.edgeIdentities.card ≤ maxModuleImportEdges
  size_le : d.discovered.size ≤ maxModuleFiles
  bytes : textBytes (d.discovered.entries.map fun entry => (entry.1, entry.2.stable))
    = d.aggregateBytes
  bytes_le : d.aggregateBytes ≤ maxModuleSourceBytes

theorem Inv.start : Inv workspace parse entrypoint (.start entrypoint) where
  read := nofun
  apart := fun _ _ => rfl
  reach := by
    rintro path (hmem | hmem)
    · exact absurd rfl hmem
    · obtain rfl := mem_singleton.mp hmem
      exact .refl
  entry := .inr (mem_singleton_self _)
  targets := nofun
  resolves := nofun
  bound := nofun
  portable := fun key path => by
    have hseen : (Discovery.start entrypoint).Seen path ↔ path = entrypoint := by
      constructor
      · rintro (hmem | hmem)
        · exact absurd rfl hmem
        · exact mem_singleton.mp hmem
      · rintro rfl
        exact .inr (mem_singleton_self _)
    rw [hseen, Discovery.start, get?_insert, get?_empty]
    constructor
    · intro h
      split at h
      · next heq =>
        cases h
        exact ⟨rfl, heq⟩
      · cases h
    · rintro ⟨rfl, rfl⟩
      rw [if_pos rfl]
  identities := rfl
  nodup := .nil
  edges := nofun
  sublist := nofun
  short := nofun
  card_le := Nat.zero_le _
  size_le := Nat.zero_le _
  bytes := rfl
  bytes_le := Nat.zero_le _

/-! ### One round -/

/-- What an accepted round did: it read a batch, had it analyzed, and recorded its imports. -/
structure Round (workspace : Workspace) (parse : SourceFileInput → Option (List ImportFingerprint))
    (d d' : Discovery) (batch : Batch) (snapshot : ProjectSyntaxSnapshot) : Prop where
  rounds : d'.rounds = d.rounds + 1 ∧ d'.rounds ≤ maxModuleDiscoveryRounds
  size_le : d.discovered.size + d.pending.size ≤ maxModuleFiles
  reads : batch.Of workspace d
  parsed : Parsed parse batch.inputs snapshot
  aggregate : d'.aggregateBytes = batch.aggregateBytes
  resolves : ∀ source ∈ batch.stable.entries,
    ∀ declaration ∈ importsIn (snapshotFingerprints snapshot) source.1,
      (resolveExplicitZryImport source.1 declaration.specifier).isSome
  recorded : Recorded (fun path => d.discovered.get? path ≠ none
      ∨ (snapshotFingerprints snapshot).get? path ≠ none)
    (batch.stable.entries.flatMap fun source =>
      targetsOf source.1 (importsIn (snapshotFingerprints snapshot) source.1))
    (batch.stable.entries.flatMap fun source =>
      edgesOf source.1 (importsIn (snapshotFingerprints snapshot) source.1))
    { d with
      pending := .empty
      aggregateBytes := d'.aggregateBytes
      providerBytes := d'.providerBytes
      providerCalls := d'.providerCalls
      rounds := d'.rounds } d'
  discovered : d'.discovered
    = discoveredAfter (snapshotFingerprints snapshot) d.discovered batch.stable.entries

theorem discoverRound_eq_ok (hfrontend : frontend.PerFile timedOut parse)
    (h : discoverRound workspace frontend clock d = .ok d') :
    ∃ batch snapshot, Round workspace parse d d' batch snapshot := by
  obtain ⟨rounds, hrounds, h⟩ := bind_eq_ok.mp h
  obtain rfl := checkedAdd_eq_ok hrounds
  obtain ⟨hroundsLe, h⟩ := ite_error_eq_ok.mp h
  obtain ⟨hsize, h⟩ := ite_error_eq_ok.mp h
  obtain ⟨batch, hbatch, h⟩ := bind_eq_ok.mp h
  obtain ⟨⟨providerCalls, providerBytes⟩, -, h⟩ := bind_eq_ok.mp h
  obtain ⟨sources, hsources, h⟩ := bind_eq_ok.mp h
  have hsources := sourceMap_eq_ok batch.sorted_inputs hsources
  obtain ⟨⟨⟩, -, h⟩ := bind_eq_ok.mp h
  obtain ⟨snapshot, hsnapshot, h⟩ := bind_eq_ok.mp h
  rw [hsources] at hsnapshot
  obtain ⟨hresolves, hrecorded, hdiscovered⟩ := recordModules_eq_ok
    (fun path => d.discovered.get? path ≠ none
      ∨ (snapshotFingerprints snapshot).get? path ≠ none) h fun _ => Iff.rfl
  obtain ⟨haggregate, -, -, hrounds⟩ := hrecorded.fixed
  exact ⟨batch, snapshot, ⟨hrounds, hrounds.trans_le (Nat.not_lt.mp hroundsLe)⟩,
    Nat.not_lt.mp hsize, readPending_eq_ok hbatch, analyzeWithin_eq_ok hfrontend hsnapshot,
    haggregate, hresolves,
    ⟨⟨rfl, rfl, rfl, rfl⟩, hrecorded.portable, hrecorded.pending, hrecorded.identities,
      hrecorded.fresh, hrecorded.nodup, hrecorded.appended, hrecorded.short, hrecorded.card_le⟩,
    hdiscovered⟩

section Round

variable {batch : Batch} {snapshot : ProjectSyntaxSnapshot}

theorem Batch.Of.importsOf_eq (hreads : batch.Of workspace d)
    (hparsed : Parsed parse batch.inputs snapshot)
    {source : NormalizedSourcePath × StableSource} (hsource : source ∈ batch.stable.entries) :
    importsOf workspace parse source.1
      = some (importsIn (snapshotFingerprints snapshot) source.1) := by
  obtain ⟨imports, -, hin, hparse⟩ := hparsed.importsIn_batch hsource
  rw [importsOf_of_read (hreads.read source hsource), hparse, hin]

section

variable (h : Inv workspace parse entrypoint d) (hround : Round workspace parse d d' batch snapshot)

include h hround

theorem Round.perm_discovered :
    d'.discovered.entries.Perm (batch.stable.entries.map (fun source =>
      (source.1, ⟨source.2, importsIn (snapshotFingerprints snapshot) source.1⟩))
        ++ d.discovered.entries) := by
  rw [hround.discovered]
  refine perm_insertAll ?_ fun entry hentry => ?_
  · rw [map_map]
    exact batch.stable.nodup_keys
  · obtain ⟨source, hsource, rfl⟩ := mem_map.mp hentry
    exact h.apart _ ((hround.reads.keys _).mp (mem_map_of_mem hsource))

theorem Round.get?_discovered (path : NormalizedSourcePath)
    (source : DiscoveredSource) : d'.discovered.get? path = some source ↔
      (∃ stable, (path, stable) ∈ batch.stable.entries
        ∧ source = ⟨stable, importsIn (snapshotFingerprints snapshot) path⟩)
      ∨ d.discovered.get? path = some source := by
  rw [get?_eq_some, (hround.perm_discovered h).mem_iff, mem_append,
    get?_eq_some]
  refine or_congr_left ?_
  rw [mem_map]
  constructor
  · rintro ⟨⟨path, stable⟩, hmem, heq⟩
    cases heq
    exact ⟨stable, hmem, rfl⟩
  · rintro ⟨stable, hmem, rfl⟩
    exact ⟨(path, stable), hmem, rfl⟩

theorem Round.discovered_ne_none (path : NormalizedSourcePath) :
    d'.discovered.get? path ≠ none ↔ d.Seen path := by
  rw [Option.ne_none_iff_exists', Discovery.Seen, ← hround.reads.keys]
  simp only [hround.get?_discovered h, exists_or]
  rw [or_comm, Option.ne_none_iff_exists']
  refine or_congr_right ⟨?_, fun hmem => ?_⟩
  · rintro ⟨source, stable, hmem, -⟩
    exact mem_map_of_mem hmem
  · obtain ⟨source, hsource, rfl⟩ := mem_map.mp hmem
    exact ⟨_, source.2, hsource, rfl⟩

end

theorem Round.known (hround : Round workspace parse d d' batch snapshot)
    (path : NormalizedSourcePath) : (d.discovered.get? path ≠ none
      ∨ (snapshotFingerprints snapshot).get? path ≠ none) ↔ d.Seen path := by
  rw [hround.parsed.get?_fingerprints_ne_none, hround.reads.keys]
  rfl

theorem Round.pending (hround : Round workspace parse d d' batch snapshot)
    (path : NormalizedSourcePath) : path ∈ d'.pending.keys ↔
      (path ∈ batch.stable.entries.flatMap fun source =>
        targetsOf source.1 (importsIn (snapshotFingerprints snapshot) source.1)) ∧ ¬d.Seen path := by
  rw [hround.recorded.pending, hround.known]
  exact or_iff_right not_mem_nil

variable (h : Inv workspace parse entrypoint d) (hround : Round workspace parse d d' batch snapshot)

include h hround

/-- What a round brings into sight is what the modules of its batch import. -/
theorem Round.seen (path : NormalizedSourcePath) :
    d'.Seen path ↔ d.Seen path ∨ path ∈ batch.stable.entries.flatMap fun source =>
      targetsOf source.1 (importsIn (snapshotFingerprints snapshot) source.1) := by
  rw [Discovery.Seen, hround.discovered_ne_none h, hround.pending]
  tauto

theorem Inv.round : Inv workspace parse entrypoint d' where
  read := fun path source hget => by
    obtain ⟨stable, hmem, rfl⟩ | hold := (hround.get?_discovered h path source).mp hget
    · exact ⟨hround.reads.read _ hmem, hround.reads.importsOf_eq hround.parsed hmem⟩
    · exact h.read path source hold
  apart := fun path hmem => by
    by_contra hne
    exact ((hround.pending path).mp hmem).2 ((hround.discovered_ne_none h path).mp hne)
  reach := fun path hseen => by
    obtain hseen | hmem := (hround.seen h path).mp hseen
    · exact h.reach path hseen
    · obtain ⟨source, hsource, htarget⟩ := mem_flatMap.mp hmem
      have hreach := h.reach source.1 (.inr ((hround.reads.keys _).mp (mem_map_of_mem hsource)))
      exact hreach.tail ⟨_, hround.reads.importsOf_eq hround.parsed hsource, htarget⟩
  entry := (hround.seen h entrypoint).mpr (.inl h.entry)
  targets := fun path source hget target htarget => by
    rw [hround.seen h]
    obtain ⟨stable, hmem, rfl⟩ | hold := (hround.get?_discovered h path source).mp hget
    · exact .inr (mem_flatMap.mpr ⟨_, hmem, htarget⟩)
    · exact .inl (h.targets path source hold target htarget)
  resolves := fun path source hget => by
    obtain ⟨stable, hmem, rfl⟩ | hold := (hround.get?_discovered h path source).mp hget
    · exact hround.resolves _ hmem
    · exact h.resolves path source hold
  bound := fun path source hget => by
    obtain ⟨stable, hmem, rfl⟩ | hold := (hround.get?_discovered h path source).mp hget
    · exact hround.parsed.bound_batch hmem
    · exact h.bound path source hold
  portable := fun key path => by
    rw [hround.recorded.portable, hround.seen h]
    dsimp only
    rw [h.portable, or_and_right]
  identities := by
    rw [hround.recorded.identities, hround.recorded.appended, map_append,
      toFinset_append, ← h.identities]
  nodup := by
    rw [hround.recorded.appended, map_append]
    refine h.nodup.append hround.recorded.nodup fun identity hold hnew => ?_
    obtain ⟨edge, hedge, rfl⟩ := mem_map.mp hnew
    refine hround.recorded.fresh edge hedge ?_
    dsimp only
    rw [h.identities, mem_toFinset]
    exact hold
  edges := fun edge hmem => by
    rw [hround.recorded.appended, mem_append] at hmem
    obtain hmem | hmem := hmem
    · obtain ⟨path, source, hget, hedge⟩ := h.edges edge hmem
      exact ⟨path, source, (hround.get?_discovered h path source).mpr (.inr hget), hedge⟩
    · obtain ⟨⟨path, stable⟩, hsource, hedge⟩ := mem_flatMap.mp hmem
      exact ⟨path, _, (hround.get?_discovered h path _).mpr (.inl ⟨stable, hsource, rfl⟩), hedge⟩
  sublist := fun path source hget => by
    rw [hround.recorded.appended]
    obtain ⟨stable, hmem, rfl⟩ | hold := (hround.get?_discovered h path source).mp hget
    · refine List.Sublist.trans ?_ (sublist_append_right _ _)
      rw [flatMap_def]
      exact sublist_flatten_of_mem (mem_map.mpr ⟨(path, stable), hmem, rfl⟩)
    · exact (h.sublist path source hold).trans (sublist_append_left _ _)
  short := fun edge hmem => by
    rw [hround.recorded.appended, mem_append] at hmem
    exact hmem.elim (h.short edge) (hround.recorded.short edge)
  card_le := hround.recorded.card_le h.card_le
  size_le := by
    have hlength := (hround.perm_discovered h).length_eq
    rw [length_append, length_map] at hlength
    have hsize := hround.reads.size
    have hle := hround.size_le
    unfold size at *
    omega
  bytes := by
    have hperm := (hround.perm_discovered h).map fun entry => (entry.1, entry.2.stable)
    rw [map_append, map_map] at hperm
    rw [textBytes_perm hperm, textBytes_append, h.bytes, hround.aggregate, hround.reads.aggregate,
      Nat.add_comm]
    exact congrArg (_ + textBytes ·) (map_id _)
  bytes_le := hround.aggregate ▸ hround.reads.aggregate_le h.bytes_le

end Round

/-! ### All rounds -/

/-- The rounds end with nothing pending: one more than the budget allows was refused. -/
theorem Inv.rounds (hfrontend : frontend.PerFile timedOut parse) {fuel : ℕ}
    (h : Inv workspace parse entrypoint d)
    (hrun : discoverRounds workspace frontend clock fuel d = .ok d')
    (hrounds : d.rounds ≤ maxModuleDiscoveryRounds)
    (hfuel : maxModuleDiscoveryRounds < fuel + d.rounds) :
    Inv workspace parse entrypoint d' ∧ d'.pending.size = 0 := by
  induction fuel generalizing d with
  | zero => omega
  | succ fuel ih =>
    unfold discoverRounds at hrun
    split at hrun
    · next hdone =>
      cases hrun
      exact ⟨h, hdone⟩
    · obtain ⟨next, hnext, hrun⟩ := bind_eq_ok.mp hrun
      obtain ⟨batch, snapshot, hround⟩ := discoverRound_eq_ok hfrontend hnext
      obtain ⟨hcount, hle⟩ := hround.rounds
      exact ih (h.round hround) hrun hle (by omega)

/-- The modules that are discovered in the end are those that are reached. -/
theorem Inv.reach_iff (h : Inv workspace parse entrypoint d) (hdone : d.pending.size = 0)
    (path : NormalizedSourcePath) :
    Reach workspace parse entrypoint path ↔ ∃ source, d.discovered.get? path = some source := by
  have hseen (path : NormalizedSourcePath) :
      d.Seen path ↔ ∃ source, d.discovered.get? path = some source := by
    have hempty : d.pending.keys = [] :=
      eq_nil_of_length_eq_zero (by rw [length_keys, hdone])
    rw [Discovery.Seen, hempty, Option.ne_none_iff_exists']
    exact or_iff_left not_mem_nil
  constructor
  · intro hreach
    induction hreach with
    | refl => exact (hseen entrypoint).mp h.entry
    | tail _ himports ih =>
      obtain ⟨source, hget⟩ := ih
      rw [Imports.iff_mem (h.read _ source hget).2] at himports
      exact (hseen _).mp (h.targets _ source hget _ himports)
  · exact fun hget => h.reach path ((hseen path).mpr hget)

/-- Modules that are discovered are different files to a host that folds case. -/
theorem Inv.eq_of_portableIdentity (h : Inv workspace parse entrypoint d)
    {path other : NormalizedSourcePath} {source source' : DiscoveredSource}
    (hpath : d.discovered.get? path = some source) (hother : d.discovered.get? other = some source')
    (heq : path.portableIdentity = other.portableIdentity) : path = other := by
  have hregistered {path : NormalizedSourcePath} {source : DiscoveredSource}
      (hget : d.discovered.get? path = some source) :
      d.portablePaths.get? path.portableIdentity = some path :=
    (h.portable _ _).mpr ⟨.inl (hget ▸ Option.some_ne_none source), rfl⟩
  have hfirst := hregistered hpath
  rw [heq, hregistered hother] at hfirst
  exact (Option.some.inj hfirst).symm

/-! ### Errors of rounds -/

theorem importer_of_mem_edgesOf {path : NormalizedSourcePath} {imports : List ImportFingerprint}
    {edge : ResolvedEdge} (h : edge ∈ edgesOf path imports) : edge.identity.importer = path := by
  obtain ⟨declaration, -, hedge⟩ := mem_flatMap.mp h
  unfold edgesOfImport at hedge
  split at hedge
  · cases hedge
  · obtain ⟨binding, -, rfl⟩ := mem_map.mp hedge
    rfl

/-- Edges of different modules are different. -/
theorem nodup_edgesOf {α : Type} {xs : List α} {path : α → NormalizedSourcePath}
    {imports : α → List ImportFingerprint} (hsorted : xs.Pairwise fun x y => path x < path y)
    (hdistinct : ∀ x ∈ xs, ((edgesOf (path x) (imports x)).map ResolvedEdge.identity).Nodup) :
    ((xs.flatMap fun x => edgesOf (path x) (imports x)).map ResolvedEdge.identity).Nodup := by
  rw [map_flatMap, nodup_flatMap]
  refine ⟨hdistinct, hsorted.imp fun hlt identity hleft hright => ?_⟩
  obtain ⟨edge, hedge, rfl⟩ := mem_map.mp hleft
  obtain ⟨other, hother, heq⟩ := mem_map.mp hright
  have himporter := congrArg EdgeIdentity.importer heq
  rw [importer_of_mem_edgesOf hedge, importer_of_mem_edgesOf hother] at himporter
  exact hlt.ne himporter.symm

section Errors

variable {batch : Batch} {snapshot : ProjectSyntaxSnapshot}

/-- The edges of a batch are new, since its modules are. -/
theorem Inv.fresh_batch (h : Inv workspace parse entrypoint d)
    (hclosed : Closed workspace parse entrypoint) (hreads : batch.Of workspace d)
    (hparsed : Parsed parse batch.inputs snapshot) :
    Fresh (batch.stable.entries.flatMap fun source =>
      edgesOf source.1 (importsIn (snapshotFingerprints snapshot) source.1)) d := by
  have hpending {source : NormalizedSourcePath × StableSource}
      (hsource : source ∈ batch.stable.entries) : source.1 ∈ d.pending.keys :=
    (hreads.keys _).mp (mem_map_of_mem hsource)
  constructor
  · intro edge hmem hold
    obtain ⟨source, hsource, hedge⟩ := mem_flatMap.mp hmem
    rw [h.identities, mem_toFinset, mem_map] at hold
    obtain ⟨other, hother, heq⟩ := hold
    obtain ⟨path, discovered, hget, hother⟩ := h.edges other hother
    have himporter := congrArg EdgeIdentity.importer heq
    rw [importer_of_mem_edgesOf hedge, importer_of_mem_edgesOf hother] at himporter
    rw [himporter, h.apart source.1 (hpending hsource)] at hget
    cases hget
  · refine nodup_edgesOf batch.stable.sorted fun source hsource => ?_
    exact hclosed.distinct source.1 _ (h.reach _ (.inr (hpending hsource)))
      (hreads.importsOf_eq hparsed hsource)

variable (hstable : workspace.Stable) (hfrontend : frontend.PerFile timedOut parse)
  (hclosed : Closed workspace parse entrypoint) (h : Inv workspace parse entrypoint d)

include hstable hfrontend hclosed h

/-- A round on modules that can be closed stops only at a budget. -/
theorem Inv.discoverRound_errors :
    ErrorsIn (OverBudget timedOut) (discoverRound workspace frontend clock d) := by
  have hreach {path : NormalizedSourcePath} (hmem : path ∈ d.pending.keys) :
      Reach workspace parse entrypoint path := h.reach path (.inr hmem)
  refine .bind (checkedAdd_errors _ _) fun rounds _ => ?_
  refine .ite (fun _ => .error (overBudget_budgetRejection _)) fun _ => ?_
  refine .ite (fun _ => .error (overBudget_budgetRejection _)) fun hsize => ?_
  refine .bind (readAll_errors fun path hmem => ?_) fun batch hbatch => ?_
  · obtain ⟨imports, himports⟩ := hclosed.available path (hreach hmem)
    obtain ⟨source, hread, -⟩ := importsOf_eq_some.mp himports
    exact ⟨source, hread⟩
  have hreads := readPending_eq_ok hbatch
  have hsource {source : NormalizedSourcePath × StableSource}
      (hsource : source ∈ batch.stable.entries) : Reach workspace parse entrypoint source.1 :=
    hreach ((hreads.keys _).mp (mem_map_of_mem hsource))
  refine .bind (accountProviderWork_errors _ _ _ _ _ _) fun work _ => ?_
  have hmap : buildSourceMap batch.inputs = some batch.inputs := by
    refine buildSourceMap_ok batch.sorted_inputs ?_ ?_ ?_ ?_
    · have hlength : batch.inputs.length = batch.stable.size := length_map _
      rw [hlength, hreads.size]
      exact (Nat.le_add_left _ _).trans (Nat.not_lt.mp hsize)
    · intro input hinput
      obtain ⟨source, hmem, rfl⟩ := mem_map.mp hinput
      exact hstable.text_le (hreads.read source hmem)
    · intro left hleft right hright
      obtain ⟨source, hmem, rfl⟩ := mem_map.mp hleft
      obtain ⟨other, hother, rfl⟩ := mem_map.mp hright
      exact hclosed.apart source.1 other.1 (hsource hmem) (hsource hother)
    · have hbytes : (batch.inputs.map fun file => utf8Length file.text.toList).sum
          = textBytes batch.stable.entries := by
        rw [Batch.inputs, map_map]
        rfl
      have haggregate := hreads.aggregate
      have hle := hreads.aggregate_le h.bytes_le
      have hmax : maxModuleSourceBytes ≤ maxSourceBytes := by decide
      omega
  obtain ⟨providerCalls, providerBytes⟩ := work
  rw [hmap]
  refine .bind (.ok _) fun sources hsources => ?_
  cases hsources
  have hvalid : workspace.validateProviderBatch batch.inputs = .ok () := by
    refine hstable.validates fun input hinput => ?_
    obtain ⟨source, hmem, rfl⟩ := mem_map.mp hinput
    exact ⟨source.2, hreads.read source hmem, rfl⟩
  rw [hvalid]
  refine .bind (.ok _) fun _ _ => ?_
  refine .bind (analyzeWithin_errors hfrontend fun input hinput => ?_) fun snapshot hsnapshot => ?_
  · obtain ⟨source, hmem, rfl⟩ := mem_map.mp hinput
    obtain ⟨imports, himports⟩ := hclosed.available source.1 (hsource hmem)
    rw [importsOf_of_read (hreads.read source hmem)] at himports
    exact Option.isSome_iff_exists.mpr ⟨imports, himports⟩
  have hparsed := analyzeWithin_eq_ok hfrontend hsnapshot
  refine recordModules_errors hclosed.apart ?_ ?_ ?_ ?_ (h.fresh_batch hclosed hreads hparsed)
  · intro key path hget
    obtain ⟨hseen, hkey⟩ := (h.portable key path).mp hget
    exact ⟨hkey, h.reach path hseen⟩
  · intro source hmem
    obtain ⟨imports, hget, -, -⟩ := hparsed.importsIn_batch hmem
    exact ⟨imports, hget⟩
  · intro source hmem target htarget
    exact (hsource hmem).tail ⟨_, hreads.importsOf_eq hparsed hmem, htarget⟩
  · intro source hmem
    exact hclosed.resolves source.1 _ (hsource hmem) (hreads.importsOf_eq hparsed hmem)

theorem Inv.discoverRounds_errors (fuel : ℕ) :
    ErrorsIn (OverBudget timedOut) (discoverRounds workspace frontend clock fuel d) := by
  induction fuel generalizing d with
  | zero => exact .ok d
  | succ fuel ih =>
    refine .ite (fun _ => .ok d) fun _ => ?_
    refine .bind (h.discoverRound_errors hstable hfrontend hclosed) fun next hnext => ?_
    obtain ⟨batch, snapshot, hround⟩ := discoverRound_eq_ok hfrontend hnext
    exact ih (h.round hround)

end Errors

end Zryna.Driver.ModuleClosure
