import Zryna.Driver.ModuleClosure.ImportGraph

/-!
# Batches

What discovery has in hand after it read modules and analyzed them: the texts that were read, a
source map with exactly these files, and the imports of each. The errors on the way are budgets
when the modules exist and parse.
-/

namespace Zryna.Driver.ModuleClosure

open OrderedMap List

open Checked (ErrorsIn bind_eq_ok ite_error_eq_ok)

variable {WorkerError : Type} {timedOut : WorkerError → Prop}

/-! ### Reading -/

section Reading

variable {workspace : Workspace} {batch batch' : Batch}

def textBytes (sources : List (NormalizedSourcePath × StableSource)) : ℕ :=
  (sources.map fun source => utf8Length source.2.text.toList).sum

theorem textBytes_append (sources sources' : List (NormalizedSourcePath × StableSource)) :
    textBytes (sources ++ sources') = textBytes sources + textBytes sources' := by
  rw [textBytes, map_append, sum_append]
  rfl

theorem textBytes_perm {sources sources' : List (NormalizedSourcePath × StableSource)}
    (h : sources.Perm sources') : textBytes sources = textBytes sources' :=
  (h.map _).sum_nat

theorem readOne_eq_ok {path : NormalizedSourcePath}
    (h : readOne workspace batch path = (.ok batch' : Except (ModuleClosureError WorkerError) _)) :
    ∃ stable, workspace.readSource path = .ok stable
      ∧ batch' = ⟨batch.stable.insert path stable, batch.bytes + utf8Length stable.text.toList,
        batch.aggregateBytes + utf8Length stable.text.toList⟩
      ∧ batch'.aggregateBytes ≤ maxModuleSourceBytes := by
  obtain ⟨stable, hstable, h⟩ := bind_eq_ok.mp h
  obtain ⟨bytes, hbytes, h⟩ := bind_eq_ok.mp h
  obtain ⟨aggregateBytes, haggregate, h⟩ := bind_eq_ok.mp h
  obtain ⟨hle, h⟩ := ite_error_eq_ok.mp h
  obtain rfl := checkedAdd_eq_ok hbytes
  obtain rfl := checkedAdd_eq_ok haggregate
  cases h
  exact ⟨stable, Checked.mapError_eq_ok.mp hstable, rfl, Nat.not_lt.mp hle⟩

variable {paths : List NormalizedSourcePath}

theorem readAll_eq_ok (h : paths.foldlM (readOne workspace) batch
      = (.ok batch' : Except (ModuleClosureError WorkerError) _)) :
    ∃ sources, sources.map Prod.fst = paths
      ∧ (∀ source ∈ sources, workspace.readSource source.1 = .ok source.2)
      ∧ batch'.stable = batch.stable.insertAll sources
      ∧ batch'.bytes = batch.bytes + textBytes sources
      ∧ batch'.aggregateBytes = batch.aggregateBytes + textBytes sources
      ∧ (batch.aggregateBytes ≤ maxModuleSourceBytes →
        batch'.aggregateBytes ≤ maxModuleSourceBytes) := by
  induction paths generalizing batch with
  | nil =>
    rw [foldlM_nil, Checked.pure_eq_ok] at h
    subst h
    exact ⟨[], rfl, nofun, rfl, rfl, rfl, id⟩
  | cons path paths ih =>
    rw [foldlM_cons, bind_eq_ok] at h
    obtain ⟨next, hnext, h⟩ := h
    obtain ⟨stable, hread, rfl, hle⟩ := readOne_eq_ok hnext
    obtain ⟨sources, rfl, hsources, hstable, hbytes, haggregate, hmax⟩ := ih h
    refine ⟨(path, stable) :: sources, rfl, forall_mem_cons.mpr ⟨hread, hsources⟩, hstable,
      ?_, ?_, fun _ => hmax hle⟩
    · rw [hbytes, textBytes, textBytes, map_cons, sum_cons, Nat.add_assoc]
    · rw [haggregate, textBytes, textBytes, map_cons, sum_cons, Nat.add_assoc]

/-- A batch holds the modules that were pending. -/
structure Batch.Of (workspace : Workspace) (d : Discovery) (batch : Batch) : Prop where
  read : ∀ source ∈ batch.stable.entries, workspace.readSource source.1 = .ok source.2
  keys : ∀ path, path ∈ batch.stable.keys ↔ path ∈ d.pending.keys
  size : batch.stable.size = d.pending.size
  bytes : batch.bytes = textBytes batch.stable.entries
  aggregate : batch.aggregateBytes = d.aggregateBytes + textBytes batch.stable.entries
  aggregate_le : d.aggregateBytes ≤ maxModuleSourceBytes →
    batch.aggregateBytes ≤ maxModuleSourceBytes

theorem readPending_eq_ok {d : Discovery}
    (h : d.pending.keys.foldlM (readOne workspace) ⟨.empty, 0, d.aggregateBytes⟩
      = (.ok batch : Except (ModuleClosureError WorkerError) _)) : batch.Of workspace d := by
  obtain ⟨sources, hkeys, hread, hstable, hbytes, haggregate, hle⟩ := readAll_eq_ok h
  have hperm : batch.stable.entries.Perm sources := by
    rw [hstable]
    exact perm_insertAll_empty (hkeys ▸ d.pending.nodup_keys)
  have htext : textBytes sources = textBytes batch.stable.entries := textBytes_perm hperm.symm
  refine ⟨fun source hmem => hread source (hperm.mem_iff.mp hmem), fun path => ?_, ?_, ?_, ?_, hle⟩
  · rw [← hkeys, OrderedMap.keys, (hperm.map Prod.fst).mem_iff]
  · rw [size, hperm.length_eq, ← d.pending.length_keys, ← hkeys, length_map]
  · rw [hbytes, Nat.zero_add, htext]
  · rw [haggregate, htext]

theorem Batch.sorted_inputs (batch : Batch) :
    batch.inputs.Pairwise fun left right => left.path < right.path := by
  rw [Batch.inputs, pairwise_map]
  exact batch.stable.sorted

theorem Batch.nodup_inputs (batch : Batch) : (batch.inputs.map SourceFileInput.path).Nodup := by
  rw [List.Nodup, pairwise_map]
  exact batch.sorted_inputs.imp fun hlt => hlt.ne

theorem readAll_errors (h : ∀ path ∈ paths, ∃ stable, workspace.readSource path = .ok stable) :
    ErrorsIn (OverBudget timedOut) (paths.foldlM (readOne workspace) batch) := by
  refine .foldlM fun before path after batch heq _ => ?_
  obtain ⟨stable, hread⟩ := h path (heq ▸ mem_append_right _ mem_cons_self)
  unfold readOne
  rw [hread]
  refine .bind (.ok stable) fun stable _ => ?_
  refine .bind (checkedAdd_errors _ _) fun bytes _ => ?_
  refine .bind (checkedAdd_errors _ _) fun aggregateBytes _ => ?_
  exact .ite (fun _ => .error (overBudget_budgetRejection _)) fun _ => .ok _

end Reading

/-! ### Source maps -/

section SourceMaps

variable {inputs sources : List SourceFileInput} {accepted : List SourceFileInput}

theorem sourceMapFiles_eq_some
    (h : inputs.foldlM sourceMapFile accepted = some sources) : sources = accepted ++ inputs := by
  induction inputs generalizing accepted with
  | nil =>
    cases h
    exact (append_nil _).symm
  | cons input inputs ih =>
    rw [foldlM_cons, Option.bind_eq_bind, Option.bind_eq_some_iff] at h
    obtain ⟨next, hnext, h⟩ := h
    unfold sourceMapFile at hnext
    split at hnext
    · cases hnext
    split at hnext
    · cases hnext
    cases hnext
    rw [ih h, append_assoc, singleton_append]

theorem sourceMapFiles_ok (hapart : (accepted ++ inputs).Pairwise fun left right =>
      left.path.portableIdentity ≠ right.path.portableIdentity)
    (hbytes : ((accepted ++ inputs).map fun file => utf8Length file.text.toList).sum
      ≤ maxSourceBytes) : inputs.foldlM sourceMapFile accepted = some (accepted ++ inputs) := by
  induction inputs generalizing accepted with
  | nil =>
    rw [append_nil]
    rfl
  | cons input inputs ih =>
    have hsplit : accepted ++ input :: inputs = (accepted ++ [input]) ++ inputs := by simp
    rw [hsplit] at hapart hbytes ⊢
    have hnone : ¬accepted.any fun file =>
        file.path.portableIdentity = input.path.portableIdentity := by
      rw [any_eq_true]
      rintro ⟨file, hfile, heq⟩
      have hfirst := (pairwise_append.mp hapart).1
      exact (pairwise_append.mp hfirst).2.2 file hfile input (mem_singleton_self _)
        (of_decide_eq_true heq)
    have hfits : ¬((accepted ++ [input]).map fun file => utf8Length file.text.toList).sum
        > maxSourceBytes := by
      rw [map_append, sum_append] at hbytes
      omega
    have hfile : sourceMapFile accepted input = some (accepted ++ [input]) := by
      rw [sourceMapFile, if_neg hnone, if_neg hfits]
    rw [foldlM_cons, hfile]
    exact ih hapart hbytes

variable (hsorted : inputs.Pairwise fun left right => left.path < right.path)
include hsorted

theorem mergeSort_inputs : inputs.mergeSort (fun left right => left.path ≤ right.path) = inputs :=
  mergeSort_of_pairwise (hsorted.imp fun hlt => decide_eq_true hlt.le)

/-- The source map of inputs in path order has exactly these files. -/
theorem buildSourceMap_eq_some (h : buildSourceMap inputs = some sources) : sources = inputs := by
  unfold buildSourceMap at h
  rw [mergeSort_inputs hsorted] at h
  split at h
  · cases h
  dsimp only at h
  split at h
  · cases h
  exact sourceMapFiles_eq_some h

theorem sourceMap_eq_ok {ε : Type} {error : ε}
    (h : (buildSourceMap inputs).elim (.error error) Except.ok = .ok sources) :
    sources = inputs := by
  cases hmap : buildSourceMap inputs with
  | none =>
    rw [hmap] at h
    cases h
  | some built =>
    rw [hmap] at h
    cases h
    exact buildSourceMap_eq_some hsorted hmap

theorem buildSourceMap_ok (hlength : inputs.length ≤ maxSourceFiles)
    (htext : ∀ input ∈ inputs, utf8Length input.text.toList ≤ maxSourceFileBytes)
    (hapart : ∀ left ∈ inputs, ∀ right ∈ inputs,
      left.path.portableIdentity = right.path.portableIdentity → left.path = right.path)
    (hbytes : (inputs.map fun file => utf8Length file.text.toList).sum ≤ maxSourceBytes) :
    buildSourceMap inputs = some inputs := by
  have htext' : ¬inputs.any fun input => utf8Length input.text.toList > maxSourceFileBytes := by
    rw [any_eq_true]
    rintro ⟨input, hmem, hlt⟩
    exact absurd (of_decide_eq_true hlt) (Nat.not_lt.mpr (htext input hmem))
  have hapart' : inputs.Pairwise fun left right =>
      left.path.portableIdentity ≠ right.path.portableIdentity :=
    hsorted.imp_of_mem fun hleft hright hlt heq => hlt.ne (hapart _ hleft _ hright heq)
  unfold buildSourceMap
  rw [mergeSort_inputs hsorted, if_neg (Nat.not_lt.mpr hlength)]
  dsimp only
  rw [if_neg htext']
  exact sourceMapFiles_ok hapart' hbytes

end SourceMaps

/-! ### Provider work -/

theorem accountProviderCallUnits_errors (calls : ℕ) (phase : ProviderCallPhase) (workUnits : ℕ) :
    ErrorsIn (OverBudget timedOut) (accountProviderCallUnits calls phase workUnits) := by
  unfold accountProviderCallUnits
  refine .ite (fun _ => .error (overBudget_budgetRejection _)) fun _ => ?_
  refine .bind (checkedAdd_errors _ _) fun calls _ => ?_
  cases phase with
  | discovery =>
    refine .bind (checkedAdd_errors _ _) fun reserved _ => ?_
    exact .ite (fun _ => .error (overBudget_budgetRejection _)) fun _ => .ok _
  | final => exact .ite (fun _ => .error (overBudget_budgetRejection _)) fun _ => .ok _

theorem accountProviderBytes_errors (total input : ℕ) :
    ErrorsIn (OverBudget timedOut) (accountProviderBytes total input) := by
  refine .bind (checkedAdd_errors _ _) fun total _ => ?_
  exact .ite (fun _ => .error (overBudget_budgetRejection _)) fun _ => .ok _

theorem accountProviderWork_errors (calls bytes inputBytes aggregateBytes workUnits : ℕ)
    (phase : ProviderCallPhase) : ErrorsIn (OverBudget timedOut)
      (accountProviderWork calls bytes inputBytes aggregateBytes workUnits phase) := by
  unfold accountProviderWork
  refine .bind (accountProviderCallUnits_errors _ _ _) fun nextCalls _ => ?_
  refine .ite (fun _ => .error (overBudget_budgetRejection _)) fun _ => ?_
  refine .bind (accountProviderBytes_errors _ _) fun nextBytes _ => ?_
  cases phase with
  | discovery =>
    refine .ite (fun _ => .error (overBudget_budgetRejection _)) fun _ => ?_
    exact .bind (accountProviderBytes_errors _ _) fun _ _ => .ok _
  | final => exact .ok _

theorem enforceDiscoveryWallTime_errors (started current : ℕ) :
    ErrorsIn (OverBudget timedOut) (enforceDiscoveryWallTime started current) :=
  .ite (fun _ => .error (overBudget_budgetRejection _)) fun _ => .ok _

theorem remainingDiscoveryWallTime_errors (started current minimumProviderTimeout : ℕ) :
    ErrorsIn (OverBudget timedOut)
      (remainingDiscoveryWallTime started current minimumProviderTimeout) :=
  .ite (fun _ => .error (overBudget_budgetRejection _)) fun _ =>
    .ite (fun _ => .error (overBudget_budgetRejection _)) fun _ =>
      .ite (fun _ => .error (overBudget_budgetRejection _)) fun _ => .ok _

/-! ### Analysis -/

section Analysis

variable {frontend : Frontend WorkerError}
  {parse : SourceFileInput → Option (List ImportFingerprint)}
  {clock : ℕ → ℕ} {reading : ℕ} {inputs : List SourceFileInput} {snapshot : ProjectSyntaxSnapshot}

structure Parsed (parse : SourceFileInput → Option (List ImportFingerprint))
    (inputs : List SourceFileInput) (snapshot : ProjectSyntaxSnapshot) : Prop where
  sources : snapshot.sources = inputs
  files : List.Forall₂ (fun input file =>
    file.path = input.path ∧ parse input = some file.fingerprints) inputs snapshot.files

theorem analyzeWithin_eq_ok (hfrontend : frontend.PerFile timedOut parse)
    (h : analyzeWithin frontend clock inputs reading = .ok snapshot) :
    Parsed parse inputs snapshot := by
  obtain ⟨remaining, -, h⟩ := bind_eq_ok.mp h
  obtain ⟨⟨⟩, -, h⟩ := bind_eq_ok.mp h
  obtain ⟨analyzed, hanalyzed, h⟩ := bind_eq_ok.mp h
  obtain ⟨⟨⟩, hrejected, h⟩ := bind_eq_ok.mp h
  cases h
  have herrors : snapshot.hasErrors = false := by
    simpa using (ite_error_eq_ok.mp hrejected).1
  obtain ⟨hsources, hfiles⟩ := hfrontend.files hanalyzed herrors
  exact ⟨hsources, hfiles⟩

theorem analyzeWithin_errors (hfrontend : frontend.PerFile timedOut parse)
    (hparse : ∀ input ∈ inputs, (parse input).isSome) :
    ErrorsIn (OverBudget timedOut) (analyzeWithin frontend clock inputs reading) := by
  refine .bind (remainingDiscoveryWallTime_errors _ _ _) fun remaining _ => ?_
  refine .bind (enforceDiscoveryWallTime_errors _ _) fun _ _ => ?_
  refine .bind (hfrontend.errors hparse) fun snapshot hsnapshot => ?_
  have haccepted := hfrontend.accepts hparse hsnapshot
  refine .bind (.ite (fun herrors => ?_) fun _ => .ok ()) fun _ _ => .ok snapshot
  rw [haccepted] at herrors
  cases herrors

section

variable (h : Parsed parse inputs snapshot)

include h

theorem Parsed.map_files :
    snapshot.files.map (fun file => (file.path, some file.fingerprints))
      = inputs.map fun input => (input.path, parse input) := by
  obtain ⟨-, hfiles⟩ := h
  generalize snapshot.files = files at hfiles
  induction hfiles with
  | nil => rfl
  | cons hfile _ ih => rw [map_cons, map_cons, hfile.1, hfile.2, ih]

theorem Parsed.paths : snapshot.files.map SourceUnit.path = inputs.map SourceFileInput.path := by
  have hmap := congrArg (List.map Prod.fst) h.map_files
  rwa [map_map, map_map] at hmap

variable (hnodup : (inputs.map SourceFileInput.path).Nodup)

include hnodup

theorem Parsed.perm_fingerprints :
    (snapshotFingerprints snapshot).entries.Perm
      (snapshot.files.map fun file => (file.path, file.fingerprints)) := by
  refine perm_insertAll_empty ?_
  rw [map_map]
  exact h.paths ▸ hnodup

theorem Parsed.get?_fingerprints {path : NormalizedSourcePath} {imports : List ImportFingerprint} :
    (snapshotFingerprints snapshot).get? path = some imports ↔
      ∃ input ∈ inputs, input.path = path ∧ parse input = some imports := by
  have hmem : (∃ input ∈ inputs, input.path = path ∧ parse input = some imports) ↔
      (path, some imports) ∈ inputs.map fun input => (input.path, parse input) := by
    simp only [mem_map, Prod.mk.injEq]
  rw [get?_eq_some, (h.perm_fingerprints hnodup).mem_iff, hmem, ← h.map_files]
  simp only [mem_map, Prod.mk.injEq, Option.some.injEq]

end

variable {batch : Batch} {source : NormalizedSourcePath × StableSource}

section

variable (h : Parsed parse batch.inputs snapshot)

include h

theorem Parsed.importsIn_batch (hsource : source ∈ batch.stable.entries) :
    ∃ imports, (snapshotFingerprints snapshot).get? source.1 = some imports
      ∧ importsIn (snapshotFingerprints snapshot) source.1 = imports
      ∧ parse ⟨source.1, source.2.text⟩ = some imports := by
  have hmap := h.map_files
  have hinput : (⟨source.1, source.2.text⟩ : SourceFileInput) ∈ batch.inputs :=
    mem_map_of_mem hsource
  have hmem : (source.1, parse ⟨source.1, source.2.text⟩) ∈
      batch.inputs.map fun input => (input.path, parse input) := mem_map_of_mem hinput
  rw [← hmap, mem_map] at hmem
  obtain ⟨file, -, heq⟩ := hmem
  obtain ⟨hpath, hparse⟩ := Prod.mk.inj heq
  have hget := (h.get?_fingerprints batch.nodup_inputs).mpr ⟨_, hinput, rfl, hparse.symm⟩
  exact ⟨_, hget, by rw [importsIn, hget]; rfl, hparse.symm⟩

/-- The imports in a snapshot have bindings. -/
theorem Parsed.bound_batch (hsource : source ∈ batch.stable.entries) :
    ∀ declaration ∈ importsIn (snapshotFingerprints snapshot) source.1,
      declaration.bindings ≠ [] := by
  obtain ⟨imports, hget, hin, -⟩ := h.importsIn_batch hsource
  rw [get?_eq_some, (h.perm_fingerprints batch.nodup_inputs).mem_iff] at hget
  obtain ⟨file, -, heq⟩ := mem_map.mp hget
  rw [hin, ← (Prod.mk.inj heq).2]
  intro declaration hmem
  obtain ⟨declared, -, rfl⟩ := mem_map.mp hmem
  exact fun hnil => declared.bindings_ne (map_eq_nil_iff.mp hnil)

theorem Parsed.get?_fingerprints_ne_none (path : NormalizedSourcePath) :
    (snapshotFingerprints snapshot).get? path ≠ none ↔ path ∈ batch.stable.keys := by
  constructor
  · intro hne
    obtain ⟨imports, hget⟩ := Option.ne_none_iff_exists'.mp hne
    obtain ⟨input, hinput, rfl, -⟩ := (h.get?_fingerprints batch.nodup_inputs).mp hget
    obtain ⟨source, hsource, rfl⟩ := mem_map.mp hinput
    exact mem_map_of_mem hsource
  · intro hmem
    obtain ⟨source, hsource, rfl⟩ := mem_map.mp hmem
    obtain ⟨imports, hget, -, -⟩ := h.importsIn_batch hsource
    exact Option.ne_none_iff_exists'.mpr ⟨imports, hget⟩

end

theorem Parsed.size_fingerprints (h : Parsed parse inputs snapshot)
    (hnodup : (inputs.map SourceFileInput.path).Nodup) :
    (snapshotFingerprints snapshot).size = inputs.length := by
  rw [size, (h.perm_fingerprints hnodup).length_eq, length_map, h.files.length_eq]

end Analysis

end Zryna.Driver.ModuleClosure
