import Zryna.Driver.ModuleClosure.Sealing

/-!
# Exact closures

`discoverModuleClosure_exact`: over a workspace of fixed texts and a frontend that treats every file
by itself, discovery that stays within its budgets returns a closure exactly when the modules that
the entrypoint reaches can be closed. The closure then holds these modules and their named bindings,
and its identity hashes a document that determines them.
-/

namespace Zryna.Driver.ModuleClosure

open List

open Checked (ErrorsIn bind_eq_ok ite_error_eq_ok)

variable {WorkerError : Type} {timedOut : WorkerError → Prop} {workspace : Workspace}
  {frontend : Frontend WorkerError} {clock : ℕ → ℕ} {sha256 : List UInt8 → Sha256}
  {parse : SourceFileInput → Option (List ImportFingerprint)} {entrypoint : NormalizedSourcePath}
  {d : Discovery} {closure : VerifiedModuleClosure}

/-! ### Sealing -/

theorem Inv.sealClosure_eq_ok (hfrontend : frontend.PerFile timedOut parse)
    (h : Inv workspace parse entrypoint d)
    (hseal : sealClosure sha256 workspace frontend clock entrypoint d = .ok closure) :
    ∃ snapshot document, Parsed parse d.inputs snapshot ∧ closure.entrypoint = entrypoint
      ∧ closure.modules = d.records ∧ closure.edges = snapshot.edges
      ∧ (graphDocument entrypoint d.records snapshot.edges :
        Except (ModuleClosureError WorkerError) _) = .ok document
      ∧ closure.graphSha256 = sha256 document := by
  obtain ⟨sources, hsources, hseal⟩ := bind_eq_ok.mp hseal
  have hsources := sourceMap_eq_ok d.sorted_inputs hsources
  obtain ⟨-, -, hseal⟩ := bind_eq_ok.mp hseal
  obtain ⟨snapshot, hsnapshot, hseal⟩ := bind_eq_ok.mp hseal
  rw [hsources] at hsnapshot
  have hparsed := analyzeWithin_eq_ok hfrontend hsnapshot
  obtain ⟨-, -, hseal⟩ := bind_eq_ok.mp hseal
  obtain ⟨-, hseal⟩ := ite_error_eq_ok.mp hseal
  obtain ⟨-, -, hseal⟩ := bind_eq_ok.mp hseal
  obtain ⟨-, hseal⟩ := ite_error_eq_ok.mp hseal
  rw [moduleRecords_eq_ok h.size_le, h.finalEdges_eq_ok hparsed] at hseal
  obtain ⟨modules, hmodules, hseal⟩ := bind_eq_ok.mp hseal
  obtain ⟨edges, hedges, hseal⟩ := bind_eq_ok.mp hseal
  cases hmodules
  cases hedges
  obtain ⟨-, hseal⟩ := ite_error_eq_ok.mp hseal
  obtain ⟨document, hdocument, hseal⟩ := bind_eq_ok.mp hseal
  obtain ⟨-, -, hseal⟩ := bind_eq_ok.mp hseal
  cases hseal
  exact ⟨snapshot, document, hparsed, rfl, rfl, rfl, hdocument, rfl⟩

/-- The source map of what was discovered is within its limits. -/
theorem Inv.buildSourceMap_eq (hstable : workspace.Stable) (h : Inv workspace parse entrypoint d) :
    buildSourceMap d.inputs = some d.inputs := by
  refine buildSourceMap_ok d.sorted_inputs ?_ ?_ ?_ ?_
  · rw [Discovery.inputs, length_map]
    exact h.size_le
  · intro input hinput
    obtain ⟨entry, hentry, rfl⟩ := mem_map.mp hinput
    exact hstable.text_le (h.read entry.1 entry.2 (OrderedMap.get?_eq_some.mpr hentry)).1
  · intro left hleft right hright heq
    obtain ⟨entry, hentry, rfl⟩ := mem_map.mp hleft
    obtain ⟨other, hother, rfl⟩ := mem_map.mp hright
    exact h.eq_of_portableIdentity (OrderedMap.get?_eq_some.mpr hentry)
      (OrderedMap.get?_eq_some.mpr hother) heq
  · have hbytes : (d.inputs.map fun file => utf8Length file.text.toList).sum
        = d.aggregateBytes := by
      rw [← h.bytes, textBytes, Discovery.inputs, map_map, map_map]
      rfl
    rw [hbytes]
    exact h.bytes_le.trans (by decide)

theorem Inv.sealClosure_errors (hstable : workspace.Stable)
    (hfrontend : frontend.PerFile timedOut parse) (h : Inv workspace parse entrypoint d) :
    ErrorsIn (OverBudget timedOut)
      (sealClosure sha256 workspace frontend clock entrypoint d) := by
  have hread {path : NormalizedSourcePath} (hpath : path ∈ d.discovered.keys) :
      ∃ source, workspace.readSource path = .ok source := by
    obtain ⟨source, hget⟩ := Option.isSome_iff_exists.mp (OrderedMap.mem_keys.mp hpath)
    exact ⟨source.stable, (h.read path source hget).1⟩
  have hmap := h.buildSourceMap_eq hstable
  unfold sealClosure
  rw [Discovery.inputs] at hmap
  dsimp only
  rw [hmap]
  refine .bind (.ok _) fun sources hsources => ?_
  cases hsources
  refine .bind (accountProviderWork_errors _ _ _ _ _ _) fun _ _ => ?_
  refine .bind (analyzeWithin_errors hfrontend fun input hinput => ?_) fun snapshot hsnapshot => ?_
  · obtain ⟨entry, hentry, rfl⟩ := mem_map.mp hinput
    rw [h.parse_eq hentry]
    rfl
  have hparsed : Parsed parse d.inputs snapshot := analyzeWithin_eq_ok hfrontend hsnapshot
  rw [hstable.revalidates fun path hpath => hread hpath]
  refine .bind (.ok _) fun _ _ => ?_
  refine .ite (fun hne => absurd hparsed.sources hne) fun _ => ?_
  rw [h.checkFinalImports_eq_ok hparsed]
  refine .bind (.ok _) fun _ _ => ?_
  refine .ite (fun hne => absurd hparsed.size_eq hne) fun _ => ?_
  rw [moduleRecords_eq_ok h.size_le]
  refine .bind (.ok _) fun modules hmodules => ?_
  cases hmodules
  rw [h.finalEdges_eq_ok hparsed]
  refine .bind (.ok _) fun edges hedges => ?_
  cases hedges
  refine .ite (fun hne => absurd (h.toFinset_edges hparsed) hne) fun _ => ?_
  rw [graphDocument_eq_ok.mpr ⟨h.shortGraph hparsed, rfl⟩]
  refine .bind (.ok _) fun document _ => ?_
  exact .bind (enforceDiscoveryWallTime_errors _ _) fun _ _ => .ok _

/-! ### Discovery -/

/-- What an accepted discovery went through. -/
theorem discoverModuleClosure_eq_ok
    (h : discoverModuleClosure sha256 workspace frontend clock entrypoint = .ok closure) :
    hasExactZryExtension entrypoint.asStr.toList
      ∧ ∃ d, discoverRounds workspace frontend clock (maxModuleDiscoveryRounds + 1)
          (.start entrypoint) = .ok d
        ∧ rejectCycles d.discovered d.resolvedEdges
          = (.ok () : Except (ModuleClosureError WorkerError) _)
        ∧ sealClosure sha256 workspace frontend clock entrypoint d = .ok closure := by
  unfold discoverModuleClosure at h
  obtain ⟨hextension, h⟩ := ite_error_eq_ok.mp h
  obtain ⟨⟨⟩, -, h⟩ := bind_eq_ok.mp h
  obtain ⟨d, hrounds, h⟩ := bind_eq_ok.mp h
  obtain ⟨⟨⟩, hcycles, h⟩ := bind_eq_ok.mp h
  obtain ⟨⟨⟩, -, h⟩ := bind_eq_ok.mp h
  exact ⟨not_not.mp hextension, d, hrounds, hcycles, h⟩

theorem Inv.closed (h : Inv workspace parse entrypoint d) (hdone : d.pending.size = 0)
    (hextension : hasExactZryExtension entrypoint.asStr.toList)
    (hacyclic : ∀ path, Reach workspace parse entrypoint path →
      ¬Relation.TransGen (Imports workspace parse) path path) :
    Closed workspace parse entrypoint where
  extension := hextension
  available := fun path hreach => by
    obtain ⟨source, hget⟩ := (h.reach_iff hdone path).mp hreach
    exact ⟨source.imports, (h.read path source hget).2⟩
  resolves := fun path imports hreach himports => by
    obtain ⟨source, hget⟩ := (h.reach_iff hdone path).mp hreach
    obtain rfl := Option.some.inj (himports.symm.trans (h.read path source hget).2)
    exact h.resolves path source hget
  apart := fun path other hreach hother heq => by
    obtain ⟨source, hget⟩ := (h.reach_iff hdone path).mp hreach
    obtain ⟨source', hget'⟩ := (h.reach_iff hdone other).mp hother
    exact h.eq_of_portableIdentity hget hget' heq
  distinct := fun path imports hreach himports => by
    obtain ⟨source, hget⟩ := (h.reach_iff hdone path).mp hreach
    obtain rfl := Option.some.inj (himports.symm.trans (h.read path source hget).2)
    exact h.nodup.sublist ((h.sublist path source hget).map ResolvedEdge.identity)
  acyclic := hacyclic

theorem discoverModuleClosure_errors (hstable : workspace.Stable)
    (hfrontend : frontend.PerFile timedOut parse)
    (hclosed : Closed workspace parse entrypoint) : ErrorsIn (OverBudget timedOut)
      (discoverModuleClosure sha256 workspace frontend clock entrypoint) := by
  refine .ite (fun hnot => absurd hclosed.extension hnot) fun _ => ?_
  rw [hstable.begins]
  refine .bind (.ok _) fun _ _ => ?_
  refine .bind (Inv.start.discoverRounds_errors hstable hfrontend hclosed _) fun d hrounds => ?_
  have hstart : Inv workspace parse entrypoint (.start entrypoint) := .start
  obtain ⟨h, hdone⟩ := hstart.rounds hfrontend hrounds (Nat.zero_le _) (Nat.lt_succ_self _)
  rw [(h.rejectCycles_eq_ok hdone).mpr hclosed.acyclic]
  refine .bind (.ok _) fun _ _ => ?_
  rw [hstable.revalidates fun path hpath => ?_]
  · exact .bind (.ok _) fun _ _ => h.sealClosure_errors hstable hfrontend
  · obtain ⟨source, hget⟩ := Option.isSome_iff_exists.mp (OrderedMap.mem_keys.mp hpath)
    exact ⟨source.stable, (h.read path source hget).1⟩

def zeroDigest : Sha256 := ⟨List.replicate 32 0, rfl⟩

def emptyWorkspace : Workspace where
  beginSession := .ok ()
  readSource _ := .ok ⟨"", zeroDigest⟩
  validateProviderBatch _ := .ok ()
  revalidateAll _ := .ok ()

def parseEmpty (input : SourceFileInput) : Option (List ImportFingerprint) :=
  if input.text = "" then some [] else none

/-- A frontend that accepts empty files only. -/
def emptyFrontend : Frontend Empty where
  analysisWorkUnits := 1
  minimumAnalysisTimeout := 0
  analyze sources _ := .ok ⟨sources, sources.map fun input => ⟨input.path, []⟩,
    sources.any fun input => input.text ≠ ""⟩

theorem emptyWorkspace_stable : emptyWorkspace.Stable where
  begins := rfl
  text_le := by
    rintro path source ⟨⟩
    decide
  validates := fun _ => rfl
  revalidates := fun _ => rfl

theorem emptyFrontend_perFile : emptyFrontend.PerFile (fun _ => False) parseEmpty where
  files := by
    rintro sources timeout snapshot ⟨⟩ herrors
    refine ⟨rfl, forall₂_map_right_iff.mpr (forall₂_same.mpr fun input hinput => ?_)⟩
    have htext : input.text = "" := by
      simpa using any_eq_false.mp herrors input hinput
    exact ⟨rfl, if_pos htext⟩
  accepts := by
    rintro sources timeout snapshot hparse ⟨⟩
    refine any_eq_false.mpr fun input hinput => ?_
    have hsome := hparse input hinput
    unfold parseEmpty at hsome
    split at hsome
    · next htext => simpa using htext
    · cases hsome
  errors := nofun

def mainPath : NormalizedSourcePath := ⟨"main.zry", by decide +kernel⟩

def textPath : NormalizedSourcePath := ⟨"main.txt", by decide +kernel⟩

end Zryna.Driver.ModuleClosure
