import Zryna.Package.Depth
import Zryna.Package.Exact

/-!
# The resolver resolves exactly

`resolve_exact`: the resolver succeeds exactly when the packages that a root needs make a graph, and
it returns the exact graph. Both directions go through what a run does, `resolve_eq_ok`: the
packages in hand are those that the root needs, and each later check is one field of `Resolvable`.
-/

namespace Zryna.Package

open List

open Json (Value)

variable {sha256 : List UInt8 → String} {serde : Serde}
  {provider : PackageSource → Except ResolveError PackageMaterial} {root : PackageSource}

/-! ### Reading -/

theorem parse_eq_ok {α : Type} {serde : Serde} {fromValue : Value → Option α} {input : List UInt8}
    {record : α} : parse serde fromValue input = .ok record ↔
      input.length ≤ maxWireBytes ∧ checkDepth input = .ok ()
      ∧ ∃ value, serde.fromSlice input = some value ∧ encode value = input
        ∧ fromValue value = some record := by
  unfold parse
  simp only [Checked.ite_error_bind_eq_ok, Checked.bind_eq_ok, Nat.not_lt]
  constructor
  · rintro ⟨hlength, ⟨⟩, hdepth, h⟩
    split at h
    · cases h
    · next value hvalue =>
      rw [Checked.ite_error_eq_ok, not_not] at h
      obtain ⟨hencode, h⟩ := h
      split at h
      · cases h
      · next hrecord =>
        cases h
        exact ⟨hlength, hdepth, value, hvalue, hencode, hrecord⟩
  · rintro ⟨hlength, hdepth, value, hvalue, hencode, hrecord⟩
    refine ⟨hlength, (), hdepth, ?_⟩
    rw [hvalue]
    simp only [Checked.ite_error_eq_ok, not_not]
    rw [hrecord]
    exact ⟨hencode, rfl⟩

/-! ### A run -/

def ResolvedGraph.lock (graph : ResolvedGraph) : Lock :=
  lockOf graph.root graph.compatibility graph.packages

theorem resolve_eq_ok {mode : LockMode} {graph : ResolvedGraph} :
    resolve sha256 serde provider root mode = .ok graph ↔
      Validation.source root = .ok ()
      ∧ (∃ frozen, frozenLock serde mode = .ok frozen ∧ ∀ lock ∈ frozen, lock = graph.lock)
      ∧ (∃ loadedBySource rootLoaded,
        loadPackages sha256 serde provider root = .ok loadedBySource
        ∧ loadedBySource.get? root = some rootLoaded
        ∧ (∀ loaded ∈ loadedBySource.entries.map Prod.snd,
          checkCompatibility rootLoaded.manifest.compatibility loaded = .ok ())
        ∧ resolvePackages (loadedBySource.entries.map Prod.snd) = .ok graph.packages
        ∧ rejectDuplicateInstances graph.packages = .ok ()
        ∧ rejectCyclesAndOrphans rootLoaded.inst.id graph.packages = .ok ()
        ∧ graph.root = rootLoaded.inst.id
        ∧ graph.compatibility = rootLoaded.manifest.compatibility)
      ∧ graph.lockBytes = encode graph.lock.toValue
      ∧ graph.lockSha256 = digest sha256 "lock" graph.lock.toValue := by
  unfold resolve
  simp only [Checked.bind_eq_ok]
  constructor
  · rintro ⟨⟨⟩, hsource, frozen, hfrozen, loadedBySource, hload, h⟩
    split at h
    · cases h
    · next rootLoaded hroot =>
      simp only [Checked.bind_eq_ok, Checked.ite_error_bind_eq_ok, Except.ok.injEq,
        Option.any_eq_true, decide_eq_true_eq, not_exists, not_and, not_not] at h
      obtain ⟨⟨⟩, hcompatible, packages, hpackages, ⟨⟩, hduplicates, ⟨⟩, hcycles, hlock, rfl⟩ := h
      exact ⟨hsource, ⟨frozen, hfrozen, hlock⟩, ⟨loadedBySource, rootLoaded, hload, hroot,
        Checked.forM_eq_ok.mp hcompatible, hpackages, hduplicates, hcycles, rfl, rfl⟩, rfl, rfl⟩
  · obtain ⟨graphRoot, compatibility, packages, lockBytes, lockSha256⟩ := graph
    rintro ⟨hsource, ⟨frozen, hfrozen, hlock⟩, ⟨loadedBySource, rootLoaded, hload, hroot,
      hcompatible, hpackages, hduplicates, hcycles, rfl, rfl⟩, hbytes, hdigest⟩
    refine ⟨(), hsource, frozen, hfrozen, loadedBySource, hload, ?_⟩
    rw [hroot]
    obtain rfl : lockBytes = encode
      (lockOf rootLoaded.inst.id rootLoaded.manifest.compatibility packages).toValue := hbytes
    obtain rfl : lockSha256 = digest sha256 "lock"
      (lockOf rootLoaded.inst.id rootLoaded.manifest.compatibility packages).toValue := hdigest
    simp only [Checked.bind_eq_ok, Checked.ite_error_bind_eq_ok, Except.ok.injEq,
      Option.any_eq_true, decide_eq_true_eq, not_exists, not_and, not_not]
    exact ⟨(), Checked.forM_eq_ok.mpr hcompatible, packages, hpackages, (), hduplicates, (),
      hcycles, hlock, rfl⟩

/-- A request without a lock asks nothing of it. -/
theorem exists_frozenLock_update {graph : ResolvedGraph} :
    ∃ frozen, frozenLock serde .update = .ok frozen ∧ ∀ lock ∈ frozen, lock = graph.lock :=
  ⟨none, rfl, fun _ h => nomatch h⟩

/-! ### What a run finds -/

theorem rel_of_mem_zip_tail {α : Type} {R : α → α → Prop} {xs : List α} (h : xs.Pairwise R)
    {pair : α × α} (hpair : pair ∈ xs.zip xs.tail) : R pair.1 pair.2 := by
  induction h with
  | nil => cases hpair
  | @cons x xs hx _ ih =>
    cases xs with
    | nil => cases hpair
    | cons y ys =>
      rw [tail_cons, zip_cons_cons, mem_cons] at hpair
      obtain rfl | hpair := hpair
      · exact hx y mem_cons_self
      · exact ih hpair

theorem ExactPackages.rejectDuplicateInstances_eq_ok {packages : List ResolvedPackage}
    (h : ExactPackages sha256 serde provider root packages) :
    rejectDuplicateInstances packages = .ok () := by
  unfold rejectDuplicateInstances
  rw [if_neg]
  simp only [any_eq_true, Bool.and_eq_true, decide_eq_true_eq, not_exists, not_and]
  intro pair hpair hid
  exact absurd hid (rel_of_mem_zip_tail h.sorted hpair).ne

theorem ExactPackages.exists_root {packages : List ResolvedPackage}
    (h : ExactPackages sha256 serde provider root packages) {rootLoaded : Loaded}
    (hroot : Authentic sha256 serde provider root rootLoaded) :
    ∃ package ∈ packages, package.source = root ∧ package.inst.id = rootLoaded.inst.id := by
  obtain ⟨package, hpackage, hsource⟩ := (h.lists root).mp .refl
  obtain ⟨loaded, hloaded, hinst, -⟩ := h.authentic package hpackage
  rw [hsource] at hloaded
  exact ⟨package, hpackage, hsource, by rw [hinst, hloaded.unique hroot]⟩

theorem resolvable_of_resolve (hdigest : DigestInjective sha256 serde provider root)
    {graph : ResolvedGraph} (h : resolve sha256 serde provider root .update = .ok graph) :
    Resolvable sha256 serde provider root ∧ Exact sha256 serde provider root graph := by
  rw [resolve_eq_ok] at h
  obtain ⟨hsource, -, ⟨loadedBySource, rootLoaded, hload, hroot, hcompatible, hpackages, -,
    hcycles, hgraphRoot, hgraphCompatibility⟩, -, -⟩ := h
  have hgathered := gathered hload
  have hrootAuthentic : Authentic sha256 serde provider root rootLoaded :=
    loadPackage_eq_ok.mp ((get?_collect hload root rootLoaded).mp hroot).2
  obtain ⟨resolved, hresolved, hsorted⟩ := (resolvePackages_eq_ok hgathered).mp hpackages
  have hexact : ExactPackages sha256 serde provider root graph.packages :=
    hsorted ▸ exactPackages hdigest hgathered hresolved
  refine ⟨⟨hsource, hgathered.authentic, ?_, ?_, ?_, ?_⟩, hexact, rootLoaded, hrootAuthentic,
    hgraphRoot, hgraphCompatibility⟩
  · refine ⟨loadedBySource.keys.toFinset, fun source => ?_, ?_⟩
    · rw [mem_toFinset, OrderedMap.mem_keys, Option.isSome_iff_exists, ← needed_iff]
      constructor
      · rintro ⟨loaded, hloaded⟩
        exact ((get?_collect hload source loaded).mp hloaded).1
      · exact isSome_collect hload
    · exact (toFinset_card_le _).trans
        (OrderedMap.length_keys loadedBySource ▸ size_collect hload)
  · intro source loaded hclosure hloaded dependency hdependency target htarget
    obtain ⟨package, -, hresolves⟩ :=
      exists_right hresolved ((hgathered.mem_iff loaded).mpr ⟨source, hclosure, hloaded⟩)
    obtain ⟨edge, -, target', htarget', hcoordinate, -⟩ :=
      exists_right hresolves.edges hdependency
    rw [hcoordinate, htarget'.unique htarget]
  · intro rootLoaded' hrootLoaded' source loaded hclosure hloaded
    rw [hrootLoaded'.unique hrootAuthentic]
    exact checkCompatibility_eq_ok.mp
      (hcompatible loaded ((hgathered.mem_iff loaded).mpr ⟨source, hclosure, hloaded⟩))
  · obtain ⟨package, hpackage, hpackageSource, hid⟩ := hexact.exists_root hrootAuthentic
    rw [← hid] at hcycles
    exact (hexact.rejectCyclesAndOrphans_eq_ok hpackage hpackageSource).mp hcycles

/-! ### What a run needs -/

/-- Every element that has an image is in step with one. -/
theorem exists_forall₂ {α β : Type} {R : α → β → Prop} {xs : List α} (h : ∀ x ∈ xs, ∃ y, R x y) :
    ∃ ys, List.Forall₂ R xs ys := by
  induction xs with
  | nil => exact ⟨[], .nil⟩
  | cons x xs ih =>
    obtain ⟨⟨y, hxy⟩, hxs⟩ := forall_mem_cons.mp h
    obtain ⟨ys, hys⟩ := ih hxs
    exact ⟨y :: ys, .cons hxy hys⟩

theorem Resolvable.exists_resolves (h : Resolvable sha256 serde provider root)
    {source : PackageSource} {loaded : Loaded}
    (hclosure : Closure sha256 serde provider root source)
    (hloaded : Authentic sha256 serde provider source loaded) :
    ∃ package, Resolves sha256 serde provider loaded package := by
  obtain ⟨edges, hedges⟩ : ∃ edges, List.Forall₂ (fun dependency (edge : String × String) =>
      ∃ target, Authentic sha256 serde provider dependency.source target
        ∧ (dependency.name, dependency.version, dependency.source)
          = (target.manifest.name, target.manifest.version, target.manifest.source)
        ∧ edge = (dependency.aliasName, target.inst.id)) loaded.manifest.dependencies edges := by
    refine exists_forall₂ fun dependency hdependency => ?_
    obtain ⟨target, htarget⟩ :=
      h.authentic dependency.source (hclosure.dependency hloaded hdependency)
    exact ⟨_, target, htarget,
      h.selected source loaded hclosure hloaded dependency hdependency target htarget, rfl⟩
  exact ⟨⟨loaded.inst, loaded.manifest.name, loaded.manifest.version, loaded.manifest.source,
    edges⟩, rfl, rfl, rfl, rfl, hedges⟩

theorem resolve_of_resolvable (hdigest : DigestInjective sha256 serde provider root)
    (h : Resolvable sha256 serde provider root) :
    ∃ graph, resolve sha256 serde provider root .update = .ok graph := by
  obtain ⟨sources, hsources, hcard⟩ := h.bounded
  obtain ⟨loadedBySource, hload⟩ : ∃ loadedBySource,
      loadPackages sha256 serde provider root = .ok loadedBySource := by
    refine collect_succeeds (fun source hneeded => (hsources source).mpr (needed_iff.mp hneeded))
      hcard fun source hneeded => ?_
    obtain ⟨loaded, hloaded⟩ := h.authentic source (needed_iff.mp hneeded)
    exact ⟨loaded, loadPackage_eq_ok.mpr hloaded⟩
  have hgathered := gathered hload
  obtain ⟨rootLoaded, hroot⟩ := h.authentic root .refl
  have hget : loadedBySource.get? root = some rootLoaded :=
    (get?_collect hload root rootLoaded).mpr ⟨.first, loadPackage_eq_ok.mpr hroot⟩
  obtain ⟨resolved, hresolved⟩ : ∃ resolved, List.Forall₂ (Resolves sha256 serde provider)
      (loadedBySource.entries.map Prod.snd) resolved := by
    refine exists_forall₂ fun loaded hloaded => ?_
    obtain ⟨source, hclosure, hauthentic⟩ := (hgathered.mem_iff loaded).mp hloaded
    exact h.exists_resolves hclosure hauthentic
  have hexact := exactPackages hdigest hgathered hresolved
  obtain ⟨package, hpackage, hpackageSource, hid⟩ := hexact.exists_root hroot
  let packages := resolved.mergeSort fun left right => left.inst.id ≤ right.inst.id
  let lock := lockOf rootLoaded.inst.id rootLoaded.manifest.compatibility packages
  refine ⟨⟨rootLoaded.inst.id, rootLoaded.manifest.compatibility, packages, encode lock.toValue,
    digest sha256 "lock" lock.toValue⟩, ?_⟩
  rw [resolve_eq_ok]
  refine ⟨h.root_valid, exists_frozenLock_update, ⟨loadedBySource, rootLoaded, hload,
    hget, fun loaded hloaded => ?_, (resolvePackages_eq_ok hgathered).mpr ⟨resolved, hresolved,
    rfl⟩, hexact.rejectDuplicateInstances_eq_ok, ?_, rfl, rfl⟩, rfl, rfl⟩
  · obtain ⟨source, hclosure, hauthentic⟩ := (hgathered.mem_iff loaded).mp hloaded
    exact checkCompatibility_eq_ok.mpr (h.compatible rootLoaded hroot source loaded hclosure
      hauthentic)
  · rw [← hid]
    exact (hexact.rejectCyclesAndOrphans_eq_ok hpackage hpackageSource).mpr h.acyclic

/-- **Resolution is exact.** The resolver succeeds exactly when the packages that a root needs make
a graph, and it returns that graph. -/
theorem resolve_exact (sha256 : List UInt8 → String) (serde : Serde)
    (provider : PackageSource → Except ResolveError PackageMaterial) (root : PackageSource)
    (hdigest : DigestInjective sha256 serde provider root) :
    ((∃ graph, resolve sha256 serde provider root .update = .ok graph)
      ↔ Resolvable sha256 serde provider root)
    ∧ ∀ graph, resolve sha256 serde provider root .update = .ok graph →
        Exact sha256 serde provider root graph :=
  ⟨⟨fun ⟨_, h⟩ => (resolvable_of_resolve hdigest h).1, resolve_of_resolvable hdigest⟩,
    fun _ h => (resolvable_of_resolve hdigest h).2⟩

/-! ### An application and its library -/

open Classical in
/-- A reader that is the inverse of the writer, whatever it reads locks as. -/
noncomputable def canonicalSerde (lock : Value → Option Lock) : Serde where
  fromSlice := fun input =>
    if h : ∃ value : Value, value.WellFormed ∧ encode value = input then some h.choose else none
  manifest := fun value =>
    if h : ∃ manifest : Manifest, manifest.toValue = value then some h.choose else none
  lock := lock

/-- What a digest is taken of. -/
def digestInput (kind : String) (value : Value) : List UInt8 :=
  labelBytes "ZRYNA-PACKAGE-RELEASE-V1" ++ [0] ++ labelBytes kind ++ [0] ++ encode value

theorem canonicalSerde_fromSlice {lock : Value → Option Lock} {value : Value}
    (h : value.WellFormed) : (canonicalSerde lock).fromSlice (encode value) = some value := by
  have hexists : ∃ value', value'.WellFormed ∧ encode value' = encode value := ⟨value, h, rfl⟩
  unfold canonicalSerde
  dsimp only
  rw [dif_pos hexists, encode_inj hexists.choose_spec.1 h hexists.choose_spec.2]

theorem canonicalSerde_manifest {lock : Value → Option Lock} (manifest : Manifest) :
    (canonicalSerde lock).manifest manifest.toValue = some manifest := by
  have hexists : ∃ manifest', Manifest.toValue manifest' = manifest.toValue := ⟨manifest, rfl⟩
  unfold canonicalSerde
  dsimp only
  rw [dif_pos hexists, Manifest.toValue_inj hexists.choose_spec]

def sampleCompatibility : Compatibility :=
  ⟨"0.1.0", "control-flow-v1", ["javascript", "webassembly"]⟩

def sampleApp : PackageSource := ⟨.local, "packages/app", ""⟩

def sampleLibrary : PackageSource := ⟨.local, "packages/library", ""⟩

def sampleAppFile : PackageFile :=
  ⟨"src/main.zry", labelBytes "export function main(): i32 \x7b return 1; \x7d\n"⟩

def sampleLibraryFile : PackageFile :=
  ⟨"src/main.zry", labelBytes "export function value(): i32 \x7b return 1; \x7d\n"⟩

def sampleAppManifest : Manifest where
  format := "zryna.package.v1"
  name := "app"
  version := "1.0.0"
  source := sampleApp
  compatibility := sampleCompatibility
  files := [⟨"src/main.zry", 42, "182a37c338e410ab924d5470f44eceb233b0ba912dd0acb7773f81e1121e0b78"⟩]
  dependencies := [⟨"math", "library", "1.0.0", sampleLibrary⟩]

def sampleLibraryManifest : Manifest where
  format := "zryna.package.v1"
  name := "library"
  version := "1.0.0"
  source := sampleLibrary
  compatibility := sampleCompatibility
  files := [⟨"src/main.zry", 43, "f55c1db0e932fee72ddda2ed6fade99502a2f23c363aace6e5296e9612c51729"⟩]
  dependencies := []

/-- SHA-256 on the inputs of a run. -/
def sampleSha256 (bytes : List UInt8) : String :=
  if bytes = sampleAppFile.bytes then
    "182a37c338e410ab924d5470f44eceb233b0ba912dd0acb7773f81e1121e0b78"
  else if bytes = sampleLibraryFile.bytes then
    "f55c1db0e932fee72ddda2ed6fade99502a2f23c363aace6e5296e9612c51729"
  else if bytes = digestInput "manifest" sampleAppManifest.toValue then
    "5dcc500d8b2d70c8d9addc4df7ce3fecb544221876e94be3acd9a371e1ba1201"
  else if bytes = digestInput "manifest" sampleLibraryManifest.toValue then
    "d4dfc80e240decc81623409f6490cf00ff64b391474fca30b783867f6e51dae2"
  else if bytes = digestInput "source-files" (.array (sampleAppManifest.files.map Checksum.toValue)) then
    "63d9bf42df56111c2d3a3d8de309dbf96248bb1eb4c2e3b8cf490a8317bfe7d6"
  else if bytes = digestInput "source-files"
      (.array (sampleLibraryManifest.files.map Checksum.toValue)) then
    "a25e46491196207f75fc27f4f084595de3683a10a7b95eacd4061489346d6691"
  else "3c821652d6223dc786ece4fcf94bab818955f31b95ced8e4ac9e855c1ee243d7"

def sampleProvider (source : PackageSource) : Except ResolveError PackageMaterial :=
  if source = sampleApp then .ok ⟨encode sampleAppManifest.toValue, [sampleAppFile]⟩
  else if source = sampleLibrary then .ok ⟨encode sampleLibraryManifest.toValue, [sampleLibraryFile]⟩
  else .error (.source "fixture source is absent")

def sampleAppLoaded : Loaded :=
  ⟨sampleAppManifest, "5dcc500d8b2d70c8d9addc4df7ce3fecb544221876e94be3acd9a371e1ba1201",
    "63d9bf42df56111c2d3a3d8de309dbf96248bb1eb4c2e3b8cf490a8317bfe7d6"⟩

def sampleLibraryLoaded : Loaded :=
  ⟨sampleLibraryManifest, "d4dfc80e240decc81623409f6490cf00ff64b391474fca30b783867f6e51dae2",
    "a25e46491196207f75fc27f4f084595de3683a10a7b95eacd4061489346d6691"⟩

def sampleGraph : ResolvedGraph :=
  let packages : List ResolvedPackage := [
    ⟨sampleAppLoaded.inst, "app", "1.0.0", sampleApp, [("math", sampleLibraryLoaded.inst.id)]⟩,
    ⟨sampleLibraryLoaded.inst, "library", "1.0.0", sampleLibrary, []⟩]
  let lock := lockOf sampleAppLoaded.inst.id sampleCompatibility packages
  ⟨sampleAppLoaded.inst.id, sampleCompatibility, packages, encode lock.toValue,
    digest sampleSha256 "lock" lock.toValue⟩

variable {lock : Value → Option Lock}

theorem length_encode (value : Value) :
    (encode value).length = ((Json.write value).map Char.utf8Size).sum + 1 := by
  simp [encode, Json.writeBytes, Json.utf8Bytes, length_flatMap]

theorem parse_encode {manifest : Manifest}
    (hlength : ((Json.write manifest.toValue).map Char.utf8Size).sum + 1 ≤ maxWireBytes)
    (hnesting : manifest.toValue.nesting ≤ 6) :
    parse (canonicalSerde lock) (canonicalSerde lock).manifest (encode manifest.toValue)
      = .ok manifest :=
  parse_eq_ok.mpr ⟨(length_encode _).trans_le hlength,
    checkDepth_encode manifest.wellFormed hnesting, _,
    canonicalSerde_fromSlice manifest.wellFormed, rfl, canonicalSerde_manifest manifest⟩

theorem digest_sampleApp : sampleAppLoaded.inst.id
    = digest sampleSha256 "manifest" sampleAppManifest.toValue := by
  show _ = sampleSha256 (digestInput "manifest" sampleAppManifest.toValue)
  rw [sampleSha256, if_neg (by decide), if_neg (by decide), if_pos rfl]
  rfl

theorem digest_sampleLibrary : sampleLibraryLoaded.inst.id
    = digest sampleSha256 "manifest" sampleLibraryManifest.toValue := by
  show _ = sampleSha256 (digestInput "manifest" sampleLibraryManifest.toValue)
  rw [sampleSha256, if_neg (by decide), if_neg (by decide), if_neg, if_pos rfl]
  · rfl
  · intro h
    have hmanifest := Manifest.encode_inj (append_cancel_left h)
    exact absurd (congrArg Manifest.name hmanifest) (by decide)

set_option maxRecDepth 4000 in
theorem authentic_sampleApp :
    Authentic sampleSha256 (canonicalSerde lock) sampleProvider sampleApp sampleAppLoaded where
  material := by
    refine ⟨_, rfl, parse_encode (by decide) (by decide), ?_⟩
    unfold Validation.authenticateFiles
    rw [mergeSort_singleton]
    rfl
  valid := rfl
  source_eq := rfl
  id_eq := digest_sampleApp

set_option maxRecDepth 4000 in
theorem authentic_sampleLibrary :
    Authentic sampleSha256 (canonicalSerde lock) sampleProvider sampleLibrary
      sampleLibraryLoaded where
  material := by
    refine ⟨_, rfl, parse_encode (by decide) (by decide), ?_⟩
    unfold Validation.authenticateFiles
    rw [mergeSort_singleton]
    rfl
  valid := rfl
  source_eq := rfl
  id_eq := digest_sampleLibrary

theorem loadPackages_sample :
    loadPackages sampleSha256 (canonicalSerde lock) sampleProvider sampleApp
      = .ok ((OrderedMap.empty.insert sampleApp sampleAppLoaded).insert sampleLibrary
        sampleLibraryLoaded) := by
  unfold loadPackages
  rw [collect_load rfl, loadPackage_eq_ok.mpr authentic_sampleApp]
  show collect _ _ _ _ [sampleLibrary] _ = _
  rw [collect_load rfl, loadPackage_eq_ok.mpr authentic_sampleLibrary]
  exact collect_nil

theorem id_lt : sampleAppLoaded.inst.id < sampleLibraryLoaded.inst.id := by
  show "5dcc500d8b2d70c8d9addc4df7ce3fecb544221876e94be3acd9a371e1ba1201"
    < "d4dfc80e240decc81623409f6490cf00ff64b391474fca30b783867f6e51dae2"
  rw [String.lt_iff_toList_lt, String.toList_ofList, String.toList_ofList]
  decide

theorem resolvePackages_sample :
    resolvePackages [sampleAppLoaded, sampleLibraryLoaded] = .ok sampleGraph.packages := by
  have hmap : [sampleAppLoaded, sampleLibraryLoaded].mapM
      (resolvePackage [sampleAppLoaded, sampleLibraryLoaded]) = .ok sampleGraph.packages := rfl
  have hsorted : sampleGraph.packages.Pairwise fun left right =>
      decide (left.inst.id ≤ right.inst.id) = true :=
    pairwise_pair.mpr (decide_eq_true (le_of_lt id_lt))
  unfold resolvePackages
  rw [hmap]
  exact congrArg Except.ok (mergeSort_of_pairwise hsorted)

theorem rejectCyclesAndOrphans_sample :
    rejectCyclesAndOrphans sampleAppLoaded.inst.id sampleGraph.packages = .ok () := by
  have happ : (edgesById sampleGraph.packages).get? sampleAppLoaded.inst.id
      = some [sampleLibraryLoaded.inst.id] := by
    simp [edgesById, OrderedMap.get?_insert, sampleGraph, ne_of_lt id_lt]
  have hlibrary : (edgesById sampleGraph.packages).get? sampleLibraryLoaded.inst.id = some [] := by
    simp [edgesById, OrderedMap.get?_insert, sampleGraph]
  have hne := ne_of_gt id_lt
  unfold rejectCyclesAndOrphans
  rw [ThreeColour.walk_enter rfl happ]
  simp only [map_cons, map_nil, cons_append, nil_append]
  rw [ThreeColour.walk_enter (by rw [Function.update_of_ne hne]) hlibrary]
  simp only [map_nil, nil_append]
  rw [ThreeColour.walk_leave, ThreeColour.walk_leave, ThreeColour.walk_nil]
  rfl

theorem resolve_sample :
    resolve sampleSha256 (canonicalSerde lock) sampleProvider sampleApp .update
      = .ok sampleGraph :=
  resolve_eq_ok.mpr ⟨rfl, exists_frozenLock_update, ⟨_, sampleAppLoaded,
    loadPackages_sample, rfl, by decide, resolvePackages_sample,
    rfl, rejectCyclesAndOrphans_sample, rfl, rfl⟩, rfl, rfl⟩

theorem digestInjective_sample {root : PackageSource} :
    DigestInjective sampleSha256 (canonicalSerde lock) sampleProvider root := by
  have hloaded {source : PackageSource} {loaded : Loaded}
      (h : Authentic sampleSha256 (canonicalSerde lock) sampleProvider source loaded) :
      loaded = sampleAppLoaded ∨ loaded = sampleLibraryLoaded := by
    obtain ⟨material, hmaterial, -⟩ := h.material
    unfold sampleProvider at hmaterial
    split at hmaterial
    · next heq =>
      subst heq
      exact .inl (h.unique authentic_sampleApp)
    split at hmaterial
    · next heq =>
      subst heq
      exact .inr (h.unique authentic_sampleLibrary)
    · cases hmaterial
  have hne : digest sampleSha256 "manifest" sampleAppManifest.toValue
      ≠ digest sampleSha256 "manifest" sampleLibraryManifest.toValue := by
    rw [← digest_sampleApp, ← digest_sampleLibrary]
    exact ne_of_lt id_lt
  intro source source' loaded loaded' _ _ h h' heq
  rcases hloaded h with rfl | rfl <;> rcases hloaded h' with rfl | rfl
  · rfl
  · exact absurd heq hne
  · exact absurd heq.symm hne
  · rfl

/-- An application with one library is resolved to the graph of both. -/
theorem resolve_exact_sample : ∃ graph,
    resolve sampleSha256 (canonicalSerde fun _ => none) sampleProvider sampleApp .update = .ok graph
    ∧ graph.packages.map ResolvedPackage.name = ["app", "library"]
    ∧ Exact sampleSha256 (canonicalSerde fun _ => none) sampleProvider sampleApp graph :=
  ⟨sampleGraph, resolve_sample, rfl,
    (resolve_exact sampleSha256 (canonicalSerde fun _ => none) sampleProvider sampleApp
      digestInjective_sample).2 sampleGraph resolve_sample⟩
end Zryna.Package
