import Zryna.Package.Resolver

/-!
# Resolution is exact

What a provider offers is a set of authentic packages with declared dependencies; a root needs the
packages that dependencies lead to. `Resolvable` says when the packages that a root needs make a
graph, and `Exact` what that graph is, both without the resolver.

`resolve_exact`: the resolver succeeds exactly when the root is resolvable, and it returns the exact
graph.
-/

namespace Zryna.Package

open Checked OrderedMap List

/-! ### Needed packages -/

section Spec

variable (sha256 : List UInt8 → String) (serde : Serde)
  (provider : PackageSource → Except ResolveError PackageMaterial)

/-- A package that the provider offers under a source: its manifest is canonical and valid and names
the source, and its files are those of the manifest. -/
structure Authentic (source : PackageSource) (loaded : Loaded) : Prop where
  material : ∃ material, provider source = .ok material
    ∧ parse serde serde.manifest material.manifest = .ok loaded.manifest
    ∧ Validation.authenticateFiles sha256 loaded.manifest material.files
      = .ok loaded.inst.sourceSha256
  valid : Validation.manifest loaded.manifest = .ok ()
  source_eq : loaded.manifest.source = source
  id_eq : loaded.inst.id = digest sha256 "manifest" loaded.manifest.toValue

/-- The package of one source declares a dependency on another source. -/
def DependsOn (source source' : PackageSource) : Prop :=
  ∃ loaded, Authentic sha256 serde provider source loaded
    ∧ ∃ dependency ∈ loaded.manifest.dependencies, dependency.source = source'

/-- The sources that dependencies lead to from a root. -/
def Closure (root source : PackageSource) : Prop :=
  Relation.ReflTransGen (DependsOn sha256 serde provider) root source

/-- A package goes with the root of a graph. -/
structure Compatible (root own : Compatibility) : Prop where
  compiler_eq : own.compiler = root.compiler
  profile_eq : own.profile = root.profile
  targets : ∀ target ∈ root.targets, target ∈ own.targets

/-- The packages that a root needs make a graph. -/
structure Resolvable (root : PackageSource) : Prop where
  root_valid : Validation.source root = .ok ()
  authentic : ∀ source, Closure sha256 serde provider root source →
    ∃ loaded, Authentic sha256 serde provider source loaded
  bounded : ∃ sources : Finset PackageSource,
    (∀ source, source ∈ sources ↔ Closure sha256 serde provider root source) ∧ sources.card ≤ 16
  selected : ∀ source loaded, Closure sha256 serde provider root source →
    Authentic sha256 serde provider source loaded → ∀ dependency ∈ loaded.manifest.dependencies,
      ∀ target, Authentic sha256 serde provider dependency.source target →
        (dependency.name, dependency.version, dependency.source)
          = (target.manifest.name, target.manifest.version, target.manifest.source)
  compatible : ∀ rootLoaded, Authentic sha256 serde provider root rootLoaded →
    ∀ source loaded, Closure sha256 serde provider root source →
      Authentic sha256 serde provider source loaded →
        Compatible rootLoaded.manifest.compatibility loaded.manifest.compatibility
  acyclic : ∀ source, Closure sha256 serde provider root source →
    ¬Relation.TransGen (DependsOn sha256 serde provider) source source

/-- The packages are those that a root needs, once each and in the order of their identities, with
an edge to the package of every declared dependency. -/
structure ExactPackages (root : PackageSource) (packages : List ResolvedPackage) : Prop where
  sorted : packages.Pairwise fun left right => left.inst.id < right.inst.id
  once : (packages.map ResolvedPackage.source).Nodup
  lists : ∀ source, Closure sha256 serde provider root source ↔
    ∃ package ∈ packages, package.source = source
  authentic : ∀ package ∈ packages, ∃ loaded,
    Authentic sha256 serde provider package.source loaded ∧ package.inst = loaded.inst
      ∧ package.name = loaded.manifest.name ∧ package.version = loaded.manifest.version
      ∧ List.Forall₂ (fun (edge : String × String) dependency => edge.1 = dependency.aliasName
        ∧ ∃ target ∈ packages, target.source = dependency.source ∧ edge.2 = target.inst.id)
        package.dependencies loaded.manifest.dependencies

structure Exact (root : PackageSource) (graph : ResolvedGraph) : Prop where
  packages : ExactPackages sha256 serde provider root graph.packages
  root : ∃ loaded, Authentic sha256 serde provider root loaded ∧ graph.root = loaded.inst.id
    ∧ graph.compatibility = loaded.manifest.compatibility

end Spec

section Exact

variable {sha256 : List UInt8 → String} {serde : Serde}
  {provider : PackageSource → Except ResolveError PackageMaterial} {root : PackageSource}

/-! ### Loading -/

theorem loadPackage_eq_ok {source : PackageSource} {loaded : Loaded} :
    loadPackage sha256 serde provider source = .ok loaded ↔
      Authentic sha256 serde provider source loaded := by
  unfold loadPackage
  simp only [bind_eq_ok, ite_error_bind_eq_ok, Except.ok.injEq, not_not]
  constructor
  · rintro ⟨material, hmaterial, manifest, hmanifest, ⟨⟩, hvalid, hsource, digest, hfiles, rfl⟩
    exact ⟨⟨material, hmaterial, hmanifest, hfiles⟩, hvalid, hsource, rfl⟩
  · obtain ⟨manifest, id, sourceSha256⟩ := loaded
    rintro ⟨⟨material, hmaterial, hmanifest, hfiles⟩, hvalid, hsource, hid⟩
    refine ⟨material, hmaterial, manifest, hmanifest, (), hvalid, hsource, sourceSha256, hfiles, ?_⟩
    rw [show id = digest sha256 "manifest" manifest.toValue from hid]

theorem Authentic.unique {source : PackageSource} {loaded loaded' : Loaded}
    (h : Authentic sha256 serde provider source loaded)
    (h' : Authentic sha256 serde provider source loaded') : loaded = loaded' := by
  rw [← loadPackage_eq_ok] at h h'
  exact Except.ok.inj (h.symm.trans h')

theorem needed_iff {source : PackageSource} :
    Needed (loadPackage sha256 serde provider) Loaded.sources root source ↔
      Closure sha256 serde provider root source := by
  constructor
  · intro h
    induction h with
    | first => exact .refl
    | next _ hload hnext ih =>
      obtain ⟨dependency, hdependency, hsource⟩ := mem_map.mp hnext
      rw [loadPackage_eq_ok] at hload
      exact .tail ih ⟨_, hload, dependency, hdependency, hsource⟩
  · intro h
    induction h with
    | refl => exact .first
    | tail _ hdepends ih =>
      obtain ⟨loaded, hloaded, dependency, hdependency, hsource⟩ := hdepends
      rw [← loadPackage_eq_ok] at hloaded
      exact .next ih hloaded (mem_map.mpr ⟨dependency, hdependency, hsource⟩)

/-! ### Selecting -/

/-- The packages in hand are those that the root needs, one for every source. -/
structure Gathered (sha256 : List UInt8 → String) (serde : Serde)
    (provider : PackageSource → Except ResolveError PackageMaterial) (root : PackageSource)
    (packages : List Loaded) : Prop where
  once : (packages.map fun loaded => loaded.manifest.source).Nodup
  mem_iff : ∀ loaded, loaded ∈ packages ↔ ∃ source, Closure sha256 serde provider root source
    ∧ Authentic sha256 serde provider source loaded
  authentic : ∀ source, Closure sha256 serde provider root source →
    ∃ loaded, Authentic sha256 serde provider source loaded

theorem gathered {loadedBySource : OrderedMap PackageSource Loaded}
    (h : loadPackages sha256 serde provider root = .ok loadedBySource) :
    Gathered sha256 serde provider root (loadedBySource.entries.map Prod.snd) := by
  have hget (source : PackageSource) (loaded : Loaded) :
      (source, loaded) ∈ loadedBySource.entries ↔ Closure sha256 serde provider root source
        ∧ Authentic sha256 serde provider source loaded := by
    rw [← get?_eq_some, get?_collect h, needed_iff, loadPackage_eq_ok]
  refine ⟨?_, fun loaded => ?_, fun source hsource => ?_⟩
  · have hkeys : (loadedBySource.entries.map Prod.snd).map (fun loaded => loaded.manifest.source)
        = loadedBySource.keys := by
      rw [map_map]
      refine map_congr_left ?_
      rintro ⟨source, loaded⟩ hmem
      exact ((hget source loaded).mp hmem).2.source_eq
    rw [hkeys]
    exact loadedBySource.nodup_keys
  · rw [mem_map]
    constructor
    · rintro ⟨⟨source, loaded⟩, hmem, rfl⟩
      exact ⟨source, (hget source loaded).mp hmem⟩
    · rintro ⟨source, hsource⟩
      exact ⟨(source, loaded), (hget source loaded).mpr hsource, rfl⟩
  · rw [← needed_iff] at hsource
    obtain ⟨loaded, hloaded⟩ := isSome_collect h hsource
    exact ⟨loaded, ((hget source loaded).mp (get?_eq_some.mp hloaded)).2⟩

/-! ### Lists in step -/

section Forall₂

variable {α β : Type} {R S : α → β → Prop} {xs : List α} {ys : List β}

theorem forall₂_imp_left (h : ∀ x ∈ xs, ∀ y, R x y → S x y) (hR : List.Forall₂ R xs ys) :
    List.Forall₂ S xs ys := by
  induction hR with
  | nil => exact .nil
  | cons hxy _ ih =>
    obtain ⟨hx, hxs⟩ := forall_mem_cons.mp h
    exact .cons (hx _ hxy) (ih hxs)

theorem forall₂_congr_left (h : ∀ x ∈ xs, ∀ y, R x y ↔ S x y) :
    List.Forall₂ R xs ys ↔ List.Forall₂ S xs ys :=
  ⟨forall₂_imp_left fun x hx y => (h x hx y).mp, forall₂_imp_left fun x hx y => (h x hx y).mpr⟩

theorem exists_right (h : List.Forall₂ R xs ys) {x : α} (hx : x ∈ xs) : ∃ y ∈ ys, R x y := by
  induction h with
  | nil => cases hx
  | @cons a b xs ys hab _ ih =>
    obtain rfl | hx := mem_cons.mp hx
    · exact ⟨b, mem_cons_self, hab⟩
    · obtain ⟨y, hy, hxy⟩ := ih hx
      exact ⟨y, mem_cons_of_mem _ hy, hxy⟩

theorem exists_left (h : List.Forall₂ R xs ys) {y : β} (hy : y ∈ ys) : ∃ x ∈ xs, R x y :=
  exists_right h.flip hy

theorem map_eq_of_forall₂ {γ : Type} {f : α → γ} {g : β → γ} (hfg : ∀ x y, R x y → f x = g y)
    (h : List.Forall₂ R xs ys) : xs.map f = ys.map g := by
  induction h with
  | nil => rfl
  | cons hxy _ ih => rw [map_cons, map_cons, hfg _ _ hxy, ih]

end Forall₂

/-- One element has the key that it was asked for. -/
theorem filter_eq_singleton {α β : Type} {f : α → β} {p : α → Bool} {xs : List α}
    (hnodup : (xs.map f).Nodup) {x : α} (hx : x ∈ xs) (hp : ∀ y ∈ xs, p y = true ↔ f y = f x) :
    xs.filter p = [x] := by
  induction xs with
  | nil => cases hx
  | cons y ys ih =>
    obtain ⟨hy, hys⟩ := nodup_cons.mp hnodup
    obtain ⟨hpy, hpys⟩ := forall_mem_cons.mp hp
    obtain rfl | hx := mem_cons.mp hx
    · rw [filter_cons_of_pos (hpy.mpr rfl), filter_eq_nil_iff.mpr]
      intro z hz hpz
      exact hy (mem_map.mpr ⟨z, hz, (hpys z hz).mp hpz⟩)
    · rw [filter_cons_of_neg, ih hys hx hpys]
      intro htrue
      exact hy (mem_map.mpr ⟨x, hx, (hpy.mp htrue).symm⟩)

theorem coordinate_eq_iff {loaded : Loaded} {name version : String} {source : PackageSource} :
    coordinate loaded = encode (coordinateValue name version source) ↔
      (name, version, source)
        = (loaded.manifest.name, loaded.manifest.version, loaded.manifest.source) := by
  unfold coordinate
  constructor
  · intro h
    have hvalue := encode_inj (coordinateValue_wellFormed ..) (coordinateValue_wellFormed ..) h
    obtain ⟨rfl, rfl, rfl⟩ := coordinateValue_inj hvalue
    rfl
  · intro h
    cases h
    rfl

/-- A dependency selects the package of its source, which has its name and version. -/
theorem selectDependency_eq_ok {packages : List Loaded}
    (h : Gathered sha256 serde provider root packages) {dependency : Dependency}
    (hclosure : Closure sha256 serde provider root dependency.source) {edge : String × String} :
    selectDependency packages dependency = .ok edge ↔
      ∃ target, Authentic sha256 serde provider dependency.source target
        ∧ (dependency.name, dependency.version, dependency.source)
          = (target.manifest.name, target.manifest.version, target.manifest.source)
        ∧ edge = (dependency.aliasName, target.inst.id) := by
  have hfilter (loaded : Loaded) : (coordinate loaded
      = encode (coordinateValue dependency.name dependency.version dependency.source)) ↔ _ :=
    coordinate_eq_iff
  unfold selectDependency
  dsimp only
  constructor
  · intro hselect
    split at hselect
    · next selected hselected =>
      cases hselect
      have hmem : selected ∈ packages.filter fun loaded => decide (coordinate loaded
          = encode (coordinateValue dependency.name dependency.version dependency.source)) := by
        rw [hselected]
        exact mem_cons_self
      rw [mem_filter, decide_eq_true_eq, hfilter] at hmem
      obtain ⟨source, -, hauthentic⟩ := (h.mem_iff selected).mp hmem.1
      have hsource : source = dependency.source := by
        rw [← hauthentic.source_eq]
        exact (Prod.mk.inj (Prod.mk.inj hmem.2).2).2.symm
      exact ⟨selected, hsource ▸ hauthentic, hmem.2, rfl⟩
    · cases hselect
  · rintro ⟨target, htarget, hcoordinate, rfl⟩
    have hmem := (h.mem_iff target).mpr ⟨_, hclosure, htarget⟩
    have hsingle := filter_eq_singleton (p := fun loaded => decide (coordinate loaded
        = encode (coordinateValue dependency.name dependency.version dependency.source)))
      h.once hmem ?_
    · rw [hsingle]
    · intro loaded hloaded
      rw [decide_eq_true_eq, hfilter]
      constructor
      · intro heq
        rw [htarget.source_eq]
        exact (Prod.mk.inj (Prod.mk.inj heq).2).2.symm
      · intro heq
        -- one source is one package
        obtain ⟨source, -, hauthentic⟩ := (h.mem_iff loaded).mp hloaded
        have hsource : source = dependency.source := by
          rw [← hauthentic.source_eq, heq, htarget.source_eq]
        subst hsource
        rw [hauthentic.unique htarget, hcoordinate]

theorem checkCompatibility_eq_ok {compatibility : Compatibility} {loaded : Loaded} :
    checkCompatibility compatibility loaded = .ok () ↔
      Compatible compatibility loaded.manifest.compatibility := by
  unfold checkCompatibility
  rw [ite_error_eq_ok, not_or, not_or, not_not, not_not, not_not, all_eq_true,
    and_iff_left rfl]
  constructor
  · rintro ⟨hcompiler, hprofile, htargets⟩
    exact ⟨hcompiler, hprofile, fun target htarget => by simpa using htargets target htarget⟩
  · rintro ⟨hcompiler, hprofile, htargets⟩
    exact ⟨hcompiler, hprofile, fun target htarget => by simpa using htargets target htarget⟩

/-- What the resolver makes of one package. -/
structure Resolves (sha256 : List UInt8 → String) (serde : Serde)
    (provider : PackageSource → Except ResolveError PackageMaterial) (loaded : Loaded)
    (package : ResolvedPackage) : Prop where
  inst_eq : package.inst = loaded.inst
  name_eq : package.name = loaded.manifest.name
  version_eq : package.version = loaded.manifest.version
  source_eq : package.source = loaded.manifest.source
  edges : List.Forall₂ (fun (dependency : Dependency) (edge : String × String) =>
    ∃ target, Authentic sha256 serde provider dependency.source target
      ∧ (dependency.name, dependency.version, dependency.source)
        = (target.manifest.name, target.manifest.version, target.manifest.source)
      ∧ edge = (dependency.aliasName, target.inst.id))
    loaded.manifest.dependencies package.dependencies

theorem Closure.dependency {source : PackageSource} {loaded : Loaded}
    (hsource : Closure sha256 serde provider root source)
    (hloaded : Authentic sha256 serde provider source loaded) {dependency : Dependency}
    (hdependency : dependency ∈ loaded.manifest.dependencies) :
    Closure sha256 serde provider root dependency.source :=
  .tail hsource ⟨loaded, hloaded, dependency, hdependency, rfl⟩

theorem resolvePackage_eq_ok {packages : List Loaded}
    (h : Gathered sha256 serde provider root packages) {loaded : Loaded}
    (hloaded : loaded ∈ packages) {package : ResolvedPackage} :
    resolvePackage packages loaded = .ok package ↔
      Resolves sha256 serde provider loaded package := by
  obtain ⟨source, hsource, hauthentic⟩ := (h.mem_iff loaded).mp hloaded
  have hselect (dependency : Dependency) (hdependency : dependency ∈ loaded.manifest.dependencies)
      (edge : String × String) : selectDependency packages dependency = .ok edge ↔ _ :=
    selectDependency_eq_ok h (hsource.dependency hauthentic hdependency)
  unfold resolvePackage
  simp only [bind_eq_ok, Except.ok.injEq, mapM_eq_ok]
  constructor
  · rintro ⟨edges, hedges, rfl⟩
    exact ⟨rfl, rfl, rfl, rfl, (forall₂_congr_left hselect).mp hedges⟩
  · obtain ⟨inst, name, version, source, edges⟩ := package
    rintro ⟨rfl, rfl, rfl, rfl, hedges⟩
    exact ⟨edges, (forall₂_congr_left hselect).mpr hedges, rfl⟩

theorem resolvePackages_eq_ok {packages : List Loaded}
    (h : Gathered sha256 serde provider root packages) {sorted : List ResolvedPackage} :
    resolvePackages packages = .ok sorted ↔ ∃ resolved,
      List.Forall₂ (Resolves sha256 serde provider) packages resolved
        ∧ sorted = resolved.mergeSort fun left right => left.inst.id ≤ right.inst.id := by
  unfold resolvePackages
  simp only [bind_eq_ok, Except.ok.injEq, mapM_eq_ok]
  refine exists_congr fun resolved => ?_
  rw [forall₂_congr_left fun loaded hloaded package => resolvePackage_eq_ok h hloaded]
  exact and_congr_right fun _ => eq_comm

/-- Needed manifests with one digest are one manifest. -/
def DigestInjective (sha256 : List UInt8 → String) (serde : Serde)
    (provider : PackageSource → Except ResolveError PackageMaterial) (root : PackageSource) : Prop :=
  ∀ source source' loaded loaded', Closure sha256 serde provider root source →
    Closure sha256 serde provider root source' → Authentic sha256 serde provider source loaded →
    Authentic sha256 serde provider source' loaded' →
    digest sha256 "manifest" loaded.manifest.toValue
      = digest sha256 "manifest" loaded'.manifest.toValue →
    encode loaded.manifest.toValue = encode loaded'.manifest.toValue

theorem exactPackages (hdigest : DigestInjective sha256 serde provider root)
    {packages : List Loaded} (h : Gathered sha256 serde provider root packages)
    {resolved : List ResolvedPackage}
    (hresolved : List.Forall₂ (Resolves sha256 serde provider) packages resolved) :
    ExactPackages sha256 serde provider root
      (resolved.mergeSort fun left right => left.inst.id ≤ right.inst.id) := by
  have hperm : (resolved.mergeSort fun left right => left.inst.id ≤ right.inst.id).Perm resolved :=
    mergeSort_perm _ _
  have hauthentic {package : ResolvedPackage} (hpackage : package ∈ resolved) :
      ∃ loaded, Closure sha256 serde provider root package.source
        ∧ Authentic sha256 serde provider package.source loaded
        ∧ Resolves sha256 serde provider loaded package := by
    obtain ⟨loaded, hloaded, hresolves⟩ := exists_left hresolved hpackage
    obtain ⟨source, hsource, hauthentic⟩ := (h.mem_iff loaded).mp hloaded
    have heq : package.source = source := hresolves.source_eq.trans hauthentic.source_eq
    exact ⟨loaded, heq ▸ hsource, heq ▸ hauthentic, hresolves⟩
  have hresolve {source : PackageSource} (hsource : Closure sha256 serde provider root source)
      {loaded : Loaded} (hloaded : Authentic sha256 serde provider source loaded) :
      ∃ package ∈ resolved, package.source = source ∧ Resolves sha256 serde provider loaded package := by
    obtain ⟨package, hpackage, hresolves⟩ :=
      exists_right hresolved ((h.mem_iff loaded).mpr ⟨source, hsource, hloaded⟩)
    exact ⟨package, hpackage, hresolves.source_eq.trans hloaded.source_eq, hresolves⟩
  have hsources : (resolved.map ResolvedPackage.source).Nodup := by
    rw [← map_eq_of_forall₂ (fun _ _ hresolves => hresolves.source_eq.symm) hresolved]
    exact h.once
  have hids : resolved.Pairwise fun left right => left.inst.id ≠ right.inst.id := by
    rw [List.Nodup, pairwise_map] at hsources
    refine hsources.imp_of_mem fun {left right} hleft hright hne hid => hne ?_
    obtain ⟨loaded, hclosure, hloaded, hresolves⟩ := hauthentic hleft
    obtain ⟨loaded', hclosure', hloaded', hresolves'⟩ := hauthentic hright
    rw [hresolves.inst_eq, hresolves'.inst_eq, hloaded.id_eq, hloaded'.id_eq] at hid
    have hmanifest := Manifest.encode_inj
      (hdigest _ _ _ _ hclosure hclosure' hloaded hloaded' hid)
    rw [hresolves.source_eq, hresolves'.source_eq, hmanifest]
  refine ⟨?_, ?_, fun source => ?_, fun package hpackage => ?_⟩
  · have hle : (resolved.mergeSort fun left right => left.inst.id ≤ right.inst.id).Pairwise
        fun left right => left.inst.id ≤ right.inst.id := by
      refine (pairwise_mergeSort ?_ ?_ resolved).imp fun hle => by simpa using hle
      · intro a b c hab hbc
        simp only [decide_eq_true_eq] at hab hbc ⊢
        exact hab.trans hbc
      · intro a b
        simpa using le_total a.inst.id b.inst.id
    refine (hle.and (hids.perm hperm.symm fun hne => hne.symm)).imp ?_
    exact fun ⟨hle, hne⟩ => lt_of_le_of_ne hle hne
  · exact (hperm.map _).nodup_iff.mpr hsources
  · constructor
    · intro hsource
      obtain ⟨loaded, hloaded⟩ := h.authentic source hsource
      obtain ⟨package, hpackage, heq, -⟩ := hresolve hsource hloaded
      exact ⟨package, hperm.mem_iff.mpr hpackage, heq⟩
    · rintro ⟨package, hpackage, rfl⟩
      obtain ⟨-, hclosure, -⟩ := hauthentic (hperm.mem_iff.mp hpackage)
      exact hclosure
  · obtain ⟨loaded, hclosure, hloaded, hresolves⟩ := hauthentic (hperm.mem_iff.mp hpackage)
    refine ⟨loaded, hloaded, hresolves.inst_eq, hresolves.name_eq, hresolves.version_eq, ?_⟩
    refine List.Forall₂.flip (forall₂_imp_left (fun dependency hdependency edge hedge => ?_)
      hresolves.edges)
    obtain ⟨target, htarget, -, rfl⟩ := hedge
    obtain ⟨selected, hselected, heq, hresolves'⟩ :=
      hresolve (hclosure.dependency hloaded hdependency) htarget
    exact ⟨rfl, selected, hperm.mem_iff.mpr hselected, heq, by rw [hresolves'.inst_eq]⟩

/-! ### Cycles -/

theorem edgesById_append (packages : List ResolvedPackage) (package : ResolvedPackage) :
    edgesById (packages ++ [package])
      = (edgesById packages).insert package.inst.id (package.dependencies.map Prod.snd) := by
  simp [edgesById]

/-- Identities that are distinct lead to one package each. -/
theorem get?_edgesById {packages : List ResolvedPackage}
    (hids : packages.Pairwise fun left right => left.inst.id < right.inst.id) {id : String}
    {children : List String} : (edgesById packages).get? id = some children ↔
      ∃ package ∈ packages, package.inst.id = id ∧ package.dependencies.map Prod.snd = children := by
  induction packages using List.reverseRecOn with
  | nil => simp [edgesById, get?_empty]
  | append_singleton packages package ih =>
    obtain ⟨hpackages, -, hlt⟩ := pairwise_append.mp hids
    rw [edgesById_append, get?_insert]
    split
    · next heq =>
      subst heq
      constructor
      · intro h
        exact ⟨package, by simp, rfl, Option.some.inj h⟩
      · rintro ⟨other, hother, hid, rfl⟩
        obtain hother | hother := mem_append.mp hother
        · exact absurd hid (hlt other hother package (by simp)).ne
        · rw [mem_singleton.mp hother]
    · next hne =>
      rw [ih hpackages]
      constructor
      · rintro ⟨other, hother, hrest⟩
        exact ⟨other, mem_append_left _ hother, hrest⟩
      · rintro ⟨other, hother, rfl, hrest⟩
        refine ⟨other, (mem_append.mp hother).resolve_right fun hmem => hne ?_, rfl, hrest⟩
        rw [mem_singleton.mp hmem]

theorem length_keys_edgesById {packages : List ResolvedPackage}
    (hids : packages.Pairwise fun left right => left.inst.id < right.inst.id) :
    (edgesById packages).keys.length = packages.length := by
  rw [length_keys]
  induction packages using List.reverseRecOn with
  | nil => rfl
  | append_singleton packages package ih =>
    obtain ⟨hpackages, -, hlt⟩ := pairwise_append.mp hids
    rw [edgesById_append, size_insert, ih hpackages, length_append,
      length_singleton]
    rw [Option.eq_none_iff_forall_ne_some]
    intro children h
    obtain ⟨other, hother, hid, -⟩ := (get?_edgesById hpackages).mp h
    exact (hlt other hother package (by simp)).ne hid

section Cycles

variable {packages : List ResolvedPackage}
  (h : ExactPackages sha256 serde provider root packages)
include h

variable {package package' rootPackage : ResolvedPackage} {id : String}

theorem ExactPackages.source_unique
    (hpackage : package ∈ packages) (hpackage' : package' ∈ packages)
    (heq : package.source = package'.source) : package = package' :=
  inj_on_of_nodup_map h.once hpackage hpackage' heq

theorem ExactPackages.id_unique (hpackage : package ∈ packages) (hpackage' : package' ∈ packages)
    (heq : package.inst.id = package'.inst.id) : package = package' := by
  have hnodup : (packages.map fun package => package.inst.id).Nodup := by
    rw [List.Nodup, pairwise_map]
    exact h.sorted.imp fun hlt => hlt.ne
  exact inj_on_of_nodup_map hnodup hpackage hpackage' heq

/-- Edges between identities are dependencies between sources. -/
theorem ExactPackages.edge_iff (hpackage : package ∈ packages)
    : ThreeColour.Edge (edgesById packages) package.inst.id id ↔
      ∃ target ∈ packages, target.inst.id = id
        ∧ DependsOn sha256 serde provider package.source target.source := by
  obtain ⟨loaded, hloaded, -, -, -, hedges⟩ := h.authentic package hpackage
  constructor
  · rintro ⟨children, hchildren, hid⟩
    obtain ⟨other, hother, hotherId, rfl⟩ := (get?_edgesById h.sorted).mp hchildren
    rw [h.id_unique hother hpackage hotherId] at hid
    obtain ⟨edge, hedge, rfl⟩ := mem_map.mp hid
    obtain ⟨dependency, hdependency, -, target, htarget, heq, hedgeId⟩ :=
      exists_right hedges hedge
    exact ⟨target, htarget, hedgeId.symm, loaded, hloaded, dependency, hdependency, heq.symm⟩
  · rintro ⟨target, htarget, rfl, other, hother, dependency, hdependency, heq⟩
    rw [hother.unique hloaded] at hdependency
    obtain ⟨edge, hedge, -, selected, hselected, hsource, hedgeId⟩ :=
      exists_left hedges hdependency
    refine ⟨package.dependencies.map Prod.snd,
      (get?_edgesById h.sorted).mpr ⟨package, hpackage, rfl, rfl⟩,
      mem_map.mpr ⟨edge, hedge, ?_⟩⟩
    rw [hedgeId, h.source_unique hselected htarget (hsource.trans heq)]

theorem ExactPackages.package_of_edge {id' : String}
    (hedge : ThreeColour.Edge (edgesById packages) id id') :
    ∃ package ∈ packages, package.inst.id = id := by
  obtain ⟨children, hchildren, -⟩ := hedge
  obtain ⟨package, hpackage, hid, -⟩ := (get?_edgesById h.sorted).mp hchildren
  exact ⟨package, hpackage, hid⟩

/-- Paths between identities are paths between sources. -/
theorem ExactPackages.path_iff {target : ResolvedPackage} (hpackage : package ∈ packages)
    (htarget : target ∈ packages) :
    Relation.TransGen (ThreeColour.Edge (edgesById packages)) package.inst.id target.inst.id ↔
      Relation.TransGen (DependsOn sha256 serde provider) package.source target.source := by
  constructor
  · intro hpath
    generalize hid : target.inst.id = id at hpath
    induction hpath generalizing target with
    | single hedge =>
      obtain ⟨selected, hselected, hselectedId, hdepends⟩ := (h.edge_iff hpackage).mp hedge
      rw [h.id_unique htarget hselected (hid.trans hselectedId.symm)]
      exact .single hdepends
    | tail _ hedge ih =>
      -- the identity before the last edge is that of a package
      obtain ⟨middle, hmiddle, rfl⟩ := h.package_of_edge hedge
      obtain ⟨selected, hselected, hselectedId, hdepends⟩ := (h.edge_iff hmiddle).mp hedge
      rw [h.id_unique htarget hselected (hid.trans hselectedId.symm)]
      exact .tail (ih hmiddle rfl) hdepends
  · intro hpath
    have hclosure : Closure sha256 serde provider root package.source :=
      (h.lists _).mpr ⟨package, hpackage, rfl⟩
    generalize hsource : target.source = source at hpath
    induction hpath generalizing target with
    | single hdepends =>
      exact .single ((h.edge_iff hpackage).mpr ⟨target, htarget, rfl, hsource ▸ hdepends⟩)
    | tail hpath hdepends ih =>
      obtain ⟨middle, hmiddle, hmiddleSource⟩ :=
        (h.lists _).mp (hclosure.trans hpath.to_reflTransGen)
      refine .tail (ih hmiddle hmiddleSource) ((h.edge_iff hmiddle).mpr ⟨target, htarget, rfl, ?_⟩)
      rw [hmiddleSource, hsource]
      exact hdepends

variable (hroot : rootPackage ∈ packages) (hrootSource : rootPackage.source = root)

include hroot hrootSource

theorem ExactPackages.reached_iff :
    Relation.ReflTransGen (ThreeColour.Edge (edgesById packages)) rootPackage.inst.id id ↔
      ∃ package ∈ packages, package.inst.id = id := by
  constructor
  · intro hreached
    cases hreached with
    | refl => exact ⟨rootPackage, hroot, rfl⟩
    | tail _ hedge =>
      obtain ⟨middle, hmiddle, rfl⟩ := h.package_of_edge hedge
      obtain ⟨selected, hselected, hselectedId, -⟩ := (h.edge_iff hmiddle).mp hedge
      exact ⟨selected, hselected, hselectedId⟩
  · rintro ⟨package, hpackage, rfl⟩
    have hclosure : Closure sha256 serde provider root package.source :=
      (h.lists _).mpr ⟨package, hpackage, rfl⟩
    rw [← hrootSource] at hclosure
    obtain heq | hpath := Relation.reflTransGen_iff_eq_or_transGen.mp hclosure
    · rw [h.source_unique hpackage hroot heq]
    · exact ((h.path_iff hroot hpackage).mpr hpath).to_reflTransGen

/-- The cycle check passes exactly when dependencies have no cycle. -/
theorem ExactPackages.rejectCyclesAndOrphans_eq_ok :
    rejectCyclesAndOrphans rootPackage.inst.id packages = .ok () ↔
      ∀ source, Closure sha256 serde provider root source →
        ¬Relation.TransGen (DependsOn sha256 serde provider) source source := by
  have hcycle : (∀ source, Closure sha256 serde provider root source →
      ¬Relation.TransGen (DependsOn sha256 serde provider) source source) ↔
      ∀ package ∈ packages, ¬Relation.TransGen (ThreeColour.Edge (edgesById packages))
        package.inst.id package.inst.id := by
    constructor
    · intro hacyclic package hpackage hpath
      exact hacyclic package.source ((h.lists _).mpr ⟨package, hpackage, rfl⟩)
        ((h.path_iff hpackage hpackage).mp hpath)
    · intro hacyclic source hsource hpath
      obtain ⟨package, hpackage, rfl⟩ := (h.lists source).mp hsource
      exact hacyclic package hpackage ((h.path_iff hpackage hpackage).mpr hpath)
  have hknown {package : ResolvedPackage} (hpackage : package ∈ packages) :
      ((edgesById packages).get? package.inst.id).isSome :=
    Option.isSome_iff_exists.mpr
      ⟨_, (get?_edgesById h.sorted).mpr ⟨package, hpackage, rfl, rfl⟩⟩
  rw [hcycle]
  unfold rejectCyclesAndOrphans
  constructor
  · intro hrun package hpackage
    have hreached := (h.reached_iff hroot hrootSource).mpr ⟨package, hpackage, rfl⟩
    split at hrun
    · cases hrun
    · cases hrun
    · next colour hwalk => exact ((ThreeColour.walk_ok hwalk).2 hreached).2
  · intro hacyclic
    have hsound (id : String) (hreached : Relation.ReflTransGen
        (ThreeColour.Edge (edgesById packages)) rootPackage.inst.id id) :
        ((edgesById packages).get? id).isSome
          ∧ ¬Relation.TransGen (ThreeColour.Edge (edgesById packages)) id id := by
      obtain ⟨package, hpackage, rfl⟩ := (h.reached_iff hroot hrootSource).mp hreached
      exact ⟨hknown hpackage, hacyclic package hpackage⟩
    obtain ⟨colour, hwalk⟩ := ThreeColour.walk_finishes hsound
    have hcount : (edgesById packages).keys.countP (fun id => colour id = .black)
        = packages.length := by
      rw [← length_keys_edgesById h.sorted, countP_eq_length]
      intro id hid
      obtain ⟨children, hchildren⟩ := Option.isSome_iff_exists.mp (mem_keys.mp hid)
      obtain ⟨package, hpackage, hpackageId, -⟩ := (get?_edgesById h.sorted).mp hchildren
      rw [decide_eq_true_eq, (ThreeColour.walk_ok hwalk).1]
      exact (h.reached_iff hroot hrootSource).mpr ⟨package, hpackage, hpackageId⟩
    rw [hwalk]
    simp [hcount]

end Cycles

end Exact

end Zryna.Package
