import Zryna.Foundation.Collect
import Zryna.Foundation.ThreeColour
import Zryna.Package.Validation

/-!
# The package resolver

`resolve` loads the packages that a root needs, selects a loaded package for every dependency, and
rejects cycles. A provider is a function from source tuples, so that it answers a request twice in
the same way.

The loading loop is `collect` over one round of it, `loadPackage`. The colours of the cycle check
are a map from identities in the source; here they are a function, and the count of black ones is
taken over the identities of the packages, which are all that the walk enters.
-/

namespace Zryna.Package

open Json (Value)

/-- Exact authenticated manifest and source-inventory identity pair. -/
structure PackageInstance where
  id : String
  sourceSha256 : String
deriving DecidableEq

/-- One authenticated package and its exact resolved edges. -/
structure ResolvedPackage where
  inst : PackageInstance
  name : String
  version : String
  source : PackageSource
  dependencies : List (String × String)
deriving DecidableEq

/-- Authenticated source-only dependency graph and canonical lock. -/
structure ResolvedGraph where
  root : String
  compatibility : Compatibility
  packages : List ResolvedPackage
  lockBytes : List UInt8
  lockSha256 : String
deriving DecidableEq

/-- Lock handling selected for one resolution request. -/
inductive LockMode where
  | update
  | frozen (input : List UInt8)
deriving DecidableEq

structure Loaded where
  manifest : Manifest
  inst : PackageInstance
deriving DecidableEq

section Load

variable (sha256 : List UInt8 → String) (serde : Serde)
  (provider : PackageSource → Except ResolveError PackageMaterial)

/-- One round of the loading loop: the package of one source. -/
def loadPackage (source : PackageSource) : Except ResolveError Loaded := do
  let material ← provider source
  let manifest ← parse serde serde.manifest material.manifest
  Validation.manifest manifest
  if manifest.source ≠ source then
    .error (.source "loaded manifest substitutes the requested source")
  let id := digest sha256 "manifest" manifest.toValue
  let sourceSha256 ← Validation.authenticateFiles sha256 manifest material.files
  .ok ⟨manifest, ⟨id, sourceSha256⟩⟩

def Loaded.sources (loaded : Loaded) : List PackageSource :=
  loaded.manifest.dependencies.map Dependency.source

def loadPackages (rootSource : PackageSource) :
    Except ResolveError (OrderedMap PackageSource Loaded) :=
  collect (loadPackage sha256 serde provider) Loaded.sources (.budget "package count exceeds 16") 16
    [rootSource] .empty

end Load

/-! ### Checks on the loaded packages -/

/-- What a package is indexed under. -/
def coordinate (loaded : Loaded) : List UInt8 :=
  encode (coordinateValue loaded.manifest.name loaded.manifest.version loaded.manifest.source)

def checkCompatibility (root : Compatibility) (loaded : Loaded) : Except ResolveError Unit :=
  let own := loaded.manifest.compatibility
  if own.compiler ≠ root.compiler ∨ own.profile ≠ root.profile
      ∨ ¬root.targets.all (· ∈ own.targets) then
    .error (.compatibility "dependency compiler/profile or target coverage differs from the root")
  else .ok ()

/-- The edge to the one package that a dependency selects. -/
def selectDependency (packages : List Loaded) (dependency : Dependency) :
    Except ResolveError (String × String) :=
  let key := encode (coordinateValue dependency.name dependency.version dependency.source)
  match packages.filter fun loaded => coordinate loaded = key with
  | [selected] => .ok (dependency.aliasName, selected.inst.id)
  | _ => .error (.selection "exact dependency is absent or has incompatible duplicate instances")

def resolvePackage (packages : List Loaded) (loaded : Loaded) :
    Except ResolveError ResolvedPackage := do
  let dependencies ← loaded.manifest.dependencies.mapM (selectDependency packages)
  .ok ⟨loaded.inst, loaded.manifest.name, loaded.manifest.version, loaded.manifest.source,
    dependencies⟩

def rejectDuplicateInstances (packages : List ResolvedPackage) : Except ResolveError Unit :=
  if (packages.zip packages.tail).any fun pair =>
      pair.1.inst.id = pair.2.inst.id && pair.1.inst.sourceSha256 ≠ pair.2.inst.sourceSha256 then
    .error (.identity "one manifest identity has incompatible source instances")
  else .ok ()

/-- The identities that packages have edges to; the last package of an identity counts. -/
def edgesById (packages : List ResolvedPackage) : OrderedMap String (List String) :=
  packages.foldl (fun edges package =>
    edges.insert package.inst.id (package.dependencies.map Prod.snd)) .empty

def rejectCyclesAndOrphans (root : String) (packages : List ResolvedPackage) :
    Except ResolveError Unit :=
  match ThreeColour.walk (edgesById packages) (fun _ => .white) [(root, false)] with
  | .error .cycle => .error (.graph "package dependency cycle")
  | .error .absent => .error (.graph "dependency edge selects an absent package")
  | .ok colour =>
    if (edgesById packages).keys.countP (fun id => colour id = .black) ≠ packages.length then
      .error (.graph "unreachable package")
    else .ok ()

/-! ### Locks -/

def lockEdge (edge : LockEdge) : Except ResolveError Unit := do
  Validation.name edge.aliasName
  if ¬Validation.isDigest edge.package then .error (.schema "invalid lock edge identity")

def lockPackage (package : LockPackage) : Except ResolveError Unit := do
  if ¬Validation.isDigest package.id ∨ ¬Validation.isDigest package.sourceSha256 then
    .error (.schema "invalid lock package identity")
  if package.dependencies.length > 8 then .error (.budget "lock dependency count exceeds 8")
  if (package.dependencies.zip package.dependencies.tail).any
      fun pair => pair.1.aliasName ≥ pair.2.aliasName then
    .error (.schema "lock edges must be sorted and unique")
  package.dependencies.forM lockEdge

def validateLockShape (lock : Lock) : Except ResolveError Unit := do
  if lock.format ≠ "zryna.lock.v1" ∨ ¬Validation.isDigest lock.root then
    .error (.schema "invalid lock format or root identity")
  Validation.compatibility lock.compatibility
  if lock.packages = [] ∨ lock.packages.length > 16 then
    .error (.budget "lock package count is outside 1..=16")
  if (lock.packages.zip lock.packages.tail).any fun pair => pair.1.id ≥ pair.2.id then
    .error (.schema "lock packages must be sorted and unique")
  lock.packages.forM lockPackage

def lockOf (root : String) (compatibility : Compatibility) (packages : List ResolvedPackage) :
    Lock where
  format := "zryna.lock.v1"
  root := root
  compatibility := compatibility
  packages := packages.map fun package =>
    ⟨package.inst.id, package.inst.sourceSha256,
      package.dependencies.map fun edge => ⟨edge.1, edge.2⟩⟩

/-- The lock that a request asks to be replayed. -/
def frozenLock (serde : Serde) : LockMode → Except ResolveError (Option Lock)
  | .update => .ok none
  | .frozen input => do
    let lock ← parse serde serde.lock input
    validateLockShape lock
    .ok (some lock)

/-! ### The resolver -/

/-- The packages in the order of their identities, once every dependency selects one of them. -/
def resolvePackages (packages : List Loaded) : Except ResolveError (List ResolvedPackage) := do
  let resolved ← packages.mapM (resolvePackage packages)
  .ok (resolved.mergeSort fun left right => left.inst.id ≤ right.inst.id)

section Resolve

variable (sha256 : List UInt8 → String) (serde : Serde)
  (provider : PackageSource → Except ResolveError PackageMaterial)

/-- Resolves and authenticates one complete source-only package graph. -/
def resolve (rootSource : PackageSource) (mode : LockMode) : Except ResolveError ResolvedGraph := do
  Validation.source rootSource
  let frozen ← frozenLock serde mode
  let loadedBySource ← loadPackages sha256 serde provider rootSource
  let loaded := loadedBySource.entries.map Prod.snd
  match loadedBySource.get? rootSource with
  | none => .error (.selection "root package was not loaded")
  | some rootLoaded =>
    let compatibility := rootLoaded.manifest.compatibility
    let root := rootLoaded.inst.id
    loaded.forM (checkCompatibility compatibility)
    let packages ← resolvePackages loaded
    rejectDuplicateInstances packages
    rejectCyclesAndOrphans root packages
    let lock := lockOf root compatibility packages
    if frozen.any (· ≠ lock) then
      .error (.frozen "frozen lock differs from the resolved graph")
    .ok ⟨root, compatibility, packages, encode lock.toValue, digest sha256 "lock" lock.toValue⟩

end Resolve

end Zryna.Package
