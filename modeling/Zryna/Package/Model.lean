import Mathlib.Data.Prod.Lex
import Mathlib.Data.String.Basic
import Zryna.Foundation.Json

/-!
# Package records and their canonical bytes

The records of package contract v1, the canonical JSON that stands for them, and the digests that
identify them. Parsing JSON, reading records out of JSON values and SHA-256 are parameters; writing
is not, since the identity of a package is a digest of what is written.

A serializer writes the members of a record in the order of their keys.
-/

namespace Zryna.Package

open Json (Value)

/-! ### Errors -/

/-- Stable fail-closed package-resolution rejection. -/
structure ResolveError where
  code : String
  detail : String
deriving DecidableEq

namespace ResolveError

section

variable (detail : String)

def source : ResolveError := ⟨"ZRYNA-P4004", detail⟩
def budget : ResolveError := ⟨"ZRYNA-P4001", detail⟩
def wire : ResolveError := ⟨"ZRYNA-P4002", detail⟩
def schema : ResolveError := ⟨"ZRYNA-P4003", detail⟩
def path : ResolveError := ⟨"ZRYNA-P4005", detail⟩
def selection : ResolveError := ⟨"ZRYNA-P4006", detail⟩
def identity : ResolveError := ⟨"ZRYNA-P4007", detail⟩
def graph : ResolveError := ⟨"ZRYNA-P4008", detail⟩
def compatibility : ResolveError := ⟨"ZRYNA-P4009", detail⟩
def frozen : ResolveError := ⟨"ZRYNA-P4010", detail⟩
end

def order (label : String) : ResolveError := ⟨"ZRYNA-P4003", s!"{label} must be sorted and unique"⟩

end ResolveError

/-! ### Records -/

/-- Closed source kinds admitted by package contract v1. -/
inductive PackageSourceKind where
  | git
  | local
deriving DecidableEq

/-- Exact source tuple used for dependency selection. -/
structure PackageSource where
  kind : PackageSourceKind
  locator : String
  revision : String
deriving DecidableEq

def PackageSourceKind.rank : PackageSourceKind → ℕ
  | .git => 0
  | .local => 1

/-- Sources are ordered by kind, locator and revision. -/
instance : LinearOrder PackageSource :=
  LinearOrder.lift' (fun source =>
      (toLex (source.kind.rank, toLex (source.locator, source.revision)) : ℕ ×ₗ String ×ₗ String))
    (by
      rintro ⟨kind, locator, revision⟩ ⟨kind', locator', revision'⟩ h
      simp only [EmbeddingLike.apply_eq_iff_eq, Prod.mk.injEq] at h
      obtain ⟨hkind, rfl, rfl⟩ := h
      cases kind <;> cases kind' <;> simp_all [PackageSourceKind.rank])

/-- Exact compiler, language-profile, and target compatibility claim. -/
structure Compatibility where
  compiler : String
  profile : String
  targets : List String
deriving DecidableEq

structure Checksum where
  path : String
  size : ℕ
  sha256 : String
deriving DecidableEq

structure Dependency where
  aliasName : String
  name : String
  version : String
  source : PackageSource
deriving DecidableEq

structure Manifest where
  format : String
  name : String
  version : String
  source : PackageSource
  compatibility : Compatibility
  files : List Checksum
  dependencies : List Dependency
deriving DecidableEq

structure LockEdge where
  aliasName : String
  package : String
deriving DecidableEq

structure LockPackage where
  id : String
  sourceSha256 : String
  dependencies : List LockEdge
deriving DecidableEq

structure Lock where
  format : String
  root : String
  compatibility : Compatibility
  packages : List LockPackage
deriving DecidableEq

/-- One provider-returned package-relative source file. -/
structure PackageFile where
  path : String
  bytes : List UInt8
deriving DecidableEq

/-- Bounded manifest and source inventory returned through a caller-owned capability. -/
structure PackageMaterial where
  manifest : List UInt8
  files : List PackageFile
deriving DecidableEq

/-! ### JSON -/

def PackageSourceKind.toValue : PackageSourceKind → Value
  | .git => .string "git"
  | .local => .string "local"

def PackageSource.toValue (source : PackageSource) : Value :=
  .object [("kind", source.kind.toValue), ("locator", .string source.locator),
    ("revision", .string source.revision)]

def Compatibility.toValue (value : Compatibility) : Value :=
  .object [("compiler", .string value.compiler), ("profile", .string value.profile),
    ("targets", .array (value.targets.map .string))]

def Checksum.toValue (file : Checksum) : Value :=
  .object [("path", .string file.path), ("sha256", .string file.sha256),
    ("size", .number (Nat.toDigits 10 file.size))]

def Dependency.toValue (dependency : Dependency) : Value :=
  .object [("alias", .string dependency.aliasName), ("name", .string dependency.name),
    ("source", dependency.source.toValue), ("version", .string dependency.version)]

def Manifest.toValue (manifest : Manifest) : Value :=
  .object [("compatibility", manifest.compatibility.toValue),
    ("dependencies", .array (manifest.dependencies.map Dependency.toValue)),
    ("files", .array (manifest.files.map Checksum.toValue)), ("format", .string manifest.format),
    ("name", .string manifest.name), ("source", manifest.source.toValue),
    ("version", .string manifest.version)]

def LockEdge.toValue (edge : LockEdge) : Value :=
  .object [("alias", .string edge.aliasName), ("package", .string edge.package)]

def LockPackage.toValue (package : LockPackage) : Value :=
  .object [("dependencies", .array (package.dependencies.map LockEdge.toValue)),
    ("id", .string package.id), ("sourceSha256", .string package.sourceSha256)]

def Lock.toValue (lock : Lock) : Value :=
  .object [("compatibility", lock.compatibility.toValue), ("format", .string lock.format),
    ("packages", .array (lock.packages.map LockPackage.toValue)), ("root", .string lock.root)]

/-- What a dependency selects, and what a package is indexed under. -/
def coordinateValue (name version : String) (source : PackageSource) : Value :=
  .array [.string name, .string version, source.toValue]

/-! ### Canonical bytes -/

def maxWireBytes : ℕ := 65536

/-- Canonical bytes end with a line feed. -/
def encode (value : Value) : List UInt8 := Json.writeBytes value ++ [10]

/-- Reading JSON, and records out of JSON. -/
structure Serde where
  fromSlice : List UInt8 → Option Value
  manifest : Value → Option Manifest
  lock : Value → Option Lock

/-- Where a scan of JSON text is. -/
structure DepthState where
  depth : ℕ := 0
  quoted : Bool := false
  escaped : Bool := false
deriving DecidableEq

def depthStep (st : DepthState) (byte : UInt8) : Except ResolveError DepthState :=
  if st.quoted then
    if st.escaped then .ok { st with escaped := false }
    else if byte = 92 then .ok { st with escaped := true }
    else if byte = 34 then .ok { st with quoted := false }
    else .ok st
  else if byte = 34 then .ok { st with quoted := true }
  else if byte = 123 ∨ byte = 91 then
    if st.depth + 1 > 6 then .error (.budget "nesting exceeds 6")
    else .ok { st with depth := st.depth + 1 }
  else if byte = 125 ∨ byte = 93 then .ok { st with depth := st.depth - 1 }
  else .ok st

def checkDepth (input : List UInt8) : Except ResolveError Unit := do
  let _ ← input.foldlM depthStep {}
  .ok ()

/-- Reads one record from canonical bytes. -/
def parse {α : Type} (serde : Serde) (fromValue : Value → Option α) (input : List UInt8) :
    Except ResolveError α := do
  if input.length > maxWireBytes then .error (.budget "wire bytes exceed 65536")
  checkDepth input
  match serde.fromSlice input with
  | none => .error (.wire "invalid UTF-8 or JSON")
  | some value =>
    if encode value ≠ input then .error (.wire "JSON bytes are not canonical")
    else match fromValue value with
      | none => .error (.schema "closed record schema rejected input")
      | some record => .ok record

def labelBytes (label : String) : List UInt8 := Json.utf8Bytes label.toList

/-- The domain-separated digest of a record, for a hash that gives the hexadecimal digits. -/
def digest (sha256 : List UInt8 → String) (kind : String) (value : Value) : String :=
  sha256 (labelBytes "ZRYNA-PACKAGE-RELEASE-V1" ++ [0] ++ labelBytes kind ++ [0] ++ encode value)

/-! ### Records are told by their bytes -/

theorem toDigits_inj {m n : ℕ} (h : Nat.toDigits 10 m = Nat.toDigits 10 n) : m = n := by
  rw [← Nat.ofDigitChars_toDigits (show 1 < 10 by decide) le_rfl (n := m), h,
    Nat.ofDigitChars_toDigits (by decide) le_rfl]

theorem wellFormed_toDigits (n : ℕ) : (Value.number (Nat.toDigits 10 n)).WellFormed := by
  refine ⟨Nat.toDigits_ne_nil, fun c hc => ?_⟩
  rw [Json.numberChar, Nat.isDigit_of_mem_toDigits (by decide) le_rfl hc]
  rfl

theorem itemsWellFormed_map {α : Type} {f : α → Value} {xs : List α}
    (h : ∀ x ∈ xs, (f x).WellFormed) : Json.ItemsWellFormed (xs.map f) := by
  induction xs with
  | nil => trivial
  | cons x xs ih =>
    obtain ⟨hx, hxs⟩ := List.forall_mem_cons.mp h
    exact ⟨hx, ih hxs⟩

theorem PackageSource.wellFormed (source : PackageSource) : source.toValue.WellFormed := by
  obtain ⟨kind, locator, revision⟩ := source
  cases kind <;> exact ⟨trivial, trivial, trivial, trivial⟩

variable {source source' : PackageSource} {manifest manifest' : Manifest}

theorem PackageSource.toValue_inj (h : source.toValue = source'.toValue) : source = source' := by
  obtain ⟨kind, locator, revision⟩ := source
  obtain ⟨kind', locator', revision'⟩ := source'
  cases kind <;> cases kind' <;> simp_all [PackageSource.toValue, PackageSourceKind.toValue]

theorem coordinateValue_wellFormed (name version : String) (source : PackageSource) :
    (coordinateValue name version source).WellFormed :=
  ⟨trivial, trivial, source.wellFormed, trivial⟩

theorem coordinateValue_inj {name version name' version' : String}
    (h : coordinateValue name version source = coordinateValue name' version' source') :
    name = name' ∧ version = version' ∧ source = source' := by
  simp only [coordinateValue, Value.array.injEq, List.cons.injEq, Value.string.injEq,
    and_true] at h
  exact ⟨h.1, h.2.1, PackageSource.toValue_inj h.2.2⟩

theorem Compatibility.wellFormed (value : Compatibility) : value.toValue.WellFormed :=
  ⟨trivial, trivial, itemsWellFormed_map fun _ _ => trivial, trivial⟩

theorem Compatibility.toValue_inj {value value' : Compatibility}
    (h : value.toValue = value'.toValue) : value = value' := by
  obtain ⟨compiler, profile, targets⟩ := value
  obtain ⟨compiler', profile', targets'⟩ := value'
  simp only [Compatibility.toValue, Value.object.injEq, List.cons.injEq, Prod.mk.injEq,
    Value.string.injEq, Value.array.injEq, true_and, and_true] at h
  obtain ⟨rfl, rfl, htargets⟩ := h
  rw [List.map_injective_iff.mpr (fun _ _ h => Value.string.inj h) htargets]

theorem Checksum.wellFormed (file : Checksum) : file.toValue.WellFormed :=
  ⟨trivial, trivial, wellFormed_toDigits _, trivial⟩

theorem Checksum.toValue_injective : Function.Injective Checksum.toValue := by
  rintro ⟨path, size, sha256⟩ ⟨path', size', sha256'⟩ h
  simp only [Checksum.toValue, Value.object.injEq, List.cons.injEq, Prod.mk.injEq,
    Value.string.injEq, Value.number.injEq, true_and, and_true] at h
  obtain ⟨rfl, rfl, hsize⟩ := h
  rw [toDigits_inj hsize]

theorem Dependency.wellFormed (dependency : Dependency) : dependency.toValue.WellFormed :=
  ⟨trivial, trivial, dependency.source.wellFormed, trivial, trivial⟩

theorem Dependency.toValue_injective : Function.Injective Dependency.toValue := by
  rintro ⟨aliasName, name, version, source⟩ ⟨aliasName', name', version', source'⟩ h
  simp only [Dependency.toValue, Value.object.injEq, List.cons.injEq, Prod.mk.injEq,
    Value.string.injEq, true_and, and_true] at h
  obtain ⟨rfl, rfl, hsource, rfl⟩ := h
  rw [PackageSource.toValue_inj hsource]

theorem Manifest.wellFormed (manifest : Manifest) : manifest.toValue.WellFormed :=
  ⟨manifest.compatibility.wellFormed,
    itemsWellFormed_map fun dependency _ => dependency.wellFormed,
    itemsWellFormed_map fun file _ => file.wellFormed, trivial, trivial,
    manifest.source.wellFormed, trivial, trivial⟩

theorem Manifest.toValue_inj (h : manifest.toValue = manifest'.toValue) : manifest = manifest' := by
  obtain ⟨format, name, version, source, compatibility, files, dependencies⟩ := manifest
  obtain ⟨format', name', version', source', compatibility', files', dependencies'⟩ := manifest'
  simp only [Manifest.toValue, Value.object.injEq, List.cons.injEq, Prod.mk.injEq,
    Value.string.injEq, Value.array.injEq, true_and, and_true] at h
  obtain ⟨hcompatibility, hdependencies, hfiles, rfl, rfl, hsource, rfl⟩ := h
  rw [Compatibility.toValue_inj hcompatibility, PackageSource.toValue_inj hsource,
    List.map_injective_iff.mpr Dependency.toValue_injective hdependencies,
    List.map_injective_iff.mpr Checksum.toValue_injective hfiles]

theorem encode_inj {value value' : Value} (h : value.WellFormed) (h' : value'.WellFormed)
    (heq : encode value = encode value') : value = value' :=
  Json.writeBytes_inj h h' (List.append_cancel_right heq)

/-- Canonical bytes tell a manifest. -/
theorem Manifest.encode_inj
    (h : encode manifest.toValue = encode manifest'.toValue) : manifest = manifest' :=
  Manifest.toValue_inj (Package.encode_inj manifest.wellFormed manifest'.wellFormed h)

end Zryna.Package
