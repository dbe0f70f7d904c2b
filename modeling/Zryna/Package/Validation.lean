import Zryna.Foundation.Checked
import Zryna.Package.Model
import Zryna.Source

/-!
# Validation of package records

What the resolver asks of a manifest, of a source tuple and of the files that come with them. Text is
read as characters; the length of a text is its UTF-8 length. All tests on bytes accept ASCII only,
so they are tests on characters.
-/

namespace Zryna.Package.Validation

open Json (Value)

/-! ### Text -/

def isAsciiLowercase (c : Char) : Bool := 'a' ≤ c && c ≤ 'z'

def isAsciiDigit (c : Char) : Bool := '0' ≤ c && c ≤ '9'

def isAsciiUppercase (c : Char) : Bool := 'A' ≤ c && c ≤ 'Z'

/-- A lowercase hexadecimal digit. -/
def isHexDigit (c : Char) : Bool := isAsciiDigit c || ('a' ≤ c && c ≤ 'f')

/-- `stem` and one digit. -/
def isNumbered (stem segment : List Char) : Bool :=
  match segment.dropPrefix? stem with
  | some suffix => suffix.length = 1 && suffix.all isAsciiDigit
  | none => false

/-- A file stem that names a device. -/
def isReserved (segment : List Char) : Bool :=
  let stem := (segment.splitOn '.').headD []
  stem ∈ ["con".toList, "prn".toList, "aux".toList, "nul".toList]
    || isNumbered "com".toList stem || isNumbered "lpt".toList stem

def portablePath (value : String) : Except ResolveError Unit := do
  let text := value.toList
  if text = [] ∨ utf8Length text > 96
      ∨ ¬text.zipIdx.all (fun entry => isAsciiLowercase entry.1 || isAsciiDigit entry.1
        || (entry.2 > 0 && entry.1 ∈ ['/', '.', '_', '-'])) then
    .error (.path "invalid portable path")
  if (text.splitOn '/').any fun segment => segment = [] || segment = ['.'] || segment = ['.', '.']
      || segment.getLast? = some '.' || isReserved segment then
    .error (.path "invalid portable path segment")

def name (value : String) : Except ResolveError Unit :=
  let text := value.toList
  if text = [] ∨ utf8Length text > 64 ∨ ¬text.head?.any isAsciiLowercase
      ∨ ¬text.all (fun c => isAsciiLowercase c || isAsciiDigit c || c = '-') then
    .error (.schema "invalid package name or alias")
  else .ok ()

/-- The number that digits write. -/
def decimal (digits : List Char) : ℕ := Nat.ofDigitChars 10 digits 0

def version (value : String) : Except ResolveError Unit :=
  let parts := value.toList.splitOn '.'
  if parts.length ≠ 3 ∨ utf8Length value.toList > 14
      ∨ parts.any (fun part => part = [] || (part.length > 1 && part.head? = some '0')
        || !part.all isAsciiDigit || decimal part > 9999) then
    .error (.schema "invalid exact package version")
  else .ok ()

def isDigest (value : String) : Bool :=
  utf8Length value.toList = 64 && value.toList.all isHexDigit

def isCommit (value : String) : Bool :=
  utf8Length value.toList = 40 && value.toList.all isHexDigit

def validGitSegment (segment : List Char) : Bool :=
  segment ≠ [] && segment.all fun c => isAsciiLowercase c || isAsciiDigit c || c ∈ ['_', '-']

/-- No two neighbours are both dots or hyphens. -/
def separated (host : List Char) : Bool :=
  (host.zip host.tail).all fun pair => !(pair.1 ∈ ['.', '-'] && pair.2 ∈ ['.', '-'])

/-- What stands before and after the first slash. -/
def splitOnce (text : List Char) : Option (List Char × List Char) :=
  match text.dropWhile (· ≠ '/') with
  | [] => none
  | _ :: path => some (text.takeWhile (· ≠ '/'), path)

def validHost (host : List Char) : Bool :=
  host ≠ [] && !host.head?.any (· ∈ ['.', '-']) && !host.getLast?.any (· ∈ ['.', '-'])
    && separated host
    && host.all fun c => isAsciiLowercase c || isAsciiDigit c || c ∈ ['.', '-']

def canonicalGitLocator (value : String) : Bool :=
  match (value.toList.dropPrefix? "https://".toList).bind (·.dropSuffix? ".git".toList) with
  | none => false
  | some rest =>
    if utf8Length value.toList > 96 ∨ value.toList.any isAsciiUppercase
        ∨ value.toList.any (· ∈ ['?', '#', '@', '%', '\\']) then false
    else match splitOnce rest with
      | none => false
      | some (host, path) =>
        validHost host && path ≠ [] && (path.splitOn '/').all validGitSegment

/-! ### Records -/

def source (value : PackageSource) : Except ResolveError Unit :=
  match value.kind with
  | .local => do
    if value.revision ≠ "" then .error (.source "local source revision must be empty")
    portablePath value.locator
  | .git =>
    if canonicalGitLocator value.locator && isCommit value.revision then .ok ()
    else .error (.source "Git source requires a canonical HTTPS .git locator and exact commit")

/-- No key is as great as the next one. -/
def ordered (keys : List String) (label : String) : Except ResolveError Unit :=
  if (keys.zip keys.tail).any fun pair => pair.1 ≥ pair.2 then .error (.order label) else .ok ()

def compatibility (value : Compatibility) : Except ResolveError Unit := do
  version value.compiler
  if value.profile ∉ ["i32-v1", "control-flow-v1", "data-ownership-v1"] then
    .error (.schema "unsupported language profile")
  if value.targets = [] ∨ value.targets.length > 3 then
    .error (.budget "target count is outside 1..=3")
  ordered value.targets "targets"
  if value.targets.any (· ∉ ["javascript", "native-linux-x86_64", "webassembly"]) then
    .error (.schema "unsupported package target")

/-- The directories that a path goes through. -/
def directories (path : List Char) : List (List Char) :=
  (List.range path.length).filterMap fun i =>
    if path[i]? = some '/' then some (path.take i) else none

def rejectPrefixCollisions (files : List Checksum) : Except ResolveError Unit :=
  let paths := files.map fun file => file.path.toList
  if paths.any fun path => (directories path).any (· ∈ paths) then
    .error (.path "file and directory paths collide")
  else .ok ()

def checksum (file : Checksum) : Except ResolveError Unit := do
  portablePath file.path
  if file.size > 1024 ∨ ¬isDigest file.sha256 then
    .error (.schema "invalid source checksum record")

def dependency (value : Dependency) : Except ResolveError Unit := do
  name value.aliasName
  name value.name
  version value.version
  source value.source

def manifest (value : Manifest) : Except ResolveError Unit := do
  if value.format ≠ "zryna.package.v1" then
    .error (.schema "unsupported package manifest format")
  name value.name
  version value.version
  source value.source
  compatibility value.compatibility
  if value.files = [] ∨ value.files.length > 16 then
    .error (.budget "source file count is outside 1..=16")
  if value.dependencies.length > 8 then
    .error (.budget "dependency count exceeds 8")
  ordered (value.files.map Checksum.path) "source files"
  ordered (value.dependencies.map Dependency.aliasName) "dependencies"
  value.files.forM checksum
  rejectPrefixCollisions value.files
  value.dependencies.forM dependency

/-! ### Files -/

/-- A file is the one that a checksum names. -/
def matchesChecksum (sha256 : List UInt8 → String) (expected : Checksum) (actual : PackageFile) :
    Bool :=
  expected.path = actual.path && expected.size = actual.bytes.length
    && expected.sha256 = sha256 actual.bytes

/-- The digest of a source inventory, once the files are those of the manifest. -/
def authenticateFiles (sha256 : List UInt8 → String) (value : Manifest) (files : List PackageFile) :
    Except ResolveError String :=
  let files := files.mergeSort fun left right => left.path ≤ right.path
  if files.length ≠ value.files.length then
    .error (.source "source inventory is missing or contains extra files")
  else if ¬(value.files.zip files).all fun pair => matchesChecksum sha256 pair.1 pair.2 then
    .error (.source "source inventory bytes differ from the manifest")
  else .ok (digest sha256 "source-files" (.array (value.files.map Checksum.toValue)))

end Zryna.Package.Validation
