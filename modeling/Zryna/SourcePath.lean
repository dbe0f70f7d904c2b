import Mathlib.Data.String.Basic
import Zryna.Source

/-!
# Source paths and module specifiers

Portable workspace-relative paths, and the lexical resolution of an import specifier against the
path of its importer. A `NormalizedSourcePath` carries the fact that its text was validated.
-/

namespace Zryna

def maxSourcePathBytes : ℕ := 1024
/-- Maximum components in a portable source path. -/
def maxSourcePathComponents : ℕ := 32

/-! ### Text -/

def isAscii (cs : List Char) : Bool := cs.all fun c => c.toNat < 128

/-- What follows the beginning of a text. -/
def stripStart (start cs : List Char) : Option (List Char) :=
  if start.isPrefixOf cs then some (cs.drop start.length) else none

def toAsciiLowercase (cs : List Char) : List Char := cs.map Char.toLower

/-! ### Paths -/

def invalidPath (path message : String) : SourceError where
  code := "ZRYNA-S1001"
  path := some path
  message := message
  guidance := "use a portable ASCII workspace-relative path with '/' separators"

local instance lawfulText : LawfulBEq (List Char) := inferInstance

/-- A device name of the host, whatever its extension. -/
def isReservedDevice (component : List Char) : Bool :=
  let folded := toAsciiLowercase (component.takeWhile fun c => c ≠ '.')
  let numbered := ((stripStart "com".toList folded).or (stripStart "lpt".toList folded)).any
    fun suffix => suffix ∈ ["1", "2", "3", "4", "5", "6", "7", "8", "9"].map String.toList
  folded ∈ ["con", "prn", "aux", "nul"].map String.toList || numbered

def validateComponent (path : String) (component : List Char) : Except SourceError Unit :=
  if component = [] then .error (invalidPath path "source path contains an empty component")
  else if component = ".".toList ∨ component = "..".toList then
    .error (invalidPath path "source path contains a traversal component")
  else if utf8Length component > 255 then
    .error (invalidPath path "source path component exceeds 255 bytes")
  else if component.getLast? = some '.' ∨ component.getLast? = some ' ' then
    .error (invalidPath path "source path component ends with a dot or space")
  else if component.any fun c => c.toNat < 32 ∨ c.toNat = 127 then
    .error (invalidPath path "source path contains a control character")
  else if component.any fun c => c ∈ ['<', '>', ':', '"', '|', '?', '*'] then
    .error (invalidPath path "source path contains a Windows-reserved character")
  else if isReservedDevice component then
    .error (invalidPath path "source path contains a Windows-reserved device name")
  else .ok ()

def validateSourcePath (path : String) : Except SourceError Unit :=
  let cs := path.toList
  let components := cs.splitOn '/'
  if cs = [] then .error (invalidPath path "source path is empty")
  else if utf8Length cs > maxSourcePathBytes then
    .error (invalidPath path
      s!"source path contains {utf8Length cs} bytes; the limit is {maxSourcePathBytes}")
  else if ¬isAscii cs then .error (invalidPath path "source path contains non-ASCII characters")
  else if cs.head? = some '/' then .error (invalidPath path "source path is absolute")
  else if '\\' ∈ cs then .error (invalidPath path "source path contains a backslash")
  else if components.length > maxSourcePathComponents then
    .error (invalidPath path
      s!"source path contains {components.length} components; the limit is {maxSourcePathComponents}")
  else components.forM (validateComponent path)

/-- A validated portable workspace-relative source path. -/
structure NormalizedSourcePath where
  asStr : String
  valid : validateSourcePath asStr = .ok ()

namespace NormalizedSourcePath

theorem asStr_injective : Function.Injective asStr := by
  rintro ⟨text, -⟩ ⟨text', -⟩ rfl
  rfl

/-- Paths are ordered by their bytes. -/
instance : LinearOrder NormalizedSourcePath := LinearOrder.lift' asStr asStr_injective

def new (path : String) : Except SourceError NormalizedSourcePath :=
  match h : validateSourcePath path with
  | .ok () => .ok ⟨path, h⟩
  | .error error => .error error

/-- The ASCII case-insensitive identity used for portable collision checks. -/
def portableIdentity (path : NormalizedSourcePath) : String :=
  String.ofList (toAsciiLowercase path.asStr.toList)

theorem utf8Length_le (path : NormalizedSourcePath) :
    utf8Length path.asStr.toList ≤ maxSourcePathBytes := by
  have hvalid := path.valid
  unfold validateSourcePath at hvalid
  dsimp only at hvalid
  split at hvalid
  · cases hvalid
  split at hvalid
  · cases hvalid
  · next hle => exact Nat.not_lt.mp hle

end NormalizedSourcePath

/-! ### Specifiers -/

def hasExactZryExtension (cs : List Char) : Bool := ".zry".toList.isSuffixOf cs

/-- The components that a specifier leads to from those of a directory. -/
def resolveComponents : List (List Char) → List (List Char) → Option (List (List Char))
  | components, [] => some components
  | components, component :: rest =>
    if component = ".".toList then resolveComponents components rest
    else if component = "..".toList then
      if components = [] then none else resolveComponents components.dropLast rest
    else if component = [] then none
    else resolveComponents (components ++ [component]) rest

/-- Resolves one explicit relative lowercase `.zry` import without consulting a host filesystem. -/
def resolveExplicitZryImport (importer : NormalizedSourcePath) (specifier : String) :
    Option NormalizedSourcePath :=
  let cs := specifier.toList
  if ¬("./".toList.isPrefixOf cs || "../".toList.isPrefixOf cs) ∨ ¬hasExactZryExtension cs
      ∨ ¬isAscii cs ∨ (cs.any fun c => c ∈ ['\\', '?', '#', '\x00'])
      ∨ cs.tails.any (fun rest => "://".toList.isPrefixOf rest) then none
  else
    (resolveComponents (importer.asStr.toList.splitOn '/').dropLast (cs.splitOn '/')).bind
      fun components =>
        let resolved := ['/'].intercalate components
        if ¬hasExactZryExtension resolved then none
        else (NormalizedSourcePath.new (String.ofList resolved)).toOption

end Zryna
