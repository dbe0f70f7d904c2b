import Mathlib.Algebra.Ring.Nat

/-!
# Source maps, spans and diagnostics

The part of `zryna-source` and `zryna-diagnostics` that the intermediate representations rest
on: a source map issues dense file identities, a span names a half-open UTF-8 byte range of one
file, and `SourceMap.resolve` revalidates a span against the map.

A `SourceMap` value carries the two facts its only constructor establishes: file `i` has the
identity the map issued for index `i`, and every text is below the per-file limit.
-/

namespace Zryna

/-- Maximum UTF-8 bytes in one source file. -/
def maxSourceFileBytes : ℕ := 2 * 1024 * 1024

/-- Maximum files in one source map. -/
def maxSourceFiles : ℕ := 4096

/-- Stable source-file identifier within one source map. -/
structure FileId where
  sourceMapId : ℕ
  index : ℕ
deriving DecidableEq

/-- Half-open UTF-8 byte range in a source file. -/
structure Span where
  file : FileId
  start : ℕ
  stop : ℕ
deriving DecidableEq

/-- Stable source validation failure. -/
structure SourceError where
  code : String
  path : Option String
  message : String
  guidance : String
deriving DecidableEq

inductive PrimaryLocation where
  | global
  | workspacePath (path : String)
  | source (span : Span)
deriving DecidableEq

/-- A stable error diagnostic produced by a component. -/
structure Diagnostic where
  code : String
  primary : PrimaryLocation
  message : String
  guidance : String
deriving DecidableEq

namespace Diagnostic

/-- A path-scoped or global error diagnostic. -/
def error (code : String) (path : Option String) (message guidance : String) : Diagnostic :=
  ⟨code, path.elim .global .workspacePath, message, guidance⟩

/-- An error whose primary location is a source span. -/
def errorAt (code : String) (span : Span) (message guidance : String) : Diagnostic :=
  ⟨code, .source span, message, guidance⟩

/-- A source validation failure as a diagnostic. -/
def fromSourceError (e : SourceError) : Diagnostic :=
  error e.code e.path e.message e.guidance

end Diagnostic

/-- One immutable source file owned by a source map. -/
structure SourceFile where
  id : FileId
  path : String
  text : String
deriving DecidableEq

def utf8Length (cs : List Char) : ℕ := (cs.map Char.utf8Size).sum

/-- `offset` is the UTF-8 length of a prefix of `cs`. -/
def isCharBoundary : List Char → ℕ → Bool
  | _, 0 => true
  | [], _ + 1 => false
  | c :: cs, n + 1 => c.utf8Size ≤ n + 1 && isCharBoundary cs (n + 1 - c.utf8Size)

/-- Immutable authority for a bounded, normalized set of source files. -/
structure SourceMap where
  id : ℕ
  files : List SourceFile
  files_le : files.length ≤ maxSourceFiles
  id_eq : ∀ (i : ℕ) (f : SourceFile), files[i]? = some f → f.id = ⟨id, i⟩
  text_le : ∀ f ∈ files, utf8Length f.text.toList ≤ maxSourceFileBytes

namespace SourceMap

variable (sources : SourceMap)

/-- Finds a source file by map-local identity. -/
def source (file : FileId) : Option SourceFile :=
  if file.sourceMapId = sources.id then sources.files[file.index]? else none

def unknownFile (file : FileId) : SourceError where
  code := "ZRYNA-S1006"
  path := none
  message := s!"source file identifier {file.index} is not present in this source map"
  guidance := "use a file identifier issued by the same source map"

def invalidSpanOrder (file : FileId) (start stop : ℕ) : SourceError where
  code := "ZRYNA-S1007"
  path := none
  message := s!"source span {start}..{stop} in file {file.index} starts after it ends"
  guidance := "ensure every source range is half-open and ordered"

def invalidBoundary (source : SourceFile) (offset : ℕ) : SourceError where
  code := "ZRYNA-S1008"
  path := some source.path
  message := s!"UTF-8 byte offset {offset} is not a character boundary"
  guidance := "use exact UTF-8 byte boundaries from the authoritative source text"

/-- Validates a raw dense identifier against this map. -/
def verifyFileId (raw : ℕ) : Except SourceError FileId :=
  let file : FileId := ⟨sources.id, raw⟩
  match sources.source file with
  | some source => .ok source.id
  | none => .error (unknownFile file)

/-- The source file of a span whose endpoints are ordered, in bounds and on character
boundaries. -/
def validatedSource (span : Span) : Except SourceError SourceFile :=
  match sources.source span.file with
  | none => .error (unknownFile span.file)
  | some source =>
    let sourceLen := utf8Length source.text.toList
    if span.start > span.stop then .error (invalidSpanOrder span.file span.start span.stop)
    else if sourceLen ≥ 2 ^ 32 then
      .error ⟨"ZRYNA-S1007", some source.path,
        "source length exceeds the supported offset range",
        "reduce the source file before analysis"⟩
    else if span.stop > sourceLen then
      .error ⟨"ZRYNA-S1007", some source.path,
        s!"source span {span.start}..{span.stop} exceeds file length {sourceLen}",
        "keep source ranges within the referenced file"⟩
    else if !isCharBoundary source.text.toList span.start then
      .error (invalidBoundary source span.start)
    else if !isCharBoundary source.text.toList span.stop then
      .error (invalidBoundary source span.stop)
    else .ok source

/-- Resolves and revalidates a span against this source authority. The resolved line and column
positions are not part of this model. -/
def resolve (span : Span) : Except SourceError SourceFile := sources.validatedSource span

end SourceMap

end Zryna
