import Zryna.Foundation.OrderedMap
import Zryna.SourcePath

/-!
# Import syntax and its fingerprints

What module discovery reads from a verified syntax snapshot: the imports of every file. The rest of
a file's syntax plays no part in it. A fingerprint forgets the source map that the spans refer to,
so that the imports of one file compare equal across batches.
-/

namespace Zryna.Driver.ModuleClosure

/-! ### Verified imports -/

structure IdentifierSyntax where
  text : String
  span : Span
deriving DecidableEq

/-- One verified named-import binding. -/
structure ImportBindingSyntax where
  span : Span
  imported : IdentifierSyntax
  localName : IdentifierSyntax
  asSpan : Option Span
deriving DecidableEq

structure ModuleSpecifierSyntax where
  text : String
  tokenSpan : Span
  valueSpan : Span
deriving DecidableEq

/-- One verified named-import declaration; the verifier rejects one without bindings. -/
structure ImportSyntax where
  span : Span
  importSpan : Span
  bindings : List ImportBindingSyntax
  fromSpan : Span
  specifier : ModuleSpecifierSyntax
  semicolonSpan : Span
  bindings_ne : bindings ≠ []

structure SourceUnit where
  path : NormalizedSourcePath
  imports : List ImportSyntax

/-- One file that is given to a provider. -/
structure SourceFileInput where
  path : NormalizedSourcePath
  text : String
deriving DecidableEq

structure ProjectSyntaxSnapshot where
  /-- The files that the snapshot was verified against. -/
  sources : List SourceFileInput
  files : List SourceUnit
  /-- Whether a diagnostic of the snapshot is an error. -/
  hasErrors : Bool

/-! ### Fingerprints -/

structure SpanFingerprint where
  start : ℕ
  stop : ℕ
deriving DecidableEq

def SpanFingerprint.ofSpan (span : Span) : SpanFingerprint := ⟨span.start, span.stop⟩

structure BindingFingerprint where
  span : SpanFingerprint
  imported : String
  importedSpan : SpanFingerprint
  localName : String
  localSpan : SpanFingerprint
  asSpan : Option SpanFingerprint
deriving DecidableEq

structure ImportFingerprint where
  span : SpanFingerprint
  importSpan : SpanFingerprint
  bindings : List BindingFingerprint
  fromSpan : SpanFingerprint
  specifier : String
  specifierTokenSpan : SpanFingerprint
  specifierValueSpan : SpanFingerprint
  semicolonSpan : SpanFingerprint
deriving DecidableEq

def ImportBindingSyntax.fingerprint (binding : ImportBindingSyntax) : BindingFingerprint where
  span := .ofSpan binding.span
  imported := binding.imported.text
  importedSpan := .ofSpan binding.imported.span
  localName := binding.localName.text
  localSpan := .ofSpan binding.localName.span
  asSpan := binding.asSpan.map .ofSpan

def ImportSyntax.fingerprint (declaration : ImportSyntax) : ImportFingerprint where
  span := .ofSpan declaration.span
  importSpan := .ofSpan declaration.importSpan
  bindings := declaration.bindings.map ImportBindingSyntax.fingerprint
  fromSpan := .ofSpan declaration.fromSpan
  specifier := declaration.specifier.text
  specifierTokenSpan := .ofSpan declaration.specifier.tokenSpan
  specifierValueSpan := .ofSpan declaration.specifier.valueSpan
  semicolonSpan := .ofSpan declaration.semicolonSpan

def SourceUnit.fingerprints (file : SourceUnit) : List ImportFingerprint :=
  file.imports.map ImportSyntax.fingerprint

/-- The imports of every file of a snapshot; of two files with one path the last one counts. -/
def snapshotFingerprints (snapshot : ProjectSyntaxSnapshot) :
    OrderedMap NormalizedSourcePath (List ImportFingerprint) :=
  .insertAll .empty (snapshot.files.map fun file => (file.path, file.fingerprints))

end Zryna.Driver.ModuleClosure
