import Zryna.Source

/-!
# Untrusted spans

Byte ranges as a wire provider sends them, before a source map has checked them.
-/

namespace Zryna

/-- Untrusted half-open UTF-8 byte range. -/
structure UntrustedSpan where
  file : UInt32
  start : UInt32
  stop : UInt32
deriving DecidableEq

/-- Validates an untrusted range and returns an authoritative span. -/
def SourceMap.verifySpan (sources : SourceMap) (span : UntrustedSpan) : Except SourceError Span :=
  let verified : Span := ⟨⟨sources.id, span.file.toNat⟩, span.start.toNat, span.stop.toNat⟩
  (sources.validatedSource verified).map fun _ => verified

end Zryna
