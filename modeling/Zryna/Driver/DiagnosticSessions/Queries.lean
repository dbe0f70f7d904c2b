import Zryna.Foundation.Json
import Zryna.Foundation.Utf8
import Zryna.Source

/-!
# Query requests and responses

What a diagnostic session decodes from a request and encodes in a response. Reading records out of
JSON is a parameter; every check after it is here.
-/

namespace Zryna.Driver.DiagnosticSessions

open Json (Value)

/-- Maximum complete encoded request bytes, including whitespace. -/
def maxRequestBytes : ℕ := 65536
/-- Maximum complete encoded response bytes. -/
def maxResponseBytes : ℕ := 1048576
/-- Maximum JSON object/array nesting in one request. -/
def maxRequestDepth : ℕ := 64
/-- Maximum logical work units admitted by one request. -/
def maxQueryWork : ℕ := 100000
/-- Maximum result locations or edits admitted by one request. -/
def maxQueryResults : ℕ := 10000
/-- Maximum request or snapshot identifier bytes. -/
def maxIdBytes : ℕ := 128
/-- Largest exact JSON integer admitted for a session revision. -/
def maxRevision : ℕ := 2 ^ 53 - 1

/-! ### Statuses and reasons -/

/-- Closed status vocabulary for implemented internal query slices. -/
inductive QueryStatus where
  | ok
  | absent
  | stale
  | malformed
  | unsupported
  | cancelled
  | unavailable
  | overBudget
deriving DecidableEq

def QueryStatus.asStr : QueryStatus → String
  | .ok => "ok"
  | .absent => "absent"
  | .stale => "stale"
  | .malformed => "malformed"
  | .unsupported => "unsupported"
  | .cancelled => "cancelled"
  | .unavailable => "unavailable"
  | .overBudget => "over_budget"

/-- Closed reason vocabulary for internal query-session outcomes. -/
inductive QueryReason where
  | requestBytes
  | requestDepth
  | shape
  | version
  | snapshot
  | method
  | params
  | source
  | symbol
  | request
  | deadline
  | analysis
  | work
  | responseBytes
  | session
deriving DecidableEq

def QueryReason.asStr : QueryReason → String
  | .requestBytes => "request_bytes"
  | .requestDepth => "request_depth"
  | .shape => "shape"
  | .version => "version"
  | .snapshot => "snapshot"
  | .method => "method"
  | .params => "params"
  | .source => "source"
  | .symbol => "symbol"
  | .request => "request"
  | .deadline => "deadline"
  | .analysis => "analysis"
  | .work => "work"
  | .responseBytes => "response_bytes"
  | .session => "session"

structure Correlation where
  queryVersion : ℕ
  requestId : String
  snapshot : String
  revision : ℕ
deriving DecidableEq

/-! ### Requests -/

inductive DecodeError where
  | requestBytes
  | requestDepth
  | parseShape
  | unsafeCorrelation
  | correlatedShape (correlation : Correlation)

structure WireRequest where
  queryVersion : ℕ
  requestId : String
  snapshot : String
  revision : ℕ
  method : String
  params : Value
  work : ℕ
  results : ℕ

structure ParsedRequest where
  correlation : Correlation
  method : String
  params : Value
  workLimit : ℕ

/-- Reading a request out of bytes, and the parameters of a definition request out of JSON. -/
structure RequestReader where
  wireRequest : List UInt8 → Option WireRequest
  definitionParams : Value → Option (String × ℕ)

def ParsedRequest.validateDiagnosticParams (self : ParsedRequest) : Bool :=
  match self.params with
  | .object members => members.isEmpty
  | _ => false

def validId (value : String) : Bool :=
  value ≠ "" && utf8Length value.toList ≤ maxIdBytes && value.toList.all fun c => c.toNat < 128

/-- The scan of `exceedsDepth`, from one state of it. -/
def exceedsDepthFrom (depth : ℕ) (inString escaped : Bool) : List UInt8 → Bool
  | [] => false
  | byte :: bytes =>
    if inString then
      if escaped then exceedsDepthFrom depth true false bytes
      else if byte = 92 then exceedsDepthFrom depth true true bytes
      else exceedsDepthFrom depth (byte ≠ 34) false bytes
    else if byte = 34 then exceedsDepthFrom depth true false bytes
    else if byte = 123 ∨ byte = 91 then
      depth + 1 > maxRequestDepth || exceedsDepthFrom (depth + 1) false false bytes
    else if byte = 125 ∨ byte = 93 then exceedsDepthFrom (depth - 1) false false bytes
    else exceedsDepthFrom depth false false bytes

def exceedsDepth (bytes : List UInt8) : Bool := exceedsDepthFrom 0 false false bytes

def decode (reader : RequestReader) (bytes : List UInt8) : Except DecodeError ParsedRequest :=
  if bytes.length > maxRequestBytes then .error .requestBytes
  else if ¬Utf8.valid (bytes.map UInt8.toNat) then .error .parseShape
  else if exceedsDepth bytes then .error .requestDepth
  else match reader.wireRequest bytes with
    | none => .error .parseShape
    | some request =>
      if ¬validId request.requestId ∨ ¬validId request.snapshot ∨ request.revision = 0
          ∨ request.revision > maxRevision then
        .error .unsafeCorrelation
      else
        let correlation : Correlation :=
          ⟨request.queryVersion, request.requestId, request.snapshot, request.revision⟩
        if request.work = 0 ∨ request.work > maxQueryWork ∨ request.results = 0
            ∨ request.results > maxQueryResults then
          .error (.correlatedShape correlation)
        else .ok ⟨correlation, request.method, request.params, request.work⟩

/-! ### Responses -/

/-- One complete query response, or an uncorrelated admission rejection. -/
structure DiagnosticQueryResponse where
  status : QueryStatus
  reason : Option QueryReason
  encoded : Option String
deriving DecidableEq

def quoted (text : String) : String := String.ofList (Json.writeString text)

section

variable (correlation : Correlation)

/-- The members that every correlated response starts with. -/
def responsePrefix : String :=
  "\x7b\"query_version\":" ++ toString correlation.queryVersion ++ ",\"request_id\":"
    ++ quoted correlation.requestId ++ ",\"snapshot\":" ++ quoted correlation.snapshot
    ++ ",\"revision\":" ++ toString correlation.revision

def encodeFailure (status : QueryStatus) (reason : QueryReason) : String :=
  responsePrefix correlation ++ ",\"status\":\"" ++ status.asStr ++ "\",\"reason\":\""
    ++ reason.asStr ++ "\"\x7d"

def encodeResult (result : String) : Option String :=
  let encoded :=
    responsePrefix correlation ++ ",\"status\":\"ok\",\"result\":" ++ result ++ "\x7d"
  if utf8Length encoded.toList ≤ maxResponseBytes then some encoded else none

def encodeSuccess (report : String) : Option String :=
  encodeResult correlation ("\x7b\"report\":" ++ report ++ "\x7d")

end

namespace DiagnosticQueryResponse

def uncorrelated (status : QueryStatus) (reason : QueryReason) : DiagnosticQueryResponse :=
  ⟨status, some reason, none⟩

variable (correlation : Correlation)

def failure (status : QueryStatus) (reason : QueryReason) : DiagnosticQueryResponse :=
  ⟨status, some reason, some (encodeFailure correlation status reason)⟩

/-- A result, or the failure of a result that is too long. -/
def ofEncoded : Option String → DiagnosticQueryResponse
  | some encoded => ⟨.ok, none, some encoded⟩
  | none => failure correlation .overBudget .responseBytes

def success (report : String) : DiagnosticQueryResponse :=
  ofEncoded correlation (encodeSuccess correlation report)

def definitionSuccess (path : String) (byteStart byteEnd : ℕ) : DiagnosticQueryResponse :=
  ofEncoded correlation (encodeResult correlation ("\x7b\"locations\":[\x7b\"path\":" ++ quoted path
    ++ ",\"byte_start\":" ++ toString byteStart ++ ",\"byte_end\":" ++ toString byteEnd
    ++ "\x7d]\x7d"))

end DiagnosticQueryResponse

def decodeFailure : DecodeError → DiagnosticQueryResponse
  | .requestBytes => .uncorrelated .overBudget .requestBytes
  | .requestDepth => .uncorrelated .overBudget .requestDepth
  | .parseShape | .unsafeCorrelation => .uncorrelated .malformed .shape
  | .correlatedShape correlation => .failure correlation .malformed .shape

def stale (correlation : Correlation) : DiagnosticQueryResponse :=
  .failure correlation .stale .snapshot

end Zryna.Driver.DiagnosticSessions
