import Mathlib.Data.String.Basic
import Mathlib.Order.Nat
import Zryna.Driver.DiagnosticSessions.Queries
import Zryna.Foundation.Checked
import Zryna.Foundation.OrderedMap

/-!
# Diagnostic sessions

One session retains at most two source revisions, of which the last one is active, and a slot for
every query in flight. A query that has begun outlives its slot: it shares a state cell with the
slot, and it refers to its revision weakly. Cells and revisions have addresses, which are given out
once; a session carries the contents of all cells that it has given out.

Instants are numbers of nanoseconds. Source maps and definition indices are of any two types, with
what a session asks of them in `Authority`.
-/

namespace Zryna.Driver.DiagnosticSessions

open Json (Value)

def maxRetainedRevisions : ℕ := 2
/-- Maximum deterministically charged cache bytes in one session. -/
def maxSessionCacheBytes : ℕ := 64 * 1024 * 1024
/-- Maximum queued plus running requests in one session. -/
def maxInFlightRequests : ℕ := 32
/-- Maximum request lifetime, including cancellation cleanup. -/
def queryDeadline : ℕ := 30 * 1000000000

/-! ### Authorities -/

/-- Why a revision is not admitted. -/
inductive DiagnosticSessionError where
  | revisionExhausted
  | sessionCacheExhausted
  | sourceInvariant
deriving DecidableEq

/-- What a definition index answers. -/
inductive DefinitionAnswer where
  | located (path : String) (byteStart byteEnd : ℕ)
  | unresolved
  | absent
  | overBudget
  | noFile

/-- What a session asks of source maps and of definition indices. -/
structure Authority (Sources Definitions : Type) where
  identity : Sources → ℕ
  fingerprint : Sources → Except DiagnosticSessionError (List UInt8 × ℕ)
  /-- A path names a file of the sources, and the offset is one in the file. -/
  locates : Sources → String → ℕ → Bool
  validateJson : String → Sources → Bool
  cacheBytes : Definitions → Option ℕ
  definition : Definitions → Sources → String → ℕ → ℕ → DefinitionAnswer

/-- Opaque compiler-host-issued identity for one retained source revision. -/
structure DiagnosticSnapshotHandle where
  session : ℕ
  serial : ℕ
deriving DecidableEq

/-- Hexadecimal digits, padded with zeros. -/
def hexPadded (width n : ℕ) : String :=
  String.ofList ((Nat.toDigits 16 n).leftpad width '0')

def DiagnosticSnapshotHandle.toText (handle : DiagnosticSnapshotHandle) : String :=
  "s" ++ hexPadded 16 handle.session ++ "-" ++ hexPadded 13 handle.serial

/-- Immutable description of one admitted source revision. -/
structure DiagnosticRevision where
  handle : DiagnosticSnapshotHandle
  revision : ℕ
  sourceFingerprint : List UInt8
deriving DecidableEq

/-! ### State -/

structure RevisionRecord (Sources Definitions : Type) where
  /-- Where the record is; weak references refer to it by its address. -/
  address : ℕ
  description : DiagnosticRevision
  sources : Sources
  report : Option String
  definitions : Option Definitions
  cacheBytes : ℕ

/-- The contents of a state cell. -/
inductive CellState where
  | live
  | cancelled
  | timedOut
deriving DecidableEq

/-- The slot of a query in flight, with the address of its state cell. -/
structure RequestSlot where
  state : ℕ
  deadline : ℕ
deriving DecidableEq

/-- What a query asks for. -/
inductive QueryKind where
  | diagnostics
  | definition (path : String) (byteOffset : ℕ)
deriving DecidableEq

/-- One admitted request awaiting bounded completion. -/
structure PendingQuery where
  session : ℕ
  correlation : Correlation
  revision : DiagnosticRevision
  record : ℕ
  sourceIdentity : ℕ
  kind : QueryKind
  workLimit : ℕ
  deadline : ℕ
  state : ℕ
deriving DecidableEq

structure DiagnosticSession (Sources Definitions : Type) where
  session : ℕ
  nextRevision : ℕ
  /-- The retained revisions; the last one is active. -/
  retained : List (RevisionRecord Sources Definitions)
  cacheBytes : ℕ
  inFlight : OrderedMap String RequestSlot
  cells : ℕ → CellState
  nextCell : ℕ
  nextAddress : ℕ

namespace DiagnosticSession

variable {Sources Definitions : Type}

/-- A fresh session. -/
def new (session : ℕ) : DiagnosticSession Sources Definitions where
  session := session
  nextRevision := 1
  retained := []
  cacheBytes := 0
  inFlight := .empty
  cells := fun _ => .live
  nextCell := 0
  nextAddress := 0

variable (authority : Authority Sources Definitions)
  (self : DiagnosticSession Sources Definitions)

def active : Option (RevisionRecord Sources Definitions) := self.retained.getLast?

/-- Returns the currently active revision, when one has been admitted. -/
def activeRevision : Option DiagnosticRevision := self.active.map RevisionRecord.description

/-! ### Admission -/

def checkedCacheCharge (sourceBytes reportBytes semanticBytes : ℕ) :
    Except DiagnosticSessionError ℕ :=
  let charge := sourceBytes + reportBytes + semanticBytes
  if charge ≥ 2 ^ 64 ∨ charge > maxSessionCacheBytes then .error .sessionCacheExhausted
  else .ok charge

/-- The cache charge of a definition index, if there is one. -/
def semanticCharge (definitions : Option Definitions) : Except DiagnosticSessionError ℕ :=
  match definitions with
  | none => .ok 0
  | some definitions =>
    match authority.cacheBytes definitions with
    | none => .error .sessionCacheExhausted
    | some bytes => .ok bytes

/-- The revisions that remain beside a new one, with the projected charge. -/
def evict : List (RevisionRecord Sources Definitions) → ℕ →
    Except DiagnosticSessionError (List (RevisionRecord Sources Definitions) × ℕ)
  | [], projected =>
    if 1 > maxRetainedRevisions ∨ projected > maxSessionCacheBytes then .error .sourceInvariant
    else .ok ([], projected)
  | record :: retained, projected =>
    if retained.length + 2 > maxRetainedRevisions ∨ projected > maxSessionCacheBytes then
      if projected < record.cacheBytes then .error .sourceInvariant
      else evict retained (projected - record.cacheBytes)
    else .ok (record :: retained, projected)

/-- Admits an immutable source revision, which becomes the active one. -/
def admission (sources : Sources) (report : Option String) (definitions : Option Definitions)
    (formattingBytes : ℕ) : Except DiagnosticSessionError
      (DiagnosticRevision × DiagnosticSession Sources Definitions) := do
  if self.nextRevision > maxRevision then .error .revisionExhausted
  let (sourceFingerprint, sourceBytes) ← authority.fingerprint sources
  let semanticBytes ← semanticCharge authority definitions
  let reportBytes := (report.map fun text => utf8Length text.toList).getD 0
  let cacheBytes ← checkedCacheCharge sourceBytes reportBytes (semanticBytes + formattingBytes)
  let description : DiagnosticRevision :=
    ⟨⟨self.session, self.nextRevision⟩, self.nextRevision, sourceFingerprint⟩
  let record : RevisionRecord Sources Definitions :=
    ⟨self.nextAddress, description, sources, report, definitions, cacheBytes⟩
  if self.cacheBytes + cacheBytes ≥ 2 ^ 64 then .error .sessionCacheExhausted
  let (retained, projectedCache) ← evict self.retained (self.cacheBytes + cacheBytes)
  .ok (description, { self with
    nextRevision := self.nextRevision + 1
    retained := retained ++ [record]
    cacheBytes := projectedCache
    inFlight := .empty
    nextAddress := self.nextAddress + 1 })

/-! ### Scheduling -/

/-- Sets a live cell, and leaves any other as it is. -/
def compareExchange (cells : ℕ → CellState) (address : ℕ) (state : CellState) : ℕ → CellState :=
  if cells address = .live then Function.update cells address state else cells

/-- The slots whose deadline has come. -/
def expiredSlots (now : ℕ) : List (String × RequestSlot) :=
  self.inFlight.entries.filter fun entry => ¬now < entry.2.deadline

def expireDeadlines (now : ℕ) : DiagnosticSession Sources Definitions :=
  { self with
    inFlight := ⟨self.inFlight.entries.filter fun entry => now < entry.2.deadline,
      self.inFlight.sorted.filter _⟩
    cells := (self.expiredSlots now).foldl (fun cells entry =>
      compareExchange cells entry.2.state .timedOut) self.cells }

/-- Cancels one admitted request and immediately releases its queue slot. -/
def cancel (requestId : String) : Bool × DiagnosticSession Sources Definitions :=
  match self.inFlight.get? requestId with
  | none => (false, self)
  | some slot => (true, { self with
    inFlight := self.inFlight.erase requestId
    cells := compareExchange self.cells slot.state .cancelled })

/-- The deadline of a query that begins now; the latest instant is the last one there is. -/
def deadlineOf (latest now : ℕ) : ℕ :=
  if now + queryDeadline ≤ latest then now + queryDeadline else now

/-- Why a request is refused, or what it asks for. -/
def refuse (correlation : Correlation) (reason : QueryStatus × QueryReason) :
    DiagnosticQueryResponse :=
  .failure correlation reason.1 reason.2

/-- Validates and admits one closed request without performing its query work. The parameters are
checked by `kindOf`. -/
def begin (reader : RequestReader) (latest : ℕ) (method : String)
    (kindOf : ParsedRequest → RevisionRecord Sources Definitions →
      Except (QueryStatus × QueryReason) QueryKind)
    (bytes : List UInt8) (now : ℕ) :
    Except DiagnosticQueryResponse PendingQuery × DiagnosticSession Sources Definitions :=
  match decode reader bytes with
  | .error error => (.error (decodeFailure error), self)
  | .ok request =>
    let correlation := request.correlation
    let self := self.expireDeadlines now
    if (self.inFlight.get? correlation.requestId).isSome then
      (.error (refuse correlation (.malformed, .shape)), self)
    else if correlation.queryVersion ≠ 1 then
      (.error (refuse correlation (.unsupported, .version)), self)
    else match self.active with
      | none => (.error (stale correlation), self)
      | some record =>
        if correlation.snapshot ≠ record.description.handle.toText
            ∨ correlation.revision ≠ record.description.revision then
          (.error (stale correlation), self)
        else if request.method ≠ method then
          (.error (refuse correlation (.unsupported, .method)), self)
        else match kindOf request record with
          | .error reason => (.error (refuse correlation reason), self)
          | .ok kind =>
            if self.inFlight.size ≥ maxInFlightRequests then
              (.error (refuse correlation (.overBudget, .session)), self)
            else
              let deadline := deadlineOf latest now
              (.ok {
                session := self.session
                correlation := correlation
                revision := record.description
                record := record.address
                sourceIdentity := authority.identity record.sources
                kind := kind
                workLimit := request.workLimit
                deadline := deadline
                state := self.nextCell },
              { self with
                inFlight := self.inFlight.insert correlation.requestId ⟨self.nextCell, deadline⟩
                cells := Function.update self.cells self.nextCell .live
                nextCell := self.nextCell + 1 })

def beginDiagnostics (reader : RequestReader) (latest : ℕ) (bytes : List UInt8) (now : ℕ) :
    Except DiagnosticQueryResponse PendingQuery × DiagnosticSession Sources Definitions :=
  self.begin authority reader latest "diagnostics" (fun request _ =>
    if request.validateDiagnosticParams then .ok .diagnostics
    else .error (.malformed, .params)) bytes now

def beginDefinition (reader : RequestReader) (latest : ℕ) (bytes : List UInt8) (now : ℕ) :
    Except DiagnosticQueryResponse PendingQuery × DiagnosticSession Sources Definitions :=
  self.begin authority reader latest "definition" (fun request record =>
    match reader.definitionParams request.params with
    | none => .error (.malformed, .params)
    | some (path, byteOffset) =>
      if authority.locates record.sources path byteOffset then .ok (.definition path byteOffset)
      else .error (.malformed, .source)) bytes now

/-! ### Completion -/

def isActive (revision : DiagnosticRevision) (sourceIdentity : ℕ) : Bool :=
  self.active.any fun active =>
    authority.identity active.sources = sourceIdentity && active.description = revision

/-- Releases the slot of a query, if it still holds it. -/
def release (pending : PendingQuery) : DiagnosticSession Sources Definitions :=
  if (self.inFlight.get? pending.correlation.requestId).any fun slot => slot.state = pending.state
  then { self with inFlight := self.inFlight.erase pending.correlation.requestId }
  else self

section

variable (record : RevisionRecord Sources Definitions)

def answerDiagnostics (correlation : Correlation) (workLimit : ℕ) : DiagnosticQueryResponse :=
  match record.report with
  | none => .failure correlation .unavailable .analysis
  | some report =>
    let logicalWork := min (utf8Length report.toList + 1) (2 ^ 64 - 1)
    if logicalWork > workLimit then .failure correlation .overBudget .work
    else if ¬authority.validateJson report record.sources then
      .failure correlation .unavailable .analysis
    else .success correlation report

/-- The definition of what stands in a revision at an offset. -/
def answerDefinition (correlation : Correlation)
    (workLimit : ℕ) (path : String) (byteOffset : ℕ) : DiagnosticQueryResponse :=
  match record.definitions with
  | none => .failure correlation .unavailable .analysis
  | some definitions =>
    match authority.definition definitions record.sources path byteOffset workLimit with
    | .located path byteStart byteEnd => .definitionSuccess correlation path byteStart byteEnd
    | .unresolved => .failure correlation .unavailable .analysis
    | .absent => .failure correlation .absent .symbol
    | .overBudget => .failure correlation .overBudget .work
    | .noFile => .failure correlation .unavailable .analysis

def answer (pending : PendingQuery) : DiagnosticQueryResponse :=
  match pending.kind with
  | .diagnostics => answerDiagnostics authority record pending.correlation pending.workLimit
  | .definition path byteOffset =>
    answerDefinition authority record pending.correlation pending.workLimit path byteOffset

end

/-- Completes one query against its retained source and rechecks the active revision. -/
def finish (pending : PendingQuery) (now : ℕ) :
    DiagnosticQueryResponse × DiagnosticSession Sources Definitions :=
  let self := self.release pending
  let correlation := pending.correlation
  if pending.session ≠ self.session then (stale correlation, self)
  else if self.cells pending.state = .cancelled then
    (.failure correlation .cancelled .request, self)
  else if self.cells pending.state = .timedOut ∨ now ≥ pending.deadline then
    (.failure correlation .cancelled .deadline, self)
  else match self.retained.find? fun record => record.address = pending.record with
    | none => (stale correlation, self)
    | some record =>
      if ¬self.isActive authority pending.revision pending.sourceIdentity then
        (stale correlation, self)
      else (answer authority record pending, self)

end DiagnosticSession

end Zryna.Driver.DiagnosticSessions
