import Mathlib.Data.Finset.Card
import Zryna.Driver.DiagnosticSessions.Sessions
import Zryna.LanguageServer.Protocol

/-!
# The language server

One connection: its documents, its diagnostic session, the queries that wait for their completion
and the ids of requests that are not answered yet. What the server asks of the compiler, of source
maps, of coordinates and of the readers of JSON is a `Host`.

Instants are numbers of nanoseconds; a handler that looks at the clock takes what it sees there.
-/

namespace Zryna.LanguageServer

open Json (Value)
open Driver.DiagnosticSessions (Authority DiagnosticQueryResponse DiagnosticRevision
  DiagnosticSession PendingQuery QueryStatus RequestReader queryDeadline)

/-- Maximum request ids retained until their terminal responses are emitted. -/
def maxOutstandingRequests : ℕ := 64
/-- Maximum queries that wait for their completion. -/
def maxPending : ℕ := 32
/-- Maximum bytes of a formatting response. -/
def maxFormattingBytes : ℕ := 1048576

/-! ### Parameters -/

inductive PositionEncoding where
  | utf8
  | utf16
  | utf32
deriving DecidableEq

namespace PositionEncoding

def asStr : PositionEncoding → String
  | .utf8 => "utf-8"
  | .utf16 => "utf-16"
  | .utf32 => "utf-32"

/-- The first encoding of the client that the server knows. -/
def select (values : Option (List String)) : PositionEncoding :=
  (values.bind fun values => values.findSome? fun value =>
    if value = "utf-8" then some utf8
    else if value = "utf-16" then some utf16
    else if value = "utf-32" then some utf32
    else none).getD utf16

end PositionEncoding

inductive AnalysisProfile where
  | scalar
  | controlFlow
  | dataOwnership
deriving DecidableEq

namespace AnalysisProfile

def analysisCapability : AnalysisProfile → String
  | .scalar => "scalar-v2"
  | .controlFlow => "control-flow-v1"
  | .dataOwnership => "data-ownership-v1"

def formattingCapability : AnalysisProfile → String
  | .scalar => "scalar-format-v1"
  | .controlFlow => "control-flow-format-v1"
  | .dataOwnership => "data-ownership-format-v1"

end AnalysisProfile

structure Position where
  line : ℕ
  character : ℕ

structure InitializeParams where
  rootUri : String
  positionEncodings : Option (List String)
  initializationOptions : Option Value

structure DidOpenParams where
  uri : String
  languageId : String
  version : ℤ
  text : String

structure DidChangeParams where
  uri : String
  version : ℤ
  contentChanges : List String

structure DefinitionParams where
  uri : String
  position : Position

structure FormattingParams where
  uri : String
  tabSize : ℕ
  range : Option (Position × Position)

/-- Reading the parameters of messages out of JSON. -/
structure ParamsReader where
  initializeParams : Value → Option InitializeParams
  requestedProfile : Value → Option AnalysisProfile
  didOpen : Value → Option DidOpenParams
  didChange : Value → Option DidChangeParams
  didClose : Value → Option String
  cancel : Value → Option Value
  definition : Value → Option DefinitionParams
  formatting : Value → Option FormattingParams

/-- A formatting failure never carries edits. -/
inductive FormattingError where
  | unavailable
  | stale
  | range
  | limit
deriving DecidableEq

def FormattingError.code : FormattingError → String
  | .unavailable => "ZRYNA-D4001"
  | .stale => "ZRYNA-D4002"
  | .range => "ZRYNA-D4003"
  | .limit => "ZRYNA-D4004"

structure FormattingEdit where
  start : ℕ
  stop : ℕ
  text : String

/-! ### State -/

structure Document where
  path : String
  text : String
  version : ℤ

structure ActiveSnapshot (Sources : Type) where
  revision : DiagnosticRevision
  sources : Sources

structure PendingDefinition (Sources : Type) where
  id : RequestId
  query : PendingQuery
  revision : DiagnosticRevision
  sources : Sources

structure PendingFormatting where
  id : RequestId
  revision : DiagnosticRevision
  uri : String
  range : Option (ℕ × ℕ)
  started : ℕ
  cancelled : Bool

/-- One response or notification awaiting successful transport emission. -/
structure Outgoing where
  value : Value
  completion : Option String
  formattingRevision : Option (DiagnosticRevision × ℕ)

namespace Outgoing

def untracked (value : Value) : Outgoing := ⟨value, none, none⟩

variable (value : Value) (requestId : String)

def tracked : Outgoing := ⟨value, some requestId, none⟩

def formatting (revision : DiagnosticRevision) (started : ℕ) : Outgoing :=
  ⟨value, some requestId, some (revision, started)⟩

end Outgoing

/-- One bounded connection and its immutable compiler revisions. -/
structure Server (Compiler Root Sources Definitions : Type) where
  compiler : Compiler
  session : DiagnosticSession Sources Definitions
  rootUri : Option String
  sourceRoot : Option Root
  entryUri : Option String
  encoding : PositionEncoding
  profile : AnalysisProfile
  documents : OrderedMap String Document
  active : Option (ActiveSnapshot Sources)
  pending : List (PendingDefinition Sources)
  pendingFormatting : List PendingFormatting
  outstanding : Finset String
  initialized : Bool
  shuttingDown : Bool
  exit : Bool

/-- What a handler sees of its surroundings: two readings of the clock, and the identity that a new
session would get. -/
structure Moment where
  now : ℕ
  later : ℕ
  fresh : Except String ℕ

/-- What the server asks of its surroundings. -/
structure Host (Compiler Root Sources Definitions : Type) where
  reader : ParamsReader
  wireIncoming : List UInt8 → Option WireIncoming
  parse : String → Option Value
  requestReader : RequestReader
  authority : Authority Sources Definitions
  latest : ℕ
  normalizeRootUri : String → Option String
  /-- A root is the one that a root URI names. -/
  trusts : Root → String → Bool
  pathBelowRoot : String → String → Option String
  isNormalized : String → Bool
  positionToByte : String → Position → PositionEncoding → Option ℕ
  byteRangeToPositions : String → ℕ → ℕ → PositionEncoding → Option Value
  sourceMap : List Document → Except String Sources
  /-- The text of a source file, if the offsets are a span of it. -/
  textOf : Sources → String → ℕ → ℕ → Option String
  analysis : Compiler → DiagnosticSession Sources Definitions → Sources →
    Except String DiagnosticRevision × Compiler × DiagnosticSession Sources Definitions
  controlFlow : Compiler → DiagnosticSession Sources Definitions → Sources → String →
    Except String DiagnosticRevision × Compiler × DiagnosticSession Sources Definitions
  dataOwnershipWorkspace : Compiler → DiagnosticSession Sources Definitions → Root → Sources →
    String → Except String DiagnosticRevision × Compiler × DiagnosticSession Sources Definitions
  revalidate : Compiler → Root → Sources → String → Sources → ℕ → Bool
  formatSource : DiagnosticSession Sources Definitions → DiagnosticRevision → String →
    Option (ℕ × ℕ) → Except FormattingError (List FormattingEdit)
  decodeReport : Value → Option Value
  standardDiagnostics : Value → OrderedMap String Document → PositionEncoding →
    Option (List (String × ℤ × List Value))
  sourceCommit : Value
  version : String

namespace Server

variable {Compiler Root Sources Definitions : Type}

/-- An uninitialized connection, with the workspace root that was captured for it, if any. -/
def new (compiler : Compiler) (session : ℕ) (sourceRoot : Option Root) :
    Server Compiler Root Sources Definitions where
  compiler := compiler
  session := .new session
  rootUri := none
  sourceRoot := sourceRoot
  entryUri := none
  encoding := .utf16
  profile := .scalar
  documents := .empty
  active := none
  pending := []
  pendingFormatting := []
  outstanding := ∅
  initialized := false
  shuttingDown := false
  exit := false

variable (host : Host Compiler Root Sources Definitions)
  (self : Server Compiler Root Sources Definitions) (moment : Moment)

/-! ### Revisions -/

def responseMessage (response : DiagnosticQueryResponse) : String :=
  match response.status with
  | .cancelled => "diagnostic request cancelled"
  | .stale => "diagnostic request became stale"
  | .overBudget => "diagnostic request exceeded a limit"
  | _ => "diagnostic analysis unavailable"

def revisionNumber (revision : DiagnosticRevision) : Value := int revision.revision

def snapshotText (revision : DiagnosticRevision) : Value := .string revision.handle.toText

/-- The request that a server makes of its own session. -/
def query (method requestId : String) (revision : DiagnosticRevision) (params : Value)
    (results : ℤ) : Value :=
  .object [("limits", .object [("results", int results), ("work", int 100000)]),
    ("method", .string method), ("params", params), ("query_version", int 1),
    ("request_id", .string requestId), ("revision", revisionNumber revision),
    ("snapshot", snapshotText revision)]

def publishDiagnostics (revision : DiagnosticRevision) :
    List Value × Server Compiler Root Sources Definitions :=
  let request := query "diagnostics" ("diagnostics:" ++ toString revision.revision) revision
    (.object []) 10000
  match self.session.beginDiagnostics host.authority host.requestReader host.latest
      (Json.writeBytes request) moment.now with
  | (.error response, session) =>
    ([logMessage (responseMessage response)], { self with session := session })
  | (.ok pending, session) =>
    let (response, session) := session.finish host.authority pending moment.later
    let self := { self with session := session }
    match response.encoded.bind host.parse with
    | none => ([logMessage (responseMessage response)], self)
    | some encoded =>
      match host.decodeReport encoded with
      | none => ([logMessage "diagnostic response validation failed"], self)
      | some report =>
        let versions := self.documents.entries.map fun entry =>
          Value.object [("uri", .string entry.1), ("version", int entry.2.version)]
        let published := notification "zryna/publishDiagnostics" (.object [
          ("documents", .array versions), ("report", report),
          ("revision", revisionNumber revision), ("snapshot", snapshotText revision)])
        match host.standardDiagnostics report self.documents self.encoding with
        | none => ([published, logMessage "diagnostic coordinate conversion failed"], self)
        | some standard =>
          (published :: standard.map fun entry =>
            notification "textDocument/publishDiagnostics" (.object [
              ("diagnostics", .array entry.2.2), ("uri", .string entry.1),
              ("version", int entry.2.1)]), self)

/-- The exact source map retained for the active revision. -/
def activeSources (session : DiagnosticSession Sources Definitions)
    (revision : DiagnosticRevision) : Option Sources :=
  (session.active.filter fun record => record.description = revision).map fun record =>
    record.sources

/-- What follows an analysis: its revision becomes active, or one without diagnostics does. -/
def settle (sources : Sources)
    (analysis : Except String DiagnosticRevision × Compiler
      × DiagnosticSession Sources Definitions) :
    List Value × Server Compiler Root Sources Definitions :=
  let (admitted, compiler, session) := analysis
  match admitted with
  | .ok revision =>
    let retained := (activeSources session revision).getD sources
    publishDiagnostics host { self with
      compiler := compiler
      session := session
      active := some ⟨revision, retained⟩ } moment revision
  | .error error =>
    match session.admission host.authority sources none none 0 with
    | .ok (revision, session) => ([logMessage error], { self with
        compiler := compiler
        session := session
        active := some ⟨revision, sources⟩ })
    | .error _ => ([logMessage error], { self with
        compiler := compiler
        session := session
        active := none })

def admitSources (sources : Sources) : List Value × Server Compiler Root Sources Definitions :=
  match self.profile with
  | .scalar => settle host self moment sources (host.analysis self.compiler self.session sources)
  | .controlFlow =>
    match self.documents.entries.head? with
    | none => ([logMessage "missing M2 entrypoint"], self)
    | some (_, document) =>
      if host.isNormalized document.path then
        settle host self moment sources
          (host.controlFlow self.compiler self.session sources document.path)
      else ([logMessage "invalid M2 entrypoint"], self)
  | .dataOwnership =>
    match self.sourceRoot with
    | none => ([logMessage "missing M3 workspace root"], self)
    | some root =>
      match self.entryUri.bind self.documents.get? with
      | none => ([logMessage "missing M3 entrypoint"], self)
      | some document =>
        if host.isNormalized document.path then
          settle host self moment sources (host.dataOwnershipWorkspace self.compiler self.session
            root sources document.path)
        else ([logMessage "invalid M3 entrypoint"], self)

def sourceMap (documents : OrderedMap String Document) : Except String Sources :=
  host.sourceMap (documents.entries.map Prod.snd)

def admitDocuments (documents : OrderedMap String Document) :
    List Value × Server Compiler Root Sources Definitions :=
  match sourceMap host documents with
  | .error error => ([logMessage error], self)
  | .ok sources => admitSources host { self with documents := documents } moment sources

def rebuild : List Value × Server Compiler Root Sources Definitions :=
  match sourceMap host self.documents with
  | .ok sources => admitSources host self moment sources
  | .error error =>
    let self := { self with active := none }
    match moment.fresh with
    | .ok session => ([logMessage error], { self with session := .new session })
    | .error _ => ([logMessage error], self)

/-! ### Notifications -/

def didOpen (params : Option Value) : List Value × Server Compiler Root Sources Definitions :=
  match params.bind host.reader.didOpen with
  | none => ([logInvalid], self)
  | some item =>
    match self.rootUri.bind fun root => host.pathBelowRoot root item.uri with
    | none => ([logInvalid], self)
    | some path =>
      if item.languageId ≠ "zryna" ∨ item.version < 0
          ∨ (self.profile ≠ .dataOwnership ∧ self.documents.size ≠ 0)
          ∨ (self.documents.get? item.uri).isSome then
        ([logInvalid], self)
      else
        let self := { self with entryUri := some (self.entryUri.getD item.uri) }
        let (output, self) := admitDocuments host self moment
          (self.documents.insert item.uri ⟨path, item.text, item.version⟩)
        if (self.documents.get? item.uri).isNone ∧ self.entryUri = some item.uri then
          (output, { self with entryUri := none })
        else (output, self)

def didChange (params : Option Value) : List Value × Server Compiler Root Sources Definitions :=
  match params.bind host.reader.didChange with
  | none => ([logInvalid], self)
  | some params =>
    match params.contentChanges with
    | [text] =>
      match self.documents.get? params.uri with
      | none => ([logInvalid], self)
      | some document =>
        if params.version ≤ document.version then ([logInvalid], self)
        else admitDocuments host self moment
          (self.documents.insert params.uri ⟨document.path, text, params.version⟩)
    | _ => ([logInvalid], self)

def didClose (params : Option Value) : List Value × Server Compiler Root Sources Definitions :=
  match params.bind host.reader.didClose with
  | none => ([logInvalid], self)
  | some uri =>
    match self.documents.get? uri with
    | none => ([logInvalid], self)
    | some closed =>
      let documents := self.documents.erase uri
      let entryUri := if self.entryUri = some uri then documents.keys.head? else self.entryUri
      let self := { self with documents := documents, entryUri := entryUri }
      let published := notification "textDocument/publishDiagnostics" (.object [
        ("diagnostics", .array []), ("uri", .string uri), ("version", int closed.version)])
      if self.documents.size = 0 then
        let self := { self with active := none }
        match moment.fresh with
        | .ok session => ([published], { self with session := .new session })
        | .error error => ([published, logMessage error], self)
      else
        let (output, self) := rebuild host self moment
        (published :: output, self)

/-- Marks the formatting queries of an id. -/
def cancelFormatting (id : RequestId) : Server Compiler Root Sources Definitions :=
  { self with pendingFormatting := self.pendingFormatting.map fun pending =>
      if pending.id.internal = id.internal then { pending with cancelled := true } else pending }

def cancel (params : Option Value) : List Value × Server Compiler Root Sources Definitions :=
  match (params.bind host.reader.cancel).bind decodeId with
  | none => ([logInvalid], self)
  | some id =>
    let self := self.cancelFormatting id
    ([], { self with session := (self.session.cancel id.internal).2 })

/-! ### Requests -/

def initializeConnection (message : Incoming) : List Value × Server Compiler Root Sources Definitions :=
  match message.id with
  | none => ([], self)
  | some id =>
    if self.initialized then ([invalidRequest], self)
    else match message.params.bind host.reader.initializeParams with
      | none => ([invalidParams id], self)
      | some params =>
        let profile : Option AnalysisProfile := match params.initializationOptions with
          | none => some .scalar
          | some options => host.reader.requestedProfile options
        match host.normalizeRootUri params.rootUri, profile with
        | some rootUri, some profile =>
          if profile = .dataOwnership ∧ ¬self.sourceRoot.any fun root => host.trusts root rootUri then
            ([invalidParams id], self)
          else
            let encoding := PositionEncoding.select params.positionEncodings
            ([response id (.object [
              ("capabilities", .object [
                ("definitionProvider", .bool (profile = .scalar)),
                ("documentFormattingProvider", .bool true),
                ("documentRangeFormattingProvider", .bool true),
                ("experimental", .object [
                  ("zrynaAnalysisProfile", .string profile.analysisCapability),
                  ("zrynaFormattingProfile", .string profile.formattingCapability),
                  ("zrynaInstallationProfile", .string "portable-setup-v1"),
                  ("zrynaSourceCommit", host.sourceCommit)]),
                ("positionEncoding", .string encoding.asStr),
                ("textDocumentSync", .object [("change", int 1), ("openClose", .bool true)])]),
              ("serverInfo", .object [("name", .string "zryna-language-server"),
                ("version", .string host.version)])])], { self with
              encoding := encoding
              rootUri := some rootUri
              profile := profile
              initialized := true })
        | _, _ => ([invalidParams id], self)

section

variable (id : RequestId) (revision : DiagnosticRevision) (sources : Sources)
  (response : DiagnosticQueryResponse)

/-- A definition in the coordinates of an open document, if the response is the one to this
request. -/
def definitionSuccess : Option Value := do
  let value ← host.parse (← response.encoded)
  let snapshot ← (get value "snapshot").bind asStr
  let number ← (get value "revision").bind asU64
  let requestId ← (get value "request_id").bind asStr
  if snapshot ≠ revision.handle.toText ∨ number ≠ revision.revision ∨ requestId ≠ id.internal then
    none
  else match ← ((get value "result").bind fun result => get result "locations").bind asArray with
    | [location] =>
      let path ← (get location "path").bind asStr
      let start ← ((get location "byte_start").bind asU64).filter fun n => n < 2 ^ 32
      let stop ← ((get location "byte_end").bind asU64).filter fun n => n < 2 ^ 32
      let (uri, document) ← self.documents.entries.find? fun entry => entry.2.path = path
      let text ← host.textOf sources path start stop
      if text ≠ document.text then none
      else
        let range ← host.byteRangeToPositions document.text start stop self.encoding
        some (LanguageServer.response id (.object [("range", range), ("uri", .string uri)]))
    | _ => none

def definitionResponse : Value :=
  match response.status with
  | .absent => LanguageServer.response id .null
  | .ok => (self.definitionSuccess host id revision sources response).getD
      (error id (-32603) "Internal error")
  | .stale => error id (-32801) "Content modified"
  | .cancelled => error id (-32800) "Request cancelled"
  | .malformed => invalidParams id
  | .unsupported => methodNotFound id
  | .unavailable => error id (-32803) "Analysis unavailable"
  | .overBudget => error id (-32803) "Request limit exceeded"

end

/-- The number of queries that wait for their completion. -/
def waiting : ℕ := self.pending.length + self.pendingFormatting.length

def definition (message : Incoming) : List Value × Server Compiler Root Sources Definitions :=
  match message.id with
  | none => ([], self)
  | some id =>
    if self.profile = .controlFlow then ([methodNotFound id], self)
    else match message.params.bind host.reader.definition with
      | none => ([invalidParams id], self)
      | some params =>
        match self.active with
        | none => ([error id (-32803) "Analysis unavailable"], self)
        | some active =>
          match self.documents.get? params.uri with
          | none => ([invalidParams id], self)
          | some document =>
            match host.positionToByte document.text params.position self.encoding with
            | none => ([invalidParams id], self)
            | some byteOffset =>
              let request := query "definition" id.internal active.revision
                (.object [("byte_offset", int byteOffset), ("path", .string document.path)]) 1
              if self.waiting ≥ maxPending then
                ([error id (-32803) "Request limit exceeded"], self)
              else match self.session.beginDefinition host.authority host.requestReader host.latest
                  (Json.writeBytes request) moment.now with
                | (.ok query, session) => ([], { self with
                    session := session
                    pending := self.pending ++ [⟨id, query, active.revision, active.sources⟩] })
                | (.error response, session) =>
                  let self := { self with session := session }
                  ([self.definitionResponse host id active.revision active.sources response], self)

def formatError (id : RequestId) (error : FormattingError) : Value :=
  errorWithData id (if error = .stale then -32801 else -32803)
    "Formatting rejected; see diagnostic code" error.code

def formatting (message : Incoming) : List Value × Server Compiler Root Sources Definitions :=
  match message.id with
  | none => ([], self)
  | some id =>
    match message.params.bind host.reader.formatting with
    | none => ([invalidParams id], self)
    | some params =>
      if params.tabSize = 0
          ∨ (message.method = "textDocument/rangeFormatting") ≠ (params.range.isSome = true) then
        ([invalidParams id], self)
      else match self.documents.get? params.uri with
        | none => ([invalidParams id], self)
        | some document =>
          match self.active with
          | none => ([formatError id .unavailable], self)
          | some active =>
            let range : Option (Option (ℕ × ℕ)) := match params.range with
              | none => some none
              | some (start, stop) =>
                match host.positionToByte document.text start self.encoding,
                    host.positionToByte document.text stop self.encoding with
                | some start, some stop => if start ≤ stop then some (some (start, stop)) else none
                | _, _ => none
            match range with
            | none => ([formatError id .range], self)
            | some range =>
              if self.waiting ≥ maxPending then ([formatError id .limit], self)
              else ([], { self with pendingFormatting := self.pendingFormatting
                  ++ [⟨id, active.revision, params.uri, range, moment.now, false⟩] })

def shutdown (message : Incoming) (id : RequestId) :
    List Value × Server Compiler Root Sources Definitions :=
  if ¬emptyParams message.params then ([invalidParams id], self)
  else ([response id .null], { self with shuttingDown := true })

def handle (message : Incoming) : List Value × Server Compiler Root Sources Definitions :=
  if self.shuttingDown ∧ message.method ≠ "exit" ∧ message.method ≠ "$/cancelRequest" then
    ((message.id.map fun id => error id (-32600) "Server is shutting down").toList, self)
  else if message.method = "initialize" then self.initializeConnection host message
  else if message.method = "initialized" ∧ message.id.isNone ∧ self.initialized
      ∧ emptyParams message.params then ([], self)
  else if message.method = "textDocument/didOpen" ∧ message.id.isNone ∧ self.initialized then
    self.didOpen host moment message.params
  else if message.method = "textDocument/didChange" ∧ message.id.isNone ∧ self.initialized then
    self.didChange host moment message.params
  else if message.method = "textDocument/didClose" ∧ message.id.isNone ∧ self.initialized then
    self.didClose host moment message.params
  else if message.method = "textDocument/definition" ∧ message.id.isSome ∧ self.initialized then
    self.definition host moment message
  else if (message.method = "textDocument/formatting"
      ∨ message.method = "textDocument/rangeFormatting") ∧ message.id.isSome
      ∧ self.initialized then
    self.formatting host moment message
  else if message.method = "$/cancelRequest" ∧ message.id.isNone ∧ self.initialized then
    self.cancel host message.params
  else match message.id with
    | some id =>
      if message.method = "shutdown" ∧ self.initialized then self.shutdown message id
      else ([methodNotFound id], self)
    | none =>
      if message.method = "exit" ∧ self.shuttingDown ∧ emptyParams message.params then
        ([], { self with exit := true })
      else ([], self)

/-! ### Emission -/

/-- Reserves a request id, unless it is outstanding or too many are. -/
def reserve (requestId : String) : Option (Server Compiler Root Sources Definitions) :=
  if self.outstanding.card < maxOutstandingRequests ∧ requestId ∉ self.outstanding then
    some { self with outstanding := insert requestId self.outstanding }
  else none

def handleReserved (message : Incoming) :
    List Outgoing × Server Compiler Root Sources Definitions :=
  match message.id with
  | none =>
    let (values, self) := self.handle host moment message
    (values.map Outgoing.untracked, self)
  | some id =>
    match self.reserve id.internal with
    | none => ([.untracked invalidRequest], self)
    | some self =>
      let (values, self) := self.handle host moment message
      match values with
      | [] => ([], self)
      | [value] => ([.tracked value id.internal], self)
      | _ => ([.tracked (error none (-32603) "Internal error") id.internal], self)

/-- Decodes and handles one complete payload. -/
def handleBytes (bytes : List UInt8) : List Outgoing × Server Compiler Root Sources Definitions :=
  match decode host.wireIncoming bytes with
  | .ok message => self.handleReserved host moment message
  | .error error => ([.untracked error], self)

/-- The sources that a revision was analyzed with are still those of the workspace. -/
def m3GraphCurrent (revision : DiagnosticRevision) (budget : ℕ) : Bool :=
  budget ≠ 0 && (self.sourceRoot.any fun root =>
    ((self.entryUri.bind self.documents.get?).filter fun document =>
      host.isNormalized document.path).any fun document =>
        match sourceMap host self.documents, activeSources self.session revision with
        | .ok overlays, some admitted =>
          host.revalidate self.compiler root overlays document.path admitted budget
        | _, _ => false)

def formattingResponse (pending : PendingFormatting) : Value :=
  if pending.cancelled then error pending.id (-32800) "Request cancelled"
  else if moment.now - pending.started ≥ queryDeadline then
    error pending.id (-32803) "Formatting deadline exceeded"
  else match self.documents.get? pending.uri with
    | none => formatError pending.id .stale
    | some document =>
      match host.formatSource self.session pending.revision document.path pending.range with
      | .error error => formatError pending.id error
      | .ok edits =>
        let budget := queryDeadline - (moment.now - pending.started)
        if self.profile = .dataOwnership ∧ moment.later - pending.started ≥ queryDeadline then
          error pending.id (-32803) "Formatting deadline exceeded"
        else if self.profile = .dataOwnership ∧ ¬self.m3GraphCurrent host pending.revision budget then
          formatError pending.id .stale
        else
          let output := edits.mapM fun edit =>
            (host.byteRangeToPositions document.text edit.start edit.stop self.encoding).map
              fun range => Value.object [("newText", .string edit.text), ("range", range)]
          match output with
          | none => formatError pending.id .range
          | some output =>
            let response := response pending.id (.array output)
            if (Json.writeBytes response).length > maxFormattingBytes then
              formatError pending.id .limit
            else response

/-- Finishes the definition queries in their order, each at its own moment. -/
def finishDefinitions : List (PendingDefinition Sources) → List Moment →
    Server Compiler Root Sources Definitions →
    List Outgoing × Server Compiler Root Sources Definitions
  | [], _, self => ([], self)
  | pending :: rest, moments, self =>
    let now := (moments.head?.map Moment.now).getD 0
    let (response, session) := self.session.finish host.authority pending.query now
    let self := { self with session := session, pending := rest }
    let value := self.definitionResponse host pending.id pending.revision pending.sources response
    let (output, self) := finishDefinitions rest moments.tail self
    (.tracked value pending.id.internal :: output, self)

/-- Finishes the formatting queries in their order, each at its own moment. -/
def finishFormatting : List PendingFormatting → List Moment →
    Server Compiler Root Sources Definitions →
    List Outgoing × Server Compiler Root Sources Definitions
  | [], _, self => ([], self)
  | pending :: rest, moments, self =>
    let moment := moments.head?.getD ⟨0, 0, .ok 0⟩
    let self := { self with pendingFormatting := rest }
    let value := self.formattingResponse host moment pending
    let (output, self) := finishFormatting rest moments.tail self
    (.formatting value pending.id.internal pending.revision pending.started :: output, self)

/-- Finishes all admitted queries after queued cancellation or edits were observed. -/
def finishPending (definitions formattings : List Moment) :
    List Outgoing × Server Compiler Root Sources Definitions :=
  let (answers, self) := finishDefinitions host self.pending definitions self
  let (edits, self) := finishFormatting host self.pendingFormatting formattings self
  (answers ++ edits, self)

/-- Why an outgoing message is not written. -/
inductive WriteError where
  | stale
  | transport
deriving DecidableEq

/-- What is written for an outgoing message: a formatting result whose time is over, or whose
revision is not the active one any more, is replaced by an error. -/
def emitted (outgoing : Outgoing) : Value :=
  match outgoing.formattingRevision with
  | none => outgoing.value
  | some (revision, started) =>
    if (get outgoing.value "result").isNone then outgoing.value
    else
      let id := (get outgoing.value "id").bind decodeId
      if moment.now - started ≥ queryDeadline then error id (-32803) "Formatting deadline exceeded"
      else
        let current := self.session.activeRevision = some revision
          ∧ (self.profile ≠ .dataOwnership
            ∨ self.m3GraphCurrent host revision (queryDeadline - (moment.now - started)) = true)
        if moment.later - started ≥ queryDeadline then
          error id (-32803) "Formatting deadline exceeded"
        else if ¬current then errorWithData id (-32801) "Content modified" "ZRYNA-D4002"
        else outgoing.value

/-- Writes one message and releases its reservation after the transport has flushed it. -/
def writeOutgoing (transport : Value → Bool) (outgoing : Outgoing) :
    Except WriteError Value × Server Compiler Root Sources Definitions :=
  if outgoing.completion.any fun requestId => requestId ∉ self.outstanding then
    (.error .stale, self)
  else
    let value := self.emitted host moment outgoing
    if ¬transport value then (.error .transport, self)
    else match outgoing.completion with
      | none => (.ok value, self)
      | some requestId =>
        if requestId ∈ self.outstanding then
          (.ok value, { self with outstanding := self.outstanding.erase requestId })
        else (.error .stale, self)

end Server

end Zryna.LanguageServer
