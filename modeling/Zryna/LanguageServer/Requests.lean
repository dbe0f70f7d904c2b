import Zryna.LanguageServer.Server

/-!
# What a request leads to

Handlers of notifications answer no request and keep the queries that wait. A handler of a request
answers it at once, with one message that carries its id, or leaves it as one more query that waits;
a completion answers each of these with one message that carries its id. The exception is a second
`initialize`: its answer carries no id.
-/

namespace Zryna.LanguageServer

open List

open Json (Value)
open Driver.DiagnosticSessions (DiagnosticQueryResponse DiagnosticRevision DiagnosticSession
  QueryStatus)

/-! ### Ids of messages -/

/-- The request that a message answers. -/
def messageId (value : Value) : Option RequestId := (get value "id").bind decodeId

section MessageIds

variable {id : RequestId} {value result params : Value} {code : ℤ} {message data method : String}

theorem messageId_of_carries (h : Carries value id.wire) : messageId value = some id := by
  rw [messageId, h, Option.bind_some, decodeId_wire]

@[simp] theorem messageId_response : messageId (response id result) = some id :=
  messageId_of_carries carries_response

@[simp] theorem messageId_error {id : Option RequestId} :
    messageId (error id code message) = id := by
  cases id with
  | none => rfl
  | some id => exact messageId_of_carries carries_error

@[simp] theorem messageId_errorWithData {id : Option RequestId} :
    messageId (errorWithData id code message data) = id := by
  cases id with
  | none => rfl
  | some id => exact messageId_of_carries carries_errorWithData

@[simp] theorem messageId_notification : messageId (notification method params) = none := rfl

@[simp] theorem messageId_logMessage : messageId (logMessage message) = none := rfl

end MessageIds

namespace Server

variable {Compiler Root Sources Definitions : Type} {host : Host Compiler Root Sources Definitions}
  {self : Server Compiler Root Sources Definitions} {moment : Moment}

/-- The ids of the queries that wait for their completion. -/
def waitingIds (self : Server Compiler Root Sources Definitions) : List RequestId :=
  self.pending.map PendingDefinition.id ++ self.pendingFormatting.map PendingFormatting.id

theorem length_waitingIds : self.waitingIds.length = self.waiting := by
  simp [waitingIds, waiting]

/-! ### Notifications -/

/-- Messages that answer no request, from a server that keeps its queries and reservations. -/
structure Quiet (before : Server Compiler Root Sources Definitions)
    (result : List Value × Server Compiler Root Sources Definitions) : Prop where
  messages : ∀ value ∈ result.1, messageId value = none
  waitingIds : result.2.waitingIds = before.waitingIds
  outstanding : result.2.outstanding = before.outstanding

theorem quiet_logMessage (self : Server Compiler Root Sources Definitions) (message : String) :
    Quiet self ([logMessage message], self) :=
  ⟨by simp, rfl, rfl⟩

variable {result : List Value × Server Compiler Root Sources Definitions} {message : Incoming}

theorem Quiet.of_same {self' : Server Compiler Root Sources Definitions} (h : Quiet self' result)
    (hwaiting : self'.waitingIds = self.waitingIds)
    (houtstanding : self'.outstanding = self.outstanding) : Quiet self result :=
  ⟨h.messages, h.waitingIds.trans hwaiting, h.outstanding.trans houtstanding⟩

theorem Quiet.update {server : Server Compiler Root Sources Definitions} (h : Quiet self result)
    (hwaiting : server.waitingIds = result.2.waitingIds)
    (houtstanding : server.outstanding = result.2.outstanding) : Quiet self (result.1, server) :=
  ⟨h.messages, hwaiting.trans h.waitingIds, houtstanding.trans h.outstanding⟩

theorem Quiet.cons {value : Value} (hvalue : messageId value = none) (h : Quiet self result) :
    Quiet self (value :: result.1, result.2) :=
  ⟨forall_mem_cons.mpr ⟨hvalue, h.messages⟩, h.waitingIds, h.outstanding⟩

theorem quiet_publishDiagnostics (revision : DiagnosticRevision) :
    Quiet self (publishDiagnostics host self moment revision) := by
  unfold publishDiagnostics
  dsimp only
  split
  · exact ⟨by simp, rfl, rfl⟩
  split
  · exact ⟨by simp, rfl, rfl⟩
  split
  · exact ⟨by simp, rfl, rfl⟩
  split
  · exact ⟨by simp, rfl, rfl⟩
  · refine ⟨?_, rfl, rfl⟩
    intro value hmem
    obtain rfl | hmem := mem_cons.mp hmem
    · exact messageId_notification
    · obtain ⟨entry, -, rfl⟩ := mem_map.mp hmem
      exact messageId_notification

theorem quiet_settle (sources : Sources) (analysis : Except String DiagnosticRevision × Compiler
    × DiagnosticSession Sources Definitions) :
    Quiet self (settle host self moment sources analysis) := by
  unfold settle
  dsimp only
  split
  · exact (quiet_publishDiagnostics _).of_same rfl rfl
  · split
    · exact ⟨by simp, rfl, rfl⟩
    · exact ⟨by simp, rfl, rfl⟩

theorem quiet_admitSources (sources : Sources) :
    Quiet self (admitSources host self moment sources) := by
  unfold admitSources
  split
  · exact quiet_settle _ _
  · split
    · exact quiet_logMessage _ _
    · split
      · exact quiet_settle _ _
      · exact quiet_logMessage _ _
  · split
    · exact quiet_logMessage _ _
    · split
      · exact quiet_logMessage _ _
      · split
        · exact quiet_settle _ _
        · exact quiet_logMessage _ _

theorem quiet_admitDocuments (documents : OrderedMap String Document) :
    Quiet self (admitDocuments host self moment documents) := by
  unfold admitDocuments
  split
  · exact quiet_logMessage _ _
  · exact (quiet_admitSources _).of_same rfl rfl

theorem quiet_rebuild : Quiet self (rebuild host self moment) := by
  unfold rebuild
  split
  · exact quiet_admitSources _
  · dsimp only
    split
    · exact ⟨by simp, rfl, rfl⟩
    · exact ⟨by simp, rfl, rfl⟩

section

variable (params : Option Value)

theorem quiet_didOpen : Quiet self (self.didOpen host moment params) := by
  unfold didOpen
  split
  · exact quiet_logMessage _ _
  split
  · exact quiet_logMessage _ _
  split
  · exact quiet_logMessage _ _
  dsimp only
  split
  · refine Quiet.update ?_ rfl rfl
    exact (quiet_admitDocuments _).of_same rfl rfl
  · exact (quiet_admitDocuments _).of_same rfl rfl

theorem quiet_didChange : Quiet self (self.didChange host moment params) := by
  unfold didChange
  split
  · exact quiet_logMessage _ _
  split
  · split
    · exact quiet_logMessage _ _
    · split
      · exact quiet_logMessage _ _
      · exact quiet_admitDocuments _
  · exact quiet_logMessage _ _

theorem quiet_didClose : Quiet self (self.didClose host moment params) := by
  unfold didClose
  split
  · exact quiet_logMessage _ _
  split
  · exact quiet_logMessage _ _
  dsimp only
  split
  · split
    · exact ⟨by simp, rfl, rfl⟩
    · exact ⟨by simp, rfl, rfl⟩
  · refine Quiet.cons messageId_notification ?_
    exact quiet_rebuild.of_same rfl rfl

theorem quiet_cancel : Quiet self (self.cancel host params) := by
  unfold cancel
  split
  · exact quiet_logMessage _ _
  · next id _ =>
    refine ⟨nofun, ?_, rfl⟩
    simp only [waitingIds, cancelFormatting, map_map]
    congr 1
    refine map_congr_left fun pending _ => ?_
    rw [Function.comp_apply]
    split
    · rfl
    · rfl

end

/-- Handling a message without an id answers no request. -/
theorem quiet_handle (hid : message.id = none) : Quiet self (self.handle host moment message) := by
  have hquiet {server : Server Compiler Root Sources Definitions}
      (hwaiting : server.waitingIds = self.waitingIds)
      (houtstanding : server.outstanding = self.outstanding) : Quiet self ([], server) :=
    ⟨nofun, hwaiting, houtstanding⟩
  unfold handle
  refine iteInduction (fun _ => ?_) fun _ => ?_
  · rw [hid]
    exact hquiet rfl rfl
  refine iteInduction (fun _ => ?_) fun _ => ?_
  · rw [initializeConnection, hid]
    exact hquiet rfl rfl
  refine iteInduction (fun _ => hquiet rfl rfl) fun _ => ?_
  refine iteInduction (fun _ => quiet_didOpen _) fun _ => ?_
  refine iteInduction (fun _ => quiet_didChange _) fun _ => ?_
  refine iteInduction (fun _ => quiet_didClose _) fun _ => ?_
  refine iteInduction (fun _ => ?_) fun _ => ?_
  · rw [definition, hid]
    exact hquiet rfl rfl
  refine iteInduction (fun _ => ?_) fun _ => ?_
  · rw [formatting, hid]
    exact hquiet rfl rfl
  refine iteInduction (fun _ => quiet_cancel _) fun _ => ?_
  rw [hid]
  exact iteInduction (fun _ => hquiet rfl rfl) fun _ => hquiet rfl rfl

/-! ### Requests -/

/-- What a request leads to: it is answered, or it waits. -/
inductive Handled (self : Server Compiler Root Sources Definitions) (id : RequestId) :
    List Value × Server Compiler Root Sources Definitions → Prop
  | answered {value : Value} {server : Server Compiler Root Sources Definitions}
    (hvalue : messageId value = some id) (hwaiting : server.waitingIds = self.waitingIds)
    (houtstanding : server.outstanding = self.outstanding) : Handled self id ([value], server)
  | waits {server : Server Compiler Root Sources Definitions}
    (hwaiting : server.waitingIds.Perm (id :: self.waitingIds)) (hlt : self.waiting < maxPending)
    (houtstanding : server.outstanding = self.outstanding) : Handled self id ([], server)

variable {id : RequestId}

theorem Handled.same {value : Value} (hvalue : messageId value = some id) :
    Handled self id ([value], self) :=
  .answered hvalue rfl rfl

theorem messageId_definitionSuccess {revision : DiagnosticRevision}
    {sources : Sources} {response : DiagnosticQueryResponse} {value : Value}
    (h : self.definitionSuccess host id revision sources response = some value) :
    messageId value = some id := by
  unfold definitionSuccess at h
  simp only [Option.bind_eq_bind, Option.bind_eq_some_iff] at h
  obtain ⟨_, -, _, -, _, -, _, -, _, -, h⟩ := h
  split at h
  · cases h
  simp only [Option.bind_eq_some_iff] at h
  obtain ⟨locations, -, h⟩ := h
  split at h
  · simp only [Option.bind_eq_some_iff] at h
    obtain ⟨_, -, _, -, _, -, _, -, _, -, h⟩ := h
    split at h
    · cases h
    obtain ⟨range, -, h⟩ := Option.bind_eq_some_iff.mp h
    cases h
    exact messageId_response
  · cases h

theorem messageId_definitionResponse (id : RequestId) (revision : DiagnosticRevision)
    (sources : Sources) (response : DiagnosticQueryResponse) :
    messageId (self.definitionResponse host id revision sources response) = some id := by
  unfold definitionResponse
  split
  case h_2 =>
    cases hsuccess : self.definitionSuccess host id revision sources response with
    | none => exact messageId_error
    | some value => exact messageId_definitionSuccess hsuccess
  · exact messageId_response
  · exact messageId_error
  · exact messageId_error
  · exact messageId_error
  · exact messageId_error
  · exact messageId_error
  · exact messageId_error

theorem handled_definition (hid : message.id = some id) :
    Handled self id (self.definition host moment message) := by
  unfold definition
  rw [hid]
  dsimp only
  split
  · exact .same messageId_error
  split
  · exact .same messageId_error
  split
  · exact .same messageId_error
  split
  · exact .same messageId_error
  split
  · exact .same messageId_error
  split
  · exact .same messageId_error
  next hwaiting =>
  split
  · refine .waits ?_ (Nat.not_le.mp hwaiting) rfl
    simp only [waitingIds, map_append, append_assoc]
    exact perm_middle
  · exact .answered (messageId_definitionResponse _ _ _ _) rfl rfl

theorem messageId_formatError (id : RequestId) (error : FormattingError) :
    messageId (formatError id error) = some id :=
  messageId_errorWithData

theorem handled_formatting (hid : message.id = some id) :
    Handled self id (self.formatting host moment message) := by
  unfold formatting
  rw [hid]
  dsimp only
  split
  · exact .same messageId_error
  split
  · exact .same messageId_error
  split
  · exact .same messageId_error
  split
  · exact .same (messageId_formatError _ _)
  split
  · exact .same (messageId_formatError _ _)
  split
  · exact .same (messageId_formatError _ _)
  next hwaiting =>
  refine .waits ?_ (Nat.not_le.mp hwaiting) rfl
  simp only [waitingIds, map_append, ← append_assoc]
  exact perm_append_singleton _ _

/-- A request that would set the server up a second time. -/
def Reinitializes (self : Server Compiler Root Sources Definitions) (message : Incoming) : Prop :=
  message.method = "initialize" ∧ self.initialized = true ∧ self.shuttingDown = false

theorem handled_initialize (hid : message.id = some id) (hinitialized : self.initialized = false) :
    Handled self id (self.initializeConnection host message) := by
  unfold initializeConnection
  rw [hid]
  dsimp only
  rw [if_neg (by simp [hinitialized])]
  split
  · exact .same messageId_error
  split
  · split
    · exact .same messageId_error
    · exact .answered messageId_response rfl rfl
  · exact .same messageId_error

/-- Every request is answered or waits, unless it is a second `initialize`. -/
theorem handled_handle (hid : message.id = some id) (hmeets : ¬self.Reinitializes message) :
    Handled self id (self.handle host moment message) := by
  have hnotification {p q : Prop} (h : p ∧ message.id.isNone = true ∧ q) : False := by
    rw [hid] at h
    cases h.2.1
  unfold handle
  refine iteInduction (fun _ => ?_) fun hshutting => ?_
  · rw [hid]
    exact .same messageId_error
  refine iteInduction (fun hmethod => ?_) fun _ => ?_
  · refine handled_initialize hid (Bool.eq_false_iff.mpr fun hinitialized => ?_)
    refine hmeets ⟨hmethod, hinitialized, Bool.eq_false_iff.mpr fun h => hshutting ⟨h, ?_, ?_⟩⟩
    · rw [hmethod]
      decide
    · rw [hmethod]
      decide
  refine iteInduction (fun h => (hnotification h).elim) fun _ => ?_
  refine iteInduction (fun h => (hnotification h).elim) fun _ => ?_
  refine iteInduction (fun h => (hnotification h).elim) fun _ => ?_
  refine iteInduction (fun h => (hnotification h).elim) fun _ => ?_
  refine iteInduction (fun _ => handled_definition hid) fun _ => ?_
  refine iteInduction (fun _ => handled_formatting hid) fun _ => ?_
  refine iteInduction (fun h => (hnotification h).elim) fun _ => ?_
  rw [hid]
  refine iteInduction (fun _ => ?_) fun _ => .same messageId_error
  unfold shutdown
  refine iteInduction (fun _ => .same messageId_error) fun _ => ?_
  exact .answered messageId_response rfl rfl

/-- The answer to a second `initialize` carries no id. -/
theorem handle_reinitialize (hid : message.id = some id) (h : self.Reinitializes message) :
    self.handle host moment message = ([invalidRequest], self) := by
  obtain ⟨hmethod, hinitialized, hshutting⟩ := h
  unfold handle initializeConnection
  rw [if_neg (by simp [hshutting]), if_pos hmethod, hid]
  exact if_pos hinitialized

/-! ### Completions and emissions -/

theorem messageId_formattingResponse (pending : PendingFormatting) :
    messageId (self.formattingResponse host moment pending) = some pending.id := by
  unfold formattingResponse
  split
  · exact messageId_error
  split
  · exact messageId_error
  split
  · exact messageId_formatError _ _
  split
  · exact messageId_formatError _ _
  dsimp only
  split
  · exact messageId_error
  split
  · exact messageId_formatError _ _
  split
  · exact messageId_formatError _ _
  split
  · exact messageId_formatError _ _
  · exact messageId_response

/-- What is written for a message carries the id of the message. -/
theorem messageId_emitted (outgoing : Outgoing) :
    messageId (self.emitted host moment outgoing) = messageId outgoing.value := by
  unfold emitted
  split
  · rfl
  split
  · rfl
  dsimp only
  split
  · exact messageId_error
  split
  · exact messageId_error
  split
  · exact messageId_errorWithData
  · rfl

end Server

end Zryna.LanguageServer
