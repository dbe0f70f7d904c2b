import Zryna.LanguageServer.Connections

/-!
# One reply to every request

Every call keeps the accounts of a connection, as long as no initialized server is set up a second
time. What an accepted request gets, and what a refused one does not change, is read off them.
-/

namespace Zryna.LanguageServer

open List

open Json (Value)

variable {Compiler Root Sources Definitions : Type} {host : Host Compiler Root Sources Definitions}
  {w : World Compiler Root Sources Definitions}

theorem messageId_of_decode {wireIncoming : List UInt8 → Option WireIncoming} {bytes : List UInt8}
    {value : Value} (h : decode wireIncoming bytes = .error value) : messageId value = none := by
  unfold decode at h
  split at h
  · cases h
    rfl
  split at h
  · cases h
    rfl
  split at h
  · cases h
    rfl
  split at h
  · cases h
  split at h
  · cases h
    rfl
  · cases h

namespace Server

variable {self : Server Compiler Root Sources Definitions} {moment : Moment}
  {id : RequestId} {message : Incoming} {outgoing : Outgoing} {transport : Value → Bool}

/-- A request that may not be reserved gets an answer without an id, and changes nothing. -/
theorem handleReserved_refused (hid : message.id = some id)
    (h : id.internal ∈ self.outstanding ∨ maxOutstandingRequests ≤ self.outstanding.card) :
    self.handleReserved host moment message = ([.untracked invalidRequest], self) := by
  have hreserve : self.reserve id.internal = none := if_neg fun ⟨hlt, hnew⟩ =>
    h.elim hnew fun hle => absurd hlt (Nat.not_lt.mpr hle)
  unfold handleReserved
  rw [hid]
  dsimp only
  rw [hreserve]

/-- A request that would set an initialized server up a second time is reserved, and its answer
carries no id. -/
theorem handleReserved_reinitialize
    (hid : message.id = some id) (hnew : id.internal ∉ self.outstanding)
    (hlt : self.outstanding.card < maxOutstandingRequests) (h : self.Reinitializes message) :
    self.handleReserved host moment message = ([.tracked invalidRequest id.internal],
      { self with outstanding := insert id.internal self.outstanding }) := by
  set reserved := { self with outstanding := insert id.internal self.outstanding }
  have hreserve : self.reserve id.internal = some reserved := if_pos ⟨hlt, hnew⟩
  have hhandle : reserved.handle host moment message = ([invalidRequest], reserved) :=
    handle_reinitialize hid h
  unfold handleReserved
  rw [hid]
  dsimp only
  rw [hreserve]
  dsimp only
  rw [hhandle]

/-- What an emission does to the reservations. -/
theorem writeOutgoing_eq_ok {value : Value} {server : Server Compiler Root Sources Definitions}
    (h : self.writeOutgoing host moment transport outgoing = (.ok value, server)) :
    value = self.emitted host moment outgoing
      ∧ server.waitingIds = self.waitingIds
      ∧ server.outstanding = match outgoing.completion with
        | none => self.outstanding
        | some requestId => self.outstanding.erase requestId := by
  unfold writeOutgoing at h
  split at h
  · cases h
  dsimp only at h
  split at h
  · cases h
  cases hcompletion : outgoing.completion with
  | none =>
    simp only [hcompletion] at h
    obtain ⟨hvalue, rfl⟩ := Prod.mk.inj h
    exact ⟨(Except.ok.inj hvalue).symm, rfl, rfl⟩
  | some requestId =>
    simp only [hcompletion] at h
    split at h
    · obtain ⟨hvalue, rfl⟩ := Prod.mk.inj h
      exact ⟨(Except.ok.inj hvalue).symm, rfl, rfl⟩
    · cases h

/-- A completion that is outstanding is written, whatever the transport says. -/
theorem writeOutgoing_ne_stale
    (h : ∀ requestId, outgoing.completion = some requestId → requestId ∈ self.outstanding) :
    (self.writeOutgoing host moment transport outgoing).1 ≠ .error .stale := by
  unfold writeOutgoing
  split
  · next hstale =>
    obtain ⟨requestId, hcompletion, hnot⟩ := (Option.any_eq_true _ _).mp hstale
    exact absurd (h requestId hcompletion) (by simpa using hnot)
  dsimp only
  split
  · simp
  split
  · simp
  · next requestId hcompletion =>
    rw [if_pos (h requestId hcompletion)]
    simp

end Server

/-! ### Steps -/

namespace World.Inv

variable {server : Server Compiler Root Sources Definitions} {output : List Outgoing}
  {moment : Moment} {bytes : List UInt8}

theorem start (compiler : Compiler) (session : ℕ) (sourceRoot : Option Root) :
    World.Inv (.start compiler session sourceRoot :
      World Compiler Root Sources Definitions) where
  accounts := .start
  keyed := nofun
  waiting_le := Nat.zero_le _
  outstanding_le := Nat.zero_le _

/-- Messages that answer no request are produced. -/
theorem quiet (h : w.Inv) {values : List Value} (hvalues : ∀ value ∈ values, messageId value = none)
    (hwaiting : server.waitingIds = w.server.waitingIds)
    (houtstanding : server.outstanding = w.server.outstanding) :
    World.Inv ⟨server, w.unwritten ++ values.map Outgoing.untracked,
      w.log ++ (values.map Outgoing.untracked).map fun outgoing => .produced outgoing.value⟩ := by
  have hids : (values.map Outgoing.untracked).filterMap (fun outgoing => messageId outgoing.value)
      = [] := by
    rw [filterMap_map, filterMap_eq_nil_iff]
    exact hvalues
  refine ⟨?_, ?_, ?_, ?_⟩
  · rw [answeredIds, filterMap_append, hids, append_nil, hwaiting, houtstanding,
      map_map]
    exact h.accounts.quiet_all hvalues
  · intro outgoing hmem
    obtain hmem | hmem := mem_append.mp hmem
    · exact h.keyed outgoing hmem
    · obtain ⟨value, hvalue, rfl⟩ := mem_map.mp hmem
      exact (congrArg (Option.map RequestId.internal) (hvalues value hvalue)).symm
  · rw [← Server.length_waitingIds, hwaiting, Server.length_waitingIds]
    exact h.waiting_le
  · rw [houtstanding]
    exact h.outstanding_le

/-- A request arrives that is reserved. -/
theorem accept (h : w.Inv) {message : Incoming} {id : RequestId} (hid : message.id = some id)
    (hnew : id.internal ∉ w.server.outstanding)
    (hlt : w.server.outstanding.card < maxOutstandingRequests)
    (hregular : ¬w.server.Reinitializes message)
    (hstep : w.server.handleReserved host moment message = (output, server)) :
    World.Inv ⟨server, w.unwritten ++ output,
      w.log ++ [.accepted id] ++ output.map fun outgoing => .produced outgoing.value⟩ := by
  set reserved := { w.server with outstanding := insert id.internal w.server.outstanding }
    with hreserved
  have hreserve : w.server.reserve id.internal = some reserved := if_pos ⟨hlt, hnew⟩
  have haccounts := h.accounts.accept hnew
  have hcard : (insert id.internal w.server.outstanding).card ≤ maxOutstandingRequests := by
    rw [Finset.card_insert_of_notMem hnew]
    exact hlt
  unfold Server.handleReserved at hstep
  rw [hid] at hstep
  dsimp only at hstep
  rw [hreserve] at hstep
  have hhandled : Server.Handled reserved id (reserved.handle host moment message) :=
    Server.handled_handle hid hregular
  dsimp only at hstep
  cases hresult : reserved.handle host moment message with
  | mk values server' =>
    rw [hresult] at hhandled hstep
    cases hhandled with
    | @answered value _ hvalue hwaiting houtstanding =>
      cases hstep
      refine ⟨?_, ?_, ?_, ?_⟩
      · have hids : [Outgoing.tracked value id.internal].filterMap
            (fun outgoing => messageId outgoing.value) = [id] := by
          simp [Outgoing.tracked, hvalue]
        rw [answeredIds, filterMap_append, hids, hwaiting, houtstanding]
        exact haccounts.answer hvalue
      · intro outgoing hmem
        obtain hmem | hmem := mem_append.mp hmem
        · exact h.keyed outgoing hmem
        · obtain rfl := mem_singleton.mp hmem
          exact (congrArg (Option.map RequestId.internal) hvalue).symm
      · rw [← Server.length_waitingIds, hwaiting]
        exact Server.length_waitingIds.trans_le h.waiting_le
      · rw [houtstanding]
        exact hcard
    | waits hwaiting hwaits houtstanding =>
      cases hstep
      refine ⟨?_, ?_, ?_, ?_⟩
      · rw [answeredIds, append_nil, map_nil, append_nil, houtstanding]
        exact haccounts.perm hwaiting.symm
      · rw [append_nil]
        exact h.keyed
      · rw [← Server.length_waitingIds, hwaiting.length_eq, length_cons,
          Server.length_waitingIds]
        exact hwaits
      · rw [houtstanding]
        exact hcard

theorem receive (h : w.Inv) (hregular : (Action.receive bytes moment).Regular host w)
    (hstep : w.server.handleBytes host moment bytes = (output, server)) :
    World.Inv ⟨server, w.unwritten ++ output,
      w.log ++ (w.accepted host bytes).toList.map Event.accepted
        ++ output.map fun outgoing => .produced outgoing.value⟩ := by
  unfold Server.handleBytes at hstep
  cases hdecode : decode host.wireIncoming bytes with
  | error value =>
    have haccepted : w.accepted host bytes = none := by
      rw [accepted, hdecode]
    rw [hdecode] at hstep
    cases hstep
    rw [haccepted, Option.toList_none, map_nil, append_nil]
    exact h.quiet (forall_mem_singleton.mpr (messageId_of_decode hdecode)) rfl rfl
  | ok message =>
    rw [hdecode] at hstep
    dsimp only at hstep
    cases hid : message.id with
    | none =>
      have haccepted : w.accepted host bytes = none := by
        rw [accepted, hdecode]
        dsimp only
        rw [hid, Option.filter_none]
      have hquiet : Server.Quiet w.server (w.server.handle host moment message) :=
        Server.quiet_handle hid
      unfold Server.handleReserved at hstep
      rw [hid] at hstep
      generalize w.server.handle host moment message = result at hstep hquiet
      cases hstep
      rw [haccepted, Option.toList_none, map_nil, append_nil]
      exact h.quiet hquiet.messages hquiet.waitingIds hquiet.outstanding
    | some id =>
      by_cases hreserve : id.internal ∉ w.server.outstanding
          ∧ w.server.outstanding.card < maxOutstandingRequests
      · have haccepted : w.accepted host bytes = some id := by
          rw [accepted, hdecode]
          dsimp only
          rw [hid, Option.filter_some, if_pos (decide_eq_true hreserve)]
        rw [haccepted]
        refine h.accept hid hreserve.1 hreserve.2 (hregular message hdecode ?_) hstep
        rw [haccepted, Option.isSome_some]
      · have haccepted : w.accepted host bytes = none := by
          rw [accepted, hdecode]
          dsimp only
          rw [hid, Option.filter_some, if_neg (by rwa [decide_eq_true_iff])]
        rw [Server.handleReserved_refused hid
          (by rwa [not_and_or, not_not, Nat.not_lt] at hreserve)] at hstep
        cases hstep
        rw [haccepted, Option.toList_none, map_nil, append_nil]
        exact h.quiet (forall_mem_singleton.mpr messageId_error) rfl rfl

theorem finish (h : w.Inv) {definitions formattings : List Moment}
    (hstep : w.server.finishPending host definitions formattings = (output, server)) :
    World.Inv ⟨server, w.unwritten ++ output,
      w.log ++ output.map fun outgoing => .produced outgoing.value⟩ := by
  obtain ⟨hids, hkeyed, hwaiting, houtstanding⟩ := Server.finishPending_spec hstep
  refine ⟨?_, ?_, ?_, ?_⟩
  · have hanswered : output.filterMap (fun outgoing => messageId outgoing.value)
        = w.server.waitingIds := by
      have hcongr := congrArg (List.filterMap id) hids
      rwa [filterMap_map, filterMap_map, Function.id_comp, Function.id_comp,
        filterMap_some] at hcongr
    rw [answeredIds, filterMap_append, hanswered, hwaiting, houtstanding]
    have hvalues : (output.map Outgoing.value).map messageId = w.server.waitingIds.map some := by
      rw [map_map]
      exact hids
    have haccounts := h.accounts.answer_all hvalues
    rwa [map_map] at haccounts
  · intro outgoing hmem
    obtain hmem | hmem := mem_append.mp hmem
    · exact h.keyed outgoing hmem
    · exact hkeyed outgoing hmem
  · rw [← Server.length_waitingIds, hwaiting]
    exact Nat.zero_le _
  · rw [houtstanding]
    exact h.outstanding_le

theorem write (h : w.Inv) {before after : List Outgoing} {outgoing : Outgoing} {value : Value}
    (hunwritten : w.unwritten = before ++ outgoing :: after)
    (hstep : w.server.writeOutgoing host moment (fun _ => true) outgoing = (.ok value, server)) :
    World.Inv ⟨server, before ++ after, w.log ++ [.written value]⟩ := by
  obtain ⟨rfl, hwaiting, houtstanding⟩ := Server.writeOutgoing_eq_ok hstep
  have hkeyed {outgoing : Outgoing} (hmem : outgoing ∈ before ++ after) :
      outgoing.completion = (messageId outgoing.value).map RequestId.internal := by
    refine h.keyed outgoing ?_
    rw [hunwritten]
    simp only [mem_append, mem_cons] at hmem ⊢
    tauto
  have hwaiting_le : server.waiting ≤ maxPending := by
    rw [← Server.length_waitingIds, hwaiting, Server.length_waitingIds]
    exact h.waiting_le
  have hcompletion : outgoing.completion = (messageId outgoing.value).map RequestId.internal :=
    h.keyed outgoing (hunwritten ▸ mem_append_right _ mem_cons_self)
  have hemitted : messageId (w.server.emitted host moment outgoing) = messageId outgoing.value :=
    Server.messageId_emitted outgoing
  have haccounts := h.accounts
  rw [answeredIds, hunwritten, filterMap_append] at haccounts
  cases hvalue : messageId outgoing.value with
  | none =>
    rw [hcompletion, hvalue] at houtstanding
    simp only [filterMap_cons, hvalue, ← filterMap_append] at haccounts
    refine ⟨?_, fun _ => hkeyed, hwaiting_le, ?_⟩
    · rw [hwaiting, houtstanding]
      exact haccounts.quiet (by rw [Event.key, hemitted, hvalue, Option.map_none])
    · rw [houtstanding]
      exact h.outstanding_le
  | some id =>
    rw [hcompletion, hvalue] at houtstanding
    simp only [filterMap_cons, hvalue] at haccounts
    refine ⟨?_, fun _ => hkeyed, hwaiting_le, ?_⟩
    · rw [hwaiting, houtstanding, answeredIds, filterMap_append]
      exact haccounts.emit (hemitted.trans hvalue)
    · rw [houtstanding]
      exact Finset.card_erase_le.trans h.outstanding_le

theorem step (h : w.Inv) {action : Action} {w' : World Compiler Root Sources Definitions}
    (hregular : action.Regular host w) (hstep : Step host w action w') : w'.Inv := by
  cases hstep with
  | receive hstep => exact h.receive hregular hstep
  | finish hstep => exact h.finish hstep
  | write hunwritten hstep => exact h.write hunwritten hstep

theorem run {compiler : Compiler} {session : ℕ} {sourceRoot : Option Root}
    (h : RegularlyReachable host compiler session sourceRoot w) : w.Inv := by
  induction h with
  | refl => exact .start compiler session sourceRoot
  | tail _ hstep ih =>
    obtain ⟨action, hregular, hstep⟩ := hstep
    exact ih.step hregular hstep

end World.Inv

/-! ### Replies -/

/-- As long as no initialized server is set up a second time: the events of every id are exchanges,
its request being outstanding from its arrival until its one answer is written; nothing waits after
a completion; a refused request changes nothing and is answered by a message without an id; and no
emission finds its completion stale. -/
theorem answered_once (host : Host Compiler Root Sources Definitions) (compiler : Compiler)
    (session : ℕ) (sourceRoot : Option Root) (w : World Compiler Root Sources Definitions)
    (h : RegularlyReachable host compiler session sourceRoot w) :
    (∀ key, ∃ phase, Exchanges key w.log phase
      ∧ (key ∈ w.server.outstanding ↔ phase ≠ .idle)
      ∧ (∀ id, phase = .waiting id ↔ id ∈ w.server.waitingIds ∧ id.internal = key)
      ∧ ∀ id, phase = .answered id ↔ id ∈ w.answeredIds ∧ id.internal = key)
    ∧ (∀ definitions formattings,
      (w.server.finishPending host definitions formattings).2.waitingIds = [])
    ∧ (∀ bytes moment message id, decode host.wireIncoming bytes = .ok message →
      message.id = some id →
      id.internal ∈ w.server.outstanding ∨ maxOutstandingRequests ≤ w.server.outstanding.card →
      w.server.handleBytes host moment bytes = ([.untracked invalidRequest], w.server))
    ∧ (∀ outgoing ∈ w.unwritten, ∀ moment transport,
      (w.server.writeOutgoing host moment transport outgoing).1 ≠ .error .stale)
    ∧ w.server.waiting ≤ maxPending ∧ w.server.outstanding.card ≤ maxOutstandingRequests := by
  have hinv := World.Inv.run h
  refine ⟨fun key => ?_, ?_, ?_, ?_, hinv.waiting_le, hinv.outstanding_le⟩
  · exact hinv.accounts.phase key
  · exact fun definitions formattings => (Server.finishPending_spec rfl).2.2.1
  · intro bytes moment message id hdecode hid hrefused
    rw [Server.handleBytes, hdecode]
    exact Server.handleReserved_refused hid hrefused
  · intro outgoing hmem moment transport
    refine Server.writeOutgoing_ne_stale fun requestId hcompletion => ?_
    rw [hinv.keyed outgoing hmem, Option.map_eq_some_iff] at hcompletion
    obtain ⟨id, hvalue, rfl⟩ := hcompletion
    rw [hinv.accounts.reserved]
    refine mem_map_of_mem (mem_append_right _ ?_)
    exact mem_filterMap.mpr ⟨outgoing, hmem, hvalue⟩

/-! ### A sample -/

private def sampleParams : Value :=
  .object [("capabilities", .object []), ("rootUri", .string "file:///w")]

/-- An `initialize` request as it is on the wire. -/
private def samplePayload (id : RequestId) : List UInt8 :=
  Json.writeBytes (.object [("id", id.wire), ("jsonrpc", .string "2.0"),
    ("method", .string "initialize"), ("params", sampleParams)])

private def sampleWire (id : RequestId) : WireIncoming :=
  ⟨"2.0", some id.wire, "initialize", some sampleParams⟩

private def sampleFirst : RequestId := ⟨int 1, "n:1", by decide +kernel⟩

private def sampleSecond : RequestId := ⟨int 2, "n:2", by decide +kernel⟩

private def sampleReader : ParamsReader where
  initializeParams := fun value =>
    ((get value "rootUri").bind asStr).map fun rootUri => ⟨rootUri, none, none⟩
  requestedProfile := fun _ => none
  didOpen := fun _ => none
  didChange := fun _ => none
  didClose := fun _ => none
  cancel := fun _ => none
  definition := fun _ => none
  formatting := fun _ => none

/-- Surroundings that read two requests. -/
private def sampleHost : Host Unit Unit Unit Unit where
  reader := sampleReader
  wireIncoming := fun bytes =>
    if bytes = samplePayload sampleFirst then some (sampleWire sampleFirst)
    else if bytes = samplePayload sampleSecond then some (sampleWire sampleSecond)
    else none
  parse := fun _ => none
  requestReader := ⟨fun _ => none, fun _ => none⟩
  authority := ⟨fun _ => 0, fun _ => .error .sourceInvariant, fun _ _ _ => false, fun _ _ => false,
    fun _ => none, fun _ _ _ _ _ => .absent⟩
  latest := 2 ^ 64
  normalizeRootUri := some
  trusts := fun _ _ => false
  pathBelowRoot := fun _ _ => none
  isNormalized := fun _ => false
  positionToByte := fun _ _ _ => none
  byteRangeToPositions := fun _ _ _ _ => none
  sourceMap := fun _ => .ok ()
  textOf := fun _ _ _ _ => none
  analysis := fun compiler session _ => (.error "", compiler, session)
  controlFlow := fun compiler session _ _ => (.error "", compiler, session)
  dataOwnershipWorkspace := fun compiler session _ _ _ => (.error "", compiler, session)
  revalidate := fun _ _ _ _ _ _ => false
  formatSource := fun _ _ _ _ => .error .unavailable
  decodeReport := fun _ => none
  standardDiagnostics := fun _ _ _ => none
  sourceCommit := .null
  version := "0.1.0"

private def sampleMoment : Moment := ⟨0, 0, .ok 1⟩

private theorem decode_sample {id : RequestId}
    (hdepth : Driver.DiagnosticSessions.exceedsDepth (samplePayload id) = false)
    (hwire : sampleHost.wireIncoming (samplePayload id) = some (sampleWire id)) :
    decode sampleHost.wireIncoming (samplePayload id)
      = .ok ⟨some id, "initialize", some sampleParams⟩ := by
  unfold decode
  rw [if_neg (Bool.eq_false_iff.mp hdepth), hwire]
  dsimp only [sampleWire]
  rw [if_neg (by decide), decodeId_wire]

private theorem decode_sampleFirst : decode sampleHost.wireIncoming (samplePayload sampleFirst)
    = .ok ⟨some sampleFirst, "initialize", some sampleParams⟩ := by
  refine decode_sample (by decide) ?_
  rw [sampleHost]
  dsimp only
  rw [if_pos rfl]

private theorem decode_sampleSecond : decode sampleHost.wireIncoming (samplePayload sampleSecond)
    = .ok ⟨some sampleSecond, "initialize", some sampleParams⟩ := by
  refine decode_sample (by decide) ?_
  rw [sampleHost]
  dsimp only
  rw [if_neg (by decide), if_pos rfl]

private def sampleInitialized (outstanding : Finset String) : Server Unit Unit Unit Unit :=
  { Server.new () 0 none with
    rootUri := some "file:///w"
    outstanding := outstanding
    initialized := true }

private theorem handleBytes_sampleFirst : ∃ result,
    (Server.new () 0 none).handleBytes sampleHost sampleMoment (samplePayload sampleFirst)
      = ([.tracked (response sampleFirst result) "n:1"], sampleInitialized {"n:1"}) := by
  unfold Server.handleBytes
  rw [decode_sampleFirst]
  exact ⟨_, rfl⟩

private theorem handleBytes_sampleSecond :
    (sampleInitialized ∅).handleBytes sampleHost sampleMoment (samplePayload sampleSecond)
      = ([.tracked invalidRequest "n:2"], sampleInitialized {"n:2"}) := by
  have hlt : (sampleInitialized ∅).outstanding.card < maxOutstandingRequests := by decide
  have hreinitializes : (sampleInitialized ∅).Reinitializes
      ⟨some sampleSecond, "initialize", some sampleParams⟩ := ⟨rfl, rfl, rfl⟩
  rw [Server.handleBytes, decode_sampleSecond]
  exact Server.handleReserved_reinitialize rfl (Finset.notMem_empty sampleSecond.internal) hlt
    hreinitializes

private theorem write_sample (value : Value) (requestId : String) (log : List Event) :
    Step sampleHost ⟨sampleInitialized {requestId}, [.tracked value requestId], log⟩
      (.write 0 sampleMoment) ⟨sampleInitialized ∅, [], log ++ [.written value]⟩ := by
  have hwrite : (sampleInitialized {requestId}).writeOutgoing sampleHost sampleMoment
      (fun _ => true) (.tracked value requestId) = (.ok value, sampleInitialized ∅) := by
    simp [Server.writeOutgoing, Outgoing.tracked, sampleInitialized, Server.emitted]
  exact @Step.write _ _ _ _ _ _ [] [] _ _ _ _ rfl hwrite

/-- The answer to a second `initialize` is written, and its request is answered by no message. -/
theorem answered_once_reinitialized :
    ∃ w, Reachable sampleHost () 0 none w ∧ Event.accepted sampleSecond ∈ w.log
      ∧ w.server.outstanding = ∅ ∧ w.server.waitingIds = [] ∧ w.unwritten = []
      ∧ ∀ value, Event.produced value ∈ w.log → messageId value ≠ some sampleSecond := by
  obtain ⟨result, hfirst⟩ := handleBytes_sampleFirst
  have hne : sampleFirst ≠ sampleSecond := fun heq =>
    absurd (congrArg RequestId.internal heq) (by decide)
  have haccepted : World.accepted sampleHost (.start () 0 none) (samplePayload sampleFirst)
      = some sampleFirst := by
    rw [World.accepted, decode_sampleFirst]
    rfl
  have haccepted' (log : List Event) : World.accepted sampleHost ⟨sampleInitialized ∅, [], log⟩
      (samplePayload sampleSecond) = some sampleSecond := by
    rw [World.accepted, decode_sampleSecond]
    rfl
  set answer := response sampleFirst result
  set log : List Event := [.accepted sampleFirst, .produced answer]
  have hreceived : Step sampleHost (.start () 0 none)
      (.receive (samplePayload sampleFirst) sampleMoment)
      ⟨sampleInitialized {"n:1"}, [.tracked answer "n:1"], log⟩ := by
    have hstep := Step.receive (w := .start () 0 none) hfirst
    rwa [haccepted] at hstep
  have hwritten := write_sample answer "n:1" log
  have hreceived' : Step sampleHost ⟨sampleInitialized ∅, [], log ++ [.written answer]⟩
      (.receive (samplePayload sampleSecond) sampleMoment)
      ⟨sampleInitialized {"n:2"}, [.tracked invalidRequest "n:2"],
        log ++ [.written answer] ++ [.accepted sampleSecond] ++ [.produced invalidRequest]⟩ := by
    have hstep := Step.receive
      (w := ⟨sampleInitialized ∅, [], log ++ [.written answer]⟩) handleBytes_sampleSecond
    rwa [haccepted'] at hstep
  have hwritten' := write_sample invalidRequest "n:2"
    (log ++ [.written answer] ++ [.accepted sampleSecond] ++ [.produced invalidRequest])
  refine ⟨_, (((Relation.ReflTransGen.single ⟨_, hreceived⟩).tail ⟨_, hwritten⟩).tail
    ⟨_, hreceived'⟩).tail ⟨_, hwritten'⟩, ?_, rfl, rfl, rfl, ?_⟩
  · simp
  · intro value hmem
    have hmem : value = answer ∨ value = invalidRequest := by simpa [log] using hmem
    obtain rfl | rfl := hmem
    · exact fun heq => hne (Option.some.inj (messageId_response.symm.trans heq))
    · exact nofun

/-- The first `initialize` of the sample is regular, and outstanding until it is written. -/
theorem answered_once_sample :
    ∃ w : World Unit Unit Unit Unit, "n:1" ∈ w.server.outstanding
      ∧ ∃ phase, Exchanges "n:1" w.log phase ∧ phase ≠ .idle := by
  obtain ⟨result, hfirst⟩ := handleBytes_sampleFirst
  have hregular : (Action.receive (samplePayload sampleFirst) sampleMoment).Regular sampleHost
      (.start () 0 none) := fun _ _ _ h => Bool.false_ne_true h.2.1
  have hreachable : RegularlyReachable sampleHost () 0 none _ :=
    .single ⟨_, hregular, Step.receive (w := .start () 0 none) hfirst⟩
  obtain ⟨hphases, -⟩ := answered_once sampleHost () 0 none _ hreachable
  obtain ⟨phase, hphase, hiff, -⟩ := hphases "n:1"
  have houtstanding : "n:1" ∈ (sampleInitialized {"n:1"}).outstanding := Finset.mem_singleton_self _
  exact ⟨_, houtstanding, phase, hphase, hiff.mp houtstanding⟩

end Zryna.LanguageServer
