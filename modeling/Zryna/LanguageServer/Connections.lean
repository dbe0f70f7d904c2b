import Zryna.LanguageServer.Requests

/-!
# Runs of a connection

A connection under any order of payloads, completions and emissions. The messages that the server
has produced and that are not written yet are kept beside it, and any of them may be written next.

`Accounts` is the invariant of all runs: the reservations are those of the requests that wait and of
those whose answers are not written, each in its phase of the history. It changes in three ways, an
acceptance, an answer and an emission, and every step is made of them.
-/

namespace Zryna.LanguageServer

open List

open Json (Value)

variable {Compiler Root Sources Definitions : Type}

/-! ### Histories -/

/-- What happened on a connection. -/
inductive Event where
  /-- A request arrived whose id was not outstanding, while fewer ids were than may be. -/
  | accepted (id : RequestId)
  | produced (value : Value)
  /-- A message was written and flushed. -/
  | written (value : Value)

/-- The key of the request that an event is about. -/
def Event.key : Event → Option String
  | .accepted id => some id.internal
  | .produced value => (messageId value).map RequestId.internal
  | .written value => (messageId value).map RequestId.internal

/-- Where the request of a key is. -/
inductive Phase where
  | idle
  /-- It arrived and no message answers it. -/
  | waiting (id : RequestId)
  /-- A message that carries its id is produced and not written. -/
  | answered (id : RequestId)

/-- The events of a key are exchanges one after the other, the last one up to a phase: a request
arrives, one message that carries its id is produced, and it is written. -/
inductive Exchanges (key : String) : List Event → Phase → Prop
  | nil : Exchanges key [] .idle
  | accepted {log : List Event} {id : RequestId} (h : Exchanges key log .idle)
    (hid : id.internal = key) : Exchanges key (log ++ [.accepted id]) (.waiting id)
  | produced {log : List Event} {id : RequestId} {value : Value}
    (h : Exchanges key log (.waiting id)) (hvalue : messageId value = some id) :
    Exchanges key (log ++ [.produced value]) (.answered id)
  | written {log : List Event} {id : RequestId} {value : Value}
    (h : Exchanges key log (.answered id)) (hvalue : messageId value = some id) :
    Exchanges key (log ++ [.written value]) .idle
  | other {log : List Event} {phase : Phase} {event : Event} (h : Exchanges key log phase)
    (hkey : event.key ≠ some key) : Exchanges key (log ++ [event]) phase

/-! ### Worlds -/

structure World (Compiler Root Sources Definitions : Type) where
  server : Server Compiler Root Sources Definitions
  unwritten : List Outgoing
  log : List Event

namespace World

def start (compiler : Compiler) (session : ℕ) (sourceRoot : Option Root) :
    World Compiler Root Sources Definitions :=
  ⟨.new compiler session sourceRoot, [], []⟩

variable (host : Host Compiler Root Sources Definitions)
  (w : World Compiler Root Sources Definitions)

/-- The request that a payload is, if its id is not outstanding and fewer ids are than may be. -/
def accepted (bytes : List UInt8) : Option RequestId :=
  match decode host.wireIncoming bytes with
  | .ok message => message.id.filter fun id =>
    id.internal ∉ w.server.outstanding ∧ w.server.outstanding.card < maxOutstandingRequests
  | .error _ => none

/-- The ids that messages carry which are not written yet. -/
def answeredIds : List RequestId :=
  w.unwritten.filterMap fun outgoing => messageId outgoing.value

end World

/-- What is asked of a server. -/
inductive Action where
  | receive (bytes : List UInt8) (moment : Moment)
  | finish (definitions formattings : List Moment)
  /-- The next message to be written, by its place. -/
  | write (place : ℕ) (moment : Moment)

/-- One call of a server; the transport takes all that is written. -/
inductive Step (host : Host Compiler Root Sources Definitions) :
    World Compiler Root Sources Definitions → Action → World Compiler Root Sources Definitions →
    Prop
  | receive {w : World Compiler Root Sources Definitions} {bytes : List UInt8} {moment : Moment}
    {output : List Outgoing} {server : Server Compiler Root Sources Definitions}
    (h : w.server.handleBytes host moment bytes = (output, server)) :
    Step host w (.receive bytes moment) ⟨server, w.unwritten ++ output, w.log
      ++ (w.accepted host bytes).toList.map Event.accepted
      ++ output.map fun outgoing => .produced outgoing.value⟩
  | finish {w : World Compiler Root Sources Definitions} {definitions formattings : List Moment}
    {output : List Outgoing} {server : Server Compiler Root Sources Definitions}
    (h : w.server.finishPending host definitions formattings = (output, server)) :
    Step host w (.finish definitions formattings) ⟨server, w.unwritten ++ output,
      w.log ++ output.map fun outgoing => .produced outgoing.value⟩
  | write {w : World Compiler Root Sources Definitions} {before after : List Outgoing}
    {outgoing : Outgoing} {moment : Moment} {value : Value}
    {server : Server Compiler Root Sources Definitions}
    (hunwritten : w.unwritten = before ++ outgoing :: after)
    (h : w.server.writeOutgoing host moment (fun _ => true) outgoing = (.ok value, server)) :
    Step host w (.write before.length moment) ⟨server, before ++ after, w.log ++ [.written value]⟩

/-- No accepted request would set an initialized server up a second time. -/
def Action.Regular (host : Host Compiler Root Sources Definitions)
    (w : World Compiler Root Sources Definitions) : Action → Prop
  | .receive bytes _ => ∀ message, decode host.wireIncoming bytes = .ok message →
    (w.accepted host bytes).isSome = true → ¬w.server.Reinitializes message
  | _ => True

section

variable (host : Host Compiler Root Sources Definitions) (compiler : Compiler) (session : ℕ)
  (sourceRoot : Option Root) (w : World Compiler Root Sources Definitions)

/-- What any calls lead to from a new server. -/
def Reachable : Prop :=
  Relation.ReflTransGen (fun w w' => ∃ action, Step host w action w')
    (.start compiler session sourceRoot) w

/-- What regular calls lead to from a new server. -/
def RegularlyReachable : Prop :=
  Relation.ReflTransGen (fun w w' => ∃ action, action.Regular host w ∧ Step host w action w')
    (.start compiler session sourceRoot) w

end

/-! ### Accounts -/

/-- The reservations are those of the requests that wait and of those whose answers are not written,
and every request is in its phase of the history. -/
structure Accounts (outstanding : Finset String) (waiting answered : List RequestId)
    (log : List Event) : Prop where
  nodup : ((waiting ++ answered).map RequestId.internal).Nodup
  reserved : ∀ key, key ∈ outstanding ↔ key ∈ (waiting ++ answered).map RequestId.internal
  waits : ∀ id ∈ waiting, Exchanges id.internal log (.waiting id)
  answers : ∀ id ∈ answered, Exchanges id.internal log (.answered id)
  idle : ∀ key ∉ outstanding, Exchanges key log .idle

namespace Accounts

variable {outstanding : Finset String} {waiting waiting' answered before after : List RequestId}
  {log : List Event} {id : RequestId} {value : Value}

theorem start : Accounts ∅ [] [] [] where
  nodup := .nil
  reserved := fun _ => iff_of_false (Finset.notMem_empty _) not_mem_nil
  waits := nofun
  answers := nofun
  idle := fun _ _ => .nil

section

variable (h : Accounts outstanding waiting answered log)

include h

theorem perm (hperm : waiting.Perm waiting') : Accounts outstanding waiting' answered log where
  nodup := ((hperm.append_right _).map _).nodup_iff.mp h.nodup
  reserved := fun key =>
    (h.reserved key).trans ((hperm.append_right _).map _).mem_iff
  waits := fun id hmem => h.waits id (hperm.mem_iff.mpr hmem)
  answers := h.answers
  idle := h.idle

/-- An event that is about no request. -/
theorem quiet {event : Event}
    (hkey : event.key = none) : Accounts outstanding waiting answered (log ++ [event]) := by
  have hother {key : String} {phase : Phase} (hphase : Exchanges key log phase) :
      Exchanges key (log ++ [event]) phase := hphase.other (by simp [hkey])
  exact ⟨h.nodup, h.reserved, fun id hmem => hother (h.waits id hmem),
    fun id hmem => hother (h.answers id hmem), fun key hkey => hother (h.idle key hkey)⟩

theorem quiet_all {values : List Value} (hvalues : ∀ value ∈ values, messageId value = none) :
    Accounts outstanding waiting answered (log ++ values.map Event.produced) := by
  induction values generalizing log with
  | nil => simpa using h
  | cons value values ih =>
    obtain ⟨hvalue, hvalues⟩ := forall_mem_cons.mp hvalues
    have hkey : (Event.produced value).key = none := by simp [Event.key, hvalue]
    have hnext := ih (h.quiet hkey) hvalues
    rwa [append_assoc] at hnext

theorem accept (hnew : id.internal ∉ outstanding) :
    Accounts (insert id.internal outstanding) (id :: waiting) answered (log ++ [.accepted id]) := by
  have hfresh : id.internal ∉ (waiting ++ answered).map RequestId.internal :=
    fun hmem => hnew ((h.reserved _).mpr hmem)
  have hother {key : String} {phase : Phase} (hphase : Exchanges key log phase)
      (hne : key ≠ id.internal) : Exchanges key (log ++ [.accepted id]) phase :=
    hphase.other fun heq => hne (Option.some.inj heq).symm
  have hne {id' : RequestId} (hmem : id' ∈ waiting ++ answered) : id'.internal ≠ id.internal :=
    fun heq => hfresh (heq ▸ mem_map_of_mem hmem)
  refine ⟨nodup_cons.mpr ⟨hfresh, h.nodup⟩, ?_, ?_, ?_, ?_⟩
  · intro key
    rw [Finset.mem_insert, h.reserved, cons_append, map_cons, mem_cons]
  · intro id' hmem
    obtain rfl | hmem := mem_cons.mp hmem
    · exact .accepted (h.idle _ hnew) rfl
    · exact hother (h.waits id' hmem) (hne (mem_append_left _ hmem))
  · intro id' hmem
    exact hother (h.answers id' hmem) (hne (mem_append_right _ hmem))
  · intro key hkey
    obtain ⟨hkey, hkey'⟩ := not_or.mp (fun hor => hkey (Finset.mem_insert.mpr hor))
    exact hother (h.idle key hkey') hkey

end

theorem answer (h : Accounts outstanding (id :: waiting) answered log)
    (hvalue : messageId value = some id) :
    Accounts outstanding waiting (answered ++ [id]) (log ++ [.produced value]) := by
  have hperm : (id :: waiting ++ answered).Perm (waiting ++ (answered ++ [id])) := by
    rw [← append_assoc]
    exact (perm_append_singleton _ _).symm
  obtain ⟨hfresh, -⟩ := nodup_cons.mp h.nodup
  have hother {key : String} {phase : Phase} (hphase : Exchanges key log phase)
      (hne : key ≠ id.internal) : Exchanges key (log ++ [.produced value]) phase := by
    refine hphase.other fun heq => hne ?_
    rw [Event.key, hvalue] at heq
    exact (Option.some.inj heq).symm
  have hne {id' : RequestId} (hmem : id' ∈ waiting ++ answered) : id'.internal ≠ id.internal :=
    fun heq => hfresh (heq ▸ mem_map_of_mem hmem)
  refine ⟨(hperm.map _).nodup_iff.mp h.nodup,
    fun key => (h.reserved key).trans (hperm.map _).mem_iff, ?_, ?_, ?_⟩
  · intro id' hmem
    exact hother (h.waits id' (mem_cons_of_mem _ hmem)) (hne (mem_append_left _ hmem))
  · intro id' hmem
    obtain hmem | hmem := mem_append.mp hmem
    · exact hother (h.answers id' hmem) (hne (mem_append_right _ hmem))
    · obtain rfl := mem_singleton.mp hmem
      exact .produced (h.waits id' mem_cons_self) hvalue
  · intro key hkey
    refine hother (h.idle key hkey) fun heq => hkey ?_
    rw [heq, h.reserved]
    exact mem_cons_self

/-- All requests that wait are answered in their order. -/
theorem answer_all (h : Accounts outstanding waiting answered log) {values : List Value}
    (hvalues : values.map messageId = waiting.map some) :
    Accounts outstanding [] (answered ++ waiting) (log ++ values.map Event.produced) := by
  induction waiting generalizing answered log values with
  | nil =>
    obtain rfl := map_eq_nil_iff.mp hvalues
    simpa using h
  | cons id waiting ih =>
    obtain ⟨value, values, rfl, hvalue, hvalues⟩ := map_eq_cons_iff.mp hvalues
    have hnext := ih (h.answer hvalue) hvalues
    rwa [append_assoc, append_assoc] at hnext

/-- An answer is written. -/
theorem emit (h : Accounts outstanding waiting (before ++ id :: after) log)
    (hvalue : messageId value = some id) :
    Accounts (outstanding.erase id.internal) waiting (before ++ after)
      (log ++ [.written value]) := by
  have hperm : (waiting ++ (before ++ id :: after)).Perm (id :: (waiting ++ (before ++ after))) := by
    rw [← append_assoc, ← append_assoc]
    exact perm_middle
  obtain ⟨hfresh, hnodup⟩ := nodup_cons.mp ((hperm.map _).nodup_iff.mp h.nodup)
  have hother {key : String} {phase : Phase} (hphase : Exchanges key log phase)
      (hne : key ≠ id.internal) : Exchanges key (log ++ [.written value]) phase := by
    refine hphase.other fun heq => hne ?_
    rw [Event.key, hvalue] at heq
    exact (Option.some.inj heq).symm
  have hne {id' : RequestId} (hmem : id' ∈ waiting ++ (before ++ after)) :
      id'.internal ≠ id.internal :=
    fun heq => hfresh (heq ▸ mem_map_of_mem hmem)
  refine ⟨hnodup, ?_, ?_, ?_, ?_⟩
  · intro key
    rw [Finset.mem_erase, h.reserved, (hperm.map _).mem_iff, map_cons, mem_cons]
    constructor
    · rintro ⟨hkey, hor⟩
      exact hor.resolve_left hkey
    · intro hmem
      exact ⟨fun heq => hfresh (heq ▸ hmem), .inr hmem⟩
  · intro id' hmem
    exact hother (h.waits id' hmem) (hne (mem_append_left _ hmem))
  · intro id' hmem
    have hmem' : id' ∈ before ++ id :: after := by
      simp only [mem_append, mem_cons] at hmem ⊢
      tauto
    exact hother (h.answers id' hmem') (hne (mem_append_right _ hmem))
  · intro key hkey
    by_cases heq : key = id.internal
    · subst heq
      exact .written (h.answers id (mem_append_right _ mem_cons_self)) hvalue
    · exact hother (h.idle key fun hmem => hkey (Finset.mem_erase.mpr ⟨heq, hmem⟩)) heq

/-- The phase of a key, from the requests that wait and those whose answers are not written. -/
theorem phase (h : Accounts outstanding waiting answered log) (key : String) :
    ∃ phase, Exchanges key log phase
      ∧ (key ∈ outstanding ↔ phase ≠ .idle)
      ∧ (∀ id, phase = .waiting id ↔ id ∈ waiting ∧ id.internal = key)
      ∧ ∀ id, phase = .answered id ↔ id ∈ answered ∧ id.internal = key := by
  have hinj {id id' : RequestId} (hmem : id ∈ waiting ++ answered)
      (hmem' : id' ∈ waiting ++ answered) (heq : id.internal = id'.internal) : id = id' :=
    inj_on_of_nodup_map h.nodup hmem hmem' heq
  have hapart {id : RequestId} (hmem : id ∈ waiting) (hmem' : id ∈ answered) : False :=
    (nodup_append.mp h.nodup.of_map).2.2 id hmem id hmem' rfl
  by_cases hkey : key ∈ outstanding
  · obtain ⟨id, hmem, rfl⟩ := mem_map.mp ((h.reserved key).mp hkey)
    obtain hwaits | hanswered := mem_append.mp hmem
    · refine ⟨.waiting id, h.waits id hwaits, iff_of_true hkey nofun, fun id' => ?_, fun id' => ?_⟩
      · constructor
        · rintro ⟨⟩
          exact ⟨hwaits, rfl⟩
        · rintro ⟨hmem', heq⟩
          rw [hinj hmem (mem_append_left _ hmem') heq.symm]
      · refine iff_of_false nofun ?_
        rintro ⟨hmem', heq⟩
        exact hapart (hinj hmem (mem_append_right _ hmem') heq.symm ▸ hwaits) hmem'
    · refine ⟨.answered id, h.answers id hanswered, iff_of_true hkey nofun, fun id' => ?_,
        fun id' => ?_⟩
      · refine iff_of_false nofun ?_
        rintro ⟨hmem', heq⟩
        exact hapart hmem' (hinj hmem (mem_append_left _ hmem') heq.symm ▸ hanswered)
      · constructor
        · rintro ⟨⟩
          exact ⟨hanswered, rfl⟩
        · rintro ⟨hmem', heq⟩
          rw [hinj hmem (mem_append_right _ hmem') heq.symm]
  · have hnone {id : RequestId} (hmem : id ∈ waiting ++ answered) : id.internal ≠ key :=
      fun heq => hkey ((h.reserved key).mpr (heq ▸ mem_map_of_mem hmem))
    refine ⟨.idle, h.idle key hkey, iff_of_false hkey (not_not.mpr rfl), fun id => ?_, fun id => ?_⟩
    · exact iff_of_false nofun fun hmem => hnone (mem_append_left _ hmem.1) hmem.2
    · exact iff_of_false nofun fun hmem => hnone (mem_append_right _ hmem.1) hmem.2

end Accounts

/-! ### Steps -/

/-- What holds of a connection in every run. -/
structure World.Inv (w : World Compiler Root Sources Definitions) : Prop where
  accounts : Accounts w.server.outstanding w.server.waitingIds w.answeredIds w.log
  keyed : ∀ outgoing ∈ w.unwritten,
    outgoing.completion = (messageId outgoing.value).map RequestId.internal
  waiting_le : w.server.waiting ≤ maxPending
  outstanding_le : w.server.outstanding.card ≤ maxOutstandingRequests

namespace Server

variable {host : Host Compiler Root Sources Definitions}
  {self : Server Compiler Root Sources Definitions} {moment : Moment}

theorem finishDefinitions_spec (queries : List (PendingDefinition Sources)) (moments : List Moment)
    (hpending : self.pending = queries) {output : List Outgoing}
    {server : Server Compiler Root Sources Definitions}
    (h : finishDefinitions host queries moments self = (output, server)) :
    output.map (fun outgoing => messageId outgoing.value)
        = (queries.map PendingDefinition.id).map some
      ∧ (∀ outgoing ∈ output,
        outgoing.completion = (messageId outgoing.value).map RequestId.internal)
      ∧ server.pending = [] ∧ server.pendingFormatting = self.pendingFormatting
      ∧ server.outstanding = self.outstanding := by
  induction queries generalizing self moments output server with
  | nil =>
    cases h
    exact ⟨rfl, nofun, hpending, rfl, rfl⟩
  | cons query queries ih =>
    cases h
    obtain ⟨hids, hkeyed, hpending, hformatting, houtstanding⟩ := @ih { self with
      session := (self.session.finish host.authority query.query
        ((moments.head?.map Moment.now).getD 0)).2
      pending := queries } moments.tail rfl _ _ rfl
    refine ⟨?_, forall_mem_cons.mpr ⟨?_, hkeyed⟩, hpending, hformatting, houtstanding⟩
    · exact congrArg₂ List.cons (messageId_definitionResponse _ _ _ _) hids
    · exact (congrArg (Option.map RequestId.internal)
        (messageId_definitionResponse _ _ _ _)).symm

theorem finishFormatting_spec (queries : List PendingFormatting) (moments : List Moment)
    (hpending : self.pendingFormatting = queries) {output : List Outgoing}
    {server : Server Compiler Root Sources Definitions}
    (h : finishFormatting host queries moments self = (output, server)) :
    output.map (fun outgoing => messageId outgoing.value)
        = (queries.map PendingFormatting.id).map some
      ∧ (∀ outgoing ∈ output,
        outgoing.completion = (messageId outgoing.value).map RequestId.internal)
      ∧ server.pendingFormatting = [] ∧ server.pending = self.pending
      ∧ server.outstanding = self.outstanding := by
  induction queries generalizing self moments output server with
  | nil =>
    cases h
    exact ⟨rfl, nofun, hpending, rfl, rfl⟩
  | cons query queries ih =>
    cases h
    obtain ⟨hids, hkeyed, hpending, hdefinitions, houtstanding⟩ :=
      @ih { self with pendingFormatting := queries } moments.tail rfl _ _ rfl
    refine ⟨?_, forall_mem_cons.mpr ⟨?_, hkeyed⟩, hpending, hdefinitions, houtstanding⟩
    · exact congrArg₂ List.cons (messageId_formattingResponse _) hids
    · exact (congrArg (Option.map RequestId.internal) (messageId_formattingResponse _)).symm

/-- A completion answers every query that waits, in their order, and nothing waits after it. -/
theorem finishPending_spec {definitions formattings : List Moment} {output : List Outgoing}
    {server : Server Compiler Root Sources Definitions}
    (h : self.finishPending host definitions formattings = (output, server)) :
    output.map (fun outgoing => messageId outgoing.value) = self.waitingIds.map some
      ∧ (∀ outgoing ∈ output,
        outgoing.completion = (messageId outgoing.value).map RequestId.internal)
      ∧ server.waitingIds = [] ∧ server.outstanding = self.outstanding := by
  cases h
  obtain ⟨hids, hkeyed, hpending, hformatting, houtstanding⟩ :=
    finishDefinitions_spec self.pending definitions rfl (rfl : finishDefinitions host _ _ _ = _)
  obtain ⟨hids', hkeyed', hformatting', hpending', houtstanding'⟩ :=
    finishFormatting_spec _ formattings rfl (rfl : finishFormatting host _ _
      (finishDefinitions host self.pending definitions self).2 = _)
  refine ⟨?_, ?_, ?_, houtstanding'.trans houtstanding⟩
  · rw [map_append, hids, hids', hformatting, waitingIds, map_append]
  · intro outgoing hmem
    obtain hmem | hmem := mem_append.mp hmem
    · exact hkeyed outgoing hmem
    · exact hkeyed' outgoing hmem
  · rw [waitingIds, hformatting', hpending', hpending]
    rfl

end Server

end Zryna.LanguageServer
