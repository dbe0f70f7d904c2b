import Mathlib.Data.List.Nodup
import Zryna.Driver.DiagnosticSessions.Sessions

/-!
# Interleavings of a session

A session under any order of admissions, beginnings, cancellations and completions. A `World` keeps
the queries that have begun and not finished, and a log of what happened to each of them; a query is
told by the address of its state cell, which no other query has.

`Inv` is the invariant of all runs. Its core is `slots`: the slots in flight are those of the begun,
unfinished, uncancelled and unexpired queries of the active revision. The cells agree with the log,
and a retained revision is told by its address as well as by its description.
-/

namespace Zryna.Driver.DiagnosticSessions

open OrderedMap List

variable {Sources Definitions : Type}

/-! ### Worlds -/

/-- What happened in a session. -/
inductive Event where
  | admitted (revision : DiagnosticRevision)
  /-- A query began, with the revision that was active then. -/
  | begun (query : PendingQuery) (active : Option DiagnosticRevision)
  | cancelled (requestId : String) (slot : RequestSlot)
  | expired (requestId : String) (slot : RequestSlot)
  | finished (query : PendingQuery) (response : DiagnosticQueryResponse)

structure World (Sources Definitions : Type) where
  session : DiagnosticSession Sources Definitions
  pending : List PendingQuery
  log : List Event

namespace World

/-- A fresh session. -/
def initial (session : ℕ) : World Sources Definitions := ⟨.new session, [], []⟩

/-- The deadlines that a request with these bytes finds expired. -/
def expirations (w : World Sources Definitions) (reader : RequestReader) (bytes : List UInt8)
    (now : ℕ) : List Event :=
  match decode reader bytes with
  | .error _ => []
  | .ok _ => (w.session.expiredSlots now).map fun entry => .expired entry.1 entry.2

variable (w : World Sources Definitions) (query : PendingQuery)

def Cancelled : Prop :=
  ∃ requestId slot, Event.cancelled requestId slot ∈ w.log ∧ slot.state = query.state

def Expired : Prop :=
  ∃ requestId slot, Event.expired requestId slot ∈ w.log ∧ slot.state = query.state

def Unfinished : Prop :=
  (∃ active, Event.begun query active ∈ w.log) ∧ ∀ response, Event.finished query response ∉ w.log

/-- The query has begun, is unfinished, uncancelled and unexpired, and is one of the active
revision. -/
structure InFlight : Prop where
  unfinished : w.Unfinished query
  uncancelled : ¬w.Cancelled query
  unexpired : ¬w.Expired query
  active : w.session.activeRevision = some query.revision

end World

section Step

variable (authority : Authority Sources Definitions) (reader : RequestReader) (latest : ℕ)

/-- One operation on the session. -/
inductive Step : World Sources Definitions → World Sources Definitions → Prop
  | admission {w : World Sources Definitions} {sources : Sources} {report : Option String}
    {definitions : Option Definitions} {formattingBytes : ℕ} {revision : DiagnosticRevision}
    {session : DiagnosticSession Sources Definitions}
    (h : w.session.admission authority sources report definitions formattingBytes
      = .ok (revision, session)) :
    Step w ⟨session, w.pending, w.log ++ [.admitted revision]⟩
  | beginDiagnostics {w : World Sources Definitions} {bytes : List UInt8} {now : ℕ}
    {query : PendingQuery} {session : DiagnosticSession Sources Definitions}
    (h : w.session.beginDiagnostics authority reader latest bytes now = (.ok query, session)) :
    Step w ⟨session, w.pending ++ [query],
      w.log ++ w.expirations reader bytes now ++ [.begun query w.session.activeRevision]⟩
  | beginDefinition {w : World Sources Definitions} {bytes : List UInt8} {now : ℕ}
    {query : PendingQuery} {session : DiagnosticSession Sources Definitions}
    (h : w.session.beginDefinition authority reader latest bytes now = (.ok query, session)) :
    Step w ⟨session, w.pending ++ [query],
      w.log ++ w.expirations reader bytes now ++ [.begun query w.session.activeRevision]⟩
  | refuseDiagnostics {w : World Sources Definitions} {bytes : List UInt8} {now : ℕ}
    {response : DiagnosticQueryResponse} {session : DiagnosticSession Sources Definitions}
    (h : w.session.beginDiagnostics authority reader latest bytes now
      = (.error response, session)) :
    Step w ⟨session, w.pending, w.log ++ w.expirations reader bytes now⟩
  | refuseDefinition {w : World Sources Definitions} {bytes : List UInt8} {now : ℕ}
    {response : DiagnosticQueryResponse} {session : DiagnosticSession Sources Definitions}
    (h : w.session.beginDefinition authority reader latest bytes now = (.error response, session)) :
    Step w ⟨session, w.pending, w.log ++ w.expirations reader bytes now⟩
  | cancel {w : World Sources Definitions} {requestId : String} {slot : RequestSlot}
    (h : w.session.inFlight.get? requestId = some slot) :
    Step w ⟨(w.session.cancel requestId).2, w.pending, w.log ++ [.cancelled requestId slot]⟩
  | finish {w : World Sources Definitions} {query : PendingQuery} (now : ℕ)
    (h : query ∈ w.pending) :
    Step w ⟨(w.session.finish authority query now).2, w.pending.erase query,
      w.log ++ [.finished query (w.session.finish authority query now).1]⟩

/-- What any order of operations on a fresh session leads to. -/
def Reachable (session : ℕ) (w : World Sources Definitions) : Prop :=
  Relation.ReflTransGen (Step authority reader latest) (.initial session) w

end Step

/-! ### What the operations do -/

namespace DiagnosticSession

variable {authority : Authority Sources Definitions} {reader : RequestReader} {latest : ℕ}
  {self session : DiagnosticSession Sources Definitions}

theorem evict_suffix {retained retained' : List (RevisionRecord Sources Definitions)}
    {projected projected' : ℕ} (h : evict retained projected = .ok (retained', projected')) :
    retained' <:+ retained := by
  induction retained generalizing projected with
  | nil =>
    unfold evict at h
    rw [Checked.ite_error_eq_ok] at h
    cases h.2
    exact suffix_rfl
  | cons record retained ih =>
    unfold evict at h
    split at h
    · rw [Checked.ite_error_eq_ok] at h
      exact (ih h.2).trans (suffix_cons ..)
    · cases h
      exact suffix_rfl

/-- An admission keeps a suffix of the revisions, adds a new one and empties the slots. -/
theorem admission_eq_ok {sources : Sources} {report : Option String}
    {definitions : Option Definitions} {formattingBytes : ℕ} {revision : DiagnosticRevision}
    (h : self.admission authority sources report definitions formattingBytes
      = .ok (revision, session)) :
    ∃ retained record projected, retained <:+ self.retained ∧ record.address = self.nextAddress
      ∧ record.description.handle.serial = self.nextRevision
      ∧ session = { self with
        nextRevision := self.nextRevision + 1
        retained := retained ++ [record]
        cacheBytes := projected
        inFlight := .empty
        nextAddress := self.nextAddress + 1 } := by
  unfold admission at h
  simp only [Checked.bind_eq_ok, Checked.ite_error_bind_eq_ok, Except.ok.injEq,
    Prod.mk.injEq] at h
  obtain ⟨-, ⟨fingerprint, sourceBytes⟩, -, semanticBytes, -, cacheBytes, -, -,
    ⟨retained, projected⟩, hevict, -, rfl⟩ := h
  exact ⟨retained, _, projected, evict_suffix hevict, rfl, rfl, rfl⟩

variable {now : ℕ} {requestId : String} {slot : RequestSlot}

/-- A request that does not decode changes nothing; one that does expires deadlines first, and then
begins a query of the active revision, or changes nothing else. -/
theorem begin_cases {method : String} {kindOf : ParsedRequest → RevisionRecord Sources Definitions →
      Except (QueryStatus × QueryReason) QueryKind} {bytes : List UInt8}
    {result : Except DiagnosticQueryResponse PendingQuery}
    (h : self.begin authority reader latest method kindOf bytes now = (result, session)) :
    (∃ response error, result = .error response ∧ decode reader bytes = .error error
        ∧ session = self)
    ∨ ∃ request, decode reader bytes = .ok request ∧
      ((∃ response, result = .error response ∧ session = self.expireDeadlines now)
      ∨ ∃ record kind, self.active = some record
        ∧ (self.expireDeadlines now).inFlight.get? request.correlation.requestId = none
        ∧ (self.expireDeadlines now).inFlight.size < maxInFlightRequests
        ∧ result = .ok ⟨self.session, request.correlation, record.description, record.address,
          authority.identity record.sources, kind, request.workLimit, deadlineOf latest now,
          self.nextCell⟩
        ∧ session = { self.expireDeadlines now with
          inFlight := (self.expireDeadlines now).inFlight.insert request.correlation.requestId
            ⟨self.nextCell, deadlineOf latest now⟩
          cells := Function.update (self.expireDeadlines now).cells self.nextCell .live
          nextCell := self.nextCell + 1 }) := by
  unfold begin at h
  split at h
  · next error hdecode =>
    cases h
    exact .inl ⟨_, error, rfl, hdecode, rfl⟩
  · next request hdecode =>
    refine .inr ⟨request, hdecode, ?_⟩
    dsimp only at h
    split at h
    · cases h
      exact .inl ⟨_, rfl, rfl⟩
    next hnone =>
    split at h
    · cases h
      exact .inl ⟨_, rfl, rfl⟩
    split at h
    · cases h
      exact .inl ⟨_, rfl, rfl⟩
    next record hactive =>
    split at h
    · cases h
      exact .inl ⟨_, rfl, rfl⟩
    split at h
    · cases h
      exact .inl ⟨_, rfl, rfl⟩
    split at h
    · cases h
      exact .inl ⟨_, rfl, rfl⟩
    next kind _ =>
    split at h
    · cases h
      exact .inl ⟨_, rfl, rfl⟩
    next hsize =>
    cases h
    exact .inr ⟨record, kind, hactive, Option.not_isSome_iff_eq_none.mp hnone, Nat.not_le.mp hsize,
      rfl, rfl⟩

theorem get?_expireDeadlines :
    (self.expireDeadlines now).inFlight.get? requestId = some slot ↔
      self.inFlight.get? requestId = some slot ∧ now < slot.deadline := by
  rw [get?_eq_some, get?_eq_some]
  show (requestId, slot) ∈ self.inFlight.entries.filter _ ↔ _
  rw [mem_filter, decide_eq_true_eq]

theorem size_expireDeadlines (now : ℕ) :
    (self.expireDeadlines now).inFlight.size ≤ self.inFlight.size :=
  length_filter_le ..

theorem compareExchange_apply (cells : ℕ → CellState) (address a : ℕ) (state : CellState) :
    compareExchange cells address state a
      = if a = address ∧ cells a = .live then state else cells a := by
  unfold compareExchange
  by_cases ha : a = address
  · subst ha
    split <;> simp [*]
  · split <;> simp [ha]

theorem cells_foldl (entries : List (String × RequestSlot)) (cells : ℕ → CellState) (a : ℕ) :
    entries.foldl (fun cells entry => compareExchange cells entry.2.state .timedOut) cells a
      = if (∃ entry ∈ entries, entry.2.state = a) ∧ cells a = .live then .timedOut
        else cells a := by
  induction entries generalizing cells with
  | nil => simp
  | cons entry entries ih =>
    rw [foldl_cons, ih, compareExchange_apply]
    by_cases ha : a = entry.2.state
    · subst ha
      by_cases hlive : cells entry.2.state = .live <;> simp [hlive]
    · have hexists : (∃ e ∈ entry :: entries, e.2.state = a) ↔ ∃ e ∈ entries, e.2.state = a := by
        rw [exists_mem_cons_iff, or_iff_right (Ne.symm ha)]
      simp only [hexists, ha, false_and, if_false]

theorem mem_expiredSlots :
    (requestId, slot) ∈ self.expiredSlots now ↔
      self.inFlight.get? requestId = some slot ∧ slot.deadline ≤ now := by
  rw [expiredSlots, mem_filter, get?_eq_some, decide_eq_true_eq, Nat.not_lt]

theorem cells_expireDeadlines (now a : ℕ) : (self.expireDeadlines now).cells a
    = if (∃ entry ∈ self.expiredSlots now, entry.2.state = a) ∧ self.cells a = .live then .timedOut
      else self.cells a :=
  cells_foldl ..

theorem cancel_eq (h : self.inFlight.get? requestId = some slot) : (self.cancel requestId).2
      = { self with
        inFlight := self.inFlight.erase requestId
        cells := compareExchange self.cells slot.state .cancelled } := by
  unfold cancel
  rw [h]

variable (query : PendingQuery)

/-- A completion releases the slot of its query and does nothing else to the session. -/
theorem finish_session (now : ℕ) : (self.finish authority query now).2 = self.release query := by
  unfold finish
  dsimp only
  split
  · rfl
  split
  · rfl
  split
  · rfl
  split
  · rfl
  split <;> rfl

theorem get?_release {query : PendingQuery} :
    (self.release query).inFlight.get? requestId = some slot ↔
      self.inFlight.get? requestId = some slot
        ∧ ¬(requestId = query.correlation.requestId ∧ slot.state = query.state) := by
  unfold release
  split
  · next h =>
    obtain ⟨held, hheld, hstate⟩ := (Option.any_eq_true ..).mp h
    rw [decide_eq_true_eq] at hstate
    show (self.inFlight.erase query.correlation.requestId).get? requestId = some slot ↔ _
    rw [get?_erase]
    by_cases hid : requestId = query.correlation.requestId
    · subst hid
      simp only [if_true, reduceCtorEq, true_and, false_iff, not_and, not_not]
      intro hslot
      rw [hheld] at hslot
      exact Option.some.inj hslot ▸ hstate
    · simp [hid]
  · next h =>
    constructor
    · intro hslot
      refine ⟨hslot, ?_⟩
      rintro ⟨rfl, hstate⟩
      refine h ((Option.any_eq_true ..).mpr ⟨slot, hslot, ?_⟩)
      rwa [decide_eq_true_eq]
    · exact And.left

theorem size_release_le : (self.release query).inFlight.size ≤ self.inFlight.size := by
  unfold release
  split
  · exact length_filter_le ..
  · exact Nat.le_refl _

@[simp] theorem release_retained :
    (self.release query).retained = self.retained := by
  unfold release
  split <;> rfl

@[simp] theorem release_nextRevision :
    (self.release query).nextRevision = self.nextRevision := by
  unfold release
  split <;> rfl

@[simp] theorem release_nextAddress :
    (self.release query).nextAddress = self.nextAddress := by
  unfold release
  split <;> rfl

@[simp] theorem release_nextCell :
    (self.release query).nextCell = self.nextCell := by
  unfold release
  split <;> rfl

theorem active_release : (self.release query).active = self.active := by
  unfold active
  rw [release_retained]

theorem activeRevision_release : (self.release query).activeRevision = self.activeRevision := by
  unfold activeRevision
  rw [active_release]

@[simp] theorem release_cells :
    (self.release query).cells = self.cells := by
  unfold release
  split <;> rfl

end DiagnosticSession

/-! ### The invariant -/

namespace World

variable {w : World Sources Definitions} {query : PendingQuery}
  {session : DiagnosticSession Sources Definitions} {pending : List PendingQuery}
  {events : List Event}

/-- Events that are neither a beginning nor a completion. -/
def Quiet (events : List Event) : Prop :=
  ∀ event ∈ events, (∀ query active, event ≠ .begun query active)
    ∧ ∀ query response, event ≠ .finished query response

theorem Quiet.begun (h : Quiet events) {active : Option DiagnosticRevision} :
    Event.begun query active ∈ w.log ++ events ↔ Event.begun query active ∈ w.log := by
  rw [mem_append, or_iff_left fun hmem => (h _ hmem).1 _ _ rfl]

theorem Quiet.finished (h : Quiet events) {response : DiagnosticQueryResponse} :
    Event.finished query response ∈ w.log ++ events ↔ Event.finished query response ∈ w.log := by
  rw [mem_append, or_iff_left fun hmem => (h _ hmem).2 _ _ rfl]

theorem Quiet.unfinished (h : Quiet events) :
    Unfinished ⟨session, pending, w.log ++ events⟩ query ↔ w.Unfinished query := by
  simp only [Unfinished, h.begun, h.finished]

/-- Events that mark no slot. -/
def Unmarked (events : List Event) : Prop :=
  ∀ requestId slot, Event.cancelled requestId slot ∉ events
    ∧ Event.expired requestId slot ∉ events

theorem Unmarked.cancelled (h : Unmarked events) :
    Cancelled ⟨session, pending, w.log ++ events⟩ query ↔ w.Cancelled query := by
  simp only [Cancelled, mem_append, (h _ _).1, or_false]

theorem Unmarked.expired (h : Unmarked events) :
    Expired ⟨session, pending, w.log ++ events⟩ query ↔ w.Expired query := by
  simp only [Expired, mem_append, (h _ _).2, or_false]

theorem cancelled_append : Cancelled ⟨session, pending, w.log ++ events⟩ query ↔
    w.Cancelled query ∨ Cancelled ⟨session, pending, events⟩ query := by
  unfold Cancelled
  simp only [mem_append, or_and_right, exists_or]

theorem expired_append : Expired ⟨session, pending, w.log ++ events⟩ query ↔
    w.Expired query ∨ Expired ⟨session, pending, events⟩ query := by
  unfold Expired
  simp only [mem_append, or_and_right, exists_or]

end World

/-- What holds in every world that a session reaches. -/
structure Inv (w : World Sources Definitions) : Prop where
  records : w.session.retained.Pairwise fun earlier later => earlier.address < later.address
    ∧ earlier.description.handle.serial < later.description.handle.serial
  records_fresh : ∀ record ∈ w.session.retained, record.address < w.session.nextAddress
    ∧ record.description.handle.serial < w.session.nextRevision
  logged : ∀ query, (∃ active, Event.begun query active ∈ w.log)
    ∨ (∃ response, Event.finished query response ∈ w.log) → query.state < w.session.nextCell
  marked : ∀ requestId slot, Event.cancelled requestId slot ∈ w.log
    ∨ Event.expired requestId slot ∈ w.log → slot.state < w.session.nextCell
  begun : ∀ query active, Event.begun query active ∈ w.log → active = some query.revision
    ∧ query.record < w.session.nextAddress
    ∧ query.revision.handle.serial < w.session.nextRevision
  record_iff : ∀ query active, Event.begun query active ∈ w.log →
    ∀ record ∈ w.session.retained, record.address = query.record
      ↔ record.description = query.revision
  nodup : (w.pending.map PendingQuery.state).Nodup
  unfinished : ∀ query, query ∈ w.pending ↔ w.Unfinished query
  slots : ∀ requestId slot, w.session.inFlight.get? requestId = some slot ↔
    ∃ query, w.InFlight query ∧ query.correlation.requestId = requestId
      ∧ slot = ⟨query.state, query.deadline⟩
  live : ∀ query, w.Unfinished query → ¬w.Cancelled query → ¬w.Expired query →
    w.session.cells query.state = .live
  cancelled : ∀ query, w.Unfinished query → w.Cancelled query →
    w.session.cells query.state = .cancelled
  expired : ∀ query, w.Unfinished query → w.Expired query →
    w.session.cells query.state = .timedOut
  size_le : w.session.inFlight.size ≤ maxInFlightRequests

namespace Inv

open DiagnosticSession

variable {authority : Authority Sources Definitions} {reader : RequestReader} {latest : ℕ}
  {w : World Sources Definitions}

theorem initial (session : ℕ) : Inv (World.initial session : World Sources Definitions) where
  records := .nil
  records_fresh := nofun
  logged := by simp [World.initial]
  marked := by simp [World.initial]
  begun := nofun
  record_iff := nofun
  nodup := .nil
  unfinished := by simp [World.initial, World.Unfinished]
  slots := by
    intro requestId slot
    constructor
    · exact nofun
    · rintro ⟨query, ⟨⟨⟨_, hbegun⟩, -⟩, -⟩, -⟩
      cases hbegun
  live := fun _ ⟨⟨_, h⟩, _⟩ => nomatch h
  cancelled := fun _ ⟨⟨_, h⟩, _⟩ => nomatch h
  expired := fun _ ⟨⟨_, h⟩, _⟩ => nomatch h
  size_le := Nat.zero_le _

/-- Begun and unfinished queries are told by their cells. -/
theorem eq_of_state (h : Inv w) {query query' : PendingQuery} (hq : w.Unfinished query)
    (hq' : w.Unfinished query') (heq : query.state = query'.state) : query = query' :=
  inj_on_of_nodup_map h.nodup ((h.unfinished query).mpr hq) ((h.unfinished query').mpr hq') heq

variable {r r' : RevisionRecord Sources Definitions}
  {session : DiagnosticSession Sources Definitions} {requestId : String} {slot : RequestSlot}

section

variable (h : Inv w)

include h

theorem eq_of_address
    (hr : r ∈ w.session.retained) (hr' : r' ∈ w.session.retained) (heq : r.address = r'.address) :
    r = r' := by
  have hnodup : (w.session.retained.map RevisionRecord.address).Nodup :=
    pairwise_map.mpr (h.records.imp fun hlt => hlt.1.ne)
  exact inj_on_of_nodup_map hnodup hr hr' heq

theorem eq_of_description (hr : r ∈ w.session.retained) (hr' : r' ∈ w.session.retained)
    (heq : r.description = r'.description) : r = r' := by
  have hnodup : (w.session.retained.map RevisionRecord.description).Nodup :=
    pairwise_map.mpr (h.records.imp fun hlt heq => hlt.2.ne (by rw [heq]))
  exact inj_on_of_nodup_map hnodup hr hr' heq

/-- An admission has no queries of the new revision. -/
theorem admission {sources : Sources} {report : Option String}
    {definitions : Option Definitions} {formattingBytes : ℕ} {revision : DiagnosticRevision}
    (hadmission : w.session.admission authority sources report definitions formattingBytes
      = .ok (revision, session)) : Inv ⟨session, w.pending, w.log ++ [.admitted revision]⟩ := by
  obtain ⟨retained, record, projected, hsuffix, haddress, hserial, rfl⟩ :=
    admission_eq_ok hadmission
  have hquiet : World.Quiet [.admitted revision] := by simp [World.Quiet]
  have hretained {r : RevisionRecord Sources Definitions} (hr : r ∈ retained) :
      r ∈ w.session.retained := hsuffix.subset hr
  refine ⟨?_, ?_, ?_, ?_, ?_, ?_, h.nodup, ?_, ?_, ?_, ?_, ?_, Nat.zero_le _⟩
  · refine pairwise_append.mpr ⟨h.records.sublist hsuffix.sublist, pairwise_singleton _ _,
      fun r hr r' hr' => ?_⟩
    rw [mem_singleton.mp hr', haddress, hserial]
    exact h.records_fresh r (hretained hr)
  · intro r hr
    show r.address < w.session.nextAddress + 1
      ∧ r.description.handle.serial < w.session.nextRevision + 1
    obtain hr | hr := mem_append.mp hr
    · have := h.records_fresh r (hretained hr)
      omega
    · rw [mem_singleton.mp hr]
      omega
  · simpa only [hquiet.begun, hquiet.finished] using h.logged
  · intro requestId slot hmarked
    exact h.marked requestId slot (by simpa using hmarked)
  · intro query active hbegun
    replace hbegun := hquiet.begun.mp hbegun
    obtain ⟨hactive, hrecord, hrevision⟩ := h.begun query active hbegun
    exact ⟨hactive, hrecord.trans (Nat.lt_succ_self _), hrevision.trans (Nat.lt_succ_self _)⟩
  · intro query active hbegun r hr
    replace hbegun := hquiet.begun.mp hbegun
    obtain hr | hr := mem_append.mp hr
    · exact h.record_iff query active hbegun r (hretained hr)
    · -- the new revision has a new address and a new serial
      obtain ⟨-, hrecord, hrevision⟩ := h.begun query active hbegun
      rw [mem_singleton.mp hr]
      constructor
      · intro heq
        omega
      · intro heq
        rw [← heq, hserial] at hrevision
        exact absurd hrevision (lt_irrefl _)
  · intro query
    rw [hquiet.unfinished]
    exact h.unfinished query
  · intro requestId slot
    constructor
    · exact nofun
    · rintro ⟨query, hquery, -⟩
      obtain ⟨⟨active, hbegun⟩, -⟩ := hquiet.unfinished.mp hquery.unfinished
      obtain ⟨-, -, hrevision⟩ := h.begun query active hbegun
      have hactive := hquery.active
      simp only [activeRevision, DiagnosticSession.active,
        getLast?_concat, Option.map_some, Option.some.injEq] at hactive
      rw [← hactive, hserial] at hrevision
      exact absurd hrevision (lt_irrefl _)
  all_goals
    intro query hunfinished
    replace hunfinished := hquiet.unfinished.mp hunfinished
    simp only [World.cancelled_append, World.expired_append]
    simp only [World.Cancelled, World.Expired, mem_singleton, reduceCtorEq, false_and,
      exists_false, or_false]
  · exact h.live query hunfinished
  · exact h.cancelled query hunfinished
  · exact h.expired query hunfinished

theorem exists_of_slot (hslot : w.session.inFlight.get? requestId = some slot) :
    ∃ query, w.InFlight query ∧ query.correlation.requestId = requestId
      ∧ slot = ⟨query.state, query.deadline⟩ :=
  (h.slots requestId slot).mp hslot

theorem state_lt {query : PendingQuery} (hquery : w.Unfinished query) :
    query.state < w.session.nextCell :=
  h.logged query (.inl hquery.1)

/-- Events that mark queries in flight, whose slots are given up and whose cells say so. -/
theorem mark {events : List Event} {inFlight : OrderedMap String RequestSlot}
    {cells : ℕ → CellState} (hit : PendingQuery → Prop) (hquiet : World.Quiet events)
    (hmarked : ∀ requestId slot, Event.cancelled requestId slot ∈ events
      ∨ Event.expired requestId slot ∈ events → slot.state < w.session.nextCell)
    (hflight : ∀ query, hit query → w.InFlight query)
    (hcancelled : ∀ query, w.Unfinished query →
      World.Cancelled ⟨w.session, w.pending, events⟩ query →
        hit query ∧ cells query.state = .cancelled)
    (hexpired : ∀ query, w.Unfinished query →
      World.Expired ⟨w.session, w.pending, events⟩ query →
        hit query ∧ cells query.state = .timedOut)
    (hhit : ∀ query, hit query → World.Cancelled ⟨w.session, w.pending, events⟩ query
      ∨ World.Expired ⟨w.session, w.pending, events⟩ query)
    (hslots : ∀ requestId slot, inFlight.get? requestId = some slot ↔
      ∃ query, w.InFlight query ∧ ¬hit query ∧ query.correlation.requestId = requestId
        ∧ slot = ⟨query.state, query.deadline⟩)
    (hcells : ∀ query, w.Unfinished query → ¬hit query →
      cells query.state = w.session.cells query.state)
    (hsize : inFlight.size ≤ w.session.inFlight.size) :
    Inv ⟨{ w.session with inFlight, cells }, w.pending, w.log ++ events⟩ := by
  refine ⟨h.records, h.records_fresh, ?_, ?_, ?_, ?_, h.nodup, ?_, ?_, ?_, ?_, ?_,
    hsize.trans h.size_le⟩
  · simpa only [hquiet.begun, hquiet.finished] using h.logged
  · intro requestId slot hmem
    simp only [mem_append] at hmem
    obtain (hmem | hmem) | hmem | hmem := hmem
    · exact h.marked requestId slot (.inl hmem)
    · exact hmarked requestId slot (.inl hmem)
    · exact h.marked requestId slot (.inr hmem)
    · exact hmarked requestId slot (.inr hmem)
  · simpa only [hquiet.begun] using h.begun
  · simpa only [hquiet.begun] using h.record_iff
  · intro query
    rw [hquiet.unfinished]
    exact h.unfinished query
  · intro requestId slot
    rw [hslots]
    constructor
    · rintro ⟨query, hquery, hkept, hid, rfl⟩
      refine ⟨query, ⟨hquiet.unfinished.mpr hquery.unfinished, fun hc => ?_, fun he => ?_,
        hquery.active⟩, hid, rfl⟩
      · obtain hc | hc := World.cancelled_append.mp hc
        · exact hquery.uncancelled hc
        · exact hkept (hcancelled query hquery.unfinished hc).1
      · obtain he | he := World.expired_append.mp he
        · exact hquery.unexpired he
        · exact hkept (hexpired query hquery.unfinished he).1
    · rintro ⟨query, ⟨hunfinished, huncancelled, hunexpired, hactive⟩, hid, rfl⟩
      obtain ⟨huncancelled, hc⟩ := not_or.mp (World.cancelled_append.not.mp huncancelled)
      obtain ⟨hunexpired, he⟩ := not_or.mp (World.expired_append.not.mp hunexpired)
      exact ⟨query, ⟨hquiet.unfinished.mp hunfinished, huncancelled, hunexpired, hactive⟩,
        fun hq => (hhit query hq).elim hc he, hid, rfl⟩
  · intro query hquery huncancelled hunexpired
    replace hquery := hquiet.unfinished.mp hquery
    obtain ⟨huncancelled, hc⟩ := not_or.mp (World.cancelled_append.not.mp huncancelled)
    obtain ⟨hunexpired, he⟩ := not_or.mp (World.expired_append.not.mp hunexpired)
    exact (hcells query hquery fun hq => (hhit query hq).elim hc he).trans
      (h.live query hquery huncancelled hunexpired)
  · intro query hquery hmark
    replace hquery := hquiet.unfinished.mp hquery
    obtain hold | hnew := World.cancelled_append.mp hmark
    · exact (hcells query hquery fun hq => (hflight query hq).uncancelled hold).trans
        (h.cancelled query hquery hold)
    · exact (hcancelled query hquery hnew).2
  · intro query hquery hmark
    replace hquery := hquiet.unfinished.mp hquery
    obtain hold | hnew := World.expired_append.mp hmark
    · exact (hcells query hquery fun hq => (hflight query hq).unexpired hold).trans
        (h.expired query hquery hold)
    · exact (hexpired query hquery hnew).2

/-- The deadlines that have come expire, and their cells say so. -/
theorem expire (now : ℕ) : Inv ⟨w.session.expireDeadlines now, w.pending,
    w.log ++ (w.session.expiredSlots now).map fun entry => .expired entry.1 entry.2⟩ := by
  set events := (w.session.expiredSlots now).map fun entry => Event.expired entry.1 entry.2
    with hevents
  have hnew {event : Event} (hmem : event ∈ events) : ∃ requestId slot,
      (requestId, slot) ∈ w.session.expiredSlots now ∧ Event.expired requestId slot = event := by
    obtain ⟨⟨requestId, slot⟩, hslot, rfl⟩ := mem_map.mp hmem
    exact ⟨requestId, slot, hslot, rfl⟩
  -- a query expires now when its own slot does
  have hdue {query : PendingQuery} (hquery : w.Unfinished query) :
      (∃ entry ∈ w.session.expiredSlots now, entry.2.state = query.state)
        ↔ w.InFlight query ∧ query.deadline ≤ now := by
    constructor
    · rintro ⟨⟨requestId, slot⟩, hslot, hstate⟩
      rw [mem_expiredSlots] at hslot
      obtain ⟨query', hquery', -, rfl⟩ := h.exists_of_slot hslot.1
      obtain rfl := h.eq_of_state hquery'.unfinished hquery hstate
      exact ⟨hquery', hslot.2⟩
    · rintro ⟨hflight, hdeadline⟩
      exact ⟨(_, _), mem_expiredSlots.mpr
        ⟨(h.slots _ _).mpr ⟨query, hflight, rfl, rfl⟩, hdeadline⟩, rfl⟩
  refine h.mark (fun query => w.InFlight query ∧ query.deadline ≤ now) ?_ ?_ (fun _ => And.left)
    ?_ ?_ ?_ ?_ ?_ (size_expireDeadlines now)
  · intro event hmem
    obtain ⟨requestId, slot, -, rfl⟩ := hnew hmem
    exact ⟨fun _ _ => nofun, fun _ _ => nofun⟩
  · rintro requestId slot (hmem | hmem)
    · obtain ⟨_, _, -, heq⟩ := hnew hmem
      cases heq
    · obtain ⟨_, _, hslot, heq⟩ := hnew hmem
      cases heq
      obtain ⟨query, hquery, -, rfl⟩ := h.exists_of_slot (mem_expiredSlots.mp hslot).1
      exact h.state_lt hquery.unfinished
  · rintro query - ⟨_, _, hmem, -⟩
    obtain ⟨_, _, -, heq⟩ := hnew hmem
    cases heq
  · rintro query hquery ⟨_, _, hmem, hstate⟩
    obtain ⟨_, _, hslot, heq⟩ := hnew hmem
    cases heq
    have hentry : ∃ entry ∈ w.session.expiredSlots now, entry.2.state = query.state :=
      ⟨_, hslot, hstate⟩
    have hhit := (hdue hquery).mp hentry
    refine ⟨hhit, (cells_expireDeadlines now _).trans (if_pos ⟨hentry, ?_⟩)⟩
    exact h.live query hquery hhit.1.uncancelled hhit.1.unexpired
  · intro query hhit
    obtain ⟨entry, hslot, hstate⟩ := (hdue hhit.1.unfinished).mpr hhit
    exact .inr ⟨_, _, mem_map.mpr ⟨entry, hslot, rfl⟩, hstate⟩
  · intro requestId slot
    refine get?_expireDeadlines.trans ?_
    constructor
    · rintro ⟨hslot, hdeadline⟩
      obtain ⟨query, hquery, hid, rfl⟩ := h.exists_of_slot hslot
      exact ⟨query, hquery, fun hhit => absurd hdeadline (Nat.not_lt.mpr hhit.2), hid, rfl⟩
    · rintro ⟨query, hquery, hkept, hid, rfl⟩
      exact ⟨(h.slots _ _).mpr ⟨query, hquery, hid, rfl⟩,
        Nat.not_le.mp fun hle => hkept ⟨hquery, hle⟩⟩
  · intro query hquery hkept
    refine (cells_expireDeadlines now _).trans (if_neg ?_)
    rintro ⟨hentry, -⟩
    exact hkept ((hdue hquery).mp hentry)

/-- A query of the active revision begins, with a fresh cell and a fresh id. -/
theorem insert {record : RevisionRecord Sources Definitions} (query : PendingQuery)
    (hactive : w.session.active = some record)
    (hfresh : w.session.inFlight.get? query.correlation.requestId = none)
    (hsize : w.session.inFlight.size < maxInFlightRequests)
    (hstate : query.state = w.session.nextCell) (haddress : query.record = record.address)
    (hrevision : query.revision = record.description) :
    Inv ⟨{ w.session with
        inFlight := w.session.inFlight.insert query.correlation.requestId
          ⟨query.state, query.deadline⟩
        cells := Function.update w.session.cells query.state .live
        nextCell := w.session.nextCell + 1 },
      w.pending ++ [query], w.log ++ [.begun query w.session.activeRevision]⟩ := by
  have hrecord : record ∈ w.session.retained := mem_of_getLast? hactive
  have hdescription : w.session.activeRevision = some query.revision := by
    rw [activeRevision, hactive, hrevision, Option.map_some]
  set events := [Event.begun query w.session.activeRevision] with hevents
  have hfinished {q : PendingQuery} {response : DiagnosticQueryResponse} :
      Event.finished q response ∈ w.log ++ events ↔ Event.finished q response ∈ w.log := by
    simp [hevents]
  have hplain : World.Unmarked events := by simp [World.Unmarked, hevents]
  have hbegun {q : PendingQuery} {active : Option DiagnosticRevision} :
      Event.begun q active ∈ w.log ++ events
        ↔ Event.begun q active ∈ w.log ∨ q = query ∧ active = w.session.activeRevision := by
    rw [mem_append, mem_singleton, Event.begun.injEq]
  have hunlogged {q : PendingQuery} (hlogged : (∃ active, Event.begun q active ∈ w.log)
      ∨ ∃ response, Event.finished q response ∈ w.log) : q ≠ query := by
    rintro rfl
    exact absurd (h.logged q hlogged) (by rw [hstate]; exact lt_irrefl _)
  have hunfinished {q : PendingQuery} :
      World.Unfinished ⟨w.session, w.pending, w.log ++ events⟩ q ↔ w.Unfinished q ∨ q = query := by
    unfold World.Unfinished
    simp only [hbegun, hfinished]
    constructor
    · rintro ⟨⟨active, hmem | ⟨heq, -⟩⟩, hunfinished⟩
      · exact .inl ⟨⟨active, hmem⟩, hunfinished⟩
      · exact .inr heq
    · rintro (⟨⟨active, hmem⟩, hunfinished⟩ | rfl)
      · exact ⟨⟨active, .inl hmem⟩, hunfinished⟩
      · exact ⟨⟨_, .inr ⟨rfl, rfl⟩⟩, fun response hmem => hunlogged (.inr ⟨response, hmem⟩) rfl⟩
  -- nothing has happened to the new query
  have huncancelled : ¬w.Cancelled query := by
    rintro ⟨requestId, slot, hmem, hslot⟩
    exact absurd (h.marked requestId slot (.inl hmem)) (by rw [hslot, hstate]; exact lt_irrefl _)
  have hunexpired : ¬w.Expired query := by
    rintro ⟨requestId, slot, hmem, hslot⟩
    exact absurd (h.marked requestId slot (.inr hmem)) (by rw [hslot, hstate]; exact lt_irrefl _)
  have hcells {q : PendingQuery} (hq : w.Unfinished q) :
      Function.update w.session.cells query.state .live q.state = w.session.cells q.state :=
    Function.update_of_ne (fun heq => absurd (h.state_lt hq) (by
      rw [heq, hstate]
      exact lt_irrefl _)) _ _
  refine ⟨h.records, h.records_fresh, ?_, ?_, ?_, ?_, ?_, ?_, ?_, ?_, ?_, ?_, ?_⟩
  · intro q hq
    show q.state < w.session.nextCell + 1
    by_cases heq : q = query
    · rw [heq, hstate]
      exact Nat.lt_succ_self _
    · simp only [hbegun, hfinished, heq, false_and, or_false] at hq
      exact (h.logged q hq).trans (Nat.lt_succ_self _)
  · intro requestId slot hmem
    simp only [mem_append, (hplain _ _).1, (hplain _ _).2, or_false] at hmem
    exact (h.marked requestId slot hmem).trans (Nat.lt_succ_self _)
  · intro q active hmem
    obtain hmem | ⟨rfl, rfl⟩ := hbegun.mp hmem
    · exact h.begun q active hmem
    · rw [haddress, hrevision]
      exact ⟨hrevision ▸ hdescription, h.records_fresh record hrecord⟩
  · intro q active hmem r hr
    obtain hmem | ⟨rfl, rfl⟩ := hbegun.mp hmem
    · exact h.record_iff q active hmem r hr
    · -- both the addresses and the descriptions of the retained revisions differ
      rw [haddress, hrevision]
      constructor
      · exact fun heq => congrArg _ (h.eq_of_address hr hrecord heq)
      · exact fun heq => congrArg _ (h.eq_of_description hr hrecord heq)
  · rw [map_append, nodup_append]
    refine ⟨h.nodup, nodup_singleton _, ?_⟩
    intro state hmem state' hmem' heq
    obtain ⟨q, hq, rfl⟩ := mem_map.mp hmem
    rw [map_singleton, mem_singleton] at hmem'
    have := h.state_lt ((h.unfinished q).mp hq)
    omega
  · intro q
    refine Iff.trans ?_ hunfinished.symm
    rw [mem_append, mem_singleton, h.unfinished]
  · intro requestId slot
    show (w.session.inFlight.insert _ _).get? requestId = some slot ↔ _
    rw [get?_insert]
    split
    · next hid =>
      constructor
      · intro hslot
        cases hslot
        exact ⟨query, ⟨hunfinished.mpr (.inr rfl), hplain.cancelled.not.mpr huncancelled,
          hplain.expired.not.mpr hunexpired, hdescription⟩, hid.symm, rfl⟩
      · rintro ⟨q, hq, hqid, rfl⟩
        obtain hold | rfl := hunfinished.mp hq.unfinished
        · have hflight : w.InFlight q := ⟨hold, hplain.cancelled.not.mp hq.uncancelled,
            hplain.expired.not.mp hq.unexpired, hq.active⟩
          have hslot := (h.slots requestId _).mpr ⟨q, hflight, hqid, rfl⟩
          rw [hid, hfresh] at hslot
          cases hslot
        · rfl
    · next hid =>
      rw [h.slots]
      constructor
      · rintro ⟨q, hq, hqid, rfl⟩
        exact ⟨q, ⟨hunfinished.mpr (.inl hq.unfinished), hplain.cancelled.not.mpr hq.uncancelled,
          hplain.expired.not.mpr hq.unexpired, hq.active⟩, hqid, rfl⟩
      · rintro ⟨q, hq, hqid, rfl⟩
        obtain hold | rfl := hunfinished.mp hq.unfinished
        · exact ⟨q, ⟨hold, hplain.cancelled.not.mp hq.uncancelled,
            hplain.expired.not.mp hq.unexpired, hq.active⟩, hqid, rfl⟩
        · exact absurd hqid.symm hid
  · intro q hq hc he
    obtain hq | rfl := hunfinished.mp hq
    · exact (hcells hq).trans (h.live q hq (hplain.cancelled.not.mp hc) (hplain.expired.not.mp he))
    · exact Function.update_self ..
  · intro q hq hc
    obtain hq | rfl := hunfinished.mp hq
    · exact (hcells hq).trans (h.cancelled q hq (hplain.cancelled.mp hc))
    · exact absurd (hplain.cancelled.mp hc) huncancelled
  · intro q hq he
    obtain hq | rfl := hunfinished.mp hq
    · exact (hcells hq).trans (h.expired q hq (hplain.expired.mp he))
    · exact absurd (hplain.expired.mp he) hunexpired
  · show (w.session.inFlight.insert _ _).size ≤ _
    rw [size_insert hfresh]
    exact hsize

/-- A slot is cancelled, and the cell of its query says so. -/
theorem cancel (hslot : w.session.inFlight.get? requestId = some slot) :
    Inv ⟨(w.session.cancel requestId).2, w.pending, w.log ++ [.cancelled requestId slot]⟩ := by
  rw [cancel_eq hslot]
  obtain ⟨target, htarget, rfl, rfl⟩ := h.exists_of_slot hslot
  refine h.mark (· = target) (by simp [World.Quiet]) ?_ ?_ ?_ ?_ ?_ ?_ ?_ (length_filter_le ..)
  · rintro requestId slot (hmem | hmem)
    · cases mem_singleton.mp hmem
      exact h.state_lt htarget.unfinished
    · cases mem_singleton.mp hmem
  · rintro query rfl
    exact htarget
  · rintro query hquery ⟨_, _, hmem, hstate⟩
    cases mem_singleton.mp hmem
    obtain rfl := h.eq_of_state hquery htarget.unfinished hstate.symm
    refine ⟨rfl, (compareExchange_apply ..).trans (if_pos ⟨rfl, ?_⟩)⟩
    exact h.live query hquery htarget.uncancelled htarget.unexpired
  · rintro query - ⟨_, _, hmem, -⟩
    cases mem_singleton.mp hmem
  · rintro query rfl
    exact .inl ⟨_, _, mem_singleton_self _, rfl⟩
  · intro requestId slot
    rw [get?_erase]
    constructor
    · intro hget
      split at hget
      · cases hget
      next hid =>
      obtain ⟨query, hquery, rfl, rfl⟩ := h.exists_of_slot hget
      refine ⟨query, hquery, ?_, rfl, rfl⟩
      rintro rfl
      exact hid rfl
    · rintro ⟨query, hquery, hne, rfl, rfl⟩
      have hget := (h.slots _ _).mpr ⟨query, hquery, rfl, rfl⟩
      -- the ids of queries in flight differ
      rw [if_neg, hget]
      intro hid
      rw [hid, hslot, Option.some.injEq, RequestSlot.mk.injEq] at hget
      exact hne (h.eq_of_state hquery.unfinished htarget.unfinished hget.1.symm)
  · intro query hquery hne
    refine (compareExchange_apply ..).trans (if_neg ?_)
    rintro ⟨heq, -⟩
    exact hne (h.eq_of_state hquery htarget.unfinished heq)

theorem finish {target : PendingQuery} (htarget : target ∈ w.pending)
    (response : DiagnosticQueryResponse) : Inv ⟨w.session.release target, w.pending.erase target,
      w.log ++ [.finished target response]⟩ := by
  set events := [Event.finished target response] with hevents
  have hpending : w.pending.Nodup := h.nodup.of_map
  have hplain : World.Unmarked events := by simp [World.Unmarked, hevents]
  have hbegun {query : PendingQuery} {active : Option DiagnosticRevision} :
      Event.begun query active ∈ w.log ++ events ↔ Event.begun query active ∈ w.log := by
    simp [hevents]
  have hfinished {query : PendingQuery} {r : DiagnosticQueryResponse} :
      Event.finished query r ∈ w.log ++ events
        ↔ Event.finished query r ∈ w.log ∨ query = target ∧ r = response := by
    simp [hevents]
  have hunfinished {query : PendingQuery} :
      World.Unfinished ⟨w.session, w.pending, w.log ++ events⟩ query
        ↔ w.Unfinished query ∧ query ≠ target := by
    unfold World.Unfinished
    simp only [hbegun, hfinished, not_or, not_and, and_assoc]
    refine and_congr_right fun _ => ?_
    constructor
    · exact fun hnone => ⟨fun r => (hnone r).1, fun heq => (hnone response).2 heq rfl⟩
    · exact fun hnone r => ⟨hnone.1 r, fun heq => absurd heq hnone.2⟩
  refine ⟨?_, ?_, ?_, ?_, ?_, ?_, ?_, ?_, ?_, ?_, ?_, ?_, ?_⟩
  · rw [release_retained]
    exact h.records
  · rw [release_retained, release_nextAddress,
      release_nextRevision]
    exact h.records_fresh
  · intro query hquery
    rw [release_nextCell]
    simp only [hbegun, hfinished] at hquery
    obtain hquery | ⟨r, hmem | ⟨rfl, -⟩⟩ := hquery
    · exact h.logged query (.inl hquery)
    · exact h.logged query (.inr ⟨r, hmem⟩)
    · exact h.state_lt ((h.unfinished query).mp htarget)
  · intro requestId slot hmem
    rw [release_nextCell]
    simp only [mem_append, (hplain _ _).1, (hplain _ _).2, or_false] at hmem
    exact h.marked requestId slot hmem
  · intro query active hmem
    rw [release_nextAddress, release_nextRevision]
    exact h.begun query active (hbegun.mp hmem)
  · intro query active hmem
    rw [release_retained]
    exact h.record_iff query active (hbegun.mp hmem)
  · exact h.nodup.sublist ((erase_sublist ..).map _)
  · intro query
    refine Iff.trans ?_ hunfinished.symm
    rw [hpending.mem_erase_iff, h.unfinished, and_comm]
  · intro requestId slot
    rw [get?_release]
    constructor
    · rintro ⟨hslot, hkept⟩
      obtain ⟨query, hquery, rfl, rfl⟩ := h.exists_of_slot hslot
      refine ⟨query, ⟨hunfinished.mpr ⟨hquery.unfinished, ?_⟩,
        hplain.cancelled.not.mpr hquery.uncancelled, hplain.expired.not.mpr hquery.unexpired, ?_⟩,
        rfl, rfl⟩
      · rintro rfl
        exact hkept ⟨rfl, rfl⟩
      · rw [activeRevision_release]
        exact hquery.active
    · rintro ⟨query, hquery, rfl, rfl⟩
      obtain ⟨hold, hne⟩ := hunfinished.mp hquery.unfinished
      refine ⟨(h.slots _ _).mpr ⟨query, ⟨hold, hplain.cancelled.not.mp hquery.uncancelled,
        hplain.expired.not.mp hquery.unexpired, ?_⟩, rfl, rfl⟩, ?_⟩
      · exact (activeRevision_release target).symm.trans hquery.active
      · rintro ⟨-, hstate⟩
        exact hne (h.eq_of_state hold ((h.unfinished target).mp htarget) hstate)
  · intro query hquery hc he
    rw [release_cells]
    exact h.live query (hunfinished.mp hquery).1 (hplain.cancelled.not.mp hc)
      (hplain.expired.not.mp he)
  · intro query hquery hc
    rw [release_cells]
    exact h.cancelled query (hunfinished.mp hquery).1 (hplain.cancelled.mp hc)
  · intro query hquery he
    rw [release_cells]
    exact h.expired query (hunfinished.mp hquery).1 (hplain.expired.mp he)
  · exact (size_release_le target).trans h.size_le

/-- What a request leads to, whether it is refused or begins a query. -/
theorem begin {method : String} {kindOf : ParsedRequest → RevisionRecord Sources Definitions →
      Except (QueryStatus × QueryReason) QueryKind} {bytes : List UInt8} {now : ℕ}
    {result : Except DiagnosticQueryResponse PendingQuery}
    (hbegin : w.session.begin authority reader latest method kindOf bytes now = (result, session)) :
    Inv (match result with
      | .ok query => ⟨session, w.pending ++ [query],
        w.log ++ w.expirations reader bytes now ++ [.begun query w.session.activeRevision]⟩
      | .error _ => ⟨session, w.pending, w.log ++ w.expirations reader bytes now⟩) := by
  obtain ⟨response, error, rfl, hdecode, rfl⟩
    | ⟨request, hdecode, ⟨response, rfl, rfl⟩ | ⟨record, kind, hactive, hfresh, hsize, rfl, rfl⟩⟩ :=
    begin_cases hbegin
  · simp only [World.expirations, hdecode, append_nil]
    exact h
  · simp only [World.expirations, hdecode]
    exact h.expire now
  · simp only [World.expirations, hdecode]
    exact (h.expire now).insert ⟨w.session.session, request.correlation, record.description,
      record.address, authority.identity record.sources, kind, request.workLimit,
      deadlineOf latest now, w.session.nextCell⟩ hactive hfresh hsize rfl rfl rfl

theorem step {w' : World Sources Definitions}
    (hstep : Step authority reader latest w w') : Inv w' := by
  cases hstep with
  | admission hadmission => exact h.admission hadmission
  | beginDiagnostics hbegin => exact h.begin hbegin
  | beginDefinition hbegin => exact h.begin hbegin
  | refuseDiagnostics hbegin => exact h.begin hbegin
  | refuseDefinition hbegin => exact h.begin hbegin
  | cancel hslot => exact h.cancel hslot
  | finish now htarget =>
    rw [finish_session]
    exact h.finish htarget _

end

theorem run {session : ℕ} (hrun : Reachable authority reader latest session w) : Inv w := by
  induction hrun with
  | refl => exact initial session
  | tail _ hstep ih => exact ih.step hstep

end Inv

end Zryna.Driver.DiagnosticSessions
