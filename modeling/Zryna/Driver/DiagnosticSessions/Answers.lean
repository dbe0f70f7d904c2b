import Zryna.Driver.DiagnosticSessions.Interleavings

/-!
# Answers

What a completed query publishes. The only revision that a query can reach through its weak
reference is the one it began with, and the check of the active revision comes after that.
-/

namespace Zryna.Driver.DiagnosticSessions

variable {Sources Definitions : Type}

/-- A response that publishes what a query asks for, out of one revision. -/
def Publishes (authority : Authority Sources Definitions)
    (record : RevisionRecord Sources Definitions) (query : PendingQuery)
    (response : DiagnosticQueryResponse) : Prop :=
  match query.kind with
  | .diagnostics => ∃ report, record.report = some report
      ∧ authority.validateJson report record.sources = true
      ∧ response = .success query.correlation report
  | .definition path byteOffset => ∃ definitions located byteStart byteEnd,
      record.definitions = some definitions
      ∧ authority.definition definitions record.sources path byteOffset query.workLimit
        = .located located byteStart byteEnd
      ∧ response = .definitionSuccess query.correlation located byteStart byteEnd

namespace DiagnosticSession

variable {authority : Authority Sources Definitions} {self : DiagnosticSession Sources Definitions}
  {record : RevisionRecord Sources Definitions} {query : PendingQuery} {now : ℕ}

theorem publishes_of_answer (hok : (answer authority record query).status = .ok) :
    Publishes authority record query (answer authority record query) := by
  unfold answer at hok ⊢
  split at hok
  · next hkind =>
    rw [Publishes, hkind]
    dsimp only
    unfold answerDiagnostics at hok ⊢
    split at hok
    · cases hok
    next report hreport =>
    dsimp only at hok ⊢
    split at hok
    · cases hok
    split at hok
    · cases hok
    next hwork hvalid =>
    rw [if_neg hwork, if_neg hvalid]
    exact ⟨report, hreport, not_not.mp hvalid, rfl⟩
  · next path byteOffset hkind =>
    rw [Publishes, hkind]
    dsimp only
    unfold answerDefinition at hok ⊢
    split at hok
    · cases hok
    next definitions hdefinitions =>
    split at hok
    · next located byteStart byteEnd hlocated =>
      exact ⟨definitions, located, byteStart, byteEnd, hdefinitions, hlocated, rfl⟩
    all_goals exact nomatch hok

/-- What a completion has checked when it answers. -/
theorem finish_ok (hok : (self.finish authority query now).1.status = .ok) :
    self.cells query.state = .live ∧ now < query.deadline
      ∧ ∃ record ∈ self.retained, record.address = query.record
        ∧ (∃ active, self.active = some active ∧ active.description = query.revision)
        ∧ (self.finish authority query now).1 = answer authority record query := by
  unfold finish at hok ⊢
  dsimp only at hok ⊢
  simp only [release_cells, release_retained] at hok ⊢
  split at hok
  · cases hok
  next hsession =>
  split at hok
  · cases hok
  next hcancelled =>
  split at hok
  · cases hok
  next hdeadline =>
  split at hok
  · cases hok
  next record hfind =>
  split at hok
  · cases hok
  next hactive =>
  obtain ⟨htimedOut, hlt⟩ := not_or.mp hdeadline
  refine ⟨?_, Nat.not_le.mp hlt, record, List.mem_of_find?_eq_some hfind, ?_, ?_, ?_⟩
  · cases hcell : self.cells query.state with
    | live => rfl
    | cancelled => exact absurd hcell hcancelled
    | timedOut => exact absurd hcell htimedOut
  · simpa using List.find?_some hfind
  · rw [not_not, isActive, active_release, Option.any_eq_true] at hactive
    obtain ⟨active, hactive, hsame⟩ := hactive
    rw [Bool.and_eq_true, decide_eq_true_eq, decide_eq_true_eq] at hsame
    exact ⟨active, hactive, hsame.2⟩
  · rw [if_neg hsession, if_neg hcancelled, if_neg hdeadline, if_neg hactive]

end DiagnosticSession

/-- In every interleaving a session has at most as many slots as it may, for the queries in flight
and no others; a completion answers out of the active revision only, which is the one its query
began with, and leaves the slots of all other queries alone. -/
theorem no_stale_answer (authority : Authority Sources Definitions) (reader : RequestReader)
    (latest session : ℕ) (w : World Sources Definitions)
    (h : Reachable authority reader latest session w) :
    w.session.inFlight.size ≤ maxInFlightRequests
    ∧ (∀ requestId, requestId ∈ w.session.inFlight.keys ↔
      ∃ query, w.InFlight query ∧ query.correlation.requestId = requestId)
    ∧ (∀ query active, Event.begun query active ∈ w.log → active = some query.revision)
    ∧ ∀ query, w.Unfinished query → ∀ now,
      ((w.session.finish authority query now).1.status = .ok →
        ∃ record, w.session.active = some record
          ∧ Event.begun query (some record.description) ∈ w.log
          ∧ ¬w.Cancelled query ∧ ¬w.Expired query ∧ now < query.deadline
          ∧ Publishes authority record query (w.session.finish authority query now).1)
      ∧ ∀ other, w.InFlight other → other ≠ query →
        (w.session.finish authority query now).2.inFlight.get? other.correlation.requestId
          = some ⟨other.state, other.deadline⟩ := by
  have hinv := Inv.run h
  refine ⟨hinv.size_le, ?_, fun query active hmem => (hinv.begun query active hmem).1, ?_⟩
  · intro requestId
    rw [OrderedMap.mem_keys, Option.isSome_iff_exists]
    constructor
    · rintro ⟨slot, hslot⟩
      obtain ⟨query, hquery, hid, -⟩ := hinv.exists_of_slot hslot
      exact ⟨query, hquery, hid⟩
    · rintro ⟨query, hquery, hid⟩
      exact ⟨_, (hinv.slots _ _).mpr ⟨query, hquery, hid, rfl⟩⟩
  · intro query hquery now
    refine ⟨fun hok => ?_, fun other hother hne => ?_⟩
    · obtain ⟨hlive, hdeadline, record, hrecord, haddress, ⟨active, hactive, hsame⟩, hanswer⟩ :=
        DiagnosticSession.finish_ok hok
      obtain ⟨began, hbegun⟩ := hquery.1
      -- the record behind the weak reference is the active one
      have hdescription := (hinv.record_iff query began hbegun record hrecord).mp haddress
      obtain rfl : record = active := hinv.eq_of_description hrecord
        (List.mem_of_getLast? hactive) (hdescription.trans hsame.symm)
      refine ⟨record, hactive, ?_, fun hc => ?_, fun he => ?_, hdeadline, ?_⟩
      · rw [hsame, ← (hinv.begun query began hbegun).1]
        exact hbegun
      · rw [hinv.cancelled query hquery hc] at hlive
        exact nomatch hlive
      · rw [hinv.expired query hquery he] at hlive
        exact nomatch hlive
      · rw [hanswer] at hok ⊢
        exact DiagnosticSession.publishes_of_answer hok
    · rw [DiagnosticSession.finish_session, DiagnosticSession.get?_release]
      refine ⟨(hinv.slots _ _).mpr ⟨other, hother, rfl, rfl⟩, ?_⟩
      rintro ⟨-, hstate⟩
      exact hne (hinv.eq_of_state hother.unfinished hquery hstate)

/-! ### A sample -/

/-- One source whose only definition is at its start. -/
private def sampleAuthority : Authority Unit Unit where
  identity := fun _ => 0
  fingerprint := fun _ => .ok ([], 1)
  locates := fun _ _ _ => true
  validateJson := fun _ _ => false
  cacheBytes := fun _ => some 1
  definition := fun _ _ path _ _ => .located path 0 1

/-- Reads the same request out of all bytes. -/
private def sampleReader : RequestReader where
  wireRequest := fun _ =>
    some ⟨1, "a", "s0000000000000000-0000000000001", 1, "definition", .null, 1, 1⟩
  definitionParams := fun _ => some ("main.zr", 0)

private def sampleRecord : RevisionRecord Unit Unit :=
  ⟨0, ⟨⟨0, 1⟩, 1, []⟩, (), none, some (), 2⟩

private def sampleAdmitted : DiagnosticSession Unit Unit :=
  { (DiagnosticSession.new 0 : DiagnosticSession Unit Unit) with
    nextRevision := 2
    retained := [sampleRecord]
    cacheBytes := 2
    nextAddress := 1 }

private def sampleCorrelation : Correlation := ⟨1, "a", "s0000000000000000-0000000000001", 1⟩

private def sampleQuery : PendingQuery :=
  ⟨0, sampleCorrelation, sampleRecord.description, 0, 0, .definition "main.zr" 0, 1, queryDeadline,
    0⟩

private def sampleBegun : DiagnosticSession Unit Unit :=
  { sampleAdmitted with
    inFlight := OrderedMap.empty.insert "a" ⟨0, queryDeadline⟩
    cells := Function.update sampleAdmitted.cells 0 .live
    nextCell := 1 }

private def sampleWorld : World Unit Unit where
  session := sampleBegun
  pending := [sampleQuery]
  log := [.admitted sampleRecord.description, .begun sampleQuery (some sampleRecord.description)]

private theorem sampleReader_decode :
    decode sampleReader [] = .ok ⟨sampleCorrelation, "definition", .null, 1⟩ := by
  unfold decode
  rw [if_neg (by decide), if_neg (by decide), if_neg (by decide)]
  dsimp only [sampleReader]
  rw [if_neg (by decide), if_neg (by decide)]
  rfl

private theorem sampleAdmitted_begin :
    sampleAdmitted.beginDefinition sampleAuthority sampleReader (2 ^ 64) [] 0
      = (.ok sampleQuery, sampleBegun) := by
  have hactive : (sampleAdmitted.expireDeadlines 0).active = some sampleRecord := rfl
  unfold DiagnosticSession.beginDefinition DiagnosticSession.begin
  rw [sampleReader_decode]
  dsimp only
  rw [if_neg (by decide), if_neg (by decide), hactive]
  dsimp only
  rw [if_neg (by decide), if_neg (by decide)]
  rfl

private theorem sampleWorld_reachable :
    Reachable sampleAuthority sampleReader (2 ^ 64) 0 sampleWorld := by
  have hadmission : (DiagnosticSession.new 0).admission sampleAuthority () none (some ()) 0
      = .ok (sampleRecord.description, sampleAdmitted) := rfl
  refine .tail (.tail .refl (Step.admission hadmission)) ?_
  have hstep := Step.beginDefinition
    (w := ⟨sampleAdmitted, [], [.admitted sampleRecord.description]⟩) sampleAdmitted_begin
  have hexpirations : World.expirations ⟨sampleAdmitted, [], [.admitted sampleRecord.description]⟩
      sampleReader [] 0 = [] := by
    rw [World.expirations, sampleReader_decode]
    rfl
  rw [hexpirations] at hstep
  exact hstep

/-- The query of the sample is answered out of the revision that it began with. -/
theorem no_stale_answer_sample :
    (sampleWorld.session.finish sampleAuthority sampleQuery 5).1.status = .ok
    ∧ ∃ record, sampleWorld.session.active = some record
      ∧ Publishes sampleAuthority record sampleQuery
        (sampleWorld.session.finish sampleAuthority sampleQuery 5).1 := by
  have hok : (sampleWorld.session.finish sampleAuthority sampleQuery 5).1.status = .ok := by
    show (DiagnosticQueryResponse.definitionSuccess sampleCorrelation "main.zr" 0 1).status = .ok
    unfold DiagnosticQueryResponse.definitionSuccess encodeResult responsePrefix quoted
    rw [if_pos]
    · rfl
    · simp only [String.toList_append, String.toList_ofList]
      decide +kernel
  have hunfinished : sampleWorld.Unfinished sampleQuery :=
    ⟨⟨_, List.mem_cons_of_mem _ (List.mem_singleton_self _)⟩, by simp [sampleWorld]⟩
  obtain ⟨-, -, -, hanswers⟩ := no_stale_answer sampleAuthority sampleReader (2 ^ 64) 0 sampleWorld
    sampleWorld_reachable
  obtain ⟨record, hactive, -, -, -, -, hpublishes⟩ := (hanswers sampleQuery hunfinished 5).1 hok
  exact ⟨hok, record, hactive, hpublishes⟩

end Zryna.Driver.DiagnosticSessions
