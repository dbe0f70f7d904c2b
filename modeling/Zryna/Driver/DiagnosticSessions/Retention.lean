import Zryna.Driver.DiagnosticSessions.Interleavings

/-!
# Retention of revisions

An admission as a computation on the session it mutates, with the loop that counts evictions, and
what it keeps. `Retains` is the invariant: at most two revisions, told by increasing serials that
end in the newest one, whose charges are accounted for exactly. `Fits` says which revisions may stay
beside a new one; the loop finds the fewest oldest revisions to drop so that the others fit, and
under the invariant it never runs out of revisions.
-/

namespace Zryna.Driver.DiagnosticSessions

variable {Sources Definitions : Type}

namespace DiagnosticSession

/-! ### Admissions in place -/

/-- The eviction loop: how many of the oldest revisions go, and the projected charge. -/
def evictionLoop (retained : List (RevisionRecord Sources Definitions))
    (evictions projected : ℕ) : Except DiagnosticSessionError (ℕ × ℕ) :=
  if retained.length + 1 - evictions > maxRetainedRevisions
      ∨ projected > maxSessionCacheBytes then
    match _h : retained[evictions]? with
    | none => .error .sourceInvariant
    | some evicted =>
      if projected < evicted.cacheBytes then .error .sourceInvariant
      else evictionLoop retained (evictions + 1) (projected - evicted.cacheBytes)
  else .ok (evictions, projected)
termination_by retained.length - evictions
decreasing_by
  have := (getElem?_eq_some_iff.mp ‹_›).1
  omega

def markReplaced (self : DiagnosticSession Sources Definitions) :
    DiagnosticSession Sources Definitions := { self with inFlight := .empty }

def popFront (self : DiagnosticSession Sources Definitions) :
    DiagnosticSession Sources Definitions := { self with retained := self.retained.tail }

/-- What a revision is charged by itself, with the fingerprint of its sources. -/
def ownCharge (authority : Authority Sources Definitions) (sources : Sources)
    (report : Option String) (definitions : Option Definitions) (formattingBytes : ℕ) :
    Except DiagnosticSessionError (List UInt8 × ℕ) := do
  let (sourceFingerprint, sourceBytes) ← authority.fingerprint sources
  let semanticBytes ← semanticCharge authority definitions
  let reportBytes := (report.map fun text => utf8Length text.toList).getD 0
  let cacheBytes ← checkedCacheCharge sourceBytes reportBytes (semanticBytes + formattingBytes)
  pure (sourceFingerprint, cacheBytes)

/-- What an admission settles before it touches the session. -/
structure AdmissionPlan (Sources Definitions : Type) where
  record : RevisionRecord Sources Definitions
  evictions : ℕ
  projectedCache : ℕ

section

variable (authority : Authority Sources Definitions) (self : DiagnosticSession Sources Definitions)
  (sources : Sources) (report : Option String) (definitions : Option Definitions)
  (formattingBytes : ℕ)

def planAdmission : Except DiagnosticSessionError (AdmissionPlan Sources Definitions) := do
  if self.nextRevision > maxRevision then .error .revisionExhausted
  let (sourceFingerprint, cacheBytes) ←
    ownCharge authority sources report definitions formattingBytes
  let description : DiagnosticRevision :=
    ⟨⟨self.session, self.nextRevision⟩, self.nextRevision, sourceFingerprint⟩
  let record : RevisionRecord Sources Definitions :=
    ⟨self.nextAddress, description, sources, report, definitions, cacheBytes⟩
  if self.cacheBytes + cacheBytes ≥ 2 ^ 64 then .error .sessionCacheExhausted
  let (evictions, projectedCache) ←
    evictionLoop self.retained 0 (self.cacheBytes + cacheBytes)
  .ok ⟨record, evictions, projectedCache⟩

/-- The statements of an admission that mutate the session, in their order. -/
def carryOut (self : DiagnosticSession Sources Definitions)
    (plan : AdmissionPlan Sources Definitions) : DiagnosticSession Sources Definitions :=
  let self := self.markReplaced
  let self := { self with nextRevision := self.nextRevision + 1 }
  let self := popFront^[plan.evictions] self
  let self := { self with
    retained := self.retained ++ [plan.record], nextAddress := self.nextAddress + 1 }
  { self with cacheBytes := plan.projectedCache }

/-- An admission, with the session that it leaves. -/
def admitting :
    Except DiagnosticSessionError DiagnosticRevision × DiagnosticSession Sources Definitions :=
  match self.planAdmission authority sources report definitions formattingBytes with
  | .error error => (.error error, self)
  | .ok plan => (.ok plan.record.description, self.carryOut plan)

end

variable {authority : Authority Sources Definitions} {reader : RequestReader} {latest : ℕ}
  {self session : DiagnosticSession Sources Definitions}
  {retained : List (RevisionRecord Sources Definitions)}

/-- Dropping while counting, and counting. -/
theorem evict_drop (evictions projected : ℕ) (hle : evictions ≤ retained.length) :
    evict (retained.drop evictions) projected
      = (fun kept => (retained.drop kept.1, kept.2)) <$> evictionLoop retained evictions projected
    := by
  fun_induction evictionLoop retained evictions projected with
  | case1 evictions projected hover h =>
    rw [List.drop_eq_nil_of_le (List.getElem?_eq_none_iff.mp h)]
    have hlength := List.getElem?_eq_none_iff.mp h
    have hover : 1 > maxRetainedRevisions ∨ projected > maxSessionCacheBytes := by
      rwa [show retained.length + 1 - evictions = 1 by omega] at hover
    rw [evict, if_pos hover]
    rfl
  | case2 evictions projected hover evicted h hlt =>
    obtain ⟨hlength, rfl⟩ := getElem?_eq_some_iff.mp h
    rw [List.drop_eq_getElem_cons hlength, evict, if_pos (by simp; omega), if_pos hlt]
    rfl
  | case3 evictions projected hover evicted h hlt ih =>
    obtain ⟨hlength, rfl⟩ := getElem?_eq_some_iff.mp h
    rw [List.drop_eq_getElem_cons hlength, evict, if_pos (by simp; omega), if_neg hlt]
    exact ih hlength
  | case4 evictions projected hover =>
    obtain hlt | heq := Nat.lt_or_eq_of_le hle
    · rw [List.drop_eq_getElem_cons hlt, evict, if_neg (by simp; omega)]
      show _ = Except.ok _
      rw [← List.drop_eq_getElem_cons hlt]
    · rw [List.drop_eq_nil_of_le heq.ge, evict, if_neg (by omega)]
      show _ = Except.ok (retained.drop evictions, projected)
      rw [List.drop_eq_nil_of_le heq.ge]

theorem iterate_popFront (evictions : ℕ) :
    popFront^[evictions] self = { self with retained := self.retained.drop evictions } := by
  induction evictions generalizing self with
  | zero => rfl
  | succ evictions ih =>
    rw [Function.iterate_succ_apply, ih]
    show { self with retained := self.retained.tail.drop evictions } = _
    rw [List.drop_tail]

/-- The admission in place is the admission. -/
theorem admitting_eq (sources : Sources) (report : Option String)
    (definitions : Option Definitions) (formattingBytes : ℕ) :
    self.admitting authority sources report definitions formattingBytes
      = match self.admission authority sources report definitions formattingBytes with
        | .error error => (.error error, self)
        | .ok (revision, session) => (.ok revision, session) := by
  have hevict (projected : ℕ) :=
    evict_drop 0 projected (Nat.zero_le self.retained.length)
  unfold admitting planAdmission admission ownCharge
  split_ifs with hrevision
  · rfl
  cases authority.fingerprint sources with
  | error => rfl
  | ok fingerprint =>
  cases semanticCharge authority definitions with
  | error => rfl
  | ok semanticBytes =>
  cases hcharge : checkedCacheCharge fingerprint.2
    ((report.map fun text => utf8Length text.toList).getD 0) (semanticBytes + formattingBytes) with
  | error =>
    simp [bind, Except.bind, hcharge]
  | ok cacheBytes =>
    simp only [bind, Except.bind, hcharge, pure, Except.pure]
    split_ifs with hover
    · rfl
    rw [show evict self.retained _ = _ from hevict _]
    cases evictionLoop self.retained 0 (self.cacheBytes + cacheBytes) with
    | error => rfl
    | ok kept =>
      show (_, carryOut self ⟨_, kept.1, kept.2⟩) = _
      rw [carryOut, iterate_popFront]
      rfl

/-! ### What an admission evicts -/

/-- What retained revisions are charged together. -/
def charges (retained : List (RevisionRecord Sources Definitions)) : ℕ :=
  (retained.map RevisionRecord.cacheBytes).sum

/-- The revisions may stay beside a new one with this charge. -/
def Fits (retained : List (RevisionRecord Sources Definitions)) (charge : ℕ) : Prop :=
  retained.length + 1 ≤ maxRetainedRevisions ∧ charges retained + charge ≤ maxSessionCacheBytes

variable {k charge formattingBytes : ℕ} {definitions : Option Definitions} {report : Option String}
  {sources : Sources}

theorem charges_drop (hk : k < retained.length) :
    charges (retained.drop k) = retained[k].cacheBytes + charges (retained.drop (k + 1)) := by
  rw [List.drop_eq_getElem_cons hk, charges, List.map_cons, List.sum_cons]
  rfl

/-- The loop stops at the first revisions that fit. The induction is on the revisions that are left
to drop; the projected charge is always the one of these with the new one. -/
theorem evictionLoop_eq (hcharge : charge ≤ maxSessionCacheBytes) (hk : k ≤ retained.length) :
    ∃ n, evictionLoop retained k (charges (retained.drop k) + charge)
        = .ok (n, charges (retained.drop n) + charge)
      ∧ n ≤ retained.length ∧ Fits (retained.drop n) charge
      ∧ ∀ j, k ≤ j → j < n → ¬Fits (retained.drop j) charge := by
  induction hleft : retained.length - k generalizing k with
  | zero =>
    obtain rfl : k = retained.length := by omega
    have hfits : Fits (retained.drop retained.length) charge := by
      rw [List.drop_length]
      exact ⟨Nat.le_succ 1, by simpa [charges] using hcharge⟩
    refine ⟨retained.length, ?_, le_rfl, hfits, fun j hj hlt => absurd hj (by omega)⟩
    rw [evictionLoop, if_neg]
    rintro (hcount | hcharges)
    · have := hfits.1
      rw [List.length_drop] at this
      omega
    · exact absurd hfits.2 (by omega)
  | succ left ih =>
    have hlt : k < retained.length := by omega
    by_cases hfits : Fits (retained.drop k) charge
    · refine ⟨k, ?_, hk, hfits, fun j hj hlt => absurd hj (by omega)⟩
      rw [evictionLoop, if_neg]
      rintro (hcount | hcharges)
      · have := hfits.1
        rw [List.length_drop] at this
        omega
      · exact absurd hfits.2 (by omega)
    · obtain ⟨n, hloop, hn, hfit, hleast⟩ := ih (k := k + 1) hlt (by omega)
      refine ⟨n, ?_, hn, hfit, fun j hj hjn => ?_⟩
      · rw [evictionLoop, if_pos]
        · split
          · next hnone => exact absurd (List.getElem?_eq_none_iff.mp hnone) (by omega)
          · next evicted hsome =>
            obtain ⟨-, rfl⟩ := getElem?_eq_some_iff.mp hsome
            have hdrop := charges_drop hlt
            rw [if_neg (by omega), ← hloop]
            congr 1
            omega
        · unfold Fits at hfits
          rw [List.length_drop] at hfits
          omega
      · obtain rfl | hj := Nat.eq_or_lt_of_le hj
        · exact hfits
        · exact hleast j hj hjn

/-! ### The invariant -/

/-- What holds of the retained revisions after every operation. -/
structure Retains (session : DiagnosticSession Sources Definitions) : Prop where
  count : session.retained.length ≤ maxRetainedRevisions
  serials : session.retained.Pairwise fun earlier later =>
    earlier.description.handle.serial < later.description.handle.serial
  fresh : ∀ record ∈ session.retained, record.description.handle.serial < session.nextRevision
  newest : ∀ record, session.active = some record →
    record.description.handle.serial + 1 = session.nextRevision
  accounted : session.cacheBytes = charges session.retained
  bounded : session.cacheBytes ≤ maxSessionCacheBytes

theorem Retains.new (session : ℕ) :
    (DiagnosticSession.new session : DiagnosticSession Sources Definitions).Retains where
  count := Nat.zero_le _
  serials := .nil
  fresh := nofun
  newest := nofun
  accounted := rfl
  bounded := Nat.zero_le _

/-- An operation that leaves revisions alone keeps the invariant. -/
theorem Retains.congr (h : self.Retains) (hretained : session.retained = self.retained)
    (hnext : session.nextRevision = self.nextRevision)
    (hbytes : session.cacheBytes = self.cacheBytes) : session.Retains where
  count := hretained ▸ h.count
  serials := hretained ▸ h.serials
  fresh := by
    rw [hretained, hnext]
    exact h.fresh
  newest := by
    rw [active, hretained, hnext]
    exact h.newest
  accounted := by rw [hbytes, hretained, h.accounted]
  bounded := hbytes ▸ h.bounded

theorem Retains.begin (h : self.Retains) {method : String}
    {kindOf : ParsedRequest → RevisionRecord Sources Definitions →
      Except (QueryStatus × QueryReason) QueryKind} {bytes : List UInt8} {now : ℕ}
    {result : Except DiagnosticQueryResponse PendingQuery}
    (hbegin : self.begin authority reader latest method kindOf bytes now = (result, session)) :
    session.Retains := by
  obtain ⟨-, -, -, -, rfl⟩ | ⟨-, -, ⟨-, -, rfl⟩ | ⟨-, -, -, -, -, -, rfl⟩⟩ := begin_cases hbegin
  · exact h
  · exact h.congr rfl rfl rfl
  · exact h.congr rfl rfl rfl

theorem Retains.cancel (h : self.Retains) (requestId : String) :
    (self.cancel requestId).2.Retains := by
  unfold DiagnosticSession.cancel
  split
  · exact h
  · exact h.congr rfl rfl rfl

theorem Retains.finish (h : self.Retains) (query : PendingQuery) (now : ℕ) :
    (self.finish authority query now).2.Retains := by
  rw [finish_session, release]
  split
  · exact h.congr rfl rfl rfl
  · exact h

/-- What an admission of a revision with an acceptable charge does. -/
theorem Retains.admitting_eq (h : self.Retains) {sourceFingerprint : List UInt8}
    (hnext : self.nextRevision ≤ maxRevision)
    (hcharge : ownCharge authority sources report definitions formattingBytes
      = .ok (sourceFingerprint, charge)) :
    ∃ n record, record.cacheBytes = charge
      ∧ record.description = ⟨⟨self.session, self.nextRevision⟩, self.nextRevision,
        sourceFingerprint⟩
      ∧ Fits (self.retained.drop n) charge
      ∧ (∀ j < n, ¬Fits (self.retained.drop j) charge)
      ∧ self.admitting authority sources report definitions formattingBytes
        = (.ok record.description, self.carryOut ⟨record, n, charges (self.retained.drop n) + charge⟩)
    := by
  have hle : charge ≤ maxSessionCacheBytes := by
    simp only [ownCharge, checkedCacheCharge, Checked.bind_eq_ok, Checked.ite_error_eq_ok,
      Checked.pure_eq_ok, Except.ok.injEq, Prod.mk.injEq] at hcharge
    obtain ⟨_, -, _, -, _, ⟨hle, rfl⟩, -, rfl⟩ := hcharge
    exact Nat.not_lt.mp fun hover => hle (.inr hover)
  obtain ⟨n, hloop, -, hfits, hleast⟩ :=
    evictionLoop_eq hle (Nat.zero_le self.retained.length)
  rw [List.drop_zero, ← h.accounted] at hloop
  refine ⟨n, ⟨self.nextAddress, _, sources, report, definitions, charge⟩, rfl, rfl, hfits,
    fun j hj => hleast j (Nat.zero_le j) hj, ?_⟩
  have hbounded := h.bounded
  unfold maxSessionCacheBytes at hle hbounded
  unfold admitting planAdmission
  rw [if_neg (Nat.not_lt.mpr hnext), hcharge]
  simp only [bind, Except.bind]
  rw [if_neg (by omega), hloop]

theorem ownCharge_of_admitting {revision : DiagnosticRevision}
    (hadmitting : (self.admitting authority sources report definitions formattingBytes).1
      = .ok revision) :
    self.nextRevision ≤ maxRevision ∧ ∃ sourceFingerprint charge,
      ownCharge authority sources report definitions formattingBytes
        = .ok (sourceFingerprint, charge) := by
  unfold admitting at hadmitting
  split at hadmitting
  · cases hadmitting
  · next plan hplan =>
    unfold planAdmission at hplan
    rw [Checked.ite_error_bind_eq_ok] at hplan
    obtain ⟨hnext, hplan⟩ := hplan
    obtain ⟨⟨sourceFingerprint, charge⟩, hcharge, -⟩ := Checked.bind_eq_ok.mp hplan
    exact ⟨Nat.not_lt.mp hnext, sourceFingerprint, charge, hcharge⟩

/-- An admission keeps the invariant. -/
theorem Retains.carryOut (h : self.Retains) {record : RevisionRecord Sources Definitions} {n : ℕ}
    (hserial : record.description.handle.serial = self.nextRevision)
    (hfits : Fits (self.retained.drop n) record.cacheBytes) :
    (self.carryOut ⟨record, n, charges (self.retained.drop n) + record.cacheBytes⟩).Retains := by
  have hretained : (self.carryOut ⟨record, n, charges (self.retained.drop n)
      + record.cacheBytes⟩).retained = self.retained.drop n ++ [record] := by
    rw [DiagnosticSession.carryOut, iterate_popFront]
    rfl
  have hnext : (self.carryOut ⟨record, n, charges (self.retained.drop n)
      + record.cacheBytes⟩).nextRevision = self.nextRevision + 1 := by
    rw [DiagnosticSession.carryOut, iterate_popFront]
    rfl
  have hdropped {r : RevisionRecord Sources Definitions} (hr : r ∈ self.retained.drop n) :
      r.description.handle.serial < self.nextRevision := h.fresh r (List.mem_of_mem_drop hr)
  constructor
  · rw [hretained, List.length_append]
    exact hfits.1
  · rw [hretained]
    refine List.pairwise_append.mpr ⟨h.serials.sublist (List.drop_sublist n _),
      List.pairwise_singleton _ _, fun r hr r' hr' => ?_⟩
    rw [List.mem_singleton.mp hr', hserial]
    exact hdropped hr
  · rw [hretained, hnext]
    intro r hr
    obtain hr | hr := List.mem_append.mp hr
    · exact (hdropped hr).trans (Nat.lt_succ_self _)
    · rw [List.mem_singleton.mp hr, hserial]
      exact Nat.lt_succ_self _
  · intro r hr
    rw [active, hretained, List.getLast?_concat, Option.some.injEq] at hr
    rw [hnext, ← hr, hserial]
  · rw [hretained]
    show charges (self.retained.drop n) + record.cacheBytes = _
    simp [charges]
  · exact hfits.2

end DiagnosticSession

open DiagnosticSession List

/-! ### All runs -/

variable {authority : Authority Sources Definitions} {reader : RequestReader} {latest : ℕ}
  {w : World Sources Definitions}

theorem Step.retains {w' : World Sources Definitions} (h : w.session.Retains)
    (hstep : Step authority reader latest w w') : w'.session.Retains := by
  cases hstep with
  | @admission sources report definitions formattingBytes revision session hadmission =>
    have heq := @admitting_eq _ _ authority w.session sources report definitions
      formattingBytes
    rw [hadmission] at heq
    obtain ⟨hnext, _, charge, hcharge⟩ := ownCharge_of_admitting (congrArg Prod.fst heq)
    obtain ⟨n, record, rfl, hrecord, hfits, -, hadmitting⟩ := h.admitting_eq hnext hcharge
    rw [heq, Prod.mk.injEq] at hadmitting
    rw [hadmitting.2]
    exact h.carryOut (by rw [hrecord]) hfits
  | beginDiagnostics hbegin => exact h.begin hbegin
  | beginDefinition hbegin => exact h.begin hbegin
  | refuseDiagnostics hbegin => exact h.begin hbegin
  | refuseDefinition hbegin => exact h.begin hbegin
  | cancel hslot => exact h.cancel _
  | finish now htarget => exact h.finish _ now

theorem Reachable.retains {session : ℕ}
    (hrun : Reachable authority reader latest session w) : w.session.Retains := by
  induction hrun with
  | refl => exact .new session
  | tail _ hstep ih => exact hstep.retains ih

/-- In every state that a session reaches, the retained revisions are within both limits and
accounted for. An admission there is refused for the charge of its own revision or the end of the
revision space only, and then changes nothing; otherwise it drops the fewest oldest revisions that
make room, and the new revision is the last one. -/
theorem revisions_retained (authority : Authority Sources Definitions) (reader : RequestReader)
    (latest session : ℕ) (w : World Sources Definitions)
    (hrun : Reachable authority reader latest session w) :
    w.session.Retains ∧ ∀ sources report definitions formattingBytes,
      let result := w.session.admitting authority sources report definitions formattingBytes
      ((∃ revision, result.1 = .ok revision) ↔ w.session.nextRevision ≤ maxRevision
        ∧ ∃ own, ownCharge authority sources report definitions formattingBytes = .ok own)
      ∧ (∀ error, result.1 = .error error → result.2 = w.session)
      ∧ ∀ revision, result.1 = .ok revision → result.2.Retains ∧ ∃ n record,
        result.2.retained = w.session.retained.drop n ++ [record]
        ∧ record.description = revision
        ∧ revision.handle.serial = w.session.nextRevision
        ∧ ownCharge authority sources report definitions formattingBytes
          = .ok (revision.sourceFingerprint, record.cacheBytes)
        ∧ Fits (w.session.retained.drop n) record.cacheBytes
        ∧ ∀ j < n, ¬Fits (w.session.retained.drop j) record.cacheBytes := by
  have hretains := Reachable.retains hrun
  refine ⟨hretains, fun sources report definitions formattingBytes => ⟨⟨?_, ?_⟩, ?_, ?_⟩⟩
  · rintro ⟨revision, hrevision⟩
    obtain ⟨hnext, _, _, hcharge⟩ := ownCharge_of_admitting hrevision
    exact ⟨hnext, _, hcharge⟩
  · rintro ⟨hnext, ⟨sourceFingerprint, charge⟩, hcharge⟩
    obtain ⟨n, record, -, -, -, -, hadmitting⟩ := hretains.admitting_eq hnext hcharge
    exact ⟨record.description, by rw [hadmitting]⟩
  · intro error herror
    dsimp only [admitting] at herror ⊢
    split at herror
    · rfl
    · cases herror
  · intro revision hrevision
    obtain ⟨hnext, sourceFingerprint, charge, hcharge⟩ := ownCharge_of_admitting hrevision
    obtain ⟨n, record, rfl, hrecord, hfits, hleast, hadmitting⟩ :=
      hretains.admitting_eq hnext hcharge
    rw [hadmitting] at hrevision ⊢
    obtain rfl := Except.ok.inj hrevision
    refine ⟨hretains.carryOut (by rw [hrecord]) hfits, n, record, ?_, rfl, by rw [hrecord],
      by rw [hrecord, hcharge], hfits, hleast⟩
    show (w.session.carryOut _).retained = _
    rw [DiagnosticSession.carryOut, iterate_popFront]
    rfl

/-- Charges every revision forty mebibytes. -/
private def fortyMebibytes : Authority Unit Unit where
  identity := fun _ => 0
  fingerprint := fun _ => .ok ([], 41943040)
  locates := fun _ _ _ => false
  validateJson := fun _ _ => false
  cacheBytes := fun _ => none
  definition := fun _ _ _ _ _ => .absent

private def noReader : RequestReader := ⟨fun _ => none, fun _ => none⟩

private def firstRecord : RevisionRecord Unit Unit :=
  ⟨0, ⟨⟨0, 1⟩, 1, []⟩, (), none, none, 41943040⟩

private def firstAdmitted : DiagnosticSession Unit Unit where
  session := 0
  nextRevision := 2
  retained := [firstRecord]
  cacheBytes := 41943040
  inFlight := .empty
  cells := fun _ => .live
  nextCell := 0
  nextAddress := 1

/-- A second revision of this size takes the place of the first one. -/
theorem revisions_retained_second :
    ∃ record, (firstAdmitted.admitting fortyMebibytes () none none 0).2.retained = [record]
      ∧ record.description = ⟨⟨0, 2⟩, 2, []⟩ := by
  have hadmission : (DiagnosticSession.new 0).admission fortyMebibytes () none none 0
      = .ok (firstRecord.description, firstAdmitted) := by
    unfold admission
    rw [if_neg (by decide)]
    have hcharge : checkedCacheCharge 41943040 0 0 = .ok 41943040 := by
      rw [checkedCacheCharge, if_neg (by decide)]
    have hevict : evict ([] : List (RevisionRecord Unit Unit)) 41943040 = .ok ([], 41943040) := by
      rw [evict, if_neg (by decide)]
    simp [fortyMebibytes, semanticCharge, bind, Except.bind, hcharge, hevict, DiagnosticSession.new,
      firstAdmitted, firstRecord]
  obtain ⟨hretains, hsound⟩ := revisions_retained fortyMebibytes noReader 0 0
    ⟨firstAdmitted, [], [.admitted firstRecord.description]⟩ (.tail .refl (.admission hadmission))
  obtain ⟨haccepted, -, hadmitted⟩ := hsound () none none 0
  have hown : ownCharge fortyMebibytes () none none 0 = .ok ([], 41943040) := rfl
  obtain ⟨revision, hrevision⟩ := haccepted.mpr ⟨by decide, _, hown⟩
  obtain ⟨-, n, record, hretained, hrecord, hserial, hcharge, hfits, -⟩ :=
    hadmitted revision hrevision
  rw [hown, Except.ok.injEq, Prod.mk.injEq] at hcharge
  rw [← hcharge.2] at hfits
  -- two revisions of forty mebibytes do not fit
  cases n with
  | zero => exact absurd hfits.2 (by decide)
  | succ n =>
    refine ⟨record, by simpa [firstAdmitted] using hretained, ?_⟩
    have hsecond : (firstAdmitted.admitting fortyMebibytes () none none 0).1
        = .ok ⟨⟨0, 2⟩, 2, []⟩ := by
      rw [admitting_eq]
      rfl
    exact hrecord.trans (Except.ok.inj (hrevision.symm.trans hsecond))

end Zryna.Driver.DiagnosticSessions
