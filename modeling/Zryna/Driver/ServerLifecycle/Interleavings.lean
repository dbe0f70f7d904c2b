import Zryna.Driver.ServerLifecycle.Registry
import Zryna.Foundation.History
import Zryna.Foundation.Ledger

/-!
# Interleavings of a server

A server under any order of critical sections. Between two of them entries are destroyed: a `World`
keeps the entries that were removed from the registry and are not charged back yet, and any of them
may be destroyed next, well or not, or never. Who removed an entry does not matter for it.

`Inv` is the invariant of all runs, with the ledger of the run's own history as its core: the
counters of the registry follow the ledger, and every entry that is held, in the registry or
detached, is outstanding in it.
-/

namespace Zryna.Driver.ServerLifecycle

variable {Authority : Type}

/-! ### Worlds -/

/-- Why an entry left the registry. -/
inductive Cause where
  | cancelled
  | denied
  | dropped
  | expired
  | consumed
  | stopped
deriving DecidableEq

/-- What happened to a server. -/
inductive Event where
  | admitted (id reservation deadline : ℕ)
  | removed (id : ℕ) (cause : Cause)
  /-- The callback of a publication ran at an instant. -/
  | published (id now : ℕ)
  | stopped
  /-- An entry was charged back, and whether its destructors succeeded. -/
  | retired (id : ℕ) (destroyed : Bool)
deriving DecidableEq

def Event.charge : Event → Option (ℕ × ℕ)
  | .admitted id reservation _ => some (id, reservation)
  | _ => none

def Event.repaid : Event → Option ℕ
  | .retired id _ => some id
  | _ => none

/-- The reservations of a history. -/
def ledger (log : List Event) : Ledger ℕ := ⟨log.filterMap Event.charge, log.filterMap Event.repaid⟩

/-- Where the deadline worker is. -/
inductive Worker where
  | watching
  | retiring (ids : List ℕ)
  /-- About to stop the host. -/
  | leaving (error : Error)
  | returned (result : Except Error Unit)

/-- A worker whose watch is over; after an error it stops the host. -/
def Worker.after : Except Error Unit → Worker
  | .ok () => .returned (.ok ())
  | .error error => .leaving error

/-- Where the termination of the server is. -/
inductive Termination where
  | running
  | joining
  | awaiting (joined : Except Error Unit)
  | returned (result : Except Error Unit)

structure World (Authority : Type) where
  shared : Shared Authority
  detached : List (ℕ × Entry Authority)
  worker : Worker
  termination : Termination
  log : List Event

namespace World

/-- A server that has just started. -/
def start : World Authority := ⟨⟨.start, false⟩, [], .watching, .running, []⟩

/-- Entries leave the registry. -/
def detach (w : World Authority) (shared : Shared Authority) (removed : List (ℕ × Entry Authority))
    (cause : Cause) : World Authority :=
  { w with
    shared := shared
    detached := w.detached ++ removed
    log := w.log ++ removed.map fun entry => .removed entry.1 cause }

/-- A stop, whoever asks for it. -/
def stop (w : World Authority) : World Authority :=
  { w with log := w.log ++ [Event.stopped] }.detach w.shared.stop.2 w.shared.stop.1 .stopped

end World

/-- One critical section, or a change of place of the worker or of the termination. A request can be
referred to once it is admitted. -/
inductive Step (limits : Limits) : World Authority → World Authority → Prop
  | admission {w : World Authority} {input : Input} {reservation now now' id : ℕ}
    {shared : Shared Authority} (hreservation : input.reservation limits now = .ok reservation)
    (h : w.shared.admission limits input reservation now' = .ok (id, shared)) :
    Step limits w
      { w with shared := shared, log := w.log ++ [.admitted id reservation input.deadline] }
  | revoke {w : World Authority} {id : ℕ} {entry : Option (Entry Authority)}
    {shared : Shared Authority} {cause : Cause}
    (hcause : cause = .cancelled ∨ cause = .denied ∨ cause = .dropped)
    (hid : id ∈ (ledger w.log).keys) (h : w.shared.remove id = .ok (entry, shared)) :
    Step limits w (w.detach shared (leased id entry) cause)
  | check {w : World Authority} {id : ℕ} (now : ℕ) (hid : id ∈ (ledger w.log).keys) :
    Step limits w (w.detach (w.shared.check id now).2.2 (leased id (w.shared.check id now).2.1)
      .expired)
  | retain {w : World Authority} {id now : ℕ} {authority : Authority} {shared : Shared Authority}
    (hid : id ∈ (ledger w.log).keys) (h : w.shared.retain id authority now = .ok shared) :
    Step limits w { w with shared := shared }
  | publish {w : World Authority} {id : ℕ} (status : ℕ) (callback : Callback) (now : ℕ)
    (hid : id ∈ (ledger w.log).keys) {publication : Publication Authority}
    (h : w.shared.publish id status callback now = publication) :
    Step limits w ({ w with
      log := w.log ++ if publication.committed then [Event.published id now] else [] }
      |>.detach publication.shared (leased id publication.removed) .consumed)
  | retire {w : World Authority} {id : ℕ} {entry : Entry Authority} {destroyed : Bool}
    {revoked : List (ℕ × Entry Authority)} {shared : Shared Authority}
    (hmem : (id, entry) ∈ w.detached)
    (h : w.shared.retire entry destroyed = some (revoked, shared)) :
    Step limits w ({ w with
      detached := w.detached.filter fun entry => entry.1 ≠ id
      log := w.log ++ [Event.retired id destroyed] ++ if destroyed then [] else [Event.stopped] }
      |>.detach shared revoked .stopped)
  | watchReturns {w : World Authority} {now : ℕ} {result : Except Error Unit}
    (hworker : w.worker = .watching) (h : w.shared.watch now = .returns result) :
    Step limits w { w with worker := .after result }
  | watchRetires {w : World Authority} {now : ℕ} {removed : List (ℕ × Entry Authority)}
    {shared : Shared Authority} (hworker : w.worker = .watching)
    (h : w.shared.watch now = .retires removed shared) :
    Step limits w ({ w with worker := .retiring (removed.map Prod.fst) }
      |>.detach shared removed .expired)
  | watchResumes {w : World Authority} {ids : List ℕ} (hworker : w.worker = .retiring ids)
    (hretired : ∀ id ∈ ids, ∃ destroyed, Event.retired id destroyed ∈ w.log)
    (hdestroyed : ∀ id ∈ ids, Event.retired id false ∉ w.log) :
    Step limits w { w with worker := .watching }
  | watchFails {w : World Authority} {ids : List ℕ} (hworker : w.worker = .retiring ids)
    (hretired : ∀ id ∈ ids, ∃ destroyed, Event.retired id destroyed ∈ w.log) {id : ℕ}
    (hid : id ∈ ids) (hfailed : Event.retired id false ∈ w.log) :
    Step limits w { w with worker := .leaving .host }
  /-- What a destructor panicked with may panic in its turn when it is destroyed, and end the
  worker. -/
  | watchPanics {w : World Authority} {ids : List ℕ} (hworker : w.worker = .retiring ids) :
    Step limits w { w with worker := .returned (.error .host) }
  | leave {w : World Authority} {error : Error} (hworker : w.worker = .leaving error) :
    Step limits w { w with worker := .returned (.error error) }.stop
  | terminate {w : World Authority} (htermination : w.termination = .running) :
    Step limits w { w with termination := .joining }.stop
  | join {w : World Authority} {result : Except Error Unit}
    (htermination : w.termination = .joining) (hworker : w.worker = .returned result) :
    Step limits w { w with termination := .awaiting result }
  | await {w : World Authority} {joined cleaned : Except Error Unit}
    (htermination : w.termination = .awaiting joined) (h : w.shared.awaitEmpty = some cleaned) :
    Step limits w { w with termination := .returned (joined >>= fun _ => cleaned) }

/-- What any order of sections leads to from the start. -/
def Reachable (limits : Limits) (w : World Authority) : Prop :=
  limits.validate = .ok limits ∧ Relation.ReflTransGen (Step limits) .start w

/-! ### What the sections do -/

section Sections

variable {limits : Limits} {self state : State Authority} {shared shared' : Shared Authority}

theorem Shared.lock_eq_ok :
    shared.lock = .ok state ↔ shared.poisoned = false ∧ shared.state = state := by
  unfold Shared.lock
  cases shared.poisoned <;> simp

theorem State.active_eq_ok : self.active = .ok () ↔ self.stopped = false := by
  unfold State.active
  cases self.stopped <;> simp

theorem State.admission_eq_ok {input : Input} {reservation now id : ℕ}
    (h : self.admission limits input reservation now = .ok (id, state)) :
    self.stopped = false ∧ now < input.deadline ∧ self.live < limits.requests
    ∧ self.bytes + reservation ≤ limits.bufferBytes ∧ id = self.next ∧ id + 1 < 2 ^ 64
    ∧ state = { self with
      entries := self.entries.insert id
        ⟨input.deadline, reservation, input.method, input.path, input.body, none⟩
      next := id + 1
      bytes := self.bytes + reservation
      live := self.live + 1 } := by
  unfold State.admission at h
  simp only [Checked.bind_eq_ok, Checked.ite_error_bind_eq_ok, Except.ok.injEq,
    Prod.mk.injEq] at h
  obtain ⟨_, hactive, hdeadline, -, hlimits, hnext, rfl, rfl⟩ := h
  obtain ⟨hlive, hbytes⟩ := not_or.mp hlimits
  exact ⟨State.active_eq_ok.mp hactive, Nat.not_le.mp hdeadline, Nat.not_le.mp hlive,
    Nat.not_lt.mp hbytes, rfl, Nat.not_le.mp hnext, rfl⟩

/-- A removal detaches what was held under the id. -/
theorem State.remove_perm (id : ℕ) : self.entries.entries.Perm
    (leased id (self.remove id).1 ++ (self.remove id).2.entries.entries) := by
  show self.entries.entries.Perm
    (leased id (self.entries.get? id) ++ (self.entries.erase id).entries)
  cases hget : self.entries.get? id with
  | none =>
    rw [OrderedMap.erase_eq_self hget]
    exact .refl _
  | some entry => exact OrderedMap.perm_erase hget

theorem State.removeAll_perm (ids : List ℕ) : self.entries.entries.Perm
    ((State.removeAll ids self).1 ++ (State.removeAll ids self).2.entries.entries) := by
  induction ids generalizing self with
  | nil => exact .refl _
  | cons id ids ih =>
    show self.entries.entries.Perm ((leased id (self.remove id).1
      ++ (State.removeAll ids (self.remove id).2).1)
      ++ (State.removeAll ids (self.remove id).2).2.entries.entries)
    rw [List.append_assoc]
    exact (self.remove_perm id).trans (ih.append_left _)

/-- Removals change nothing but the entries. -/
theorem State.removeAll_eq (ids : List ℕ) : (State.removeAll ids self).2
    = { self with entries := (State.removeAll ids self).2.entries } := by
  induction ids generalizing self with
  | nil => rfl
  | cons id ids ih => exact ih

theorem Shared.retire_eq_some {entry : Entry Authority} {destroyed : Bool}
    {revoked : List (ℕ × Entry Authority)}
    (h : shared.retire entry destroyed = some (revoked, shared')) :
    entry.reservation ≤ shared.state.bytes ∧ 1 ≤ shared.state.live
    ∧ (destroyed = true ∧ revoked = [] ∧ shared' = { shared with state := { shared.state with
          bytes := shared.state.bytes - entry.reservation
          live := shared.state.live - 1 } }
      ∨ destroyed = false ∧ revoked = shared.state.entries.entries
        ∧ shared' = { shared with state := { shared.state with
          bytes := shared.state.bytes - entry.reservation
          live := shared.state.live - 1
          failed := true
          stopped := true
          entries := .empty } }) := by
  unfold Shared.retire at h
  split at h
  · cases h
  next hbounds =>
  obtain ⟨hbytes, hlive⟩ := not_or.mp hbounds
  refine ⟨Nat.not_lt.mp hbytes, Nat.not_lt.mp hlive, ?_⟩
  cases destroyed with
  | true =>
    cases h
    exact .inl ⟨rfl, rfl, rfl⟩
  | false =>
    cases h
    exact .inr ⟨rfl, rfl, rfl⟩

end Sections

end Zryna.Driver.ServerLifecycle
