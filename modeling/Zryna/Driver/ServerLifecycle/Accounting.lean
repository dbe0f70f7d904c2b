import Zryna.Driver.ServerLifecycle.Interleavings

/-!
# Exact accounting

The invariant of all runs of a server and what follows from it. A section changes the accounts in
one of four ways: an admission charges, a retirement repays, and a removal or a stop only moves
leases or closes the registry, so each of the four is one lemma and every step is made of them.
-/

namespace Zryna.Driver.ServerLifecycle

open OrderedMap List

open History (Causal)

variable {Authority : Type} {log events : List Event}

/-! ### Ledgers of histories -/

/-- Events that neither charge nor repay. -/
def Neutral (events : List Event) : Prop :=
  ∀ event ∈ events, event.charge = none ∧ event.repaid = none

theorem ledger_append (h : Neutral events) : ledger (log ++ events) = ledger log := by
  have hcharge : events.filterMap Event.charge = [] :=
    filterMap_eq_nil_iff.mpr fun event hmem => (h event hmem).1
  have hrepaid : events.filterMap Event.repaid = [] :=
    filterMap_eq_nil_iff.mpr fun event hmem => (h event hmem).2
  rw [ledger, filterMap_append, filterMap_append, hcharge, hrepaid, append_nil,
    append_nil]
  rfl

theorem ledger_admitted (log : List Event) (id reservation deadline : ℕ) :
    ledger (log ++ [.admitted id reservation deadline]) = (ledger log).charge id reservation := by
  rw [ledger, filterMap_append, filterMap_append]
  simp [ledger, Ledger.charge, Event.charge, Event.repaid]

theorem ledger_retired (log : List Event) (id : ℕ) (destroyed : Bool) :
    ledger (log ++ [.retired id destroyed]) = (ledger log).repay id := by
  rw [ledger, filterMap_append, filterMap_append]
  simp [ledger, Ledger.repay, Event.charge, Event.repaid]

theorem mem_repaid_ledger {id : ℕ} :
    id ∈ (ledger log).repaid ↔ ∃ destroyed, Event.retired id destroyed ∈ log := by
  rw [ledger, mem_filterMap]
  constructor
  · rintro ⟨event, hevent, heq⟩
    cases event <;> cases heq
    exact ⟨_, hevent⟩
  · rintro ⟨destroyed, hmem⟩
    exact ⟨_, hmem, rfl⟩

/-! ### The invariant -/

/-- What was so when the callback of a publication ran: its request was admitted and still
registered, the deadline was ahead, and the host was active. -/
def Justified (before : List Event) : Event → Prop
  | .published id now =>
    (∃ reservation deadline, Event.admitted id reservation deadline ∈ before ∧ now < deadline)
      ∧ (∀ cause, Event.removed id cause ∉ before) ∧ Event.stopped ∉ before
  | _ => True

/-- What holds of a registry, of the detached entries and of the history in every run. -/
structure Inv (limits : Limits) (state : State Authority) (detached : List (ℕ × Entry Authority))
    (log : List Event) : Prop where
  valid : (ledger log).Valid
  live : state.live = (ledger log).count
  live_le : state.live ≤ limits.requests
  bytes : state.bytes = (ledger log).total
  bytes_le : state.bytes ≤ limits.bufferBytes
  fresh : ∀ id ∈ (ledger log).keys, id < state.next
  nodup : (detached.map Prod.fst).Nodup
  disjoint : ∀ lease ∈ detached, lease.1 ∉ state.entries.keys
  outstanding : ∀ lease ∈ state.entries.entries ++ detached,
    (lease.1, lease.2.reservation) ∈ (ledger log).outstanding
  deadline : ∀ lease ∈ state.entries.entries,
    ∃ reservation, Event.admitted lease.1 reservation lease.2.deadline ∈ log
  registered : ∀ id, id ∈ state.entries.keys ↔
    id ∈ (ledger log).keys ∧ ∀ cause, Event.removed id cause ∉ log
  known : ∀ id cause, Event.removed id cause ∈ log → id ∈ (ledger log).keys
  stopped : Event.stopped ∈ log → state.stopped = true
  failed : ∀ id, Event.retired id false ∈ log → state.failed = true
  causal : Causal Justified log

namespace Inv

variable {limits : Limits} {state : State Authority} {detached removed : List (ℕ × Entry Authority)}

theorem start : Inv limits (.start : State Authority) [] [] where
  valid := ⟨.nil, .nil, List.Subset.refl _⟩
  live := rfl
  live_le := Nat.zero_le _
  bytes := rfl
  bytes_le := Nat.zero_le _
  fresh := nofun
  nodup := .nil
  disjoint := nofun
  outstanding := nofun
  deadline := nofun
  registered := fun _ => iff_of_false not_mem_nil fun h => not_mem_nil h.1
  known := nofun
  stopped := nofun
  failed := nofun
  causal := .nil

section

variable (h : Inv limits state detached log)

include h

/-- An admission charges a new id. -/
theorem admission (entry : Entry Authority) (hlive : state.live < limits.requests)
    (hbytes : state.bytes + entry.reservation ≤ limits.bufferBytes) :
    Inv limits { state with
        entries := state.entries.insert state.next entry
        next := state.next + 1
        bytes := state.bytes + entry.reservation
        live := state.live + 1 }
      detached (log ++ [.admitted state.next entry.reservation entry.deadline]) := by
  have hnew : state.next ∉ (ledger log).keys := fun hmem => lt_irrefl _ (h.fresh _ hmem)
  have hledger := ledger_admitted log state.next entry.reservation entry.deadline
  have hkeys {id : ℕ} : id ∈ ((ledger log).charge state.next entry.reservation).keys
      ↔ id ∈ (ledger log).keys ∨ id = state.next := by
    rw [Ledger.keys_charge, mem_append, mem_singleton]
  have hold {event : Event} (hne : event.charge = none) :
      event ∈ log ++ [.admitted state.next entry.reservation entry.deadline] → event ∈ log := by
    intro hmem
    refine (mem_append.mp hmem).resolve_right fun hmem => ?_
    rw [mem_singleton.mp hmem] at hne
    cases hne
  refine ⟨?_, ?_, ?_, ?_, ?_, ?_, h.nodup, ?_, ?_, ?_, ?_, ?_, ?_, ?_, ?_⟩
  · rw [hledger]
    exact h.valid.charge hnew
  · rw [hledger, Ledger.count_charge h.valid hnew, ← h.live]
  · exact hlive
  · rw [hledger, Ledger.total_charge h.valid hnew, ← h.bytes]
  · exact hbytes
  · intro id hid
    rw [hledger, hkeys] at hid
    obtain hid | rfl := hid
    · exact (h.fresh id hid).trans (Nat.lt_succ_self _)
    · exact Nat.lt_succ_self _
  · intro lease hmem hkey
    obtain heq | hkey := mem_keys_insert.mp hkey
    · have houtstanding := h.outstanding lease (mem_append_right _ hmem)
      exact hnew (heq ▸ mem_map_of_mem (Ledger.mem_outstanding.mp houtstanding).1)
    · exact h.disjoint lease hmem hkey
  · intro lease hmem
    rw [hledger, Ledger.outstanding_charge h.valid hnew, mem_append, mem_singleton]
    obtain hmem | hmem := mem_append.mp hmem
    · obtain rfl | ⟨hmem, -⟩ := mem_insert.mp hmem
      · exact .inr rfl
      · exact .inl (h.outstanding lease (mem_append_left _ hmem))
    · exact .inl (h.outstanding lease (mem_append_right _ hmem))
  · intro lease hmem
    obtain rfl | ⟨hmem, -⟩ := mem_insert.mp hmem
    · exact ⟨entry.reservation, by simp⟩
    · obtain ⟨reservation, hlog⟩ := h.deadline lease hmem
      exact ⟨reservation, mem_append_left _ hlog⟩
  · intro id
    rw [hledger, hkeys]
    refine mem_keys_insert.trans ?_
    rw [h.registered]
    constructor
    · rintro (rfl | ⟨hid, hremoved⟩)
      · exact ⟨.inr rfl, fun cause hmem => hnew (h.known _ cause (hold rfl hmem))⟩
      · exact ⟨.inl hid, fun cause hmem => hremoved cause (hold rfl hmem)⟩
    · rintro ⟨hid | rfl, hremoved⟩
      · exact .inr ⟨hid, fun cause hmem => hremoved cause (mem_append_left _ hmem)⟩
      · exact .inl rfl
  · intro id cause hmem
    rw [hledger, hkeys]
    exact .inl (h.known id cause (hold rfl hmem))
  · exact fun hmem => h.stopped (hold rfl hmem)
  · exact fun id hmem => h.failed id (hold rfl hmem)
  · exact h.causal.concat trivial

/-- Removals move leases out of the registry. -/
theorem detach {entries : OrderedMap ℕ (Entry Authority)}
    (hperm : state.entries.entries.Perm (removed ++ entries.entries)) (cause : Cause) :
    Inv limits { state with entries := entries } (detached ++ removed)
      (log ++ removed.map fun lease => .removed lease.1 cause) := by
  set events := removed.map fun lease => Event.removed lease.1 cause with hevents
  have hnew {event : Event} (hmem : event ∈ events) :
      ∃ lease ∈ removed, Event.removed lease.1 cause = event := mem_map.mp hmem
  have hneutral : Neutral events := by
    intro event hmem
    obtain ⟨lease, -, rfl⟩ := hnew hmem
    exact ⟨rfl, rfl⟩
  have hkeys : state.entries.keys.Perm (removed.map Prod.fst ++ entries.keys) := by
    have := hperm.map Prod.fst
    rwa [map_append] at this
  obtain ⟨hremovedNodup, -, hapart⟩ :=
    nodup_append.mp (hkeys.nodup_iff.mp state.entries.nodup_keys)
  have hremovedKeys {lease : ℕ × Entry Authority} (hmem : lease ∈ removed) :
      lease.1 ∈ state.entries.keys :=
    hkeys.mem_iff.mpr (mem_append_left _ (mem_map_of_mem hmem))
  have hledger : ledger (log ++ events) = ledger log := ledger_append hneutral
  refine ⟨?_, ?_, h.live_le, ?_, h.bytes_le, ?_, ?_, ?_, ?_, ?_, ?_, ?_, ?_, ?_, ?_⟩
  · rw [hledger]
    exact h.valid
  · rw [hledger]
    exact h.live
  · rw [hledger]
    exact h.bytes
  · rw [hledger]
    exact h.fresh
  · rw [map_append, nodup_append]
    refine ⟨h.nodup, hremovedNodup, ?_⟩
    intro id hdetached id' hid' heq
    obtain ⟨lease, hlease, rfl⟩ := mem_map.mp hdetached
    obtain ⟨lease', hlease', rfl⟩ := mem_map.mp hid'
    exact h.disjoint lease hlease (heq ▸ hremovedKeys hlease')
  · intro lease hmem hkey
    obtain hmem | hmem := mem_append.mp hmem
    · exact h.disjoint lease hmem (hkeys.mem_iff.mpr (mem_append_right _ hkey))
    · exact hapart _ (mem_map_of_mem hmem) _ hkey rfl
  · intro lease hmem
    rw [hledger]
    refine h.outstanding lease ?_
    simp only [mem_append, hperm.mem_iff] at hmem ⊢
    tauto
  · intro lease hmem
    obtain ⟨reservation, hlog⟩ :=
      h.deadline lease (hperm.mem_iff.mpr (mem_append_right _ hmem))
    exact ⟨reservation, mem_append_left _ hlog⟩
  · intro id
    rw [hledger]
    constructor
    · intro hkey
      obtain ⟨hid, hremoved⟩ :=
        (h.registered id).mp (hkeys.mem_iff.mpr (mem_append_right _ hkey))
      refine ⟨hid, fun cause' hmem => ?_⟩
      obtain hmem | hmem := mem_append.mp hmem
      · exact hremoved cause' hmem
      · obtain ⟨lease, hlease, heq⟩ := hnew hmem
        cases heq
        exact hapart _ (mem_map_of_mem hlease) _ hkey rfl
    · rintro ⟨hid, hremoved⟩
      have hkey := (h.registered id).mpr
        ⟨hid, fun cause' hmem => hremoved cause' (mem_append_left _ hmem)⟩
      refine (mem_append.mp (hkeys.mem_iff.mp hkey)).resolve_left fun hmem => ?_
      obtain ⟨lease, hlease, rfl⟩ := mem_map.mp hmem
      exact hremoved cause (mem_append_right _ (mem_map.mpr ⟨lease, hlease, rfl⟩))
  · intro id cause' hmem
    rw [hledger]
    obtain hmem | hmem := mem_append.mp hmem
    · exact h.known id cause' hmem
    · obtain ⟨lease, hlease, heq⟩ := hnew hmem
      cases heq
      exact ((h.registered _).mp (hremovedKeys hlease)).1
  · intro hmem
    refine h.stopped ((mem_append.mp hmem).resolve_right fun hmem => ?_)
    obtain ⟨lease, -, heq⟩ := hnew hmem
    cases heq
  · intro id hmem
    refine h.failed id ((mem_append.mp hmem).resolve_right fun hmem => ?_)
    obtain ⟨lease, -, heq⟩ := hnew hmem
    cases heq
  · refine h.causal.append fun log event hmem => ?_
    obtain ⟨lease, -, rfl⟩ := hnew hmem
    trivial

/-- One more event that changes no accounts. -/
theorem concat {event : Event} (hneutral : Neutral [event])
    (hremoved : ∀ id cause, event ≠ .removed id cause)
    (hstopped : event = .stopped → state.stopped = true) (hjustified : Justified log event) :
    Inv limits state detached (log ++ [event]) := by
  have hledger : ledger (log ++ [event]) = ledger log := ledger_append hneutral
  have hmem {event' : Event} : event' ∈ log ++ [event] ↔ event' ∈ log ∨ event' = event := by
    rw [mem_append, mem_singleton]
  have hmemRemoved {id : ℕ} {cause : Cause} :
      Event.removed id cause ∈ log ++ [event] ↔ Event.removed id cause ∈ log := by
    rw [hmem, or_iff_left (hremoved id cause).symm]
  refine ⟨?_, ?_, h.live_le, ?_, h.bytes_le, ?_, h.nodup, h.disjoint, ?_, ?_, ?_, ?_, ?_, ?_, ?_⟩
  · rw [hledger]
    exact h.valid
  · rw [hledger]
    exact h.live
  · rw [hledger]
    exact h.bytes
  · rw [hledger]
    exact h.fresh
  · rw [hledger]
    exact h.outstanding
  · intro lease hlease
    obtain ⟨reservation, hlog⟩ := h.deadline lease hlease
    exact ⟨reservation, mem_append_left _ hlog⟩
  · simp only [hledger, hmemRemoved]
    exact h.registered
  · simp only [hledger, hmemRemoved]
    exact h.known
  · intro hlog
    obtain hlog | heq := hmem.mp hlog
    · exact h.stopped hlog
    · exact hstopped heq.symm
  · intro id hlog
    obtain hlog | rfl := hmem.mp hlog
    · exact h.failed id hlog
    · cases (hneutral _ (mem_singleton_self _)).2
  · exact h.causal.concat hjustified

/-- A stop closes the registry. -/
theorem halt : Inv limits { state with stopped := true } detached (log ++ [.stopped]) := by
  have hstopped : Inv limits { state with stopped := true } detached log :=
    { h with stopped := fun _ => rfl }
  exact hstopped.concat (by simp [Neutral, Event.charge, Event.repaid]) nofun (fun _ => rfl) trivial

variable {entry : Entry Authority} {id : ℕ}

/-- The callback of a publication runs for a lease in the registry. -/
theorem publish {now : ℕ} (hactive : state.stopped = false)
    (hget : state.entries.get? id = some entry) (hdeadline : now < entry.deadline) :
    Inv limits state detached (log ++ [.published id now]) := by
  have hmem : (id, entry) ∈ state.entries.entries := get?_eq_some.mp hget
  have hkey : id ∈ state.entries.keys := mem_map_of_mem hmem
  refine h.concat (by simp [Neutral, Event.charge, Event.repaid]) nofun nofun ⟨?_, ?_, ?_⟩
  · obtain ⟨reservation, hlog⟩ := h.deadline (id, entry) hmem
    exact ⟨reservation, entry.deadline, hlog, hdeadline⟩
  · exact ((h.registered id).mp hkey).2
  · intro hlog
    rw [h.stopped hlog] at hactive
    cases hactive

/-- A retirement repays the reservation of a detached entry, which is in the accounts. -/
theorem retire (hmem : (id, entry) ∈ detached) (destroyed : Bool) :
    entry.reservation ≤ state.bytes ∧ 1 ≤ state.live
    ∧ Inv limits { state with
        bytes := state.bytes - entry.reservation
        live := state.live - 1
        failed := state.failed || !destroyed }
      (detached.filter fun lease => lease.1 ≠ id) (log ++ [.retired id destroyed]) := by
  have hcharge := h.outstanding (id, entry) (mem_append_right _ hmem)
  have hledger := ledger_retired log id destroyed
  have hcount := Ledger.count_repay h.valid hcharge
  have htotal := Ledger.total_repay h.valid hcharge
  dsimp only at hcount htotal
  have hold {event : Event} (hne : event.repaid = none) :
      event ∈ log ++ [.retired id destroyed] → event ∈ log := by
    intro hlog
    refine (mem_append.mp hlog).resolve_right fun hlog => ?_
    rw [mem_singleton.mp hlog] at hne
    cases hne
  have hlive := h.live
  have hbytes := h.bytes
  refine ⟨by omega, by omega, ?_, ?_, ?_, ?_, ?_, ?_, ?_, ?_, ?_, ?_, ?_, ?_, ?_, ?_, ?_⟩
  · rw [hledger]
    exact h.valid.repay hcharge
  · rw [hledger]
    show state.live - 1 = _
    omega
  · exact (Nat.sub_le ..).trans h.live_le
  · rw [hledger]
    show state.bytes - entry.reservation = _
    omega
  · exact (Nat.sub_le ..).trans h.bytes_le
  · rw [hledger]
    exact h.fresh
  · exact h.nodup.sublist ((filter_sublist).map _)
  · exact fun lease hlease => h.disjoint lease (mem_filter.mp hlease).1
  · intro lease hlease
    rw [hledger]
    -- only the lease of this id is repaid, and it is not held any more
    have hheld : lease ∈ state.entries.entries ++ detached ∧ lease.1 ≠ id := by
      obtain hlease | hlease := mem_append.mp hlease
      · have hkey : lease.1 ∈ state.entries.keys := mem_map_of_mem hlease
        refine ⟨mem_append_left _ hlease, ?_⟩
        rintro rfl
        exact h.disjoint _ hmem hkey
      · obtain ⟨hlease, hne⟩ := mem_filter.mp hlease
        exact ⟨mem_append_right _ hlease, of_decide_eq_true hne⟩
    obtain ⟨hcharged, hrepaid⟩ := Ledger.mem_outstanding.mp (h.outstanding lease hheld.1)
    refine Ledger.mem_outstanding.mpr ⟨hcharged, fun hlog => ?_⟩
    obtain hlog | hlog := mem_append.mp hlog
    · exact hrepaid hlog
    · exact hheld.2 (mem_singleton.mp hlog)
  · intro lease hlease
    obtain ⟨reservation, hlog⟩ := h.deadline lease hlease
    exact ⟨reservation, mem_append_left _ hlog⟩
  · intro id'
    rw [hledger]
    refine (h.registered id').trans (and_congr_right fun _ => ?_)
    exact forall_congr' fun cause => ⟨fun hnot hlog => hnot (hold rfl hlog),
      fun hnot hlog => hnot (mem_append_left _ hlog)⟩
  · intro id' cause hlog
    rw [hledger]
    exact h.known id' cause (hold rfl hlog)
  · exact fun hlog => h.stopped (hold rfl hlog)
  · intro id' hlog
    obtain hlog | hlog := mem_append.mp hlog
    · exact Bool.or_eq_true_iff.mpr (.inl (h.failed id' hlog))
    · cases mem_singleton.mp hlog
      exact Bool.or_true _
  · exact h.causal.concat trivial

/-- A transfer changes what a lease holds, and nothing of its account. -/
theorem retain (hget : state.entries.get? id = some entry) (authority : Option Authority) :
    Inv limits { state with
        entries := state.entries.insert id { entry with authority := authority } }
      detached log := by
  have hmem : (id, entry) ∈ state.entries.entries := get?_eq_some.mp hget
  have hkeys {id' : ℕ} : id' ∈ (state.entries.insert id { entry with authority := authority }).keys
      ↔ id' ∈ state.entries.keys := by
    rw [mem_keys_insert, or_iff_right_of_imp]
    rintro rfl
    exact mem_map_of_mem hmem
  refine { h with disjoint := ?_, outstanding := ?_, deadline := ?_, registered := ?_ }
  · exact fun lease hlease hkey => h.disjoint lease hlease (hkeys.mp hkey)
  · intro lease hlease
    obtain hlease | hlease := mem_append.mp hlease
    · obtain rfl | ⟨hlease, -⟩ := mem_insert.mp hlease
      · exact h.outstanding (id, entry) (mem_append_left _ hmem)
      · exact h.outstanding lease (mem_append_left _ hlease)
    · exact h.outstanding lease (mem_append_right _ hlease)
  · intro lease hlease
    obtain rfl | ⟨hlease, -⟩ := mem_insert.mp hlease
    · exact h.deadline (id, entry) hmem
    · exact h.deadline lease hlease
  · exact fun id' => hkeys.trans (h.registered id')

theorem remove (id : ℕ) (cause : Cause) :
    Inv limits (state.remove id).2 (detached ++ leased id (state.remove id).1)
      (log ++ (leased id (state.remove id).1).map fun lease => .removed lease.1 cause) :=
  h.detach (State.remove_perm id) cause

/-- A section that removes nothing. -/
theorem keep (id : ℕ) (cause : Cause) :
    Inv limits state (detached ++ leased id (none : Option (Entry Authority)))
      (log ++ (leased id (none : Option (Entry Authority))).map fun lease =>
        .removed lease.1 cause) := by
  show Inv limits state (detached ++ []) (log ++ [])
  rwa [append_nil, append_nil]

/-- A stop closes the registry and empties it. -/
theorem stop :
    Inv limits state.stop.2 (detached ++ state.stop.1)
      (log ++ [.stopped] ++ state.stop.1.map fun lease => .removed lease.1 .stopped) := by
  refine h.halt.detach ?_ .stopped
  show state.entries.entries.Perm (state.entries.entries ++ [])
  rw [append_nil]

end

end Inv

/-! ### Runs -/

/-- A host that is stopped and has nothing left to charge back. -/
def State.Idle (state : State Authority) : Prop :=
  state.stopped = true ∧ state.live = 0 ∧ state.failed = false

/-- What holds in every world that a server reaches. -/
structure World.Inv (limits : Limits) (w : World Authority) : Prop where
  accounts : ServerLifecycle.Inv limits w.shared.state w.detached w.log
  returned : w.termination = .returned (.ok ()) → w.shared.state.Idle
  /-- From its first stop on, a termination finds the host stopped. -/
  stopping : w.termination ≠ .running → w.shared.state.stopped = true

section Steps

variable {limits : Limits} {w w' : World Authority}

theorem World.Inv.start : World.Inv limits (.start : World Authority) where
  accounts := ServerLifecycle.Inv.start
  returned := nofun
  stopping := fun h => absurd rfl h

/-- A section that changes nothing of the state but its entries. -/
theorem World.Inv.of_entries (h : World.Inv limits w)
    (haccounts : ServerLifecycle.Inv limits w'.shared.state w'.detached w'.log)
    (htermination : w'.termination = w.termination) (entries : OrderedMap ℕ (Entry Authority))
    (hstate : w'.shared.state = { w.shared.state with entries := entries }) :
    World.Inv limits w' where
  accounts := haccounts
  returned := by
    rw [htermination, hstate]
    exact h.returned
  stopping := by
    rw [htermination, hstate]
    exact h.stopping

/-- A check removes its own lease when it has expired, and nothing otherwise. -/
theorem Shared.check_cases (shared : Shared Authority) (id now : ℕ) :
    ((shared.check id now).2.1 = none ∧ (shared.check id now).2.2 = shared)
    ∨ (shared.check id now).2.1 = (shared.state.remove id).1
      ∧ (shared.check id now).2.2.state = (shared.state.remove id).2 := by
  unfold Shared.check
  split
  · exact .inl ⟨rfl, rfl⟩
  next state hlock =>
  obtain ⟨-, rfl⟩ := Shared.lock_eq_ok.mp hlock
  split
  · exact .inl ⟨rfl, rfl⟩
  split
  · exact .inl ⟨rfl, rfl⟩
  split
  · exact .inr ⟨rfl, rfl⟩
  · exact .inl ⟨rfl, rfl⟩

/-- A publication removes its own lease or nothing, and its callback runs for a registered and
unexpired lease on an active host. -/
theorem Shared.publish_cases (shared : Shared Authority) (id status : ℕ) (callback : Callback)
    (now : ℕ) {publication : Publication Authority}
    (h : shared.publish id status callback now = publication) :
    (publication.committed = true → shared.state.stopped = false
      ∧ ∃ entry, shared.state.entries.get? id = some entry ∧ now < entry.deadline)
    ∧ (publication.removed = none ∧ publication.shared.state = shared.state
      ∨ publication.removed = (shared.state.remove id).1
        ∧ publication.shared.state = (shared.state.remove id).2) := by
  unfold Shared.publish at h
  split at h
  · subst h
    exact ⟨nofun, .inl ⟨rfl, rfl⟩⟩
  next state hlock =>
  obtain ⟨-, rfl⟩ := Shared.lock_eq_ok.mp hlock
  split at h
  · subst h
    exact ⟨nofun, .inl ⟨rfl, rfl⟩⟩
  next hactive =>
  rw [State.active_eq_ok] at hactive
  split at h
  · subst h
    exact ⟨nofun, .inl ⟨rfl, rfl⟩⟩
  next entry hget =>
  dsimp only at h
  split at h
  · subst h
    exact ⟨nofun, .inr ⟨rfl, rfl⟩⟩
  next hdeadline =>
  split at h
  · subst h
    exact ⟨nofun, .inr ⟨rfl, rfl⟩⟩
  split at h
  · subst h
    exact ⟨fun _ => ⟨hactive, entry, hget, Nat.not_le.mp hdeadline⟩, .inr ⟨rfl, rfl⟩⟩
  · subst h
    exact ⟨fun _ => ⟨hactive, entry, hget, Nat.not_le.mp hdeadline⟩, .inl ⟨rfl, rfl⟩⟩

variable {shared : Shared Authority}

/-- What the deadline worker removes. -/
theorem Shared.watch_retires {shared' : Shared Authority} {now : ℕ}
    {removed : List (ℕ × Entry Authority)} (h : shared.watch now = .retires removed shared') :
    removed = (State.removeAll (shared.state.expired now) shared.state).1
    ∧ shared'.state = (State.removeAll (shared.state.expired now) shared.state).2 := by
  unfold Shared.watch at h
  split at h
  · cases h
  next state hlock =>
  obtain ⟨-, rfl⟩ := Shared.lock_eq_ok.mp hlock
  split at h
  · cases h
  split at h
  · cases h
    exact ⟨rfl, rfl⟩
  · cases h

theorem World.Inv.stop (h : World.Inv limits w)
    (hreturned : w.termination = .returned (.ok ()) → w.shared.state.Idle) :
    World.Inv limits w.stop where
  accounts := h.accounts.stop
  returned := fun heq => ⟨rfl, (hreturned heq).2⟩
  stopping := fun _ => rfl

theorem World.Inv.retire (h : World.Inv limits w) {id : ℕ} {entry : Entry Authority}
    {destroyed : Bool} {revoked : List (ℕ × Entry Authority)} (hmem : (id, entry) ∈ w.detached)
    (hretire : w.shared.retire entry destroyed = some (revoked, shared)) :
    World.Inv limits ({ w with
      detached := w.detached.filter fun entry => entry.1 ≠ id
      log := w.log ++ [Event.retired id destroyed] ++ if destroyed then [] else [Event.stopped] }
      |>.detach shared revoked .stopped) := by
  obtain ⟨-, hlive, hinv⟩ := h.accounts.retire hmem destroyed
  have hbusy : w.termination ≠ .returned (.ok ()) := by
    intro heq
    have := (h.returned heq).2.1
    omega
  obtain ⟨-, -, ⟨rfl, rfl, rfl⟩ | ⟨rfl, rfl, rfl⟩⟩ := Shared.retire_eq_some hretire
  · refine ⟨?_, fun heq => absurd heq hbusy, h.stopping⟩
    simp only [Bool.not_true, Bool.or_false] at hinv
    simpa [World.detach] using hinv
  · refine ⟨?_, fun heq => absurd heq hbusy, fun _ => rfl⟩
    simp only [Bool.not_false, Bool.or_true] at hinv
    exact hinv.stop

theorem World.Inv.step (h : World.Inv limits w) (hstep : Step limits w w') :
    World.Inv limits w' := by
  cases hstep with
  | @admission input reservation _ _ _ _ hreservation hadmission =>
    unfold Shared.admission at hadmission
    simp only [Checked.bind_eq_ok, Except.ok.injEq, Prod.mk.injEq] at hadmission
    obtain ⟨state, hlock, ⟨id, state'⟩, hadmission, rfl, rfl⟩ := hadmission
    obtain ⟨-, rfl⟩ := Shared.lock_eq_ok.mp hlock
    obtain ⟨hactive, -, hlive, hbytes, rfl, -, rfl⟩ := State.admission_eq_ok hadmission
    refine ⟨h.accounts.admission ⟨input.deadline, reservation, input.method, input.path, input.body,
      none⟩ hlive hbytes, fun heq => ?_, fun hne => ?_⟩
    · rw [(h.returned heq).1] at hactive
      cases hactive
    · exact h.stopping hne
  | revoke hcause hid hremove =>
    unfold Shared.remove at hremove
    simp only [Checked.bind_eq_ok, Except.ok.injEq, Prod.mk.injEq] at hremove
    obtain ⟨state, hlock, rfl, rfl⟩ := hremove
    obtain ⟨-, rfl⟩ := Shared.lock_eq_ok.mp hlock
    exact h.of_entries (h.accounts.remove _ _) rfl _ rfl
  | @check id now hid =>
    obtain ⟨hentry, hshared⟩ | ⟨hentry, hstate⟩ := w.shared.check_cases id now
    · have hstate := congrArg Shared.state hshared
      refine h.of_entries ?_ rfl w.shared.state.entries ?_
      · show ServerLifecycle.Inv _ (w.shared.check id now).2.2.state _ _
        rw [hentry, hshared]
        exact h.accounts.keep _ _
      · exact hstate
    · refine h.of_entries ?_ rfl (w.shared.state.entries.erase id) ?_
      · show ServerLifecycle.Inv _ (w.shared.check id now).2.2.state _ _
        rw [hentry, hstate]
        exact h.accounts.remove _ _
      · exact hstate
  | retain hid hretain =>
    unfold Shared.retain at hretain
    simp only [Checked.bind_eq_ok] at hretain
    obtain ⟨state, hlock, -, -, hretain⟩ := hretain
    obtain ⟨-, rfl⟩ := Shared.lock_eq_ok.mp hlock
    split at hretain
    · cases hretain
    next entry hget =>
    rw [Checked.ite_error_eq_ok, Checked.ite_error_eq_ok] at hretain
    obtain ⟨-, -, hretain⟩ := hretain
    cases hretain
    exact h.of_entries (h.accounts.retain hget _) rfl _ rfl
  | @publish id status callback now hid publication hpublish =>
    obtain ⟨hcommitted, hremoved⟩ := w.shared.publish_cases id status callback now hpublish
    have haccounts : ServerLifecycle.Inv limits w.shared.state w.detached
        (w.log ++ if publication.committed then [Event.published id now] else []) := by
      split
      · next hran =>
        obtain ⟨hactive, entry, hget, hdeadline⟩ := hcommitted hran
        exact h.accounts.publish hactive hget hdeadline
      · rw [append_nil]
        exact h.accounts
    obtain ⟨hnone, hstate⟩ | ⟨hsome, hstate⟩ := hremoved
    · refine h.of_entries ?_ rfl w.shared.state.entries ?_
      · simp only [World.detach, hnone, hstate]
        exact haccounts.keep _ _
      · exact hstate
    · refine h.of_entries ?_ rfl (w.shared.state.entries.erase id) ?_
      · simp only [World.detach, hsome, hstate]
        exact haccounts.remove _ _
      · exact hstate
  | retire hmem hretire => exact h.retire hmem hretire
  | watchReturns hworker hwatch => exact ⟨h.accounts, h.returned, h.stopping⟩
  | @watchRetires now removed shared hworker hwatch =>
    obtain ⟨rfl, hstate⟩ := Shared.watch_retires hwatch
    rw [State.removeAll_eq] at hstate
    refine h.of_entries ?_ rfl
      (State.removeAll (w.shared.state.expired now) w.shared.state).2.entries ?_
    · simp only [World.detach, hstate]
      exact h.accounts.detach (State.removeAll_perm _) .expired
    · exact hstate
  | watchResumes hworker hretired hdestroyed => exact ⟨h.accounts, h.returned, h.stopping⟩
  | watchFails hworker hretired hid hfailed => exact ⟨h.accounts, h.returned, h.stopping⟩
  | watchPanics hworker => exact ⟨h.accounts, h.returned, h.stopping⟩
  | leave hworker => exact World.Inv.stop ⟨h.accounts, h.returned, h.stopping⟩ h.returned
  | terminate htermination =>
    exact ⟨h.accounts.stop, by rintro ⟨⟩, fun _ => rfl⟩
  | join htermination hworker =>
    refine ⟨h.accounts, by simp, fun _ => h.stopping ?_⟩
    simp [htermination]
  | await htermination hawait =>
    have hstopped : w.shared.state.stopped = true := by
      refine h.stopping ?_
      simp [htermination]
    refine ⟨h.accounts, fun heq => ?_, fun _ => hstopped⟩
    injection heq with heq
    rw [Checked.bind_eq_ok] at heq
    obtain ⟨-, -, rfl⟩ := heq
    unfold Shared.awaitEmpty at hawait
    split at hawait
    · cases hawait
    next state hlock =>
    obtain ⟨-, rfl⟩ := Shared.lock_eq_ok.mp hlock
    split at hawait
    · cases hawait
    next hlive =>
    split at hawait
    · cases hawait
    next hfailed => exact ⟨hstopped, not_not.mp hlive, Bool.eq_false_iff.mpr hfailed⟩

theorem World.Inv.run (h : Reachable limits w) : World.Inv limits w := by
  obtain ⟨-, hrun⟩ := h
  induction hrun with
  | refl => exact .start
  | tail _ hstep ih => exact ih.step hstep

end Steps

/-! ### Exactness -/

/-- In every interleaving the counters are those of the admitted entries that are not charged back,
within the limits, so that no retirement underflows; ids are issued once and entries retired at most
once; callbacks run for registered and unexpired requests of an active host; and a termination
succeeds only when all admitted entries were destroyed without a failure. -/
theorem accounting_exact (limits : Limits) (w : World Authority) (h : Reachable limits w) :
    (w.shared.state.live = (ledger w.log).count ∧ w.shared.state.live ≤ limits.requests)
    ∧ (w.shared.state.bytes = (ledger w.log).total ∧ w.shared.state.bytes ≤ limits.bufferBytes)
    ∧ (∀ lease ∈ w.detached, ∀ destroyed, (w.shared.retire lease.2 destroyed).isSome = true)
    ∧ (ledger w.log).keys.Nodup
    ∧ ((ledger w.log).repaid.Nodup ∧ (ledger w.log).repaid ⊆ (ledger w.log).keys)
    ∧ (∀ id, id ∈ w.shared.state.entries.keys ↔
      id ∈ (ledger w.log).keys ∧ ∀ cause, Event.removed id cause ∉ w.log)
    ∧ Causal Justified w.log
    ∧ (w.termination = .returned (.ok ()) → ∀ id ∈ (ledger w.log).keys,
      Event.retired id true ∈ w.log ∧ Event.retired id false ∉ w.log) := by
  have hinv := World.Inv.run h
  have haccounts := hinv.accounts
  refine ⟨⟨haccounts.live, haccounts.live_le⟩, ⟨haccounts.bytes, haccounts.bytes_le⟩, ?_,
    haccounts.valid.nodup_keys, ⟨haccounts.valid.nodup_repaid, haccounts.valid.repaid_subset⟩,
    haccounts.registered, haccounts.causal, ?_⟩
  · intro lease hlease destroyed
    obtain ⟨hbytes, hlive, -⟩ := haccounts.retire hlease destroyed
    unfold Shared.retire
    rw [if_neg (not_or.mpr ⟨Nat.not_lt.mpr hbytes, Nat.not_lt.mpr hlive⟩)]
    cases destroyed <;> rfl
  · intro hreturned id hid
    obtain ⟨-, hlive, hfailed⟩ := hinv.returned hreturned
    have hnever : Event.retired id false ∉ w.log := by
      intro hlog
      rw [haccounts.failed id hlog] at hfailed
      exact nomatch hfailed
    have hempty : (ledger w.log).count = 0 := haccounts.live.symm.trans hlive
    obtain ⟨destroyed, hlog⟩ := mem_repaid_ledger.mp (Ledger.keys_subset_repaid hempty hid)
    cases destroyed with
    | true => exact ⟨hlog, hnever⟩
    | false => exact absurd hlog hnever

private def sampleLimits : Limits := ⟨1, 1, 1, 10, 10⟩

private def sampleInput : Input := ⟨"GET", "/", [], 5⟩

private def sampleEntry : Entry Unit := ⟨5, 5, "GET", "/", [], none⟩

private def sampleAdmitted : World Unit where
  shared := ⟨⟨false, 1, 5, 1, false, empty.insert 0 sampleEntry⟩, false⟩
  detached := []
  worker := .watching
  termination := .running
  log := [.admitted 0 5 5]

private def samplePublished : World Unit where
  shared := ⟨⟨false, 1, 5, 1, false, .empty⟩, false⟩
  detached := [(0, sampleEntry)]
  worker := .watching
  termination := .running
  log := [.admitted 0 5 5, .published 0 1, .removed 0 .consumed]

private def sampleRetired : World Unit where
  shared := ⟨⟨false, 1, 0, 0, false, .empty⟩, false⟩
  detached := []
  worker := .watching
  termination := .running
  log := [.admitted 0 5 5, .published 0 1, .removed 0 .consumed, .retired 0 true]

/-- One request is answered and the server is terminated. -/
private def sampleWorld : World Unit where
  shared := ⟨⟨true, 1, 0, 0, false, .empty⟩, false⟩
  detached := []
  worker := .returned (.ok ())
  termination := .returned (.ok ())
  log := [.admitted 0 5 5, .published 0 1, .removed 0 .consumed, .retired 0 true, .stopped]

private theorem sampleWorld_reachable : Reachable sampleLimits sampleWorld := by
  have hreservation : sampleInput.reservation sampleLimits 0 = .ok 5 := by decide
  have hadmission : (World.start : World Unit).shared.admission sampleLimits sampleInput 5 0
      = .ok (0, sampleAdmitted.shared) := rfl
  have hpublish : sampleAdmitted.shared.publish 0 200 (.returns (.ok ())) 1
      = ⟨true, some sampleEntry, some (.ok ()), samplePublished.shared⟩ := rfl
  have hretire : samplePublished.shared.retire sampleEntry true
      = some ([], sampleRetired.shared) := rfl
  have hwatch : sampleWorld.shared.watch 2 = .returns (.ok ()) := rfl
  have hawait : sampleWorld.shared.awaitEmpty = some (.ok ()) := rfl
  have hadmitted : Step sampleLimits .start sampleAdmitted := .admission hreservation hadmission
  have hpublished : Step sampleLimits sampleAdmitted samplePublished :=
    .publish 200 (.returns (.ok ())) 1 (mem_singleton_self 0) hpublish
  have hretired : Step sampleLimits samplePublished sampleRetired :=
    .retire (mem_singleton_self _) hretire
  have hstopped : Step sampleLimits sampleRetired
      { sampleWorld with worker := .watching, termination := .joining } := .terminate rfl
  have hwatched : Step sampleLimits
      { sampleWorld with worker := .watching, termination := .joining }
      { sampleWorld with termination := .joining } :=
    .watchReturns (w := { sampleWorld with worker := .watching, termination := .joining }) rfl
      hwatch
  have hjoined : Step sampleLimits { sampleWorld with termination := .joining }
      { sampleWorld with termination := .awaiting (.ok ()) } := .join rfl rfl
  have hreturned : Step sampleLimits { sampleWorld with termination := .awaiting (.ok ()) }
      sampleWorld :=
    .await (w := { sampleWorld with termination := .awaiting (.ok ()) }) rfl hawait
  exact ⟨rfl, (((((((Relation.ReflTransGen.single hadmitted).tail hpublished).tail hretired).tail
    hstopped).tail hwatched).tail hjoined).tail hreturned)⟩

/-- The termination of the sample has destroyed its request. -/
theorem accounting_exact_sample :
    sampleWorld.termination = .returned (.ok ()) ∧ Event.retired 0 true ∈ sampleWorld.log := by
  obtain ⟨-, -, -, -, -, -, -, hterminated⟩ :=
    accounting_exact sampleLimits sampleWorld sampleWorld_reachable
  exact ⟨rfl, (hterminated rfl 0 (mem_singleton_self 0)).1⟩

end Zryna.Driver.ServerLifecycle
