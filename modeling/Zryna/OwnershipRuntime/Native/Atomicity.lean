import Zryna.OwnershipRuntime.Native.Calls

/-!
# Failed calls of the native runtime

A call that does not return `RT_OK` leaves everything as it was: the whole heap, and with it the
address, the size, the alignment, the pending flag and the bytes of every live allocation, and a
zeroed result record. Counts are bytes, so they are kept as well.

Most exits come before the first write. Two entry points write before they call another function
that has failure exits of its own, `strong_release_finish` and `weak_release`; there the registry
(`Refines`) shows that the release cannot fail any more. `grow` copies into its replacement before
it releases the old allocation, for which the same holds.
-/

namespace Zryna.OwnershipRuntime.Native

open Option

variable {bucket : ℕ → ℕ} {heap heap' : Heap} {live : Allocations}

/-- How a call may end: with a registry, and with the same heap unless it succeeds. -/
structure Settled (bucket : ℕ → ℕ) (heap : Heap) (status : RuntimeStatus) (heap' : Heap) :
    Prop where
  refines : ∃ live, Refines bucket heap' live
  kept : status ≠ .ok → heap' = heap

/-- A call that returns, and ends so. -/
abbrev Settles (bucket : ℕ → ℕ) (heap : Heap) (result : Option (RuntimeStatus × Heap)) : Prop :=
  ∃ status heap', result = some (status, heap') ∧ Settled bucket heap status heap'

/-- The same for a call with a result, which is `zero` unless the call succeeds. -/
abbrev SettlesWith {α : Type} (bucket : ℕ → ℕ) (heap : Heap) (zero : α)
    (result : Option (RuntimeStatus × Option α × Heap)) : Prop :=
  ∃ status value heap', result = some (status, some value, heap')
    ∧ Settled bucket heap status heap' ∧ (status ≠ .ok → value = zero)

theorem Refines.settled (h : Refines bucket heap live) (status : RuntimeStatus) :
    Settled bucket heap status heap :=
  ⟨⟨live, h⟩, fun _ => rfl⟩

theorem Refines.refused_settled {α : Type} (h : Refines bucket heap live) (status : RuntimeStatus)
    (zero : α) : SettlesWith bucket heap zero (some (status, some zero, heap)) :=
  ⟨_, _, _, rfl, h.settled _, fun _ => rfl⟩

theorem Refines.settled_ok (h : Refines bucket heap' live) : Settled bucket heap .ok heap' :=
  ⟨⟨live, h⟩, fun hstatus => absurd rfl hstatus⟩

/-- A call hands the failure of an allocation on, and otherwise fills its record. -/
theorem SettlesWith.fill {α β : Type} {zero : α} {zero' : β}
    {result : Option (RuntimeStatus × Option α × Heap)} (hresult : SettlesWith bucket heap zero result)
    {record : RuntimeStatus × Option α × Heap → β} {fill : RuntimeStatus × Option α × Heap → Heap}
    (hfill : ∀ x live, Refines bucket x.2.2 live → Refines bucket (fill x) live) :
    SettlesWith bucket heap zero' (result.bind fun x =>
      if x.1 ≠ .ok then some (x.1, some zero', x.2.2) else some (.ok, some (record x), fill x)) := by
  obtain ⟨status, value, heap', rfl, hsettled, -⟩ := hresult
  rw [bind_some]
  split
  · exact ⟨_, _, _, rfl, hsettled, fun _ => rfl⟩
  · obtain ⟨⟨live, h⟩, -⟩ := hsettled
    exact ⟨_, _, _, rfl, (hfill _ _ h).settled_ok, fun hne => absurd rfl hne⟩

/-- What `malloc` may answer to a request for an allocation. -/
def Answers (live : Allocations) (byteSize alignment base : ℕ) : Prop :=
  byteSize ≤ targetAllocationBudget → base = 0 ∨ live.Fresh (totalSize byteSize alignment) base

/-! ### Allocation -/

/-- Every exit of `allocate_bytes` but the last comes before the first write. -/
theorem allocateBytes_failed {byteSize alignment base : ℕ} {out out' : Option ℕ}
    {status : RuntimeStatus}
    (h : allocateBytes bucket heap byteSize alignment out base = some (status, out', heap'))
    (hstatus : status ≠ .ok) : heap' = heap ∧ out' = out.map fun _ => 0 := by
  unfold allocateBytes at h
  cases out with
  | none =>
    cases h
    exact ⟨rfl, rfl⟩
  | some value =>
    rw [if_neg (by simp)] at h
    repeat' split at h
    all_goals first
      | (cases h; exact ⟨rfl, rfl⟩)
      | skip
    -- the header is written and linked
    obtain ⟨linked, -, h⟩ := bind_eq_some_iff.mp h
    cases h
    exact absurd rfl hstatus

theorem releaseKnown_failed {header : ℕ} {status : RuntimeStatus}
    (h : releaseKnown bucket heap header = some (status, heap')) (hstatus : status ≠ .ok) :
    heap' = heap := by
  unfold releaseKnown at h
  split at h
  · cases h
    rfl
  obtain ⟨record, -, h⟩ := bind_eq_some_iff.mp h
  split at h
  · cases h
    rfl
  simp only [bind_eq_bind, bind_eq_some_iff, Option.some.injEq, Prod.mk.injEq] at h
  obtain ⟨-, -, -, -, -, -, -, -, rfl, -⟩ := h
  exact absurd rfl hstatus

theorem release_failed {pointer byteSize alignment : ℕ} {status : RuntimeStatus}
    (h : release bucket heap pointer byteSize alignment = some (status, heap'))
    (hstatus : status ≠ .ok) : heap' = heap := by
  unfold release at h
  split at h
  · cases h
    rfl
  obtain ⟨header, -, h⟩ := bind_eq_some_iff.mp h
  split at h
  · cases h
    rfl
  obtain ⟨record, -, h⟩ := bind_eq_some_iff.mp h
  split at h
  · cases h
    rfl
  · exact releaseKnown_failed h hstatus

/-- The decoder stays inside any part of memory. -/
theorem validUtf8_returns (memory : ℕ → UInt8) (bytes byteLength : ℕ) :
    ∃ valid, validUtf8 (fun i => some (memory (bytes + i))) byteLength = some valid := by
  have hlength : ((List.range byteLength).map fun i => memory (bytes + i)).length = byteLength := by
    simp
  obtain ⟨valid, hvalid, -⟩ := @validUtf8_read
    ((List.range byteLength).map fun i => memory (bytes + i))
    (fun i => some (memory (bytes + i))) fun i hi => by simp [hlength ▸ hi]
  rw [hlength] at hvalid
  exact ⟨valid, hvalid⟩

section Registry

variable (h : Refines bucket heap live)
include h

theorem Refines.allocateBytes_settled {byteSize alignment base : ℕ}
    (hmalloc : Answers live byteSize alignment base) :
    SettlesWith bucket heap 0 (Native.allocateBytes bucket heap byteSize alignment (some 0) base) := by
  obtain ⟨heap', hcall, h'⟩ := h.allocateBytes (some 0) hmalloc
  obtain ⟨pointer, hpointer⟩ := live.allocate_out byteSize alignment base
  rw [hpointer] at hcall
  refine ⟨_, pointer, heap', hcall, ⟨⟨_, h'⟩, fun hstatus => ?_⟩, fun hstatus => ?_⟩
  · exact (allocateBytes_failed hcall hstatus).1
  · simpa using (allocateBytes_failed hcall hstatus).2

theorem Refines.release_settled (pointer byteSize alignment : ℕ) :
    Settles bucket heap (Native.release bucket heap pointer byteSize alignment) := by
  obtain ⟨heap', hcall, h'⟩ := h.release pointer byteSize alignment
  exact ⟨_, heap', hcall, ⟨_, h'⟩, release_failed hcall⟩

theorem Refines.grow_settled {pointer oldByteSize newByteSize alignment base : ℕ}
    (hmalloc : Answers live newByteSize alignment base) :
    ∃ status pointer' heap',
      Native.grow bucket heap pointer oldByteSize newByteSize alignment (some 0) base
        = some (status, some pointer', heap')
      ∧ Settled bucket heap status heap' ∧ (status ≠ .ok → pointer' = 0) := by
  unfold Native.grow
  rw [if_neg (by simp)]
  by_cases hnew : oldByteSize = 0 ∧ pointer = 0
  · rw [if_pos hnew]
    exact h.allocateBytes_settled hmalloc
  rw [if_neg hnew, h.headerFor]
  cases hx : live.get? pointer with
  | none => exact ⟨_, 0, heap, rfl, h.settled _, fun _ => rfl⟩
  | some x =>
    obtain ⟨-, hne, record, hrecord, -, rfl⟩ := h.header hx
    simp only [isSome_some, if_true, bind_eq_bind, bind_some, hne, if_false,
      hrecord]
    by_cases hmatch : record.size ≠ oldByteSize ∨ record.alignment ≠ alignment
        ∨ record.pendingLastStrong ≠ 0
    · rw [if_pos hmatch]
      exact ⟨_, 0, heap, rfl, h.settled _, fun _ => rfl⟩
    rw [if_neg hmatch]
    have hpending : record.allocation.pendingLastStrong = 0 := by
      by_contra hpending
      exact hmatch (.inr (.inr hpending))
    by_cases hsame : newByteSize = oldByteSize
    · rw [if_pos hsame]
      exact ⟨_, pointer, heap, rfl, h.settled _, fun hstatus => absurd rfl hstatus⟩
    rw [if_neg hsame]
    by_cases hzero : newByteSize = 0
    · rw [if_pos hzero]
      obtain ⟨heap', hrelease, -, h'⟩ := h.releaseKnown hx hpending
      rw [hrelease]
      exact ⟨.ok, 0, heap', rfl, h'.settled_ok, fun _ => rfl⟩
    rw [if_neg hzero]
    obtain ⟨heap₁, hallocate, h₁⟩ := h.allocateBytes (some 0) hmalloc
    unfold growLive
    rw [hallocate]
    simp only [bind_eq_bind, bind_some]
    by_cases hstatus : (live.allocate newByteSize alignment (some 0) base).1 = .ok
    · -- the old allocation is still there, and the release of it succeeds
      have hx₁ := (h.placed.get?_allocate (some 0) hmalloc hx).1
      obtain ⟨heap₂, hrelease, -, h₂⟩ := (h₁.memcpy _ _ _).releaseKnown hx₁ hpending
      rw [if_neg (not_not.mpr hstatus), hrelease]
      exact ⟨.ok, _, heap₂, rfl, h₂.settled_ok, fun hne => absurd rfl hne⟩
    · rw [if_pos hstatus]
      obtain ⟨rfl, -⟩ := allocateBytes_failed hallocate hstatus
      exact ⟨_, 0, heap₁, rfl, h.settled _, fun _ => rfl⟩

/-! ### Strings -/

theorem Refines.validStringStorage_returns (value : Option Handle) :
    ∃ valid, validStringStorage bucket heap value = some valid := by
  unfold validStringStorage
  cases value with
  | none => exact ⟨false, rfl⟩
  | some value =>
    dsimp only
    split
    · exact ⟨_, rfl⟩
    split
    · exact ⟨_, rfl⟩
    rw [h.headerFor]
    cases hx : live.get? value.pointer with
    | none => exact ⟨false, rfl⟩
    | some x =>
      obtain ⟨-, hne, record, hrecord, -, -⟩ := h.header hx
      simp only [isSome_some, if_true, bind_eq_bind, bind_some, hne, if_false,
        hrecord]
      exact ⟨_, rfl⟩

theorem Refines.stringFromUtf8Copy_settled {bytes byteLength base : ℕ}
    (hmalloc : Answers live byteLength 1 base) :
    SettlesWith bucket heap .zero
      (stringFromUtf8Copy bucket heap bytes byteLength (some .zero) base) := by
  unfold stringFromUtf8Copy
  split
  · exact h.refused_settled ..
  split
  · exact h.refused_settled ..
  obtain ⟨valid, hvalid⟩ := validUtf8_returns heap.memory bytes byteLength
  rw [hvalid, bind_eq_bind, bind_some]
  split
  · exact h.refused_settled ..
  dsimp only
  refine (h.allocateBytes_settled hmalloc).fill fun _ _ h₁ => ?_
  split
  · exact h₁.memcpy ..
  · exact h₁

theorem Refines.stringClone_settled {source : Option Handle} {base : ℕ}
    (hmalloc : ∀ value, source = some value → Answers live value.length 1 base) :
    SettlesWith bucket heap .zero (stringClone bucket heap source (some .zero) false base) := by
  unfold stringClone
  obtain ⟨valid, hvalid⟩ := h.validStringStorage_returns source
  rw [if_neg (by decide), hvalid, bind_eq_bind, bind_some]
  cases source with
  | none => exact h.refused_settled ..
  | some source =>
    cases valid with
    | false => exact h.refused_settled ..
    | true => exact h.stringFromUtf8Copy_settled (hmalloc source rfl)

theorem Refines.concat (pointer : ℕ) (left right : Handle) :
    Refines bucket (heap.concat pointer left right) live := by
  unfold Heap.concat
  dsimp only
  split <;> split <;> exact ⟨h.placed, h.data, h.headers, h.blocks, h.bucketed⟩

theorem Refines.stringConcat_settled {left right : Option Handle} {base : ℕ}
    (hmalloc : ∀ l r, left = some l → right = some r →
      Answers live ((l.length + r.length) % 2 ^ 64) 1 base) :
    SettlesWith bucket heap .zero (stringConcat bucket heap left right (some .zero) false base) := by
  unfold stringConcat
  obtain ⟨validLeft, hleft⟩ := h.validStringStorage_returns left
  obtain ⟨validRight, hright⟩ := h.validStringStorage_returns right
  rw [if_neg (by decide), hleft, hright]
  simp only [bind_eq_bind, bind_some]
  generalize (validLeft && validRight) = valid
  match left, right, valid with
  | none, _, _ => exact h.refused_settled ..
  | some _, none, _ => exact h.refused_settled ..
  | some _, some _, false => exact h.refused_settled ..
  | some left, some right, true =>
    dsimp only
    split
    · exact h.refused_settled ..
    exact (h.allocateBytes_settled (hmalloc left right rfl rfl)).fill fun _ _ h₁ => h₁.concat ..

theorem Refines.stringRelease_settled (value : Option Handle) :
    Settles bucket heap (stringRelease bucket heap value) := by
  unfold stringRelease
  cases value with
  | none => exact ⟨_, _, rfl, h.settled _⟩
  | some value =>
    dsimp only
    split
    · exact ⟨_, _, rfl, h.settled _⟩
    · exact h.release_settled _ _ _

/-! ### Vec storage -/

theorem Refines.validVecStorage_returns (storage : Option Handle) (stride alignment : ℕ) :
    ∃ valid, Native.validVecStorage bucket heap storage stride alignment = some valid := by
  unfold Native.validVecStorage
  cases storage with
  | none => exact ⟨false, rfl⟩
  | some storage =>
    dsimp only
    split
    · exact ⟨_, rfl⟩
    split
    · exact ⟨_, rfl⟩
    rw [h.headerFor]
    cases hx : live.get? storage.pointer with
    | none => exact ⟨false, rfl⟩
    | some x =>
      obtain ⟨-, hne, record, hrecord, -, -⟩ := h.header hx
      simp only [isSome_some, if_true, bind_eq_bind, bind_some, hne, if_false,
        hrecord]
      exact ⟨_, rfl⟩

variable {vecLayout : ℕ → Option (ℕ × ℕ)} {elementLayoutId requiredLength : ℕ}

theorem Refines.vecAllocate_settled {requiredCapacity base : ℕ}
    (hlayout : ∀ stride alignment, vecLayout elementLayoutId = some (stride, alignment) →
      0 < stride ∧ Answers live (requiredCapacity * stride) alignment base) :
    SettlesWith bucket heap .zero
      (vecAllocate bucket vecLayout heap elementLayoutId requiredCapacity (some .zero) base) := by
  unfold vecAllocate
  cases hfound : vecLayout elementLayoutId with
  | none => exact h.refused_settled ..
  | some layout =>
    obtain ⟨stride, alignment⟩ := layout
    obtain ⟨hstride, hmalloc⟩ := hlayout stride alignment hfound
    dsimp only
    split
    · exact h.refused_settled ..
    rw [if_neg (Nat.ne_of_gt hstride)]
    split
    · exact h.refused_settled ..
    exact (h.allocateBytes_settled hmalloc).fill fun _ _ => id

theorem Refines.vecGrow_settled {storage : Handle} {stride alignment base : ℕ}
    (hmalloc : Answers live (grownCapacity storage.capacity requiredLength * stride) alignment
      base) :
    SettlesWith bucket heap .zero
      (Native.vecGrow bucket heap storage requiredLength stride alignment base) := by
  unfold Native.vecGrow
  dsimp only
  split
  · exact h.refused_settled ..
  exact SettlesWith.fill (h.grow_settled hmalloc) fun _ _ => id

theorem Refines.vecReserve_settled {base : ℕ} {storage : Option Handle}
    (hlayout : ∀ stride alignment value, vecLayout elementLayoutId = some (stride, alignment) →
      storage = some value →
      Answers live (grownCapacity value.capacity requiredLength * stride) alignment base) :
    SettlesWith bucket heap .zero (vecReserve bucket vecLayout heap elementLayoutId storage
      requiredLength (some .zero) false base) := by
  unfold vecReserve
  rw [if_neg (by decide)]
  match hfound : vecLayout elementLayoutId, storage with
  | none, _ => exact h.refused_settled ..
  | some _, none => exact h.refused_settled ..
  | some (stride, alignment), some storage =>
    obtain ⟨valid, hvalid⟩ := h.validVecStorage_returns (some storage) stride alignment
    dsimp only
    rw [hvalid, bind_eq_bind, bind_some]
    split
    · exact h.refused_settled ..
    split
    · exact ⟨_, _, _, rfl, h.settled _, fun hne => absurd rfl hne⟩
    · exact h.vecGrow_settled (hlayout stride alignment storage hfound rfl)

theorem Refines.vecReleaseStorage_settled (elementLayoutId : ℕ) (storage : Option Handle) :
    Settles bucket heap (vecReleaseStorage bucket vecLayout heap elementLayoutId storage) := by
  unfold vecReleaseStorage
  match vecLayout elementLayoutId with
  | none => exact ⟨_, _, rfl, h.settled _⟩
  | some (stride, alignment) =>
    obtain ⟨valid, hvalid⟩ := h.validVecStorage_returns storage stride alignment
    dsimp only
    rw [hvalid, bind_eq_bind, bind_some]
    match storage, valid with
    | none, _ => exact ⟨_, _, rfl, h.settled _⟩
    | some _, false => exact ⟨_, _, rfl, h.settled _⟩
    | some storage, true => exact h.release_settled _ _ _

/-! ### Control operations -/

variable (c : ℕ)

/-- A pointer is refused, or it is the live control block whose record is found. -/
theorem Refines.controlHeader_cases :
    Native.controlHeader bucket heap c = some none
      ∨ ∃ record, Native.controlHeader bucket heap c = some (some (c - headerSize, record))
        ∧ live.get? c = some record.allocation := by
  cases hx : live.get? c with
  | none => exact .inl (h.controlHeader_released hx)
  | some x =>
    by_cases hcontrol : IsControl x
    · obtain ⟨record, hheader, -, rfl⟩ := h.controlHeader hx hcontrol
      exact .inr ⟨record, hheader, rfl⟩
    · obtain ⟨-, hne, record, hrecord, -, rfl⟩ := h.header hx
      refine .inl ?_
      unfold Native.controlHeader
      rw [h.headerFor, hx]
      simp only [isSome_some, if_true, bind_eq_bind, bind_some, hne, if_false,
        hrecord]
      exact congrArg some (if_neg hcontrol)

/-- A write of a count is the last step of a call that succeeds. -/
theorem Refines.store_settled {c a : ℕ} (ha : a = c ∨ a = c + 4) (value : ℕ) :
    Settled bucket heap .ok (heap.store a value) :=
  (h.store ha value).refines.settled_ok

/-- A refusal before the rest of a call. -/
theorem Refines.refusal_settled {refused : Prop} [Decidable refused] {status : RuntimeStatus}
    {rest : Option (RuntimeStatus × Heap)}
    (hrest : Settles bucket heap rest) :
    Settles bucket heap (if refused then some (status, heap) else rest) := by
  split
  · exact ⟨_, _, rfl, h.settled _⟩
  · exact hrest

theorem Refines.strongClone_settled : Settles bucket heap (strongClone bucket heap c) := by
  unfold strongClone
  obtain hheader | ⟨record, hheader, -⟩ := h.controlHeader_cases c <;> rw [hheader]
  · exact ⟨_, _, rfl, h.settled _⟩
  · exact h.refusal_settled (h.refusal_settled ⟨_, _, rfl, h.store_settled (.inl rfl) _⟩)

theorem Refines.weakDowngrade_settled : Settles bucket heap (weakDowngrade bucket heap c) := by
  unfold weakDowngrade
  obtain hheader | ⟨record, hheader, -⟩ := h.controlHeader_cases c <;> rw [hheader]
  · exact ⟨_, _, rfl, h.settled _⟩
  · exact h.refusal_settled (h.refusal_settled ⟨_, _, rfl, h.store_settled (.inr rfl) _⟩)

theorem Refines.weakClone_settled : Settles bucket heap (weakClone bucket heap c) := by
  unfold weakClone
  obtain hheader | ⟨record, hheader, -⟩ := h.controlHeader_cases c <;> rw [hheader]
  · exact ⟨_, _, rfl, h.settled _⟩
  · exact h.refusal_settled (h.refusal_settled ⟨_, _, rfl, h.store_settled (.inr rfl) _⟩)

theorem Refines.weakUpgrade_settled : Settles bucket heap (weakUpgrade bucket heap c) := by
  unfold weakUpgrade
  obtain hheader | ⟨record, hheader, -⟩ := h.controlHeader_cases c <;> rw [hheader]
  · exact ⟨_, _, rfl, h.settled _⟩
  · exact h.refusal_settled (h.refusal_settled (h.refusal_settled
      ⟨_, _, rfl, h.store_settled (.inl rfl) _⟩))

theorem Refines.strongReleaseBegin_settled :
    SettlesWith bucket heap 0 (strongReleaseBegin bucket heap c (some 0)) := by
  unfold strongReleaseBegin
  obtain hheader | ⟨record, hheader, hx⟩ := h.controlHeader_cases c
  · rw [hheader]
    exact h.refused_settled ..
  rw [hheader]
  dsimp only [bind_eq_bind, bind_some]
  split
  · exact h.refused_settled ..
  · -- the header is still there after the write of the count
    obtain ⟨next, hmodify, -, hchanged⟩ :=
      (h.store (c := c) (.inl rfl) (load32 heap.memory c - 1)).setPending hx
        (if load32 heap.memory c - 1 = 0 then 1 else 0)
    rw [hmodify]
    exact ⟨_, _, _, rfl, hchanged.refines.settled_ok, fun hne => absurd rfl hne⟩

/-- The count and the flag are written before the release, which cannot fail: the allocation is
live and its flag has just been cleared. -/
theorem Refines.strongReleaseFinish_settled :
    Settles bucket heap (strongReleaseFinish bucket heap c) := by
  unfold strongReleaseFinish
  obtain hheader | ⟨record, hheader, hx⟩ := h.controlHeader_cases c
  · rw [hheader]
    exact ⟨_, _, rfl, h.settled _⟩
  rw [hheader]
  dsimp only [bind_eq_bind, bind_some]
  split
  · exact ⟨_, _, rfl, h.settled _⟩
  obtain ⟨idle, hmodify, -, hchanged⟩ :=
    (h.store (c := c) (.inr rfl) (load32 heap.memory (c + 4) - 1)).setPending hx 0
  rw [hmodify, bind_some]
  split
  · have hnew : (live.insert c { record.allocation with pendingLastStrong := 0 }).get? c
        = some { record.allocation with pendingLastStrong := 0 } := by
      rw [OrderedMap.get?_insert, if_pos rfl]
    obtain ⟨freed, hrelease, hfreed⟩ := hchanged.releaseKnown hnew rfl
    exact ⟨_, _, hrelease, hfreed.refines.settled_ok⟩
  · exact ⟨_, _, rfl, hchanged.refines.settled_ok⟩

/-- Here too the release cannot fail: the flag was tested before the count was written. -/
theorem Refines.weakRelease_settled :
    SettlesWith bucket heap 0 (weakRelease bucket heap c (some 0)) := by
  unfold weakRelease
  obtain hheader | ⟨record, hheader, hx⟩ := h.controlHeader_cases c
  · rw [hheader]
    exact h.refused_settled ..
  rw [hheader]
  dsimp only [bind_eq_bind, bind_some]
  split
  · exact h.refused_settled ..
  next hidle =>
  have hpending : record.allocation.pendingLastStrong = 0 := by
    by_contra hpending
    exact hidle (.inl hpending)
  have hchanged := h.store (c := c) (.inr rfl) (load32 heap.memory (c + 4) - 1)
  split
  · obtain ⟨freed, hrelease, hfreed⟩ := hchanged.releaseKnown hx hpending
    rw [hrelease]
    exact ⟨_, _, _, rfl, hfreed.refines.settled_ok, fun hne => absurd rfl hne⟩
  · exact ⟨_, _, _, rfl, hchanged.refines.settled_ok, fun hne => absurd rfl hne⟩

end Registry

/-! ### Calls -/

/-- Nothing is left in the result record. -/
def Output.IsZero : Output → Prop
  | .nothing => True
  | .cell value => value = some 0
  | .record value => value = some .zero

/-- The caller passes a result record of its own, and clears it before the call. -/
def RuntimeCall.Prepared : RuntimeCall → Prop
  | .allocation (.allocate _ _ out _) | .allocation (.grow _ _ _ _ out _) => out = some 0
  | .stringFromUtf8Copy _ _ out _ | .vecAllocate _ _ out _ => out = some .zero
  | .stringClone _ out aliased _ | .stringConcat _ _ out aliased _
  | .vecReserve _ _ _ out aliased _ => out = some .zero ∧ aliased = false
  | .control operation _ lane =>
    isControlOperation operation = true ∧ (hasLane operation = true → lane = some 0)
  | .allocation (.release ..) | .stringRelease _ | .vecReleaseStorage .. => True

/-- The allocation that a call may ask `malloc` for: its size, its alignment and the answer. -/
def RuntimeCall.request (vecLayout : ℕ → Option (ℕ × ℕ)) : RuntimeCall → Option (ℕ × ℕ × ℕ)
  | .allocation (.allocate byteSize alignment _ base) => some (byteSize, alignment, base)
  | .allocation (.grow _ _ newByteSize alignment _ base) => some (newByteSize, alignment, base)
  | .stringFromUtf8Copy _ byteLength _ base => some (byteLength, 1, base)
  | .stringClone source _ _ base => source.map fun source => (source.length, 1, base)
  | .stringConcat (some left) (some right) _ _ base =>
    some ((left.length + right.length) % 2 ^ 64, 1, base)
  | .vecAllocate elementLayoutId requiredCapacity _ base =>
    (vecLayout elementLayoutId).map fun (stride, alignment) =>
      (requiredCapacity * stride, alignment, base)
  | .vecReserve elementLayoutId (some storage) requiredLength _ _ base =>
    (vecLayout elementLayoutId).map fun (stride, alignment) =>
      (grownCapacity storage.capacity requiredLength * stride, alignment, base)
  | _ => none

/-- `malloc` answers `NULL` or a block apart from every live one. -/
def Heap.Answers (heap : Heap) (byteSize alignment base : ℕ) : Prop :=
  byteSize ≤ targetAllocationBudget → base = 0
    ∨ base + totalSize byteSize alignment ≤ 2 ^ 64
      ∧ ∀ b t, heap.blocks.get? b = some t → base + totalSize byteSize alignment ≤ b ∨ b + t ≤ base

def RuntimeCall.Answered (vecLayout : ℕ → Option (ℕ × ℕ)) (heap : Heap) (call : RuntimeCall) :
    Prop :=
  ∀ byteSize alignment base, call.request vecLayout = some (byteSize, alignment, base) →
    heap.Answers byteSize alignment base

theorem Refines.answers (h : Refines bucket heap live) {byteSize alignment base : ℕ}
    (hmalloc : heap.Answers byteSize alignment base) : Answers live byteSize alignment base := by
  intro hbudget
  obtain hbase | ⟨hle, hapart⟩ := hmalloc hbudget
  · exact .inl hbase
  · refine .inr ⟨hle, fun entry hentry => hapart entry.2.base entry.2.total ?_⟩
    exact (h.blocks _ _).mpr ⟨entry.1, entry.2, OrderedMap.get?_eq_some.mpr hentry, rfl, rfl⟩

/-- How a call ends: with a registry again, and with everything as it was unless it succeeds. -/
def Atomic (bucket : ℕ → ℕ) (heap : Heap) (result : Option (RuntimeStatus × Output × Heap)) :
    Prop :=
  ∃ status output heap', result = some (status, output, heap')
    ∧ (∃ live', Refines bucket heap' live')
    ∧ (status ≠ .ok → heap' = heap ∧ output.IsZero)

theorem atomic_plain {result : Option (RuntimeStatus × Heap)}
    (hresult : Settles bucket heap result) :
    Atomic bucket heap (result.map fun (status, heap) => (status, .nothing, heap)) := by
  obtain ⟨status, heap', rfl, hsettled⟩ := hresult
  exact ⟨status, .nothing, heap', rfl, hsettled.refines, fun hne => ⟨hsettled.kept hne, trivial⟩⟩

/-- The same for a call with a result record, of either kind. -/
theorem atomic_output {α : Type} {zero : α} {result : Option (RuntimeStatus × Option α × Heap)}
    (output : Option α → Output) (houtput : (output (some zero)).IsZero)
    (hresult : SettlesWith bucket heap zero result) :
    Atomic bucket heap (result.map fun (status, out, heap) => (status, output out, heap)) := by
  obtain ⟨status, value, heap', rfl, hsettled, hzero⟩ := hresult
  refine ⟨status, output (some value), heap', rfl, hsettled.refines, fun hne => ?_⟩
  rw [hzero hne]
  exact ⟨hsettled.kept hne, houtput⟩

variable {vecLayout : ℕ → Option (ℕ × ℕ)}

theorem Refines.control_atomic (h : Refines bucket heap live)
    {operation : LogicalOperation} {c : ℕ} {lane : Option ℕ}
    (hop : isControlOperation operation = true) (hlane : hasLane operation = true → lane = some 0) :
    Atomic bucket heap (heap.call bucket vecLayout (.control operation c lane)) := by
  -- an operation without a boolean result passes the lane through
  have hplain {result : Option (RuntimeStatus × Heap)}
      (hrun : heap.call bucket vecLayout (.control operation c lane)
        = result.map fun (status, heap) => (status, .nothing, heap))
      (hresult : Settles bucket heap result) :
      Atomic bucket heap (heap.call bucket vecLayout (.control operation c lane)) :=
    hrun ▸ atomic_plain hresult
  cases operation with
  | strongClone => exact hplain (map_map ..) (h.strongClone_settled c)
  | weakDowngrade => exact hplain (map_map ..) (h.weakDowngrade_settled c)
  | weakClone => exact hplain (map_map ..) (h.weakClone_settled c)
  | weakUpgrade => exact hplain (map_map ..) (h.weakUpgrade_settled c)
  | strongReleaseFinish => exact hplain (map_map ..) (h.strongReleaseFinish_settled c)
  | strongReleaseBegin =>
    obtain rfl := hlane rfl
    exact atomic_output .cell rfl (h.strongReleaseBegin_settled c)
  | weakRelease =>
    obtain rfl := hlane rfl
    exact atomic_output .cell rfl (h.weakRelease_settled c)
  | _ => cases hop

/-- A call of the runtime by a caller that keeps its part of the contract. -/
theorem Refines.call_atomic (h : Refines bucket heap live)
    (hstride : ∀ id stride alignment, vecLayout id = some (stride, alignment) → 0 < stride)
    (call : RuntimeCall) (hprepared : call.Prepared) (hmalloc : call.Answered vecLayout heap) :
    Atomic bucket heap (heap.call bucket vecLayout call) := by
  match call, hprepared with
  | .allocation (.allocate byteSize alignment _ base), rfl =>
    exact atomic_output .cell rfl (h.allocateBytes_settled (h.answers (hmalloc _ _ _ rfl)))
  | .allocation (.grow pointer oldByteSize newByteSize alignment _ base), rfl =>
    exact atomic_output .cell rfl (h.grow_settled (h.answers (hmalloc _ _ _ rfl)))
  | .allocation (.release pointer byteSize alignment), _ =>
    exact atomic_plain (h.release_settled pointer byteSize alignment)
  | .stringFromUtf8Copy bytes byteLength _ base, rfl =>
    exact atomic_output .record rfl
      (h.stringFromUtf8Copy_settled (h.answers (hmalloc _ _ _ rfl)))
  | .stringClone source _ _ base, ⟨rfl, rfl⟩ =>
    refine atomic_output .record rfl (h.stringClone_settled fun value hvalue =>
      h.answers (hmalloc _ _ _ ?_))
    rw [hvalue]
    rfl
  | .stringConcat left right _ _ base, ⟨rfl, rfl⟩ =>
    refine atomic_output .record rfl (h.stringConcat_settled fun l r hl hr =>
      h.answers (hmalloc _ _ _ ?_))
    rw [hl, hr]
    rfl
  | .stringRelease value, _ => exact atomic_plain (h.stringRelease_settled value)
  | .vecAllocate elementLayoutId requiredCapacity _ base, rfl =>
    refine atomic_output .record rfl (h.vecAllocate_settled fun stride alignment hfound =>
      ⟨hstride _ _ _ hfound, h.answers (hmalloc _ _ _ ?_)⟩)
    show (vecLayout elementLayoutId).map _ = _
    rw [hfound]
    rfl
  | .vecReserve elementLayoutId storage requiredLength _ _ base, ⟨rfl, rfl⟩ =>
    refine atomic_output .record rfl (h.vecReserve_settled
      fun stride alignment value hfound hvalue => h.answers (hmalloc _ _ _ ?_))
    rw [hvalue]
    show (vecLayout elementLayoutId).map _ = _
    rw [hfound]
    rfl
  | .vecReleaseStorage elementLayoutId storage, _ =>
    exact atomic_plain (h.vecReleaseStorage_settled elementLayoutId storage)
  | .control operation c lane, ⟨hop, hlane⟩ => exact h.control_atomic hop hlane

/-! ### Runs -/

/-- The heaps that a program can see: the runtime starts without allocations, the program writes
memory as it likes, and it makes calls. -/
inductive Reached (bucket : ℕ → ℕ) (vecLayout : ℕ → Option (ℕ × ℕ)) : Heap → Prop where
  | start (memory : ℕ → UInt8) : Reached bucket vecLayout (.empty memory)
  | write {heap : Heap} (memory : ℕ → UInt8) (hreached : Reached bucket vecLayout heap) :
    Reached bucket vecLayout { heap with memory }
  | call {heap heap' : Heap} {call : RuntimeCall} {status : RuntimeStatus} {output : Output}
    (hreached : Reached bucket vecLayout heap) (hprepared : call.Prepared)
    (hmalloc : call.Answered vecLayout heap)
    (hcall : heap.call bucket vecLayout call = some (status, output, heap')) :
    Reached bucket vecLayout heap'

/-- Every heap of a run is a registry. -/
theorem Reached.refines
    (hstride : ∀ id stride alignment, vecLayout id = some (stride, alignment) → 0 < stride)
    (hreached : Reached bucket vecLayout heap) : ∃ live, Refines bucket heap live := by
  induction hreached with
  | start memory => exact ⟨_, refines_empty bucket memory⟩
  | write memory _ ih =>
    -- the registry does not depend on what the program writes
    obtain ⟨live, h⟩ := ih
    exact ⟨live, h.placed, h.data, h.headers, h.blocks, h.bucketed⟩
  | @call _ _ call _ _ _ hprepared hmalloc hcall ih =>
    obtain ⟨live, h⟩ := ih
    obtain ⟨status, output, heap', hcall', hrefines, -⟩ :=
      h.call_atomic hstride call hprepared hmalloc
    rw [hcall] at hcall'
    cases hcall'
    exact hrefines

/-- On any registry, as every heap of a run is: a call by a caller that keeps its part of the
contract returns and leaves a registry. Unless it returns `RT_OK` the heap is the same as before,
with every header record, block, list and byte, and the result record is zero. -/
theorem failed_call_kept {vecLayout : ℕ → Option (ℕ × ℕ)} (h : Refines bucket heap live)
    (hstride : ∀ id stride alignment, vecLayout id = some (stride, alignment) → 0 < stride)
    (call : RuntimeCall) (hprepared : call.Prepared) (hmalloc : call.Answered vecLayout heap) :
    ∃ status output heap', heap.call bucket vecLayout call = some (status, output, heap')
      ∧ (∃ live', Refines bucket heap' live')
      ∧ (status ≠ .ok → heap' = heap ∧ output.IsZero) :=
  h.call_atomic hstride call hprepared hmalloc

/-- `malloc` has no block left for a copy of one byte. -/
theorem failed_call_kept_exhausted :
    ∃ heap', (Heap.empty fun _ => 65).call allocationHead (fun _ => none)
        (.stringFromUtf8Copy 4096 1 (some .zero) 0) = some (.allocation, .record (some .zero), heap')
      ∧ heap' = .empty fun _ => 65 := by
  obtain ⟨status, output, heap', hcall, -, hkept⟩ :=
    @failed_call_kept _ _ _ (fun _ => none) (refines_empty allocationHead fun _ => 65)
      (fun _ _ _ h => by cases h) (.stringFromUtf8Copy 4096 1 (some .zero) 0) rfl
      (fun byteSize alignment base hrequest _ => by cases hrequest; exact .inl rfl)
  have hrun : ((Heap.empty fun _ => 65).call allocationHead (fun _ => none)
      (.stringFromUtf8Copy 4096 1 (some .zero) 0)).map (fun result => (result.1, result.2.1))
        = some (.allocation, .record (some .zero)) := by
    decide
  rw [hcall] at hrun ⊢
  obtain ⟨rfl, rfl⟩ := Prod.mk.inj (Option.some.inj hrun)
  exact ⟨heap', rfl, (hkept (by decide)).1⟩

/-- Each header stands before its storage, which is aligned and not empty, and the storage of a
header avoids every other header with its storage. -/
structure Heap.Safe (heap : Heap) : Prop where
  inside {a : ℕ} {record : Header} : heap.headers a = some record →
    0 < a ∧ record.data = a + headerSize ∧ 0 < record.size
      ∧ validAlignment record.alignment = true ∧ record.alignment ∣ record.data
      ∧ record.data + record.size ≤ 2 ^ 64
  apart {a a' : ℕ} {record record' : Header} : heap.headers a = some record →
    heap.headers a' = some record' → a ≠ a' →
      record.data + record.size ≤ a' ∨ record'.data + record'.size ≤ a

/-- **Every heap of a run is safe**, and the next call that a program makes on it is defined. -/
theorem Reached.safe
    (hstride : ∀ id stride alignment, vecLayout id = some (stride, alignment) → 0 < stride)
    (hreached : Reached bucket vecLayout heap) :
    heap.Safe ∧ ∀ call : RuntimeCall, call.Prepared → call.Answered vecLayout heap →
      (heap.call bucket vecLayout call).isSome := by
  obtain ⟨live, h⟩ := hreached.refines hstride
  have hlive {a : ℕ} {record : Header} (hrecord : heap.headers a = some record) :
      live.get? (a + headerSize) = some record.allocation := by
    rw [← h.headers, hrecord, map_some]
  constructor
  · constructor
    · intro a record hrecord
      obtain ⟨hbase, hhead, hend⟩ := h.placed.inside (hlive hrecord)
      obtain ⟨halignment, hdvd, hsize⟩ := h.placed.aligned (hlive hrecord)
      have hbound := h.placed.bounded (hlive hrecord)
      have hdata := h.data hrecord
      dsimp only [Header.allocation] at *
      exact ⟨by omega, hdata, hsize, halignment, hdata ▸ hdvd, by omega⟩
    · intro a a' record record' hrecord hrecord' hne
      have hapart := h.placed.apart (hlive hrecord) (hlive hrecord') (by omega)
      obtain ⟨-, hhead, hend⟩ := h.placed.inside (hlive hrecord)
      obtain ⟨-, hhead', hend'⟩ := h.placed.inside (hlive hrecord')
      have hdata := h.data hrecord
      have hdata' := h.data hrecord'
      dsimp only [Header.allocation] at *
      omega
  · intro call hprepared hmalloc
    obtain ⟨_, _, _, hcall, -⟩ := h.call_atomic hstride call hprepared hmalloc
    rw [hcall]
    rfl

/-- After one allocation of 16 bytes. -/
theorem Reached.safe_allocate :
    ∃ heap, (Heap.empty fun _ => 65).call allocationHead (fun _ => none)
        (.allocation (.allocate 16 8 (some 0) 4096)) = some (.ok, .cell (some 4152), heap)
      ∧ heap.Safe := by
  have hreached := @Reached.call allocationHead (fun _ => none) _ _
    (.allocation (.allocate 16 8 (some 0) 4096)) .ok (.cell (some 4152))
    (.start fun _ => 65) rfl (fun byteSize alignment base hrequest _ => ?_) rfl
  · exact ⟨_, rfl, (Reached.safe (fun _ _ _ h => by cases h) hreached).1⟩
  · cases hrequest
    exact .inr ⟨by decide, fun _ _ h => by cases h⟩

end Zryna.OwnershipRuntime.Native
