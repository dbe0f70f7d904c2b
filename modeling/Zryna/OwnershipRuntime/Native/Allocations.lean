import Zryna.OwnershipRuntime.Native.Registry

/-!
# Live allocations as a finite map

`Allocations` is what the native registry is for: a finite map from the live data pointers to their
sizes, alignments and pending flags, without headers, links or buckets. The operations here say
what the calls of the allocation interface do to such a map. `Placed` is what `malloc` gives: the
allocations lie in their own blocks, and blocks do not overlap.
-/

namespace Zryna.OwnershipRuntime.Native

open OrderedMap

/-! ### The map -/

/-- A live allocation: the block it lies in, its size, alignment and pending flag. -/
structure Allocation where
  base : ℕ
  size : ℕ
  alignment : ℕ
  pendingLastStrong : ℕ
deriving DecidableEq

/-- The size of the block of an allocation. -/
def Allocation.total (x : Allocation) : ℕ := totalSize x.size x.alignment

/-- Live allocations by data pointer. -/
abbrev Allocations : Type := OrderedMap ℕ Allocation

namespace Allocations

variable (live : Allocations)

def allocate (byteSize alignment : ℕ) (out : Option ℕ) (base : ℕ) :
    RuntimeStatus × Option ℕ × Allocations :=
  if out.isNone then (.abiViolation, none, live)
  else if !validAlignment alignment then (.abiViolation, some 0, live)
  else if byteSize = 0 then (.ok, some 0, live)
  else if byteSize > maxDynamicAllocationBytes then (.capacity, some 0, live)
  else if byteSize > targetAllocationBudget then (.allocation, some 0, live)
  else if base = 0 then (.allocation, some 0, live)
  else
    let pointer := alignUp (base + headerSize) alignment
    (.ok, some pointer, live.insert pointer ⟨base, byteSize, alignment, 0⟩)

def grow (pointer oldByteSize newByteSize alignment : ℕ) (out : Option ℕ) (base : ℕ) :
    RuntimeStatus × Option ℕ × Allocations :=
  if out.isNone then (.abiViolation, none, live)
  else if oldByteSize = 0 ∧ pointer = 0 then live.allocate newByteSize alignment (some 0) base
  else
    match live.get? pointer with
    | none => (.abiViolation, some 0, live)
    | some x =>
      if x.size ≠ oldByteSize ∨ x.alignment ≠ alignment ∨ x.pendingLastStrong ≠ 0 then
        (.abiViolation, some 0, live)
      else if newByteSize = oldByteSize then (.ok, some pointer, live)
      else if newByteSize = 0 then (.ok, some 0, live.erase pointer)
      else
        let (status, replacement, live) := live.allocate newByteSize alignment (some 0) base
        if status ≠ .ok then (status, some 0, live)
        else (.ok, some (replacement.getD 0), live.erase pointer)

def release (pointer byteSize alignment : ℕ) : RuntimeStatus × Allocations :=
  if pointer = 0 ∧ byteSize = 0 ∧ validAlignment alignment then (.ok, live)
  else
    match live.get? pointer with
    | none => (.abiViolation, live)
    | some x =>
      if x.size ≠ byteSize ∨ x.alignment ≠ alignment ∨ x.pendingLastStrong ≠ 0 then
        (.abiViolation, live)
      else (.ok, live.erase pointer)

def perform : Call → RuntimeStatus × Option ℕ × Allocations
  | .allocate byteSize alignment out base => live.allocate byteSize alignment out base
  | .grow pointer oldByteSize newByteSize alignment out base =>
    live.grow pointer oldByteSize newByteSize alignment out base
  | .release pointer byteSize alignment =>
    let (status, live) := live.release pointer byteSize alignment
    (status, none, live)

def run (live : Allocations) : List Call → List (RuntimeStatus × Option ℕ) × Allocations
  | [] => ([], live)
  | call :: calls =>
    let (status, out, live) := live.perform call
    let (results, live) := run live calls
    ((status, out) :: results, live)

/-- The out cell of an allocation is written. -/
theorem allocate_out (byteSize alignment base : ℕ) :
    ∃ pointer, (live.allocate byteSize alignment (some 0) base).2.1 = some pointer := by
  unfold allocate
  rw [if_neg (by simp)]
  iterate 5
    split
    · exact ⟨_, rfl⟩
  exact ⟨_, rfl⟩

/-- A block that `malloc` may return: inside the address space and apart from the live blocks. -/
def Fresh (total base : ℕ) : Prop :=
  base + total ≤ 2 ^ 64
    ∧ ∀ entry ∈ live.entries,
      base + total ≤ entry.2.base ∨ entry.2.base + entry.2.total ≤ base

end Allocations

/-- The block that a call may ask `malloc` for: its size and the answer. A size above the target
budget is refused before. -/
def Call.request : Call → Option (ℕ × ℕ)
  | .allocate byteSize alignment _ base =>
    if byteSize ≤ targetAllocationBudget then some (totalSize byteSize alignment, base) else none
  | .grow _ _ newByteSize alignment _ base =>
    if newByteSize ≤ targetAllocationBudget then some (totalSize newByteSize alignment, base)
    else none
  | .release .. => none

/-- Every answer of `malloc` along the calls is `NULL` or a fresh block. -/
def Allocations.FreshRun (live : Allocations) : List Call → Prop
  | [] => True
  | call :: calls =>
    (∀ total base, call.request = some (total, base) → base = 0 ∨ live.Fresh total base)
      ∧ FreshRun (live.perform call).2.2 calls

/-! ### Placement -/

/-- Where live allocations lie: inside their blocks, behind their headers, and apart. -/
structure Placed (live : Allocations) : Prop where
  inside : ∀ {p : ℕ} {x : Allocation}, live.get? p = some x →
    0 < x.base ∧ x.base + headerSize ≤ p ∧ p + x.size ≤ x.base + x.total
  aligned : ∀ {p : ℕ} {x : Allocation}, live.get? p = some x →
    validAlignment x.alignment = true ∧ x.alignment ∣ p ∧ 0 < x.size
  bounded : ∀ {p : ℕ} {x : Allocation}, live.get? p = some x → x.base + x.total ≤ 2 ^ 64
  apart : ∀ {p q : ℕ} {x y : Allocation}, live.get? p = some x → live.get? q = some y → p ≠ q →
    x.base + x.total ≤ y.base ∨ y.base + y.total ≤ x.base

theorem placed_empty : Placed empty := by
  refine ⟨?_, ?_, ?_, ?_⟩ <;> simp [get?_empty]

variable {alignment p base byteSize : ℕ} {x : Allocation}

theorem pos_of_validAlignment (h : validAlignment alignment = true) : 0 < alignment := by
  simp only [validAlignment, Bool.and_eq_true, decide_eq_true_eq] at h
  omega

theorem le_alignUp (address : ℕ) (h : 0 < alignment) : address ≤ alignUp address alignment := by
  have := Nat.div_add_mod (address + alignment - 1) alignment
  have := Nat.mod_lt (address + alignment - 1) h
  rw [Nat.mul_comm] at *
  unfold alignUp
  omega

theorem alignUp_le (address alignment : ℕ) : alignUp address alignment ≤ address + alignment - 1 :=
  Nat.div_mul_le_self _ _

/-- The data of a new allocation lies in its block, behind the header. -/
theorem alignUp_inside (base byteSize : ℕ) (h : validAlignment alignment = true) :
    base + headerSize ≤ alignUp (base + headerSize) alignment
      ∧ alignUp (base + headerSize) alignment + byteSize ≤ base + totalSize byteSize alignment := by
  have hpos := pos_of_validAlignment h
  have hle := le_alignUp (base + headerSize) hpos
  have hlt := alignUp_le (base + headerSize) alignment
  unfold totalSize
  omega

variable {live : Allocations}

theorem Placed.ne_zero (h : Placed live) (hx : live.get? p = some x) : p ≠ 0 := by
  have := h.inside hx
  omega

theorem Placed.insert (h : Placed live)
    (valid : validAlignment alignment = true) (nonempty : byteSize ≠ 0) (found : base ≠ 0)
    (fresh : live.Fresh (totalSize byteSize alignment) base) :
    Placed (live.insert (alignUp (base + headerSize) alignment) ⟨base, byteSize, alignment, 0⟩) := by
  have hinside := alignUp_inside base byteSize valid
  have hold {p : ℕ} {x : Allocation} (hx : live.get? p = some x) :=
    fresh.2 (p, x) (get?_eq_some.mp hx)
  refine ⟨?_, ?_, ?_, ?_⟩
  · intro p x hx
    rw [get?_insert] at hx
    split at hx
    · next hp =>
      cases hx
      exact ⟨Nat.pos_of_ne_zero found, hp ▸ hinside⟩
    · exact h.inside hx
  · intro p x hx
    rw [get?_insert] at hx
    split at hx
    · next hp =>
      cases hx
      exact ⟨valid, hp ▸ Nat.dvd_mul_left _ _, Nat.pos_of_ne_zero nonempty⟩
    · exact h.aligned hx
  · intro p x hx
    rw [get?_insert] at hx
    split at hx
    · cases hx
      exact fresh.1
    · exact h.bounded hx
  · intro p q x y hx hy hpq
    rw [get?_insert] at hx hy
    split at hx <;> split at hy
    · next hp hq => exact absurd (hp.trans hq.symm) hpq
    · cases hx
      exact hold hy
    · cases hy
      exact (hold hx).symm
    · exact h.apart hx hy hpq

theorem Placed.erase (h : Placed live) (pointer : ℕ) : Placed (live.erase pointer) := by
  have hold {p : ℕ} {x : Allocation} (hx : (live.erase pointer).get? p = some x) :
      live.get? p = some x := by
    rw [get?_erase] at hx
    split at hx
    · cases hx
    · exact hx
  exact ⟨fun hx => h.inside (hold hx), fun hx => h.aligned (hold hx), fun hx => h.bounded (hold hx),
    fun hx hy => h.apart (hold hx) (hold hy)⟩

/-- The pointer of a fresh allocation is not live. -/
theorem Placed.get?_fresh (h : Placed live) (valid : validAlignment alignment = true)
    (fresh : live.Fresh (totalSize byteSize alignment) base) :
    live.get? (alignUp (base + headerSize) alignment) = none := by
  cases hx : live.get? (alignUp (base + headerSize) alignment) with
  | none => rfl
  | some x =>
    have hapart := fresh.2 _ (get?_eq_some.mp hx)
    have hinside := alignUp_inside base byteSize valid
    have hold := h.inside hx
    have : 0 < headerSize := by decide
    simp only at hapart
    omega

/-- A fresh allocation leaves the live ones in the map and returns a pointer that was not live. -/
theorem Placed.get?_allocate (h : Placed live) (out : Option ℕ)
    (fresh : byteSize ≤ targetAllocationBudget →
      base = 0 ∨ live.Fresh (totalSize byteSize alignment) base)
    (hx : live.get? p = some x) :
    (live.allocate byteSize alignment out base).2.2.get? p = some x
      ∧ (live.allocate byteSize alignment out base).2.1 ≠ some p := by
  have hne := h.ne_zero hx
  unfold Allocations.allocate
  split
  · exact ⟨hx, by simp⟩
  split
  · exact ⟨hx, by simpa using hne.symm⟩
  next hvalid =>
  iterate 2
    split
    · exact ⟨hx, by simpa using hne.symm⟩
  split
  · exact ⟨hx, by simpa using hne.symm⟩
  next hbudget =>
  split
  · exact ⟨hx, by simpa using hne.symm⟩
  next hbase =>
  have hfresh := (fresh (Nat.not_lt.mp hbudget)).resolve_left hbase
  have hnone := h.get?_fresh (by simpa using hvalid) hfresh
  have hother : p ≠ alignUp (base + headerSize) alignment := by
    rintro rfl
    rw [hnone] at hx
    cases hx
  refine ⟨?_, by simpa using hother.symm⟩
  rw [get?_insert, if_neg hother, hx]

/-! ### Live pointers -/

/-- The pointers that are live after a call, from what the caller sees: a successful allocation
returns a new one, a successful growth exchanges one, a successful release ends one. -/
def Call.liveAfter (pointers : List ℕ) (call : Call) (result : RuntimeStatus × Option ℕ) : List ℕ :=
  if result.1 ≠ .ok then pointers
  else
    match call with
    | .allocate .. => result.2.toList.filter (· ≠ 0) ++ pointers
    | .grow pointer .. => result.2.toList.filter (· ≠ 0) ++ pointers.filter (· ≠ pointer)
    | .release pointer .. => pointers.filter (· ≠ pointer)

/-- The pointers that are live after calls with the given results. -/
def livePointers (pointers : List ℕ) (history : List (Call × RuntimeStatus × Option ℕ)) : List ℕ :=
  history.foldl (fun pointers entry => entry.1.liveAfter pointers entry.2) pointers

variable {pointers : List ℕ}

theorem liveAfter_allocate (byteSize alignment : ℕ) (out : Option ℕ) (base : ℕ)
    (hp : ∀ p, p ∈ pointers ↔ (live.get? p).isSome) (p : ℕ) :
    let result := live.allocate byteSize alignment out base
    (p ∈ if result.1 ≠ .ok then pointers
      else result.2.1.toList.filter (· ≠ 0) ++ pointers) ↔ (result.2.2.get? p).isSome := by
  dsimp only
  unfold Allocations.allocate
  split
  · simp [hp]
  split
  · simp [hp]
  next hvalid =>
  iterate 4
    split
    · simp [hp]
  next hbase =>
  have hinside := alignUp_inside base byteSize (by simpa using hvalid)
  have hne : alignUp (base + headerSize) alignment ≠ 0 := by omega
  simp only [ne_eq, not_true_eq_false, if_false, Option.toList_some]
  rw [get?_insert]
  split
  · next heq => simp [heq, hne]
  · next hne' => simp [hp, hne']

theorem mem_filter_erase (hp : ∀ p, p ∈ pointers ↔ (live.get? p).isSome) (p pointer : ℕ) :
    p ∈ pointers.filter (· ≠ pointer) ↔ ((live.erase pointer).get? p).isSome := by
  rw [List.mem_filter, hp, get?_erase]
  split
  · next heq => simp [heq]
  · next hne => simp [hne]

/-- The pointers that a caller sees as live are the keys of the map. -/
theorem Placed.liveAfter_perform (h : Placed live) (call : Call)
    (fresh : ∀ total base, call.request = some (total, base) → base = 0 ∨ live.Fresh total base)
    (hp : ∀ p, p ∈ pointers ↔ (live.get? p).isSome) (p : ℕ) :
    p ∈ call.liveAfter pointers ((live.perform call).1, (live.perform call).2.1)
      ↔ ((live.perform call).2.2.get? p).isSome := by
  -- the null pointer is no key
  have hnull : pointers.filter (· ≠ 0) = pointers := by
    rw [List.filter_eq_self]
    intro q hq
    obtain ⟨x, hx⟩ := Option.isSome_iff_exists.mp ((hp q).mp hq)
    simpa using h.ne_zero hx
  cases call with
  | allocate byteSize alignment out base => exact liveAfter_allocate _ _ _ _ hp p
  | release pointer byteSize alignment =>
    unfold Call.liveAfter Allocations.perform Allocations.release
    dsimp only
    split
    · next hzero =>
      rw [hzero.1, hnull]
      simp [hp]
    cases hx : live.get? pointer with
    | none => simp [hp]
    | some x =>
      dsimp only
      split
      · simp [hp]
      · exact mem_filter_erase hp p pointer
  | grow pointer oldByteSize newByteSize alignment out base =>
    unfold Call.liveAfter Allocations.perform Allocations.grow
    dsimp only
    split
    · simp [hp]
    split
    · next hzero =>
      rw [hzero.2, hnull]
      exact liveAfter_allocate _ _ _ _ hp p
    cases hx : live.get? pointer with
    | none => simp [hp]
    | some x =>
      dsimp only
      split
      · simp [hp]
      split
      · -- the same size: the pointer is given back
        have hne := h.ne_zero hx
        by_cases heq : p = pointer
        · simp [heq, hne, hx]
        · simp [heq, hne, hp]
      split
      · simpa using mem_filter_erase hp p pointer
      · obtain ⟨-, hother⟩ := h.get?_allocate (some 0)
          (fun hbudget => fresh _ _ (if_pos hbudget)) hx
        obtain ⟨q, hq⟩ := live.allocate_out newByteSize alignment base
        have hallocate := liveAfter_allocate newByteSize alignment (some 0) base hp p
        dsimp only at hallocate
        rw [hq] at hother hallocate ⊢
        by_cases hstatus : (live.allocate newByteSize alignment (some 0) base).1 = .ok
        · simp only [hstatus, ne_eq, not_true_eq_false, if_false] at hallocate ⊢
          rw [get?_erase]
          split
          · next heq =>
            have hqp : p ≠ q := by
              rintro rfl
              exact hother (congrArg some heq)
            subst heq
            simp [hqp]
          · next hne =>
            rw [← hallocate]
            simp [hne]
        · simpa [hstatus] using hallocate

end Zryna.OwnershipRuntime.Native
