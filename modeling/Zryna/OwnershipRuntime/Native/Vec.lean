import Zryna.OwnershipRuntime.Native.Refinement

/-!
# Vec storage in the native runtime

`zryna_rt_o1_vec_reserve` of `runtime/native/ownership_runtime_v1.c`, next to the growth rule that
the ABI freezes in `reserveCapacity`. Both double a capacity until it covers the requirement, but
the C loop starts at 1 for an empty Vec where the rule starts at 4, and it reports `RT_CAPACITY`
for a doubled capacity above the byte limit where the rule falls back to the requirement.
`vecReserve_iff` says exactly on which inputs the two agree.

`vec_layout` is generated from the sealed layouts and is a parameter here.
-/

namespace Zryna.OwnershipRuntime.Native

open Option

/-- `zryna_rt_o1_handle`. -/
structure Handle where
  pointer : ℕ
  length : ℕ
  capacity : ℕ
deriving DecidableEq

/-- The handle that a result record is cleared to. -/
def Handle.zero : Handle := ⟨0, 0, 0⟩

/-- The doubling loop of `vec_reserve`. A capacity that is doubled is at most half of the maximum,
so 32 rounds are never used up. -/
def capacityLoop (required : ℕ) : ℕ → ℕ → ℕ
  | 0, capacity => capacity
  | rounds + 1, capacity =>
    if capacity < required ∧ capacity ≤ maxVecElements / 2 then
      capacityLoop required rounds (capacity * 2)
    else capacity

/-- The capacity that `vec_reserve` grows to. -/
def grownCapacity (old required : ℕ) : ℕ :=
  let capacity := capacityLoop required 32 (if old = 0 then 1 else old)
  if capacity < required then required else capacity

section Vec

variable (bucket : ℕ → ℕ) (vecLayout : ℕ → Option (ℕ × ℕ))

/-- `storage` is `none` for `NULL`. -/
def validVecStorage (heap : Heap) (storage : Option Handle) (stride alignment : ℕ) : Option Bool :=
  match storage with
  | none => some false
  | some storage =>
    if stride = 0 ∨ storage.length > storage.capacity ∨ storage.capacity > maxVecElements
        ∨ storage.capacity > maxDynamicAllocationBytes / stride then
      some false
    else if storage.capacity = 0 then some (storage.pointer = 0)
    else do
      let header ← headerFor bucket heap storage.pointer
      if header = 0 then some false
      else do
        let record ← heap.headers header
        some (record.size = storage.capacity * stride && record.alignment = alignment
          && record.pendingLastStrong = 0)

/-- Growth of a checked storage, after the result record is cleared. -/
def vecGrow (heap : Heap) (storage : Handle) (requiredLength stride alignment base : ℕ) :
    Option (RuntimeStatus × Option Handle × Heap) :=
  let capacity := grownCapacity storage.capacity requiredLength
  if capacity > maxVecElements ∨ capacity > maxDynamicAllocationBytes / stride then
    some (.capacity, some .zero, heap)
  else do
    let (status, pointer, heap) ← grow bucket heap storage.pointer (storage.capacity * stride)
      (capacity * stride) alignment (some 0) base
    if status ≠ .ok then some (status, some .zero, heap)
    else some (.ok, some ⟨pointer.getD 0, storage.length, capacity⟩, heap)

/-- `aliased` says that both handles are the same record. The result is the status, the result
record after the call, and the heap. -/
def vecReserve (heap : Heap) (elementLayoutId : ℕ) (storage : Option Handle)
    (requiredLength : ℕ) (out : Option Handle) (aliased : Bool) (base : ℕ) :
    Option (RuntimeStatus × Option Handle × Heap) :=
  if aliased then some (.abiViolation, out, heap)
  else
    let refused : Option (RuntimeStatus × Option Handle × Heap) :=
      some (.abiViolation, out.map fun _ => .zero, heap)
    match out, vecLayout elementLayoutId, storage with
    | some _, some (stride, alignment), some storage => do
      let valid ← validVecStorage bucket heap (some storage) stride alignment
      if !valid ∨ requiredLength < storage.length then refused
      else if requiredLength ≤ storage.capacity then some (.ok, some storage, heap)
      else vecGrow bucket heap storage requiredLength stride alignment base
    | _, _, _ => refused

end Vec

/-! ### The two loops -/

/-- The first of the doublings `start`, `2 * start`, ... that is at least `required`. -/
def FirstDoubling (start required d : ℕ) : Prop :=
  ∃ k, d = start * 2 ^ k ∧ required ≤ d ∧ (k = 0 ∨ d < 2 * required)

variable {d required start capacity stride old : ℕ}

theorem FirstDoubling.double (h : FirstDoubling (start * 2) required d)
    (hlt : start < required) : FirstDoubling start required d := by
  obtain ⟨k, rfl, hle, hk⟩ := h
  refine ⟨k + 1, by rw [Nat.pow_succ, Nat.mul_assoc, Nat.mul_comm 2], hle, .inr ?_⟩
  obtain rfl | hlt' := hk
  · omega
  · exact hlt'

/-- Doublings of one start that lie between `required` and its double are equal. -/
theorem FirstDoubling.unique {d' : ℕ} (h : FirstDoubling start required d)
    (h' : FirstDoubling start required d') (hlt : d < 2 * required) (hlt' : d' < 2 * required) :
    d = d' := by
  obtain ⟨k, rfl, hle, -⟩ := h
  obtain ⟨k', rfl, hle', -⟩ := h'
  have key {i j : ℕ} (hij : i < j) (hi : required ≤ start * 2 ^ i) :
      2 * required ≤ start * 2 ^ j := by
    obtain ⟨m, rfl⟩ := Nat.exists_eq_add_of_lt hij
    calc 2 * required ≤ 2 * (start * 2 ^ i) := Nat.mul_le_mul_left 2 hi
      _ = start * 2 ^ (i + 1) := by rw [Nat.pow_succ]; ac_rfl
      _ ≤ start * 2 ^ (i + m + 1) :=
        Nat.mul_le_mul_left _ (Nat.pow_le_pow_right (by decide) (by omega))
  rcases Nat.lt_trichotomy k k' with hk | rfl | hk
  · have := key hk hle
    omega
  · rfl
  · have := key hk hle'
    omega

theorem vecCapacityFits_of_le (hle : capacity ≤ required)
    (h : vecCapacityFits required stride = true) : vecCapacityFits capacity stride = true := by
  simp only [vecCapacityFits, Bool.and_eq_true, decide_eq_true_eq] at h ⊢
  have := Nat.mul_le_mul_right stride hle
  omega

/-- The loop of the rule stops at the first doubling that covers the requirement. -/
theorem reserveLoop_eq (hfits : vecCapacityFits required stride = true)
    (rounds candidate : ℕ) (hpos : 0 < candidate) (enough : required ≤ candidate * 2 ^ rounds) :
    ∃ d, FirstDoubling candidate required d
      ∧ reserveLoop required stride (rounds + 1) candidate
        = some (if vecCapacityFits d stride then d else required) := by
  induction rounds generalizing candidate with
  | zero =>
    have hle : required ≤ candidate := by simpa using enough
    refine ⟨candidate, ⟨0, by simp, hle, .inl rfl⟩, ?_⟩
    rw [reserveLoop, if_neg (by omega)]
  | succ rounds ih =>
    rw [reserveLoop]
    by_cases hlt : candidate < required
    · have hcandidate := vecCapacityFits_of_le hlt.le hfits
      have hsmall : ¬ 2 ^ 64 ≤ candidate * 2 := by
        simp only [vecCapacityFits, Bool.and_eq_true, decide_eq_true_eq] at hcandidate
        have : candidate ≤ maxVecElements := hcandidate.1.2
        unfold maxVecElements at this
        omega
      obtain ⟨d, hd, hloop⟩ := ih (candidate * 2) (by omega)
        (by rw [Nat.mul_assoc, ← Nat.pow_succ']; exact enough)
      exact ⟨d, hd.double hlt, by rw [if_pos hlt, hcandidate, if_neg (by simp), if_neg hsmall, hloop]⟩
    · exact ⟨candidate, ⟨0, by simp, by omega, .inl rfl⟩, by rw [if_neg hlt]⟩

/-- The C loop stops there too, unless the doubling leaves the element limit. -/
theorem capacityLoop_eq (hrequired : required ≤ maxVecElements)
    (rounds capacity : ℕ) (hpos : 0 < capacity) (hle : capacity ≤ maxVecElements)
    (enough : required ≤ capacity * 2 ^ rounds) :
    ∃ d, FirstDoubling capacity required d
      ∧ (if capacityLoop required rounds capacity < required then required
        else capacityLoop required rounds capacity)
        = if d ≤ maxVecElements then d else required := by
  induction rounds generalizing capacity with
  | zero =>
    have henough : required ≤ capacity := by simpa using enough
    refine ⟨capacity, ⟨0, by simp, henough, .inl rfl⟩, ?_⟩
    rw [capacityLoop, if_neg (by omega), if_pos hle]
  | succ rounds ih =>
    have hround : capacityLoop required (rounds + 1) capacity
        = if capacity < required ∧ capacity ≤ maxVecElements / 2 then
            capacityLoop required rounds (capacity * 2)
          else capacity := rfl
    by_cases hlt : capacity < required
    · by_cases hhalf : capacity ≤ maxVecElements / 2
      · rw [if_pos ⟨hlt, hhalf⟩] at hround
        obtain ⟨d, hd, hloop⟩ := ih (capacity * 2) (by omega)
          (by unfold maxVecElements at *; omega)
          (by rw [Nat.mul_assoc, ← Nat.pow_succ']; exact enough)
        exact ⟨d, hd.double hlt, by rw [hround, hloop]⟩
      · -- one more doubling would leave the limit
        rw [if_neg (fun h => hhalf h.2)] at hround
        refine ⟨capacity * 2, ⟨1, by simp, ?_, .inr (by omega)⟩, ?_⟩
        · unfold maxVecElements at *
          omega
        · rw [hround, if_pos hlt, if_neg]
          unfold maxVecElements at *
          omega
    · rw [if_neg (fun h => hlt h.1)] at hround
      refine ⟨capacity, ⟨0, by simp, by omega, .inl rfl⟩, ?_⟩
      rw [hround, if_neg hlt, if_pos hle]

theorem grownCapacity_eq (hrequired : required ≤ maxVecElements) (hlt : old < required) :
    ∃ d, FirstDoubling (max old 1) required d ∧ d < 2 * required
      ∧ grownCapacity old required = if d ≤ maxVecElements then d else required := by
  have hstart : (if old = 0 then 1 else old) = max old 1 := by
    split <;> omega
  have enough : required ≤ max old 1 * 2 ^ 32 := by
    unfold maxVecElements at hrequired
    omega
  obtain ⟨d, hd, hloop⟩ := capacityLoop_eq hrequired 32 (max old 1) (by omega) (by omega) enough
  refine ⟨d, hd, ?_, ?_⟩
  · obtain ⟨k, rfl, -, rfl | hk⟩ := hd
    · simp only [Nat.pow_zero, Nat.mul_one]
      omega
    · exact hk
  · unfold grownCapacity
    rw [hstart]
    exact hloop

/-- The rule doubles from the same start, except that an empty Vec of one or two elements gets
four. -/
theorem reserveCapacity_eq (hold : vecCapacityFits old stride = true)
    (hfits : vecCapacityFits required stride = true) (hlt : old < required) :
    ∃ d, reserveCapacity old required stride
        = some (if vecCapacityFits d stride then d else required)
      ∧ (old = 0 ∧ required ≤ 2 → d = 4)
      ∧ (¬(old = 0 ∧ required ≤ 2) →
        FirstDoubling (max old 1) required d ∧ d < 2 * required) := by
  have hrequired : required ≤ maxVecElements := by
    simp only [vecCapacityFits, Bool.and_eq_true, decide_eq_true_eq] at hfits
    exact hfits.1.2
  have hbound : required ≤ 1048576 := hrequired
  unfold reserveCapacity
  simp only [hold, hfits]
  rw [if_neg (by simp), if_neg (by omega)]
  by_cases hzero : old = 0
  · subst hzero
    rw [if_pos rfl, if_neg (by omega)]
    obtain ⟨d, hd, hloop⟩ := reserveLoop_eq hfits 31 4 (by omega) (by omega)
    refine ⟨d, hloop, ?_, ?_⟩
    · rintro ⟨-, hsmall⟩
      obtain ⟨k, rfl, hle, rfl | hk⟩ := hd
      · rfl
      · have := Nat.one_le_two_pow (n := k)
        omega
    · intro hlarge
      have hd1 : FirstDoubling 1 required d := (hd.double (by omega)).double (by omega)
      refine ⟨hd1, ?_⟩
      obtain ⟨k, rfl, -, rfl | hk⟩ := hd
      · omega
      · exact hk
  · rw [if_neg hzero, if_neg (by omega)]
    obtain ⟨d, hd, hloop⟩ := reserveLoop_eq hfits 31 (old * 2) (by omega) (by omega)
    refine ⟨d, hloop, fun h => absurd h.1 hzero, fun _ => ?_⟩
    rw [Nat.max_eq_left (by omega)]
    refine ⟨hd.double hlt, ?_⟩
    obtain ⟨k, rfl, -, rfl | hk⟩ := hd
    · simp only [Nat.pow_zero, Nat.mul_one]
      omega
    · exact hk

/-- The inputs on which the native growth and the rule agree: nothing has to grow; or it is not an
empty Vec that grows to one or two elements within the target budget, and the first doubling that
covers the requirement is within the byte limit whenever it is within the element limit and the
requirement itself is within the byte limit. -/
def ReserveAgrees (old required stride : ℕ) : Prop :=
  old < required →
    ¬(old = 0 ∧ required ≤ 2 ∧ required * stride ≤ targetAllocationBudget)
    ∧ ∀ k, required ≤ max old 1 * 2 ^ k → max old 1 * 2 ^ k < 2 * required →
      max old 1 * 2 ^ k ≤ maxVecElements → required * stride ≤ maxDynamicAllocationBytes →
      max old 1 * 2 ^ k * stride ≤ maxDynamicAllocationBytes

theorem vecCapacityFits_iff : vecCapacityFits capacity stride = true ↔
    0 < stride ∧ capacity ≤ maxVecElements ∧ capacity * stride ≤ maxDynamicAllocationBytes := by
  simp [vecCapacityFits, and_assoc]

/-- An empty Vec that grows to one or two elements: the C loop gives the requirement, the rule gives
four. -/
theorem grown_agrees_iff_small
    (hfits : vecCapacityFits required stride = true) (hpos : 0 < required) (hsmall : required ≤ 2) :
    ReserveAgrees 0 required stride ↔
      vecCapacityFits (grownCapacity 0 required) stride = true
      ∧ (grownCapacity 0 required * stride ≤ targetAllocationBudget →
        reserveCapacity 0 required stride = some (grownCapacity 0 required)) := by
  have hgrown : grownCapacity 0 required = required := by
    obtain rfl | rfl : required = 1 ∨ required = 2 := by omega
    · rfl
    · rfl
  have hdoubling (k : ℕ) (hle : required ≤ 2 ^ k) (hlt : 2 ^ k < 2 * required) :
      2 ^ k = required := by
    match k with
    | 0 => simp at hle ⊢; omega
    | 1 => simp at hlt ⊢; omega
    | k + 2 =>
      have := Nat.one_le_two_pow (n := k)
      rw [Nat.pow_add] at hlt
      omega
  obtain ⟨hstride, -, hbytes⟩ := vecCapacityFits_iff.mp hfits
  obtain ⟨d, hrule, hfour, -⟩ := reserveCapacity_eq
    (vecCapacityFits_of_le (Nat.zero_le required) hfits) hfits hpos
  rw [hfour ⟨rfl, hsmall⟩] at hrule
  rw [hgrown, hrule]
  constructor
  · intro hagrees
    exact ⟨hfits, fun hbudget => absurd ⟨rfl, hsmall, hbudget⟩ (hagrees hpos).1⟩
  · rintro ⟨-, hsame⟩ -
    refine ⟨?_, fun k hle hlt _ _ => ?_⟩
    · rintro ⟨-, -, hbudget⟩
      have hfitsFour : vecCapacityFits 4 stride = true := by
        rw [vecCapacityFits_iff]
        unfold targetAllocationBudget maxDynamicAllocationBytes maxVecElements at *
        have := Nat.mul_le_mul_right stride hpos
        omega
      have := hsame hbudget
      rw [hfitsFour, if_pos rfl, Option.some.injEq] at this
      omega
    · have hmax : max 0 1 * 2 ^ k = 2 ^ k := by simp
      rw [hmax] at hle hlt ⊢
      rw [hdoubling k hle hlt]
      exact hbytes

/-- What growth comes to for a requirement within the limits. -/
theorem grown_agrees_iff (hold : vecCapacityFits old stride = true)
    (hfits : vecCapacityFits required stride = true) (hlt : old < required) :
    ReserveAgrees old required stride ↔
      vecCapacityFits (grownCapacity old required) stride = true
      ∧ (grownCapacity old required * stride ≤ targetAllocationBudget →
        reserveCapacity old required stride = some (grownCapacity old required)) := by
  by_cases hsmall : old = 0 ∧ required ≤ 2
  · obtain ⟨rfl, hle⟩ := hsmall
    exact grown_agrees_iff_small hfits hlt hle
  obtain ⟨hstride, hrequired, hbytes⟩ := vecCapacityFits_iff.mp hfits
  obtain ⟨d, hd, hdlt, hgrown⟩ := grownCapacity_eq hrequired hlt
  obtain ⟨d', hrule, -, hsame⟩ := reserveCapacity_eq hold hfits hlt
  obtain ⟨hd', hdlt'⟩ := hsame hsmall
  obtain rfl := hd.unique hd' hdlt hdlt'
  -- both sides say that the doubling is within the byte limit if it is within the element limit
  have hagrees : ReserveAgrees old required stride ↔
      (d ≤ maxVecElements → d * stride ≤ maxDynamicAllocationBytes) := by
    constructor
    · intro hagrees hle
      obtain ⟨k, rfl, hcovers, -⟩ := hd
      exact (hagrees hlt).2 k hcovers hdlt hle hbytes
    · intro hwithin _
      refine ⟨fun h => hsmall ⟨h.1, h.2.1⟩, fun k hcovers hklt hle _ => ?_⟩
      have hk : FirstDoubling (max old 1) required (max old 1 * 2 ^ k) :=
        ⟨k, rfl, hcovers, .inr hklt⟩
      rw [hk.unique hd hklt hdlt] at hle ⊢
      exact hwithin hle
  rw [hagrees, hgrown, hrule]
  by_cases hle : d ≤ maxVecElements
  · simp only [hle, if_true, forall_const]
    constructor
    · intro hwithin
      have hfitsD : vecCapacityFits d stride = true := vecCapacityFits_iff.mpr ⟨hstride, hle, hwithin⟩
      exact ⟨hfitsD, fun _ => by rw [if_pos hfitsD]⟩
    · rintro ⟨hfitsD, -⟩
      exact (vecCapacityFits_iff.mp hfitsD).2.2
  · have hnot : vecCapacityFits d stride ≠ true := fun h => hle (vecCapacityFits_iff.mp h).2.1
    simp [hle, hnot, hfits]

/-! ### Growth on the heap -/

variable {bucket : ℕ → ℕ} {heap : Heap} {live : Allocations}

/-- A storage handle that is well formed: within the limits, and empty or registered. -/
structure WellFormed (live : Allocations) (storage : Handle) (stride alignment : ℕ) : Prop where
  length_le : storage.length ≤ storage.capacity
  fits : vecCapacityFits storage.capacity stride = true
  empty : storage.capacity = 0 → storage.pointer = 0
  registered : storage.capacity ≠ 0 → ∃ x, live.get? storage.pointer = some x
    ∧ x.size = storage.capacity * stride ∧ x.alignment = alignment ∧ x.pendingLastStrong = 0

theorem Refines.validVecStorage (h : Refines bucket heap live) (storage : Handle)
    (stride alignment : ℕ) :
    validVecStorage bucket heap (some storage) stride alignment = some true ↔
      WellFormed live storage stride alignment := by
  have hlimits (hstride : 0 < stride) : (storage.capacity > maxDynamicAllocationBytes / stride) ↔
      ¬storage.capacity * stride ≤ maxDynamicAllocationBytes := by
    rw [gt_iff_lt, ← Nat.not_le, Nat.le_div_iff_mul_le hstride]
  unfold Native.validVecStorage
  dsimp only
  split
  · next hinvalid =>
    refine ⟨fun h => by simp at h, fun hformed => ?_⟩
    obtain ⟨hstride, hmax, hbytes⟩ := vecCapacityFits_iff.mp hformed.fits
    rw [hlimits hstride] at hinvalid
    have := hformed.length_le
    omega
  next hinvalid =>
  simp only [not_or, Nat.not_lt] at hinvalid
  obtain ⟨hstride, hlength, hmax, hbytes⟩ := hinvalid
  have hstride : 0 < stride := Nat.pos_of_ne_zero hstride
  have hfits : vecCapacityFits storage.capacity stride = true := by
    rw [vecCapacityFits_iff]
    exact ⟨hstride, hmax, (Nat.le_div_iff_mul_le hstride).mp hbytes⟩
  split
  · next hzero =>
    constructor
    · intro hpointer
      exact ⟨hlength, hfits, fun _ => by simpa using hpointer, fun hne => absurd hzero hne⟩
    · intro hformed
      simpa using hformed.empty hzero
  · next hne =>
    rw [h.headerFor]
    cases hx : live.get? storage.pointer with
    | none =>
      refine ⟨fun h => by simp at h, fun hformed => ?_⟩
      obtain ⟨x, hx', -⟩ := hformed.registered hne
      rw [hx] at hx'
      cases hx'
    | some x =>
      obtain ⟨-, hheader, record, hrecord, -, rfl⟩ := h.header hx
      simp only [isSome_some, if_true, bind_eq_bind, bind_some, hheader,
        if_false, hrecord, Option.some.injEq, Bool.and_eq_true, decide_eq_true_eq]
      constructor
      · rintro ⟨⟨hsize, halignment⟩, hpending⟩
        exact ⟨hlength, hfits, fun hzero => absurd hzero hne, fun _ =>
          ⟨_, hx, hsize, halignment, hpending⟩⟩
      · intro hformed
        obtain ⟨y, hy, hsize, halignment, hpending⟩ := hformed.registered hne
        rw [hx] at hy
        cases hy
        exact ⟨⟨hsize, halignment⟩, hpending⟩

variable {alignment base byteSize : ℕ}

/-- Growth of a well-formed storage is an allocation of the new size, and it replaces the old
one. -/
theorem WellFormed.grow_eq {storage : Handle} {newByteSize : ℕ}
    (hformed : WellFormed live storage stride alignment)
    (hgrows : storage.capacity * stride < newByteSize) (base : ℕ) :
    (live.grow storage.pointer (storage.capacity * stride) newByteSize alignment (some 0) base).1
        = (live.allocate newByteSize alignment (some 0) base).1
      ∧ ((live.allocate newByteSize alignment (some 0) base).1 = .ok →
        (live.grow storage.pointer (storage.capacity * stride) newByteSize alignment (some 0)
            base).2.1 = (live.allocate newByteSize alignment (some 0) base).2.1)
      ∧ ((live.allocate newByteSize alignment (some 0) base).1 ≠ .ok →
        (live.grow storage.pointer (storage.capacity * stride) newByteSize alignment (some 0)
            base).2.2 = (live.allocate newByteSize alignment (some 0) base).2.2) := by
  unfold Allocations.grow
  rw [if_neg (by simp)]
  by_cases hzero : storage.capacity = 0
  · rw [if_pos ⟨by rw [hzero, Nat.zero_mul], hformed.empty hzero⟩]
    exact ⟨rfl, fun _ => rfl, fun _ => rfl⟩
  · obtain ⟨x, hx, hsize, halignment, hpending⟩ := hformed.registered hzero
    obtain ⟨q, hq⟩ := live.allocate_out newByteSize alignment base
    have hstride := (vecCapacityFits_iff.mp hformed.fits).1
    have hpos : storage.capacity * stride ≠ 0 := Nat.mul_ne_zero hzero hstride.ne'
    rw [if_neg (fun h => hpos h.1), hx]
    dsimp only
    rw [if_neg (by simp [hsize, halignment, hpending]), if_neg (by omega), if_neg (by omega), hq]
    by_cases hstatus : (live.allocate newByteSize alignment (some 0) base).1 = .ok
    · simp [hstatus]
    · simp [hstatus]

/-- An allocation within the target budget succeeds when `malloc` does. -/
theorem allocate_ok (live : Allocations) (hvalid : validAlignment alignment = true)
    (hpos : byteSize ≠ 0) (hbudget : byteSize ≤ targetAllocationBudget) (hbase : base ≠ 0) :
    ∃ p live', p ≠ 0 ∧ live.allocate byteSize alignment (some 0) base = (.ok, some p, live') := by
  have hinside := (alignUp_inside base byteSize hvalid).1
  have hle : ¬byteSize > maxDynamicAllocationBytes := by
    unfold targetAllocationBudget at hbudget
    unfold maxDynamicAllocationBytes
    omega
  refine ⟨alignUp (base + headerSize) alignment,
    live.insert (alignUp (base + headerSize) alignment) ⟨base, byteSize, alignment, 0⟩,
    by omega, ?_⟩
  simp only [Allocations.allocate, isNone_some, hvalid, Bool.not_true, Bool.false_eq_true,
    if_false, hpos, hle, Nat.not_lt.mpr hbudget, hbase]

/-- An allocation above the target budget fails without a change. -/
theorem allocate_over (live : Allocations) (base : ℕ) (hvalid : validAlignment alignment = true)
    (hbudget : ¬byteSize ≤ targetAllocationBudget) (hle : byteSize ≤ maxDynamicAllocationBytes) :
    live.allocate byteSize alignment (some 0) base = (.allocation, some 0, live) := by
  have hpos : byteSize ≠ 0 := by
    rintro rfl
    exact hbudget (Nat.zero_le _)
  simp only [Allocations.allocate, isNone_some, hvalid, Bool.not_true, Bool.false_eq_true,
    if_false, hpos, Nat.not_lt.mpr hle, gt_iff_lt, Nat.not_le.mp hbudget, if_true]

/-- The tuple of a reserve call that the ABI authority judges. The input is unchanged when it is
still a valid storage. -/
def reserveClaim (bucket : ℕ → ℕ) (heap' : Heap) (storage out : Handle) (requiredLength : ℕ)
    (status : RuntimeStatus) (stride alignment : ℕ) : VecReserveClaim where
  oldLength := storage.length
  oldCapacity := storage.capacity
  requiredLength := requiredLength
  status := status
  pointer := out.pointer
  length := out.length
  capacity := out.capacity
  inputUnchanged := validVecStorage bucket heap' (some storage) stride alignment = some true

theorem validate_kept {heap' : Heap} {storage : Handle}
    (hformed : WellFormed live storage stride alignment) (hplaced : Placed live)
    (hle : required ≤ storage.capacity) :
    validateVecReserve (reserveClaim bucket heap' storage storage required .ok stride alignment)
      stride = true := by
  have hrule : reserveCapacity storage.capacity required stride = some storage.capacity := by
    unfold reserveCapacity
    simp [hformed.fits, vecCapacityFits_of_le hle hformed.fits, hle]
  have hpointer : storage.capacity = 0 ∨ ¬storage.pointer = 0 := by
    by_cases hzero : storage.capacity = 0
    · exact .inl hzero
    · obtain ⟨x, hx, -⟩ := hformed.registered hzero
      exact .inr (hplaced.ne_zero hx)
  unfold reserveClaim
  simpa [validateVecReserve, hformed.length_le, hformed.fits, hrule] using hpointer

theorem le_grownCapacity (old required : ℕ) : required ≤ grownCapacity old required := by
  unfold grownCapacity
  generalize capacityLoop required 32 (if old = 0 then 1 else old) = capacity
  dsimp only
  split <;> omega

/-- The result of growth: a capacity outside the limits is refused, one above the target budget is
not allocated, and any other is allocated. -/
theorem Refines.vecGrow (h : Refines bucket heap live) {storage : Handle}
    (hvalid : validAlignment alignment = true)
    (hformed : WellFormed live storage stride alignment) (hlt : storage.capacity < required)
    (malloc : grownCapacity storage.capacity required * stride ≤ targetAllocationBudget →
      base ≠ 0 ∧ live.Fresh
        (totalSize (grownCapacity storage.capacity required * stride) alignment) base) :
    ∃ status out heap', vecGrow bucket heap storage required stride alignment base
        = some (status, some out, heap')
      ∧ if vecCapacityFits (grownCapacity storage.capacity required) stride = false then
          status = .capacity ∧ out = .zero ∧ heap' = heap
        else if grownCapacity storage.capacity required * stride ≤ targetAllocationBudget then
          status = .ok ∧ out.pointer ≠ 0 ∧ out.length = storage.length
            ∧ out.capacity = grownCapacity storage.capacity required
        else status = .allocation ∧ out = .zero ∧ Refines bucket heap' live := by
  obtain ⟨hstride, -, -⟩ := vecCapacityFits_iff.mp hformed.fits
  have hle := le_grownCapacity storage.capacity required
  unfold Native.vecGrow
  dsimp only
  generalize grownCapacity storage.capacity required = capacity at hle malloc ⊢
  have hlimits : (capacity > maxVecElements ∨ capacity > maxDynamicAllocationBytes / stride) ↔
      vecCapacityFits capacity stride = false := by
    rw [← Bool.not_eq_true, vecCapacityFits_iff, ← Nat.le_div_iff_mul_le hstride]
    omega
  rw [if_congr hlimits rfl rfl]
  by_cases hfits : vecCapacityFits capacity stride = false
  · rw [if_pos hfits]
    exact ⟨_, _, heap, rfl, by rw [if_pos hfits]; exact ⟨rfl, rfl, rfl⟩⟩
  rw [if_neg hfits]
  simp only [if_neg hfits]
  obtain ⟨-, -, hbytes⟩ := vecCapacityFits_iff.mp (Bool.not_eq_false _ ▸ hfits)
  have hgrows : storage.capacity * stride < capacity * stride :=
    Nat.mul_lt_mul_of_pos_right (by omega) hstride
  obtain ⟨hstatus, hout, hlive⟩ := hformed.grow_eq hgrows base
  by_cases hbudget : capacity * stride ≤ targetAllocationBudget
  · obtain ⟨hbase, hfresh⟩ := malloc hbudget
    obtain ⟨heap', hgrow, -⟩ := h.grow storage.pointer (storage.capacity * stride)
      (capacity * stride) alignment (some 0) base fun _ => .inr hfresh
    obtain ⟨p, live', hp, hallocate⟩ := allocate_ok live hvalid (by omega) hbudget hbase
    rw [hallocate] at hstatus hout
    rw [hgrow, hstatus, hout rfl]
    exact ⟨.ok, ⟨p, storage.length, capacity⟩, heap', rfl, by
      rw [if_pos hbudget]
      exact ⟨rfl, hp, rfl, rfl⟩⟩
  · obtain ⟨heap', hgrow, h'⟩ := h.grow storage.pointer (storage.capacity * stride)
      (capacity * stride) alignment (some 0) base fun hle => absurd hle hbudget
    have hallocate := allocate_over live base hvalid hbudget hbytes
    rw [hallocate] at hstatus hlive
    rw [hlive (by simp)] at h'
    rw [hgrow, hstatus]
    exact ⟨.allocation, .zero, heap', rfl, by
      rw [if_neg hbudget]
      exact ⟨rfl, rfl, h'⟩⟩

/-! ### The rule and the runtime -/

/-- The rule rejects a requirement outside the limits. -/
theorem reserveCapacity_none (hfits : vecCapacityFits required stride = false) :
    reserveCapacity old required stride = none := by
  unfold reserveCapacity
  rw [if_pos (by rw [hfits]; simp)]

/-- The rule accepts a requirement within the limits. -/
theorem reserveCapacity_isSome
    (hold : vecCapacityFits old stride = true) (hfits : vecCapacityFits required stride = true)
    (hlt : old < required) : (reserveCapacity old required stride).isSome := by
  obtain ⟨d, hrule, -⟩ := reserveCapacity_eq hold hfits hlt
  rw [hrule]
  rfl

/-- A call with two records and a well-formed storage is accepted by the ABI authority exactly on
the inputs of `ReserveAgrees`, when `malloc` answers whenever it is asked. -/
theorem Refines.vecReserve_apart (h : Refines bucket heap live)
    {vecLayout : ℕ → Option (ℕ × ℕ)} {layoutId : ℕ}
    (hlayout : vecLayout layoutId = some (stride, alignment))
    (hvalid : validAlignment alignment = true) {storage : Handle}
    (hformed : WellFormed live storage stride alignment)
    (hlength : storage.length ≤ required) (out : Handle) (malloc : storage.capacity < required →
      grownCapacity storage.capacity required * stride ≤ targetAllocationBudget →
      base ≠ 0 ∧ live.Fresh
        (totalSize (grownCapacity storage.capacity required * stride) alignment) base) :
    ∃ status out' heap',
      vecReserve bucket vecLayout heap layoutId (some storage) required (some out) false base
        = some (status, some out', heap')
      ∧ (validateVecReserve
          (reserveClaim bucket heap' storage out' required status stride alignment) stride = true
        ↔ ReserveAgrees storage.capacity required stride) := by
  have hstorage := (h.validVecStorage storage stride alignment).mpr hformed
  have hcall : vecReserve bucket vecLayout heap layoutId (some storage) required (some out) false
      base = if required ≤ storage.capacity then some (.ok, some storage, heap)
        else Native.vecGrow bucket heap storage required stride alignment base := by
    simp [vecReserve, hlayout, hstorage, Nat.not_lt.mpr hlength]
  rw [hcall]
  by_cases hle : required ≤ storage.capacity
  · rw [if_pos hle]
    exact ⟨.ok, storage, heap, rfl, iff_of_true (validate_kept hformed h.placed hle)
      fun hlt => absurd hlt (by omega)⟩
  rw [if_neg hle]
  have hlt : storage.capacity < required := by omega
  obtain ⟨status, out', heap', hgrow, hresult⟩ := h.vecGrow hvalid hformed hlt (malloc hlt)
  refine ⟨status, out', heap', hgrow, ?_⟩
  obtain hfits | hfits := Bool.eq_false_or_eq_true (vecCapacityFits required stride)
  · rw [grown_agrees_iff hformed.fits hfits hlt]
    have hsome := reserveCapacity_isSome hformed.fits hfits hlt
    generalize grownCapacity storage.capacity required = capacity at hresult ⊢
    split at hresult
    · -- refused, although the rule has a capacity
      next hover =>
      obtain ⟨rfl, rfl, rfl⟩ := hresult
      simp [validateVecReserve, reserveClaim, hformed.length_le, hformed.fits, hover,
        isSome_iff_ne_none.mp hsome]
    next hwithin =>
    simp only [Bool.not_eq_false] at hwithin
    split at hresult
    · next hbudget =>
      obtain ⟨rfl, hpointer, hout, rfl⟩ := hresult
      unfold reserveClaim
      rw [hout]
      simp [validateVecReserve, hformed.length_le, hformed.fits, hsome, hwithin, hbudget, hpointer]
      exact eq_comm
    · next hbudget =>
      obtain ⟨rfl, rfl, h'⟩ := hresult
      have hkept := (h'.validVecStorage storage stride alignment).mpr hformed
      simp [validateVecReserve, reserveClaim, hformed.length_le, hformed.fits, hsome, hwithin,
        hbudget, hkept, hlt, Handle.zero]
  · -- neither side has a capacity for a requirement outside the limits
    have hover : vecCapacityFits (grownCapacity storage.capacity required) stride = false := by
      rw [← Bool.not_eq_true] at hfits ⊢
      exact fun hgrown => hfits
        (vecCapacityFits_of_le (le_grownCapacity storage.capacity required) hgrown)
    rw [if_pos hover] at hresult
    obtain ⟨rfl, rfl, rfl⟩ := hresult
    refine iff_of_true ?_ fun _ => ⟨fun hsmall => ?_, fun k hcovers _ helements hbytes => ?_⟩
    · simp [validateVecReserve, reserveClaim, hformed.length_le, hformed.fits,
        reserveCapacity_none hfits, hstorage, Handle.zero]
    · obtain ⟨-, htwo, hbudget⟩ := hsmall
      have hstride := (vecCapacityFits_iff.mp hformed.fits).1
      rw [← Bool.not_eq_true, vecCapacityFits_iff] at hfits
      unfold targetAllocationBudget maxDynamicAllocationBytes maxVecElements at *
      omega
    · have hstride := (vecCapacityFits_iff.mp hformed.fits).1
      rw [← Bool.not_eq_true, vecCapacityFits_iff] at hfits
      exact absurd ⟨hstride, hcovers.trans helements, hbytes⟩ hfits

/-- A call with one record for both is refused with the record as it is, and the ABI authority
asks for a cleared one. -/
theorem Refines.vecReserve_aliased (h : Refines bucket heap live)
    {storage : Handle} (hformed : WellFormed live storage stride alignment) (required : ℕ) :
    validateVecReserve
        (reserveClaim bucket heap storage storage required .abiViolation stride alignment) stride
      = true ↔ storage.capacity = 0 := by
  have hstorage := (h.validVecStorage storage stride alignment).mpr hformed
  have hlength := hformed.length_le
  unfold reserveClaim
  simp only [validateVecReserve, hstorage, decide_true, Bool.and_true, Bool.and_eq_true,
    decide_eq_true_eq]
  constructor
  · exact fun hzeroed => hzeroed.2
  · exact fun hzero => ⟨⟨hformed.empty hzero, by omega⟩, hzero⟩

/-- The calls with a registered layout, a well-formed storage and a result record that the ABI
authority accepts: those whose growth agrees with the rule, and those with an empty record for both
handles. -/
theorem vecReserve_iff (vecLayout : ℕ → Option (ℕ × ℕ)) (h : Refines bucket heap live)
    (layoutId : ℕ) {stride alignment : ℕ} (hlayout : vecLayout layoutId = some (stride, alignment))
    (hvalid : validAlignment alignment = true) {storage : Handle}
    (hformed : WellFormed live storage stride alignment) (required : ℕ)
    (hlength : storage.length ≤ required) (out : Handle) (aliased : Bool)
    (hout : aliased = true → out = storage) (base : ℕ) (malloc : storage.capacity < required →
      grownCapacity storage.capacity required * stride ≤ targetAllocationBudget →
      base ≠ 0 ∧ live.Fresh
        (totalSize (grownCapacity storage.capacity required * stride) alignment) base) :
    ∃ status out' heap',
      vecReserve bucket vecLayout heap layoutId (some storage) required (some out) aliased base
        = some (status, some out', heap')
      ∧ (validateVecReserve
          (reserveClaim bucket heap' storage out' required status stride alignment) stride = true
        ↔ if aliased then storage.capacity = 0
          else ReserveAgrees storage.capacity required stride) := by
  cases aliased with
  | false => exact h.vecReserve_apart hlayout hvalid hformed hlength out malloc
  | true =>
    obtain rfl := hout rfl
    exact ⟨.abiViolation, out, heap, rfl, h.vecReserve_aliased hformed required⟩

/-- The empty Vec is well formed. -/
theorem wellFormed_zero (live : Allocations) (hstride : 0 < stride) :
    WellFormed live .zero stride alignment := by
  refine ⟨le_rfl, vecCapacityFits_iff.mpr ⟨hstride, by decide, ?_⟩, fun _ => rfl, fun h => ?_⟩
  · rw [show Handle.zero.capacity = 0 from rfl, Nat.zero_mul]
    exact Nat.zero_le _
  · exact absurd rfl h

/-- An empty Vec that grows to three elements gets four, and the ABI authority accepts that. -/
theorem vecReserve_iff_three : ∃ status out heap',
    vecReserve allocationHead (fun _ => some (4, 4)) (.empty fun _ => 0) 0 (some .zero) 3
      (some .zero) false 4096 = some (status, some out, heap')
    ∧ validateVecReserve
      (reserveClaim allocationHead heap' .zero out 3 status 4 4) 4 = true := by
  have hfresh : Allocations.Fresh OrderedMap.empty (totalSize (grownCapacity 0 3 * 4) 4) 4096 :=
    ⟨by decide, by decide⟩
  obtain ⟨status, out, heap', hrun, hiff⟩ :=
    vecReserve_iff (fun _ => some (4, 4)) (refines_empty allocationHead fun _ => 0) 0 rfl
      (by decide) (wellFormed_zero _ (by decide)) 3 (by decide) .zero false nofun
      4096 fun _ _ => ⟨by decide, hfresh⟩
  refine ⟨status, out, heap', hrun, hiff.mpr fun _ => ⟨by decide, fun k hcovers hlt _ _ => ?_⟩⟩
  calc max Handle.zero.capacity 1 * 2 ^ k * 4 ≤ 2 * 3 * 4 := Nat.mul_le_mul_right 4 hlt.le
    _ ≤ maxDynamicAllocationBytes := by decide

/-- An empty Vec that grows to one element gets one from the runtime, where the rule gives four. -/
theorem vecReserve_one :
    WellFormed OrderedMap.empty .zero 4 4
    ∧ Refines allocationHead (.empty fun _ => 0) OrderedMap.empty
    ∧ Allocations.Fresh OrderedMap.empty (totalSize (grownCapacity 0 1 * 4) 4) 4096
    ∧ reserveCapacity 0 1 4 = some 4
    ∧ ∃ heap', vecReserve allocationHead (fun _ => some (4, 4)) (.empty fun _ => 0) 0 (some .zero)
        1 (some .zero) false 4096 = some (.ok, some ⟨4152, 0, 1⟩, heap')
      ∧ validateVecReserve (reserveClaim allocationHead heap' .zero ⟨4152, 0, 1⟩ 1 .ok 4 4) 4
        = false :=
  ⟨wellFormed_zero _ (by decide), refines_empty _ _, ⟨by decide, by decide⟩, by decide,
    _, rfl, rfl⟩

end Zryna.OwnershipRuntime.Native
