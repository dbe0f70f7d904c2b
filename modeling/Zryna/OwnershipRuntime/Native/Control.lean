import Zryna.OwnershipRuntime.Native.Refinement

/-!
# Shared and Weak in the native runtime

The seven control operations of `runtime/native/ownership_runtime_v1.c`. The strong and the weak
count of a control block are the first two 32-bit words of its data, the pending flag is in the
header of its allocation, and two of the operations release the allocation.

`observe` reads the state that the ABI talks about off the heap. Whether the payload is initialized
is not recorded at run time; it is the caller's, and the operations leave it alone. The result is
that every call satisfies `validateControlTransition`, whatever calls came before.
-/

namespace Zryna.OwnershipRuntime.Native

open OrderedMap Option

/-! ### Words -/

/-- A 32-bit load. -/
def load32 (memory : ℕ → UInt8) (a : ℕ) : ℕ :=
  (memory a).toNat + 2 ^ 8 * (memory (a + 1)).toNat + 2 ^ 16 * (memory (a + 2)).toNat
    + 2 ^ 24 * (memory (a + 3)).toNat

/-- A 32-bit store; the bytes of a larger value are those of its residue. -/
def store32 (memory : ℕ → UInt8) (a value : ℕ) : ℕ → UInt8 := fun i =>
  if i = a then .ofNat value
  else if i = a + 1 then .ofNat (value / 2 ^ 8)
  else if i = a + 2 then .ofNat (value / 2 ^ 16)
  else if i = a + 3 then .ofNat (value / 2 ^ 24)
  else memory i

theorem load32_le (memory : ℕ → UInt8) (a : ℕ) : load32 memory a ≤ u32Max := by
  have h0 := (memory a).toNat_lt
  have h1 := (memory (a + 1)).toNat_lt
  have h2 := (memory (a + 2)).toNat_lt
  have h3 := (memory (a + 3)).toNat_lt
  unfold load32 u32Max
  omega

variable {a value : ℕ} {state after before : ControlState}

theorem load32_store32 (memory : ℕ → UInt8) (h : value ≤ u32Max) :
    load32 (store32 memory a value) a = value := by
  have h1 : a + 1 ≠ a := by omega
  have h2 : a + 2 ≠ a ∧ a + 2 ≠ a + 1 := by omega
  have h3 : a + 3 ≠ a ∧ a + 3 ≠ a + 1 ∧ a + 3 ≠ a + 2 := by omega
  unfold u32Max at h
  simp only [load32, store32, if_true, h1, h2.1, h2.2, h3.1, h3.2.1, h3.2.2, if_false,
    UInt8.toNat_ofNat']
  omega

theorem load32_store32_of_ne (memory : ℕ → UInt8) {b : ℕ} (h : a + 4 ≤ b ∨ b + 4 ≤ a) :
    load32 (store32 memory a value) b = load32 memory b := by
  have hsame (i : ℕ) (hi : i < 4) : store32 memory a value (b + i) = memory (b + i) := by
    unfold store32
    rw [if_neg (by omega), if_neg (by omega), if_neg (by omega), if_neg (by omega)]
  unfold load32
  rw [hsame 1 (by omega), hsame 2 (by omega), hsame 3 (by omega)]
  have := hsame 0 (by omega)
  rw [Nat.add_zero] at this
  rw [this]

def Heap.store (heap : Heap) (a value : ℕ) : Heap :=
  { heap with memory := store32 heap.memory a value }

/-! ### Operations -/

section Operations

variable (bucket : ℕ → ℕ)

/-- `header_for` followed by `valid_control_storage`: the header and its record, if it is one. -/
def controlHeader (heap : Heap) (control : ℕ) : Option (Option (ℕ × Header)) := do
  let header ← headerFor bucket heap control
  if header = 0 then some none
  else do
    let record ← heap.headers header
    some (if record.size ≥ 8 ∧ record.alignment ≥ 4 then some (header, record) else none)

def strongClone (heap : Heap) (control : ℕ) : Option (RuntimeStatus × Heap) := do
  match ← controlHeader bucket heap control with
  | none => some (.abiViolation, heap)
  | some (_, record) =>
    let strong := load32 heap.memory control
    if record.pendingLastStrong ≠ 0 ∨ strong = 0 then some (.abiViolation, heap)
    else if strong = u32Max then some (.refcount, heap)
    else some (.ok, heap.store control (strong + 1))

def weakDowngrade (heap : Heap) (control : ℕ) : Option (RuntimeStatus × Heap) := do
  match ← controlHeader bucket heap control with
  | none => some (.abiViolation, heap)
  | some (_, record) =>
    let strong := load32 heap.memory control
    let weak := load32 heap.memory (control + 4)
    if record.pendingLastStrong ≠ 0 ∨ strong = 0 then some (.abiViolation, heap)
    else if weak = u32Max then some (.refcount, heap)
    else some (.ok, heap.store (control + 4) (weak + 1))

def weakClone (heap : Heap) (control : ℕ) : Option (RuntimeStatus × Heap) := do
  match ← controlHeader bucket heap control with
  | none => some (.abiViolation, heap)
  | some (_, record) =>
    let weak := load32 heap.memory (control + 4)
    if record.pendingLastStrong ≠ 0 ∨ weak = 0 then some (.abiViolation, heap)
    else if weak = u32Max then some (.refcount, heap)
    else some (.ok, heap.store (control + 4) (weak + 1))

def weakUpgrade (heap : Heap) (control : ℕ) : Option (RuntimeStatus × Heap) := do
  match ← controlHeader bucket heap control with
  | none => some (.abiViolation, heap)
  | some (_, record) =>
    let strong := load32 heap.memory control
    if record.pendingLastStrong ≠ 0 then some (.abiViolation, heap)
    else if strong = 0 then some (.expired, heap)
    else if strong = u32Max then some (.refcount, heap)
    else some (.ok, heap.store control (strong + 1))

/-- The boolean out lane is `none` for `NULL` and otherwise its value; a refused call leaves it. -/
def strongReleaseBegin (heap : Heap) (control : ℕ) (lane : Option ℕ) :
    Option (RuntimeStatus × Option ℕ × Heap) := do
  match lane, ← controlHeader bucket heap control with
  | none, _ | _, none => some (.abiViolation, lane, heap)
  | some _, some (header, record) =>
    let strong := load32 heap.memory control
    if record.pendingLastStrong ≠ 0 ∨ strong = 0 then some (.abiViolation, lane, heap)
    else do
      let heap := heap.store control (strong - 1)
      let last := if strong - 1 = 0 then 1 else 0
      let heap ← heap.modify header fun record => { record with pendingLastStrong := last }
      some (.ok, some last, heap)

def strongReleaseFinish (heap : Heap) (control : ℕ) : Option (RuntimeStatus × Heap) := do
  match ← controlHeader bucket heap control with
  | none => some (.abiViolation, heap)
  | some (header, record) =>
    let strong := load32 heap.memory control
    let weak := load32 heap.memory (control + 4)
    if record.pendingLastStrong = 0 ∨ strong ≠ 0 ∨ weak = 0 then some (.abiViolation, heap)
    else do
      let heap := heap.store (control + 4) (weak - 1)
      let heap ← heap.modify header fun record => { record with pendingLastStrong := 0 }
      if weak - 1 = 0 then releaseKnown bucket heap header else some (.ok, heap)

def weakRelease (heap : Heap) (control : ℕ) (lane : Option ℕ) :
    Option (RuntimeStatus × Option ℕ × Heap) := do
  match lane, ← controlHeader bucket heap control with
  | none, _ | _, none => some (.abiViolation, lane, heap)
  | some _, some (header, record) =>
    let strong := load32 heap.memory control
    let weak := load32 heap.memory (control + 4)
    if record.pendingLastStrong ≠ 0 ∨ weak = 0 ∨ strong ≠ 0 ∧ weak = 1 then
      some (.abiViolation, lane, heap)
    else do
      let heap := heap.store (control + 4) (weak - 1)
      if weak - 1 = 0 then do
        let (status, heap) ← releaseKnown bucket heap header
        some (status, some 1, heap)
      else some (.ok, some 0, heap)

/-- One control operation. Operations without a boolean result leave the lane alone. -/
def Heap.control (heap : Heap) (operation : LogicalOperation) (control : ℕ) (lane : Option ℕ) :
    Option (RuntimeStatus × Option ℕ × Heap) :=
  let plain (result : Option (RuntimeStatus × Heap)) : Option (RuntimeStatus × Option ℕ × Heap) :=
    result.map fun (status, heap) => (status, lane, heap)
  match operation with
  | .strongClone => plain (strongClone bucket heap control)
  | .weakDowngrade => plain (weakDowngrade bucket heap control)
  | .weakClone => plain (weakClone bucket heap control)
  | .weakUpgrade => plain (weakUpgrade bucket heap control)
  | .strongReleaseBegin => strongReleaseBegin bucket heap control lane
  | .strongReleaseFinish => plain (strongReleaseFinish bucket heap control)
  | .weakRelease => weakRelease bucket heap control lane
  | _ => none

/-- The boolean result of an operation, read off the lane. -/
def boolResult (operation : LogicalOperation) (lane : Option ℕ) : Option Bool :=
  match operation with
  | .strongReleaseBegin | .weakRelease => lane.map (· ≠ 0)
  | _ => none

/-- The control state of a data pointer, as far as the heap has it. -/
def observe (heap : Heap) (control : ℕ) (payload : Bool) : ControlState :=
  match (headerFor bucket heap control).bind heap.headers with
  | some record =>
    ⟨load32 heap.memory control, load32 heap.memory (control + 4),
      record.pendingLastStrong ≠ 0, payload, true⟩
  | none => ⟨0, 0, false, payload, false⟩

end Operations

/-! ### Transitions -/

def isControlOperation (operation : LogicalOperation) : Bool :=
  operation = .strongClone || operation = .weakDowngrade || operation = .weakClone
    || operation = .weakUpgrade || operation = .strongReleaseBegin
    || operation = .strongReleaseFinish || operation = .weakRelease

/-- A refused call changes nothing, and the ABI admits it in every valid state. -/
theorem validate_refused {operation : LogicalOperation} {boolResult : Option Bool}
    (hop : isControlOperation operation = true) (hvalid : validControlState state = true)
    (hbool : controlBoolResultIsZero operation boolResult = true) :
    validateControlTransition operation state .abiViolation boolResult state = true := by
  unfold validateControlTransition controlTransitionPreflight
  simp only [hvalid, hbool]
  cases operation <;> simp_all [isControlOperation, operationAcceptsStatus, operationStatuses] <;>
    cases state.pendingLastStrong <;> simp

theorem preflight_of_valid {operation : LogicalOperation} {status : RuntimeStatus}
    {boolResult : Option Bool} (haccepts : operationAcceptsStatus operation status = true)
    (hbefore : validControlState before = true) (hafter : validControlState after = true)
    (hbool : status = .ok ∨ controlBoolResultIsZero operation boolResult = true)
    (hpending : before.pendingLastStrong = false ∨ operation = .strongReleaseFinish) :
    controlTransitionPreflight operation before status boolResult after = none := by
  unfold controlTransitionPreflight
  simp only [haccepts, hbefore, hafter]
  rcases hbool with rfl | hbool <;> rcases hpending with hp | rfl <;> simp_all

section States

variable {s w : ℕ} {payload : Bool} {operation : LogicalOperation}

/-- A status that reports a limit leaves the state unchanged. -/
theorem validate_limit {status : RuntimeStatus}
    (h : validControlState ⟨s, w, false, payload, true⟩ = true)
    (hlimit : operation = .strongClone ∧ status = .refcount ∧ s = u32Max
      ∨ operation = .weakDowngrade ∧ status = .refcount ∧ w = u32Max
      ∨ operation = .weakClone ∧ status = .refcount ∧ w = u32Max
      ∨ operation = .weakUpgrade ∧ status = .refcount ∧ s = u32Max
      ∨ operation = .weakUpgrade ∧ status = .expired ∧ s = 0) :
    validateControlTransition operation ⟨s, w, false, payload, true⟩ status none
      ⟨s, w, false, payload, true⟩ = true := by
  unfold validateControlTransition
  rcases hlimit with ⟨rfl, rfl, hs⟩ | ⟨rfl, rfl, hs⟩ | ⟨rfl, rfl, hs⟩ | ⟨rfl, rfl, hs⟩
    | ⟨rfl, rfl, hs⟩ <;>
  · rw [preflight_of_valid (by decide) h h (.inr rfl) (.inl rfl)]
    simp [hs]

theorem validate_strong_issue (hop : operation = .strongClone ∨ operation = .weakUpgrade)
    (hs : 0 < s) (hs' : s < u32Max) (h : validControlState ⟨s, w, false, payload, true⟩ = true) :
    validateControlTransition operation ⟨s, w, false, payload, true⟩ .ok none
      ⟨s + 1, w, false, payload, true⟩ = true := by
  have hafter : validControlState ⟨s + 1, w, false, payload, true⟩ = true := by
    simp_all [validControlState]
  unfold validateControlTransition
  rcases hop with rfl | rfl <;>
  · rw [preflight_of_valid (by decide) h hafter (.inl rfl) (.inl rfl)]
    simp [hs, hs']

theorem validate_weak_issue (hop : operation = .weakDowngrade ∧ 0 < s ∨ operation = .weakClone)
    (hw' : w < u32Max) (h : validControlState ⟨s, w, false, payload, true⟩ = true) :
    validateControlTransition operation ⟨s, w, false, payload, true⟩ .ok none
      ⟨s, w + 1, false, payload, true⟩ = true := by
  have hafter : validControlState ⟨s, w + 1, false, payload, true⟩ = true := by
    simp only [validControlState] at h ⊢
    grind
  have hw : 0 < w := by
    simp only [validControlState] at h
    grind
  unfold validateControlTransition
  rcases hop with ⟨rfl, hs⟩ | rfl
  · rw [preflight_of_valid (by decide) h hafter (.inl rfl) (.inl rfl)]
    simp [hs, hw']
  · rw [preflight_of_valid (by decide) h hafter (.inl rfl) (.inl rfl)]
    simp [hw, hw']

theorem validate_release_begin (hs : 0 < s)
    (h : validControlState ⟨s, w, false, payload, true⟩ = true) :
    validateControlTransition .strongReleaseBegin ⟨s, w, false, payload, true⟩ .ok
      (some (s - 1 = 0)) ⟨s - 1, w, s - 1 = 0, payload, true⟩ = true := by
  have hafter : validControlState ⟨s - 1, w, s - 1 = 0, payload, true⟩ = true := by
    simp only [validControlState] at h ⊢
    grind
  unfold validateControlTransition
  rw [preflight_of_valid (by decide) h hafter (.inl rfl) (.inl rfl)]
  by_cases hone : s = 1
  · subst hone
    simp
  · have : 1 < s := by omega
    simp [this, show ¬ s - 1 = 0 by omega]

theorem validate_release_finish (hw : 0 < w)
    (h : validControlState ⟨0, w, true, false, true⟩ = true) :
    validateControlTransition .strongReleaseFinish ⟨0, w, true, false, true⟩ .ok none
      ⟨0, w - 1, false, false, w - 1 ≠ 0⟩ = true := by
  have hafter : validControlState ⟨0, w - 1, false, false, w - 1 ≠ 0⟩ = true := by
    simp only [validControlState]
    grind
  unfold validateControlTransition
  rw [preflight_of_valid (by decide) h hafter (.inl rfl) (.inr rfl)]
  have : (w - 1 ≠ 0) = (1 < w) := by
    rw [eq_iff_iff]
    omega
  simp [hw, this]

theorem validate_weak_release (hw : 0 < w) (hlast : s = 0 ∨ w ≠ 1)
    (h : validControlState ⟨s, w, false, payload, true⟩ = true) :
    validateControlTransition .weakRelease ⟨s, w, false, payload, true⟩ .ok
      (some (w - 1 = 0)) ⟨s, w - 1, false, payload, w - 1 ≠ 0⟩ = true := by
  have hafter : validControlState ⟨s, w - 1, false, payload, w - 1 ≠ 0⟩ = true := by
    simp only [validControlState] at h ⊢
    grind
  unfold validateControlTransition
  rw [preflight_of_valid (by decide) h hafter (.inl rfl) (.inl rfl)]
  by_cases hone : w - 1 = 0
  · have hs : s = 0 := by omega
    simp [hone, hs, show w ≠ 0 by omega]
  · simp [hone, show w ≠ 0 by omega]

end States

/-! ### Effects on the heap -/

variable {bucket : ℕ → ℕ} {heap heap' : Heap} {live live' : Allocations} {c : ℕ} {x : Allocation}
  {payload : Bool}

theorem Refines.observe_live (h : Refines bucket heap live) (payload : Bool)
    (hx : live.get? c = some x) :
    observe bucket heap c payload
      = ⟨load32 heap.memory c, load32 heap.memory (c + 4), x.pendingLastStrong ≠ 0, payload,
        true⟩ := by
  obtain ⟨-, -, record, hrecord, -, rfl⟩ := h.header hx
  unfold observe
  rw [h.headerFor, hx]
  simp only [isSome_some, if_true, bind_some, hrecord]
  rfl

theorem Refines.observe_released (h : Refines bucket heap live) (hx : live.get? c = none) :
    observe bucket heap c payload = ⟨0, 0, false, payload, false⟩ := by
  unfold observe
  rw [h.headerFor, hx]
  simp [h.headers_zero]

/-- The storage of a control block. -/
def IsControl (x : Allocation) : Prop := 8 ≤ x.size ∧ 4 ≤ x.alignment

theorem Refines.controlHeader (h : Refines bucket heap live) (hx : live.get? c = some x)
    (hcontrol : IsControl x) :
    ∃ record, controlHeader bucket heap c = some (some (c - headerSize, record))
      ∧ heap.headers (c - headerSize) = some record ∧ record.allocation = x := by
  obtain ⟨-, hne, record, hrecord, -, rfl⟩ := h.header hx
  refine ⟨record, ?_, hrecord, rfl⟩
  unfold Native.controlHeader
  rw [h.headerFor, hx]
  simp only [isSome_some, if_true, bind_eq_bind, bind_some, hne, if_false,
    hrecord]
  exact congrArg some (if_pos hcontrol)

theorem Refines.controlHeader_released (h : Refines bucket heap live) (hx : live.get? c = none) :
    Native.controlHeader bucket heap c = some none := by
  unfold Native.controlHeader
  rw [h.headerFor, hx]
  rfl

/-- The two heaps differ in the control block at `c` only. -/
structure Changed (bucket : ℕ → ℕ) (heap heap' : Heap) (live live' : Allocations) (c : ℕ) :
    Prop where
  refines : Refines bucket heap' live'
  others : ∀ q, q ≠ c → live'.get? q = live.get? q
  memory : ∀ i, i < c ∨ c + 8 ≤ i → heap'.memory i = heap.memory i

theorem Refines.unchanged (h : Refines bucket heap live) (c : ℕ) :
    Changed bucket heap heap live live c :=
  ⟨h, fun _ _ => rfl, fun _ _ => rfl⟩

theorem Refines.store (h : Refines bucket heap live) (ha : a = c ∨ a = c + 4)
    (value : ℕ) : Changed bucket heap (heap.store a value) live live c := by
  refine ⟨⟨h.placed, h.data, h.headers, h.blocks, h.bucketed⟩, fun _ _ => rfl, fun i hi => ?_⟩
  simp only [Heap.store, store32]
  rw [if_neg (by omega), if_neg (by omega), if_neg (by omega), if_neg (by omega)]

/-- The pending flag plays no part in where allocations lie. -/
theorem Placed.setPending (h : Placed live) (hx : live.get? c = some x) (value : ℕ) :
    Placed (live.insert c { x with pendingLastStrong := value }) := by
  have hold {p : ℕ} {y : Allocation}
      (hy : (live.insert c { x with pendingLastStrong := value }).get? p = some y) :
      ∃ z, live.get? p = some z ∧ z.base = y.base ∧ z.size = y.size
        ∧ z.alignment = y.alignment ∧ z.total = y.total := by
    rw [get?_insert] at hy
    split at hy
    · next hp =>
      cases hy
      exact ⟨x, hp ▸ hx, rfl, rfl, rfl, rfl⟩
    · exact ⟨y, hy, rfl, rfl, rfl, rfl⟩
  refine ⟨?_, ?_, ?_, ?_⟩
  · intro p y hy
    obtain ⟨z, hz, hbase, hsize, -, htotal⟩ := hold hy
    rw [← hbase, ← hsize, ← htotal]
    exact h.inside hz
  · intro p y hy
    obtain ⟨z, hz, -, hsize, halignment, -⟩ := hold hy
    rw [← hsize, ← halignment]
    exact h.aligned hz
  · intro p y hy
    obtain ⟨z, hz, hbase, -, -, htotal⟩ := hold hy
    rw [← hbase, ← htotal]
    exact h.bounded hz
  · intro p q y y' hy hy' hne
    obtain ⟨z, hz, hbase, -, -, htotal⟩ := hold hy
    obtain ⟨z', hz', hbase', -, -, htotal'⟩ := hold hy'
    rw [← hbase, ← htotal, ← hbase', ← htotal']
    exact h.apart hz hz' hne

/-- Setting the pending flag changes the entry of the allocation. -/
theorem Refines.setPending (h : Refines bucket heap live) (hx : live.get? c = some x) (value : ℕ) :
    ∃ heap', (heap.modify (c - headerSize) fun record =>
          { record with pendingLastStrong := value }) = some heap'
      ∧ heap'.memory = heap.memory
      ∧ Refines bucket heap' (live.insert c { x with pendingLastStrong := value }) := by
  obtain ⟨hle, -, record, hrecord, hdata, hallocation⟩ := h.header hx
  obtain ⟨heap', hmodify, hblocks, hheads, hmemory, hheaders⟩ :=
    heap.modify_eq (c - headerSize) (fun record => { record with pendingLastStrong := value })
      ⟨record, hrecord⟩
  -- what does not read the flag is as before
  have hmap {β : Type} (f : Header → β)
      (hf : ∀ record, f { record with pendingLastStrong := value } = f record) (a : ℕ) :
      (heap'.headers a).map f = (heap.headers a).map f := by
    rw [hheaders, map_map]
    congr 1
    funext record
    simp only [Function.comp]
    split
    · exact hf record
    · rfl
  have hlinks : heap'.links = heap.links := funext fun a => hmap _ (fun _ => rfl) a
  refine ⟨heap', hmodify, hmemory, h.placed.setPending hx value, ?_, ?_, ?_, ?_⟩
  · intro a new hnew
    have := hmap Header.data (fun _ => rfl) a
    rw [hnew, map_some, eq_comm, map_eq_some_iff] at this
    obtain ⟨old, hold, heq⟩ := this
    rw [← heq, h.data hold]
  · intro a
    rw [get?_insert]
    split
    · next ha =>
      obtain rfl : a = c - headerSize := by omega
      rw [hheaders, hrecord]
      simp [Header.allocation, ← hallocation]
    · next ha =>
      rw [← h.headers, hheaders]
      congr 1
      have : a ≠ c - headerSize := by omega
      simp [this]
  · intro b t
    rw [hblocks, h.blocks]
    constructor
    · rintro ⟨p, y, hy, rfl, rfl⟩
      by_cases hp : p = c
      · subst hp
        rw [hx] at hy
        cases hy
        exact ⟨p, { x with pendingLastStrong := value },
          by rw [get?_insert, if_pos rfl], rfl, rfl⟩
      · exact ⟨p, y, by rw [get?_insert, if_neg hp, hy], rfl, rfl⟩
    · rintro ⟨p, y, hy, rfl, rfl⟩
      rw [get?_insert] at hy
      split at hy
      · cases hy
        exact ⟨c, x, hx, rfl, rfl⟩
      · exact ⟨p, y, hy, rfl, rfl⟩
  · obtain ⟨nodes, hnodes⟩ := h.bucketed
    refine ⟨nodes, fun b => ?_⟩
    rw [hlinks, hheads]
    refine ⟨(hnodes b).1, fun a => ?_⟩
    rw [(hnodes b).2]
    exact exists_data_iff (hmap Header.data (fun _ => rfl) a).symm

section

variable (h : Changed bucket heap heap' live live' c)

include h

theorem Changed.setPending (hx : live'.get? c = some x) (value : ℕ) :
    ∃ next, (heap'.modify (c - headerSize) fun record =>
          { record with pendingLastStrong := value }) = some next
      ∧ next.memory = heap'.memory
      ∧ Changed bucket heap next live (live'.insert c { x with pendingLastStrong := value }) c := by
  obtain ⟨next, hmodify, hmemory, hrefines⟩ := h.refines.setPending hx value
  refine ⟨next, hmodify, hmemory, hrefines, fun q hq => ?_, fun i hi => ?_⟩
  · rw [get?_insert, if_neg hq, h.others q hq]
  · rw [hmemory, h.memory i hi]

theorem Changed.releaseKnown (hx : live'.get? c = some x) (hpending : x.pendingLastStrong = 0) :
    ∃ next, Native.releaseKnown bucket heap' (c - headerSize) = some (.ok, next)
      ∧ Changed bucket heap next live (live'.erase c) c := by
  obtain ⟨next, hrelease, hmemory, hrefines⟩ := h.refines.releaseKnown hx hpending
  refine ⟨next, hrelease, hrefines, fun q hq => ?_, fun i hi => ?_⟩
  · rw [get?_erase, if_neg hq, h.others q hq]
  · rw [hmemory, h.memory i hi]

/-- The other control blocks are as before. -/
theorem Changed.observe_other
    (hrefines : Refines bucket heap live) (hx : live.get? c = some x) (hcontrol : IsControl x)
    {q : ℕ} (hq : q ≠ c) (hother : ∀ y, live.get? q = some y → IsControl y) :
    observe bucket heap' q payload = observe bucket heap q payload := by
  cases hy : live.get? q with
  | none =>
    rw [hrefines.observe_released hy, h.refines.observe_released (by rw [h.others q hq, hy])]
  | some y =>
    rw [hrefines.observe_live _ hy, h.refines.observe_live _ (by rw [h.others q hq, hy])]
    have hapart := hrefines.placed.apart hx hy hq.symm
    have hinside := hrefines.placed.inside hx
    have hinside' := hrefines.placed.inside hy
    have hsize := hcontrol.1
    have hsize' := (hother y hy).1
    have hword (a : ℕ) (ha : a = q ∨ a = q + 4) :
        load32 heap'.memory a = load32 heap.memory a := by
      unfold load32
      rw [h.memory a (by omega), h.memory (a + 1) (by omega), h.memory (a + 2) (by omega),
        h.memory (a + 3) (by omega)]
    rw [hword q (.inl rfl), hword (q + 4) (.inr rfl)]

end

/-! ### Operations refine the transitions -/

/-- A call on the control block at `c` with a zero lane is defined, its result is admitted by the
ABI, and it changes nothing else. -/
def Admitted (bucket : ℕ → ℕ) (heap : Heap) (live : Allocations) (operation : LogicalOperation)
    (c : ℕ) (payload : Bool) : Prop :=
  ∃ status lane heap' live',
    heap.control bucket operation c (some 0) = some (status, lane, heap')
    ∧ Changed bucket heap heap' live live' c
    ∧ (∀ y, live'.get? c = some y → ∃ x, live.get? c = some x
      ∧ y.size = x.size ∧ y.alignment = x.alignment)
    ∧ (live.get? c = none → heap' = heap)
    ∧ validateControlTransition operation (observe bucket heap c payload) status
      (boolResult operation lane) (observe bucket heap' c payload) = true

variable {operation : LogicalOperation}

theorem Refines.admitted_same (h : Refines bucket heap live) {status : RuntimeStatus}
    (hcontrol : heap.control bucket operation c (some 0) = some (status, some 0, heap))
    (hvalid : validateControlTransition operation (observe bucket heap c payload) status
      (boolResult operation (some 0)) (observe bucket heap c payload) = true) :
    Admitted bucket heap live operation c payload := by
  exact ⟨status, some 0, heap, live, hcontrol, h.unchanged c, fun y hy => ⟨y, hy, rfl, rfl⟩,
    fun _ => rfl, hvalid⟩

/-- A call on a live control that keeps its storage or releases it. -/
theorem admitted_of_changed {status : RuntimeStatus} {lane : Option ℕ} (hx : live.get? c = some x)
    (hcontrol : heap.control bucket operation c (some 0) = some (status, lane, heap'))
    (hchanged : Changed bucket heap heap' live live' c)
    (hsame : ∀ y, live'.get? c = some y → y.size = x.size ∧ y.alignment = x.alignment)
    (hvalid : validateControlTransition operation (observe bucket heap c payload) status
      (boolResult operation lane) (observe bucket heap' c payload) = true) :
    Admitted bucket heap live operation c payload := by
  refine ⟨status, lane, heap', live', hcontrol, hchanged, fun y hy => ⟨x, hx, hsame y hy⟩, ?_,
    hvalid⟩
  intro hnone
  rw [hx] at hnone
  cases hnone

section

variable (h : Refines bucket heap live)

include h

theorem Refines.admitted_refused (hop : isControlOperation operation = true)
    (hvalid : validControlState (observe bucket heap c payload) = true)
    (hcontrol : heap.control bucket operation c (some 0) = some (.abiViolation, some 0, heap)) :
    Admitted bucket heap live operation c payload :=
  h.admitted_same hcontrol (validate_refused hop hvalid (by cases operation <;> rfl))

/-- The state of a control that is not pending. -/
theorem Refines.observe_idle (payload : Bool)
    (hx : live.get? c = some x) (hp : x.pendingLastStrong = 0) :
    observe bucket heap c payload
      = ⟨load32 heap.memory c, load32 heap.memory (c + 4), false, payload, true⟩ := by
  rw [h.observe_live _ hx]
  simp [hp]

/-- A store into one of the two words changes that count. -/
theorem Refines.observe_store (hx : live.get? c = some x)
    (hp : x.pendingLastStrong = 0) (hvalue : value ≤ u32Max) :
    observe bucket (heap.store c value) c payload
        = ⟨value, load32 heap.memory (c + 4), false, payload, true⟩
      ∧ observe bucket (heap.store (c + 4) value) c payload
        = ⟨load32 heap.memory c, value, false, payload, true⟩ := by
  constructor
  · rw [(h.store (.inl rfl) value).refines.observe_idle _ hx hp]
    simp only [Heap.store, load32_store32 _ hvalue]
    rw [load32_store32_of_ne _ (.inl (Nat.le_refl _))]
  · rw [(h.store (.inr rfl) value).refines.observe_idle _ hx hp]
    simp only [Heap.store, load32_store32 _ hvalue]
    rw [load32_store32_of_ne _ (.inr (Nat.le_refl _))]

/-- A call that stores one count is admitted with the transition of that count. -/
theorem Refines.admitted_store (hx : live.get? c = some x) (ha : a = c ∨ a = c + 4)
    (hcontrol : heap.control bucket operation c (some 0) = some (.ok, some 0, heap.store a value))
    (hvalid : validateControlTransition operation (observe bucket heap c payload) .ok
      (boolResult operation (some 0)) (observe bucket (heap.store a value) c payload) = true) :
    Admitted bucket heap live operation c payload := by
  refine admitted_of_changed hx hcontrol (h.store ha value) (fun y hy => ?_) hvalid
  rw [hx] at hy
  cases hy
  exact ⟨rfl, rfl⟩

end

section Operations

variable (h : Refines bucket heap live) (hx : live.get? c = some x) (hcontrol : IsControl x)
  (hvalid : validControlState (observe bucket heap c payload) = true)

include h hx hcontrol hvalid

theorem Refines.admitted_strongClone : Admitted bucket heap live .strongClone c payload := by
  obtain ⟨record, hheader, -, rfl⟩ := h.controlHeader hx hcontrol
  have hrun : heap.control bucket .strongClone c (some 0)
      = (strongClone bucket heap c).map fun (status, heap) => (status, some 0, heap) := rfl
  unfold strongClone at hrun
  rw [hheader] at hrun
  simp only [bind_eq_bind, bind_some] at hrun
  split at hrun
  · exact h.admitted_refused rfl hvalid hrun
  next hidle =>
  obtain ⟨hp, hs⟩ := not_or.mp hidle
  have hobserve := h.observe_idle payload hx (not_not.mp hp)
  rw [hobserve] at hvalid
  split at hrun
  · next hmax =>
    refine h.admitted_same hrun ?_
    rw [hobserve]
    exact validate_limit hvalid (.inl ⟨rfl, rfl, hmax⟩)
  · next hmax =>
    have hle := load32_le heap.memory c
    refine h.admitted_store hx (.inl rfl) hrun ?_
    rw [hobserve, (h.observe_store hx (not_not.mp hp) (by omega)).1]
    exact validate_strong_issue (.inl rfl) (by omega) (by omega) hvalid

theorem Refines.admitted_weakDowngrade : Admitted bucket heap live .weakDowngrade c payload := by
  obtain ⟨record, hheader, -, rfl⟩ := h.controlHeader hx hcontrol
  have hrun : heap.control bucket .weakDowngrade c (some 0)
      = (weakDowngrade bucket heap c).map fun (status, heap) => (status, some 0, heap) := rfl
  unfold weakDowngrade at hrun
  rw [hheader] at hrun
  simp only [bind_eq_bind, bind_some] at hrun
  split at hrun
  · exact h.admitted_refused rfl hvalid hrun
  next hidle =>
  obtain ⟨hp, hs⟩ := not_or.mp hidle
  have hobserve := h.observe_idle payload hx (not_not.mp hp)
  rw [hobserve] at hvalid
  split at hrun
  · next hmax =>
    refine h.admitted_same hrun ?_
    rw [hobserve]
    exact validate_limit hvalid (.inr (.inl ⟨rfl, rfl, hmax⟩))
  · next hmax =>
    have hle := load32_le heap.memory (c + 4)
    refine h.admitted_store hx (.inr rfl) hrun ?_
    rw [hobserve, (h.observe_store hx (not_not.mp hp) (by omega)).2]
    exact validate_weak_issue (.inl ⟨rfl, by omega⟩) (by omega) hvalid

theorem Refines.admitted_weakClone : Admitted bucket heap live .weakClone c payload := by
  obtain ⟨record, hheader, -, rfl⟩ := h.controlHeader hx hcontrol
  have hrun : heap.control bucket .weakClone c (some 0)
      = (weakClone bucket heap c).map fun (status, heap) => (status, some 0, heap) := rfl
  unfold weakClone at hrun
  rw [hheader] at hrun
  simp only [bind_eq_bind, bind_some] at hrun
  split at hrun
  · exact h.admitted_refused rfl hvalid hrun
  next hidle =>
  obtain ⟨hp, hw⟩ := not_or.mp hidle
  have hobserve := h.observe_idle payload hx (not_not.mp hp)
  rw [hobserve] at hvalid
  split at hrun
  · next hmax =>
    refine h.admitted_same hrun ?_
    rw [hobserve]
    exact validate_limit hvalid (.inr (.inr (.inl ⟨rfl, rfl, hmax⟩)))
  · next hmax =>
    have hle := load32_le heap.memory (c + 4)
    refine h.admitted_store hx (.inr rfl) hrun ?_
    rw [hobserve, (h.observe_store hx (not_not.mp hp) (by omega)).2]
    exact validate_weak_issue (.inr rfl) (by omega) hvalid

theorem Refines.admitted_weakUpgrade : Admitted bucket heap live .weakUpgrade c payload := by
  obtain ⟨record, hheader, -, rfl⟩ := h.controlHeader hx hcontrol
  have hrun : heap.control bucket .weakUpgrade c (some 0)
      = (weakUpgrade bucket heap c).map fun (status, heap) => (status, some 0, heap) := rfl
  unfold weakUpgrade at hrun
  rw [hheader] at hrun
  simp only [bind_eq_bind, bind_some] at hrun
  split at hrun
  · exact h.admitted_refused rfl hvalid hrun
  next hp =>
  have hobserve := h.observe_idle payload hx (not_not.mp hp)
  rw [hobserve] at hvalid
  split at hrun
  · next hzero =>
    refine h.admitted_same hrun ?_
    rw [hobserve]
    exact validate_limit hvalid (.inr (.inr (.inr (.inr ⟨rfl, rfl, hzero⟩))))
  next hs =>
  split at hrun
  · next hmax =>
    refine h.admitted_same hrun ?_
    rw [hobserve]
    exact validate_limit hvalid (.inr (.inr (.inr (.inl ⟨rfl, rfl, hmax⟩))))
  · next hmax =>
    have hle := load32_le heap.memory c
    refine h.admitted_store hx (.inl rfl) hrun ?_
    rw [hobserve, (h.observe_store hx (not_not.mp hp) (by omega)).1]
    exact validate_strong_issue (.inr rfl) (by omega) (by omega) hvalid

theorem Refines.admitted_strongReleaseBegin :
    Admitted bucket heap live .strongReleaseBegin c payload := by
  obtain ⟨record, hheader, -, rfl⟩ := h.controlHeader hx hcontrol
  have hrun : heap.control bucket .strongReleaseBegin c (some 0)
      = strongReleaseBegin bucket heap c (some 0) := rfl
  unfold strongReleaseBegin at hrun
  rw [hheader] at hrun
  simp only [bind_eq_bind, bind_some] at hrun
  split at hrun
  · exact h.admitted_refused rfl hvalid hrun
  next hidle =>
  obtain ⟨hp, hs⟩ := not_or.mp hidle
  have hobserve := h.observe_idle payload hx (not_not.mp hp)
  have hle := load32_le heap.memory c
  obtain ⟨next, hmodify, hmemory, hchanged⟩ :=
    (h.store (c := c) (.inl rfl) (load32 heap.memory c - 1)).setPending hx
      (if load32 heap.memory c - 1 = 0 then 1 else 0)
  rw [hmodify] at hrun
  have hnew : (live.insert c { record.allocation with
        pendingLastStrong := if load32 heap.memory c - 1 = 0 then 1 else 0 }).get? c
      = some { record.allocation with
        pendingLastStrong := if load32 heap.memory c - 1 = 0 then 1 else 0 } := by
    rw [get?_insert, if_pos rfl]
  refine admitted_of_changed hx hrun hchanged (fun y hy => ?_) ?_
  · rw [hnew] at hy
    cases hy
    exact ⟨rfl, rfl⟩
  · rw [hobserve] at hvalid
    rw [hobserve, hchanged.refines.observe_live _ hnew, hmemory]
    simp only [Heap.store, load32_store32 _ (show load32 heap.memory c - 1 ≤ u32Max by omega),
      load32_store32_of_ne heap.memory (b := c + 4) (.inl (Nat.le_refl _))]
    have := validate_release_begin (Nat.pos_of_ne_zero hs) hvalid
    by_cases hone : load32 heap.memory c - 1 = 0
    · simpa [boolResult, hone] using this
    · simpa [boolResult, hone] using this

/-- Setting the pending flag back, and releasing the allocation with the last weak count. -/
theorem Refines.admitted_strongReleaseFinish (hpayload : payload = false) :
    Admitted bucket heap live .strongReleaseFinish c payload := by
  obtain ⟨record, hheader, -, rfl⟩ := h.controlHeader hx hcontrol
  have hrun : heap.control bucket .strongReleaseFinish c (some 0)
      = (strongReleaseFinish bucket heap c).map fun (status, heap) => (status, some 0, heap) := rfl
  unfold strongReleaseFinish at hrun
  rw [hheader] at hrun
  simp only [bind_eq_bind, bind_some] at hrun
  split at hrun
  · exact h.admitted_refused rfl hvalid hrun
  next hidle =>
  simp only [not_or, not_not] at hidle
  obtain ⟨hp, hs, hw⟩ := hidle
  have hobserve := h.observe_live payload hx
  have hflag : record.allocation.pendingLastStrong ≠ 0 := hp
  simp only [hs, ne_eq, hflag, not_false_eq_true, decide_true] at hobserve
  subst hpayload
  rw [hobserve] at hvalid
  have hle := load32_le heap.memory (c + 4)
  have htransition := validate_release_finish (Nat.pos_of_ne_zero hw) hvalid
  obtain ⟨idle, hmodify, hmemory, hchanged⟩ :=
    (h.store (c := c) (.inr rfl) (load32 heap.memory (c + 4) - 1)).setPending hx 0
  rw [hmodify] at hrun
  simp only [bind_some] at hrun
  have hnew : (live.insert c { record.allocation with pendingLastStrong := 0 }).get? c
      = some { record.allocation with pendingLastStrong := 0 } := by
    rw [get?_insert, if_pos rfl]
  split at hrun
  · next hlast =>
    obtain ⟨freed, hrelease, hfreed⟩ := hchanged.releaseKnown hnew rfl
    rw [hrelease] at hrun
    have hgone : ((live.insert c { record.allocation with pendingLastStrong := 0 }).erase c).get? c
        = none := by
      rw [get?_erase, if_pos rfl]
    refine admitted_of_changed hx hrun hfreed (fun y hy => ?_) ?_
    · rw [hgone] at hy
      cases hy
    · rw [hobserve, hfreed.refines.observe_released hgone]
      simpa [boolResult, hlast] using htransition
  · next hmore =>
    refine admitted_of_changed hx hrun hchanged (fun y hy => ?_) ?_
    · rw [hnew] at hy
      cases hy
      exact ⟨rfl, rfl⟩
    · rw [hobserve, hchanged.refines.observe_live _ hnew, hmemory]
      simp only [Heap.store,
        load32_store32 _ (show load32 heap.memory (c + 4) - 1 ≤ u32Max by omega),
        load32_store32_of_ne heap.memory (b := c) (.inr (Nat.le_refl _)), hs]
      simpa [boolResult, hmore] using htransition

theorem Refines.admitted_weakRelease : Admitted bucket heap live .weakRelease c payload := by
  obtain ⟨record, hheader, -, rfl⟩ := h.controlHeader hx hcontrol
  have hrun : heap.control bucket .weakRelease c (some 0)
      = weakRelease bucket heap c (some 0) := rfl
  unfold weakRelease at hrun
  rw [hheader] at hrun
  simp only [bind_eq_bind, bind_some] at hrun
  split at hrun
  · exact h.admitted_refused rfl hvalid hrun
  next hidle =>
  simp only [not_or, not_not] at hidle
  obtain ⟨hp, hw, hlast⟩ := hidle
  have hobserve := h.observe_idle payload hx hp
  rw [hobserve] at hvalid
  have hle := load32_le heap.memory (c + 4)
  have htransition := validate_weak_release (Nat.pos_of_ne_zero hw) (by tauto) hvalid
  have hchanged := h.store (c := c) (.inr rfl) (load32 heap.memory (c + 4) - 1)
  split at hrun
  · next hzero =>
    obtain ⟨freed, hrelease, hfreed⟩ := hchanged.releaseKnown hx hp
    rw [hrelease] at hrun
    have hgone : (live.erase c).get? c = none := by rw [get?_erase, if_pos rfl]
    refine admitted_of_changed hx hrun hfreed (fun y hy => ?_) ?_
    · rw [hgone] at hy
      cases hy
    · rw [hobserve, hfreed.refines.observe_released hgone]
      have hstrong : load32 heap.memory c = 0 := by
        by_contra hne
        exact hlast ⟨hne, by omega⟩
      simpa [boolResult, hzero, hstrong] using htransition
  · next hmore =>
    refine admitted_of_changed hx hrun hchanged (fun y hy => ?_) ?_
    · rw [hx] at hy
      cases hy
      exact ⟨rfl, rfl⟩
    · rw [hobserve, (h.observe_store hx hp (by omega)).2]
      simpa [boolResult, hmore] using htransition

end Operations

/-- A call on a released control is refused. -/
theorem Refines.admitted_released (h : Refines bucket heap live) (hx : live.get? c = none)
    (hop : isControlOperation operation = true)
    (hvalid : validControlState (observe bucket heap c payload) = true) :
    Admitted bucket heap live operation c payload := by
  have hheader := h.controlHeader_released hx
  refine h.admitted_refused hop hvalid ?_
  cases operation <;> simp_all [isControlOperation, Heap.control, strongClone, weakDowngrade,
    weakClone, weakUpgrade, strongReleaseBegin, strongReleaseFinish, weakRelease]

theorem Refines.admitted (h : Refines bucket heap live)
    (hcontrol : ∀ x, live.get? c = some x → IsControl x) (hop : isControlOperation operation = true)
    (hfinish : operation = .strongReleaseFinish → payload = false)
    (hvalid : validControlState (observe bucket heap c payload) = true) :
    Admitted bucket heap live operation c payload := by
  cases hx : live.get? c with
  | none => exact h.admitted_released hx hop hvalid
  | some x =>
    have hc := hcontrol x hx
    cases operation with
    | strongClone => exact h.admitted_strongClone hx hc hvalid
    | weakDowngrade => exact h.admitted_weakDowngrade hx hc hvalid
    | weakClone => exact h.admitted_weakClone hx hc hvalid
    | weakUpgrade => exact h.admitted_weakUpgrade hx hc hvalid
    | strongReleaseBegin => exact h.admitted_strongReleaseBegin hx hc hvalid
    | strongReleaseFinish => exact h.admitted_strongReleaseFinish hx hc hvalid (hfinish rfl)
    | weakRelease => exact h.admitted_weakRelease hx hc hvalid
    | _ => cases hop

/-! ### Runs -/

/-- The pointers in `controls` are control blocks in a valid state, live or released. -/
def Controlled (bucket : ℕ → ℕ) (controls : Set ℕ) (state : Heap × (ℕ → Bool)) : Prop :=
  ∃ live, Refines bucket state.1 live ∧ ∀ c ∈ controls,
    validControlState (observe bucket state.1 c (state.2 c)) = true
      ∧ ∀ x, live.get? c = some x → IsControl x

/-- A call of the runtime with a zeroed lane, or the end of a payload's destruction in the caller,
between the two halves of a last release. -/
inductive ControlStep (bucket : ℕ → ℕ) (controls : Set ℕ) :
    Heap × (ℕ → Bool) → Heap × (ℕ → Bool) → Prop
  | call {operation : LogicalOperation} {c : ℕ} {status : RuntimeStatus} {lane : Option ℕ}
      {heap heap' : Heap} {payload : ℕ → Bool} (control : c ∈ controls)
      (known : isControlOperation operation = true)
      (finish : operation = .strongReleaseFinish → payload c = false)
      (run : heap.control bucket operation c (some 0) = some (status, lane, heap')) :
      ControlStep bucket controls (heap, payload) (heap', payload)
  | destroyed {c : ℕ} {heap : Heap} {payload : ℕ → Bool} (control : c ∈ controls)
      (pending : (observe bucket heap c (payload c)).pendingLastStrong = true) :
      ControlStep bucket controls (heap, payload) (heap, Function.update payload c false)

theorem observe_destroyed : { observe bucket heap c payload with payloadInitialized := false }
    = observe bucket heap c false := by
  unfold observe
  split <;> rfl

/-- A pending state is valid with and without a payload. -/
theorem validControlState_destroyed (h : validControlState state = true)
    (hp : state.pendingLastStrong = true) :
    validControlState { state with payloadInitialized := false } = true := by
  unfold validControlState at h ⊢
  simp_all

theorem validControlState_after {operation : LogicalOperation}
    {status : RuntimeStatus} {boolResult : Option Bool} (hbefore : validControlState before = true)
    (h : validateControlTransition operation before status boolResult after = true) :
    validControlState after = true := by
  unfold validateControlTransition at h
  split at h
  · next valid hpre =>
    unfold controlTransitionPreflight at hpre
    grind
  · next hpre =>
    unfold controlTransitionPreflight at hpre
    grind

variable {controls : Set ℕ} {state' : Heap × (ℕ → Bool)}

theorem Controlled.step {state : Heap × (ℕ → Bool)}
    (h : Controlled bucket controls state) (step : ControlStep bucket controls state state') :
    Controlled bucket controls state' := by
  obtain ⟨live, hrefines, hcontrols⟩ := h
  cases step with
  | @call operation c status lane heap heap' payload control known finish run =>
    obtain ⟨hvalid, hstorage⟩ := hcontrols c control
    obtain ⟨status', lane', next, live', hrun, hchanged, hsame, hgone, htransition⟩ :=
      hrefines.admitted hstorage known finish hvalid
    rw [run] at hrun
    cases hrun
    refine ⟨live', hchanged.refines, fun q hq => ?_⟩
    by_cases hqc : q = c
    · subst hqc
      refine ⟨validControlState_after hvalid htransition, fun y hy => ?_⟩
      obtain ⟨x, hx, hsize, halignment⟩ := hsame y hy
      have hcontrol := hstorage x hx
      exact ⟨hsize ▸ hcontrol.1, halignment ▸ hcontrol.2⟩
    · obtain ⟨hvalid', hstorage'⟩ := hcontrols q hq
      refine ⟨?_, fun y hy => hstorage' y (by rw [← hchanged.others q hqc, hy])⟩
      cases hx : live.get? c with
      | none => rwa [hgone hx]
      | some x =>
        rw [hchanged.observe_other hrefines hx (hstorage x hx) hqc hstorage']
        exact hvalid'
  | @destroyed c heap payload control pending =>
    refine ⟨live, hrefines, fun q hq => ⟨?_, (hcontrols q hq).2⟩⟩
    by_cases hqc : q = c
    · subst hqc
      simp only [Function.update_self]
      have := validControlState_destroyed (hcontrols q hq).1 pending
      rwa [observe_destroyed] at this
    · simpa [hqc] using (hcontrols q hq).1

theorem Controlled.run {state : Heap × (ℕ → Bool)} (h : Controlled bucket controls state)
    (run : Relation.ReflTransGen (ControlStep bucket controls) state state') :
    Controlled bucket controls state' := by
  induction run with
  | refl => exact h
  | tail _ step ih => exact ih.step step

/-- A transition changes each count by at most one. -/
theorem counts_of_transition {status : RuntimeStatus}
    {boolResult : Option Bool} (hop : isControlOperation operation = true)
    (h : validateControlTransition operation before status boolResult after = true) :
    (after.strongCount ≤ before.strongCount + 1 ∧ before.strongCount ≤ after.strongCount + 1)
      ∧ after.weakCount ≤ before.weakCount + 1 ∧ before.weakCount ≤ after.weakCount + 1 := by
  unfold validateControlTransition at h
  split at h
  · next valid hpre =>
    unfold controlTransitionPreflight at hpre
    grind
  · cases operation <;> cases status <;> simp [isControlOperation] at h hop <;> grind

/-- From control blocks in valid states, after any sequence of control calls: every further call is
defined, and its status, boolean lane and resulting state satisfy the transition relation of the
ABI. In particular no count wraps around, and the allocation is freed exactly when its weak count
reaches zero. -/
theorem control_refines (bucket : ℕ → ℕ) (controls : Set ℕ) (start state : Heap × (ℕ → Bool))
    (h : Controlled bucket controls start)
    (run : Relation.ReflTransGen (ControlStep bucket controls) start state) (c : ℕ)
    (hc : c ∈ controls) (operation : LogicalOperation) (hop : isControlOperation operation = true)
    (hfinish : operation = .strongReleaseFinish → state.2 c = false) :
    ∃ status lane heap' before after,
      state.1.control bucket operation c (some 0) = some (status, lane, heap')
      ∧ before = observe bucket state.1 c (state.2 c) ∧ after = observe bucket heap' c (state.2 c)
      ∧ validateControlTransition operation before status (boolResult operation lane) after = true
      ∧ after.strongCount ≤ before.strongCount + 1 ∧ before.strongCount ≤ after.strongCount + 1
      ∧ after.weakCount ≤ before.weakCount + 1 ∧ before.weakCount ≤ after.weakCount + 1
      ∧ (headerFor bucket heap' c = some 0 ↔ after.weakCount = 0) := by
  obtain ⟨live, hrefines, hcontrols⟩ := h.run run
  obtain ⟨hvalid, hstorage⟩ := hcontrols c hc
  obtain ⟨status, lane, heap', live', hrun, hchanged, -, -, htransition⟩ :=
    hrefines.admitted hstorage hop hfinish hvalid
  obtain ⟨⟨hs, hs'⟩, hw, hw'⟩ := counts_of_transition hop htransition
  refine ⟨status, lane, heap', _, _, hrun, rfl, rfl, htransition, hs, hs', hw, hw', ?_⟩
  have hafter := validControlState_after hvalid htransition
  rw [hchanged.refines.headerFor]
  cases hx : live'.get? c with
  | none => simp [hchanged.refines.observe_released hx]
  | some x =>
    obtain ⟨-, hne, -⟩ := hchanged.refines.header hx
    rw [hchanged.refines.observe_live _ hx] at hafter ⊢
    -- a valid state that is allocated has a weak count
    simp only [isSome_some, if_true, Option.some.injEq, hne, false_iff]
    simp only [validControlState] at hafter
    grind

theorem control_refines_clone :
    ∃ heap status lane heap',
      heap.control allocationHead .strongClone 4152 (some 0) = some (status, lane, heap')
      ∧ validateControlTransition .strongClone (observe allocationHead heap 4152 true) status
        (boolResult .strongClone lane) (observe allocationHead heap' 4152 true) = true := by
  have hfresh : Allocations.FreshRun empty [.allocate 12 4 (some 0) 4096] := by
    refine ⟨?_, trivial⟩
    intro total base h
    cases h
    exact .inr ⟨by decide, by decide⟩
  obtain ⟨heap, -, hrefines⟩ := (refines_empty allocationHead fun _ => 0).run _ hfresh
  have hx : (Allocations.run empty [.allocate 12 4 (some 0) 4096]).2.get? 4152
      = some ⟨4096, 12, 4, 0⟩ := by decide
  -- a new control block with one strong owner
  have hstrong := (hrefines.store (c := 4152) (.inl rfl) 1).refines
  have hweak := (hstrong.store (c := 4152) (.inr rfl) 1).refines
  have hobserve : observe allocationHead ((heap.store 4152 1).store (4152 + 4) 1) 4152 true
      = ⟨load32 (heap.store 4152 1).memory 4152, 1, false, true, true⟩ :=
    (hstrong.observe_store hx rfl (by decide)).2
  have hword : load32 (heap.store 4152 1).memory 4152 = 1 := load32_store32 _ (by decide)
  rw [hword] at hobserve
  have hcontrolled : Controlled allocationHead {4152}
      ((heap.store 4152 1).store (4152 + 4) 1, fun _ => true) := by
    refine ⟨_, hweak, ?_⟩
    rintro c rfl
    refine ⟨by rw [hobserve]; decide, fun x hx' => ?_⟩
    rw [hx] at hx'
    cases hx'
    exact ⟨by decide, by decide⟩
  obtain ⟨status, lane, heap', before, after, hrun, rfl, rfl, htransition, -⟩ :=
    control_refines allocationHead {4152} _ _ hcontrolled .refl 4152 rfl .strongClone rfl
      (fun h => by cases h)
  exact ⟨_, status, lane, heap', hrun, htransition⟩

end Zryna.OwnershipRuntime.Native
