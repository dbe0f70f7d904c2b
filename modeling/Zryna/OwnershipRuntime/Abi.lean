import Mathlib.Algebra.Ring.Nat

/-!
# The ownership-runtime ABI

The part of `zryna-ownership-runtime-abi` that decides which results of a runtime operation are
admissible: the statuses an operation may return, the transition relation of Shared/Weak control
blocks (`validateControlTransition`), and the growth rule of Vec storage (`reserveCapacity`,
`validateVecReserve`).

Counts are `u32` and lengths `u64` in the source. Here they are natural numbers; every arithmetic
step of the source is checked or guarded against its maximum, and the guards are kept.
-/

namespace Zryna.OwnershipRuntime

/-- The largest `u32`. -/
def u32Max : ℕ := 2 ^ 32 - 1

def maxDynamicAllocationBytes : ℕ := 2147483647
/-- Universal maximum Vec element length and capacity. -/
def maxVecElements : ℕ := 1048576

/-- Exact runtime statuses. -/
inductive RuntimeStatus where
  | ok
  | allocation
  | capacity
  | refcount
  | utf8
  | expired
  | abiViolation
deriving DecidableEq

/-- Canonical logical operation identities, in ABI order. -/
inductive LogicalOperation where
  | allocate
  | grow
  | release
  | stringFromUtf8Copy
  | stringClone
  | stringConcat
  | stringRelease
  | vecAllocate
  | vecReserve
  | vecReleaseStorage
  | strongClone
  | weakDowngrade
  | weakClone
  | weakUpgrade
  | strongReleaseBegin
  | strongReleaseFinish
  | weakRelease
deriving DecidableEq

/-- The statuses declared for an operation. -/
def operationStatuses : LogicalOperation → List RuntimeStatus
  | .allocate | .grow | .stringClone | .stringConcat | .vecAllocate | .vecReserve =>
    [.ok, .allocation, .capacity, .abiViolation]
  | .stringFromUtf8Copy => [.ok, .allocation, .capacity, .utf8, .abiViolation]
  | .release | .stringRelease | .vecReleaseStorage => [.ok, .abiViolation]
  | .strongClone | .weakDowngrade | .weakClone => [.ok, .refcount, .abiViolation]
  | .weakUpgrade => [.ok, .refcount, .expired, .abiViolation]
  | .strongReleaseBegin | .weakRelease | .strongReleaseFinish => [.ok, .abiViolation]

def operationAcceptsStatus (operation : LogicalOperation) (status : RuntimeStatus) : Bool :=
  (operationStatuses operation).contains status

/-! ### Control blocks -/

/-- Complete logical state of one Shared/Weak control allocation. -/
structure ControlState where
  strongCount : ℕ
  weakCount : ℕ
  pendingLastStrong : Bool
  payloadInitialized : Bool
  allocated : Bool
deriving DecidableEq

def validControlState (state : ControlState) : Bool :=
  if !state.allocated then
    state.strongCount = 0 && state.weakCount = 0 && !state.pendingLastStrong
      && !state.payloadInitialized
  else if state.pendingLastStrong then state.strongCount = 0 && state.weakCount > 0
  else if state.strongCount > 0 then state.weakCount > 0 && state.payloadInitialized
  else state.weakCount > 0 && !state.payloadInitialized

def controlBoolResultIsZero (operation : LogicalOperation) (boolResult : Option Bool) : Bool :=
  match operation with
  | .strongReleaseBegin | .weakRelease => boolResult = some false
  | _ => boolResult = none

def controlTransitionPreflight (operation : LogicalOperation) (before : ControlState)
    (status : RuntimeStatus) (boolResult : Option Bool) (after : ControlState) : Option Bool :=
  if !operationAcceptsStatus operation status || !validControlState before
      || !validControlState after then some false
  else if status ≠ .ok && !controlBoolResultIsZero operation boolResult then some false
  else if before.pendingLastStrong && operation ≠ .strongReleaseFinish then
    some (status = .abiViolation && after = before
      && controlBoolResultIsZero operation boolResult)
  else none

def validateControlTransition (operation : LogicalOperation) (before : ControlState)
    (status : RuntimeStatus) (boolResult : Option Bool) (after : ControlState) : Bool :=
  match controlTransitionPreflight operation before status boolResult after with
  | some valid => valid
  | none =>
    let unchanged : Bool := after = before
    match operation with
    | .strongClone =>
      match status with
      | .ok => before.strongCount > 0 && before.strongCount < u32Max
          && after = { before with strongCount := before.strongCount + 1 } && boolResult = none
      | .refcount => before.strongCount = u32Max && unchanged
      | .abiViolation => unchanged
      | _ => false
    | .weakDowngrade =>
      match status with
      | .ok => before.strongCount > 0 && before.weakCount < u32Max
          && after = { before with weakCount := before.weakCount + 1 } && boolResult = none
      | .refcount => before.weakCount = u32Max && unchanged
      | .abiViolation => unchanged
      | _ => false
    | .weakClone =>
      match status with
      | .ok => before.weakCount > 0 && before.weakCount < u32Max
          && after = { before with weakCount := before.weakCount + 1 } && boolResult = none
      | .refcount => before.weakCount = u32Max && unchanged
      | .abiViolation => unchanged
      | _ => false
    | .weakUpgrade =>
      match status with
      | .ok => before.strongCount > 0 && before.strongCount < u32Max
          && after = { before with strongCount := before.strongCount + 1 } && boolResult = none
      | .expired => before.strongCount = 0 && unchanged
      | .refcount => before.strongCount = u32Max && unchanged
      | .abiViolation => unchanged
      | _ => false
    | .strongReleaseBegin =>
      match status with
      | .ok =>
        if before.strongCount > 1 then
          boolResult = some false
            && after = { before with strongCount := before.strongCount - 1 }
        else if before.strongCount = 1 then
          boolResult = some true
            && after = { before with strongCount := 0, pendingLastStrong := true }
        else false
      | .abiViolation => unchanged
      | _ => false
    | .strongReleaseFinish =>
      match status with
      | .ok => before.pendingLastStrong && before.strongCount = 0 && !before.payloadInitialized
          && before.weakCount > 0 && boolResult = none
          && after = { before with
            weakCount := before.weakCount - 1, pendingLastStrong := false,
            allocated := before.weakCount > 1 }
      | .abiViolation => unchanged
      | _ => false
    | .weakRelease =>
      match status with
      | .ok =>
        if before.weakCount = 0 then false
        else
          let weakCount := before.weakCount - 1
          let deallocated : Bool := weakCount = 0 && before.strongCount = 0
          (!deallocated || !before.pendingLastStrong) && boolResult = some deallocated
            && after = { before with weakCount, allocated := !deallocated }
      | .abiViolation => unchanged
      | _ => false
    | _ => false

/-! ### What a transition keeps -/

variable {after before : ControlState} {boolResult : Option Bool} {operation : LogicalOperation}

theorem preflight_eq_none {status : RuntimeStatus}
    (h : validateControlTransition operation before status boolResult after = true)
    (hp : before.pendingLastStrong = false ∨ operation = .strongReleaseFinish) :
    controlTransitionPreflight operation before status boolResult after = none
      ∧ validControlState before = true ∧ validControlState after = true := by
  unfold validateControlTransition at h
  split at h
  · next valid hpre =>
    unfold controlTransitionPreflight at hpre
    grind
  · next hpre =>
    refine ⟨hpre, ?_⟩
    unfold controlTransitionPreflight at hpre
    grind

/-- A status other than `ok` leaves the control as it was. -/
theorem unchanged_of_status {status : RuntimeStatus}
    (h : validateControlTransition operation before status boolResult after = true)
    (hp : before.pendingLastStrong = false) (hs : status ≠ .ok) : after = before := by
  obtain ⟨hpre, -, -⟩ := preflight_eq_none h (.inl hp)
  unfold validateControlTransition at h
  rw [hpre] at h
  cases operation <;> cases status <;> grind

/-! ### Vec storage -/

/-- The capacity is within the element and byte limits. A product above `u64` is above the byte
limit. -/
def vecCapacityFits (capacity stride : ℕ) : Bool :=
  stride > 0 && capacity ≤ maxVecElements && capacity * stride ≤ maxDynamicAllocationBytes

/-- The doubling loop of `reserveCapacity`. -/
def reserveLoop (required stride : ℕ) : ℕ → ℕ → Option ℕ
  | 0, _ => none
  | rounds + 1, candidate =>
    if candidate < required then
      if !vecCapacityFits candidate stride then some required
      else if 2 ^ 64 ≤ candidate * 2 then none
      else reserveLoop required stride rounds (candidate * 2)
    else some (if vecCapacityFits candidate stride then candidate else required)

/-- The deterministic growth rule. A candidate that is doubled again is positive and fits, so it is
at most `maxVecElements` and 32 rounds are never used up. -/
def reserveCapacity (old required stride : ℕ) : Option ℕ :=
  if !vecCapacityFits old stride || !vecCapacityFits required stride then none
  else if required ≤ old then some old
  else
    let candidate := if old = 0 then 4 else old * 2
    if 2 ^ 64 ≤ candidate then none else reserveLoop required stride 32 candidate

/-- Result of a reserve operation, as claimed to the ABI authority. -/
structure VecReserveClaim where
  oldLength : ℕ
  oldCapacity : ℕ
  requiredLength : ℕ
  status : RuntimeStatus
  pointer : ℕ
  length : ℕ
  capacity : ℕ
  inputUnchanged : Bool
deriving DecidableEq

def validateVecReserve (claim : VecReserveClaim) (stride : ℕ) : Bool :=
  let oldValid := claim.oldLength ≤ claim.oldCapacity && vecCapacityFits claim.oldCapacity stride
  let reserved :=
    if oldValid then reserveCapacity claim.oldCapacity claim.requiredLength stride else none
  let zeroed := claim.pointer = 0 && claim.length = 0 && claim.capacity = 0
  match claim.status with
  | .ok => oldValid && reserved.isSome && claim.length = claim.oldLength
      && some claim.capacity = reserved && (claim.capacity = 0 || claim.pointer ≠ 0)
  | .capacity => oldValid && reserved.isNone && zeroed && claim.inputUnchanged
  | .allocation => oldValid && claim.requiredLength > claim.oldCapacity && reserved.isSome
      && zeroed && claim.inputUnchanged
  | .abiViolation => zeroed && claim.inputUnchanged
  | _ => false

end Zryna.OwnershipRuntime
