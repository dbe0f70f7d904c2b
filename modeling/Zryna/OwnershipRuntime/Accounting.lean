import Mathlib.Algebra.Ring.Nat

/-!
# Execution accounting

`CounterState` of `zryna-ownership-runtime-abi` keeps four coupled counters of one invocation:
allocation attempts, live blocks, spent status transitions and the transitions held back for
mandatory cleanup. `forward` prepays one event and hands out a receipt, `complete` and
`completeGrowth` consume a receipt, `release` spends one held credit.

The methods take `&mut self`, so a method that fails may already have written. They are modelled
as computations whose state survives an error, and that a failed call leaves the counters alone is
a theorem (`Operation.unchanged_of_error`).

The one invariant is `Checked`: every counter is within its own limit, live blocks never exceed
attempts, and *spent plus held* stays within the transition limit. The last clause is what makes
cleanup immune to the budget: a release moves one unit from held to spent and leaves the sum where
it was.
-/

namespace Zryna.OwnershipRuntime.Accounting

/-! ### Limits -/

def maxLiveAllocations : ℕ := 1048576
/-- Maximum allocation and growth operations in one invocation. -/
def maxAllocationOperations : ℕ := 1048576
/-- Maximum runtime status transitions in one invocation. -/
def maxStatusTransitions : ℕ := 4194304

/-! ### The counters -/

/-- Invocation arithmetic state. -/
structure CounterState where
  attempts : ℕ := 0
  live : ℕ := 0
  spent : ℕ := 0
  held : ℕ := 0
deriving DecidableEq

/-- Model request. -/
structure Request where
  attempt : Bool
  newHold : ℕ
  temporaryLive : Bool
deriving DecidableEq

inductive Fault where
  | denied
  | invariant
deriving DecidableEq

/-- The receipt of an admitted event. -/
structure Admission where
  before : CounterState
  reserved : CounterState
  request : Request
deriving DecidableEq

/-- A method of the counters: what it writes before it fails stays written. -/
abbrev Method := ExceptT Fault (StateM CounterState)

/-- Addition in `u64`, or the fault. -/
def checkedAdd (fault : Fault) (a b : ℕ) : Except Fault ℕ :=
  if a + b < 2 ^ 64 then .ok (a + b) else .error fault

/-- Subtraction in `u64`, or the fault. -/
def checkedSub (fault : Fault) (a b : ℕ) : Except Fault ℕ :=
  if b ≤ a then .ok (a - b) else .error fault

/-- The sum overflows `u64` or passes the transition limit. -/
def overdrawn (spent held : ℕ) : Bool :=
  match checkedAdd .invariant spent held with
  | .ok n => n > maxStatusTransitions
  | .error _ => true

namespace CounterState

def checked (self : CounterState) : Except Fault Unit :=
  if self.attempts > maxAllocationOperations
      || self.live > maxLiveAllocations
      || self.live > self.attempts
      || self.spent > maxStatusTransitions
      || self.held > maxStatusTransitions
      || overdrawn self.spent self.held then .error .invariant
  else .ok ()

def forward (request : Request) : Method Admission := do
  let self ← get
  self.checked
  if request.temporaryLive && !request.attempt then throw .invariant
  let attempts ← checkedAdd .denied self.attempts request.attempt.toNat
  let spent ← checkedAdd .denied self.spent 1
  let held ← checkedAdd .denied self.held request.newHold
  let temporary ← checkedAdd .denied self.live request.temporaryLive.toNat
  if attempts > maxAllocationOperations || temporary > maxLiveAllocations
      || overdrawn spent held then throw .denied
  let before := self
  let reserved := { attempts, live := self.live, spent, held }
  set reserved
  pure { before, reserved, request }

def complete (admission : Admission) (success : Bool) : Method Unit := do
  let self ← get
  if self ≠ admission.reserved then throw .invariant
  let next ←
    if success then do
      let live ← checkedAdd .invariant self.live admission.request.temporaryLive.toNat
      pure { self with live }
    else pure { self with held := admission.before.held }
  next.checked
  set next

def completeGrowth (admission : Admission) (success oldPositive : Bool) : Method Unit := do
  let self ← get
  if self ≠ admission.reserved || !admission.request.attempt || !admission.request.temporaryLive
      || admission.request.newHold ≠ 0 || admission.before.held = 0
      || admission.before.live < oldPositive.toNat then throw .invariant
  let next ←
    if success then do
      let live ← checkedAdd .invariant admission.before.live 1
      let live ← checkedSub .invariant live oldPositive.toNat
      pure { self with live }
    else pure self
  next.checked
  set next

def release (positive : Bool) : Method Unit := do
  let self ← get
  self.checked
  let live ← checkedSub .invariant self.live positive.toNat
  let spent ← checkedAdd .invariant self.spent 1
  let held ← checkedSub .invariant self.held 1
  let next : CounterState := { attempts := self.attempts, live, spent, held }
  next.checked
  set next

end CounterState

/-! ### Runs -/

/-- One call of a method, with any request and any receipt. -/
inductive Operation where
  | forward (request : Request)
  | complete (admission : Admission) (success : Bool)
  | completeGrowth (admission : Admission) (success oldPositive : Bool)
  | release (positive : Bool)
deriving DecidableEq

/-- Performs a call and forgets the receipt it may return. -/
def Operation.perform : Operation → Method Unit
  | .forward request => (fun _ => ()) <$> CounterState.forward request
  | .complete admission success => CounterState.complete admission success
  | .completeGrowth admission success oldPositive =>
    CounterState.completeGrowth admission success oldPositive
  | .release positive => CounterState.release positive

/-- The counters after a sequence of calls, failed ones included. -/
def run (operations : List Operation) (self : CounterState) : CounterState :=
  operations.foldl (fun self operation => (operation.perform self).2) self

/-- Consecutive releases, stopped by the first one that fails. -/
def releaseAll (positives : List Bool) : Method Unit := positives.forM CounterState.release

/-! ### Reasoning about a method

`Post m self Q` says that a call of `m` either succeeds with `Q`, or fails with the counters as
they were. A method reads `get`, makes checks, and writes last; the rules below follow that shape.
The `call_` rules run the same shape forwards, through checks that are known to pass.
-/

section Post

variable {α β : Type}

/-- A call of `m` succeeds with `Q`, or fails and leaves the counters unchanged. -/
def Post (m : Method α) (self : CounterState) (Q : α → CounterState → Prop) : Prop :=
  match m self with
  | (.ok a, self') => Q a self'
  | (.error _, self') => self' = self

variable {Q : α → CounterState → Prop} {self : CounterState} {k : β → Method α} {x : Except Fault β}
  {c : Prop} {fault : Fault} {m : Method α} {a : α} {result : Except Fault α × CounterState}

theorem post_get {k : CounterState → Method α}
    (h : Post (k self) self Q) : Post (get >>= k) self Q := h

/-- A check before the rest of the method. -/
theorem post_lift (h : ∀ b, x = .ok b → Post (k b) self Q) : Post (liftM x >>= k) self Q := by
  cases x with
  | error fault => rfl
  | ok b => exact h b rfl

/-- A condition that must not hold. -/
theorem post_reject [Decidable c] (h : ¬ c → Post m self Q) :
    Post (if c then throw fault >>= k else m) self Q := by
  by_cases hc : c
  · rw [if_pos hc]
    rfl
  · rw [if_neg hc]
    exact h hc

/-- The final write. -/
theorem post_set {next : CounterState}
    (h : Q a next) : Post (do set next; pure a : Method α) self Q := h

theorem Post.map {g : α → β}
    {R : β → CounterState → Prop} (h : Post m self Q) (hQR : ∀ a self', Q a self' → R (g a) self') :
    Post (g <$> m) self R := by
  unfold Post at *
  simp only [Functor.map, ExceptT.map, ExceptT.mk, bind, StateT.bind]
  cases hm : m self with
  | mk result self' =>
    rw [hm] at h
    cases result with
    | error fault => exact h
    | ok a => exact hQR a self' h

variable {self' : CounterState} {b : β}

theorem Post.of_ok (h : Post m self Q) (hm : m self = (.ok a, self')) : Q a self' := by
  unfold Post at h
  rwa [hm] at h

theorem Post.of_error (h : Post m self Q) (hm : m self = (.error fault, self')) : self' = self := by
  unfold Post at h
  rwa [hm] at h

theorem call_get {k : CounterState → Method α} (h : k self self = result) :
    (get >>= k : Method α) self = result := h

theorem call_bind {m : Method β} (hm : m self = (.ok b, self'))
    (h : k b self' = result) : (m >>= k) self = result := by
  simp only [bind, ExceptT.bind, ExceptT.mk, StateT.bind, hm]
  exact h

theorem call_lift (hx : x = .ok b) (h : k b self = result) :
    (liftM x >>= k : Method α) self = result := by
  subst hx
  exact h

theorem call_reject [Decidable c] (hc : ¬ c)
    (h : m self = result) : (if c then throw fault >>= k else m : Method α) self = result := by
  rw [if_neg hc]
  exact h

end Post

/-! ### The invariant -/

/-- Every counter is within its limit, and what is held back still fits in the budget. -/
structure Checked (state : CounterState) : Prop where
  attempts_le : state.attempts ≤ maxAllocationOperations
  live_le : state.live ≤ maxLiveAllocations
  live_le_attempts : state.live ≤ state.attempts
  spent_held_le : state.spent + state.held ≤ maxStatusTransitions

theorem overdrawn_eq_false {spent held : ℕ} :
    overdrawn spent held = false ↔ spent + held ≤ maxStatusTransitions := by
  unfold overdrawn checkedAdd
  by_cases h : spent + held < 2 ^ 64
  · rw [if_pos h]
    exact decide_eq_false_iff_not.trans Nat.not_lt
  · simp only [h, if_false, Bool.true_eq_false, false_iff, Nat.not_le]
    unfold maxStatusTransitions
    omega

variable {self : CounterState} {a b : ℕ} {fault : Fault}

theorem checked_eq_ok : self.checked = .ok () ↔ Checked self := by
  unfold CounterState.checked
  constructor
  · intro h
    split at h
    · cases h
    · next hc =>
      simp only [Bool.or_eq_true, decide_eq_true_eq, not_or, Bool.not_eq_true,
        overdrawn_eq_false] at hc
      exact ⟨by omega, by omega, by omega, hc.2⟩
  · intro h
    have := h.spent_held_le
    rw [if_neg]
    simp only [Bool.or_eq_true, decide_eq_true_eq, not_or, Bool.not_eq_true, overdrawn_eq_false]
    exact ⟨⟨⟨⟨⟨by have := h.attempts_le; omega, by have := h.live_le; omega⟩,
      by have := h.live_le_attempts; omega⟩, by omega⟩, by omega⟩, this⟩

theorem eq_of_checkedAdd {c : ℕ} (h : checkedAdd fault a b = .ok c) : c = a + b := by
  unfold checkedAdd at h
  split at h
  · cases h; rfl
  · cases h

theorem checkedAdd_eq (fault : Fault) (h : a + b < 2 ^ 64) :
    checkedAdd fault a b = .ok (a + b) := if_pos h

theorem checkedSub_eq (fault : Fault) (h : b ≤ a) : checkedSub fault a b = .ok (a - b) := if_pos h

/-! ### What each method does -/

/-- An admitted event: the receipt records the counters before and after. -/
structure Forwarded (state : CounterState) (request : Request) (admission : Admission)
    (state' : CounterState) : Prop where
  before_eq : admission.before = state
  reserved_eq : admission.reserved = state'
  request_eq : admission.request = request
  counters : state' = ⟨state.attempts + request.attempt.toNat, state.live, state.spent + 1,
    state.held + request.newHold⟩
  attempt_of_temporary : request.temporaryLive = true → request.attempt = true
  temporary_le : state.live + request.temporaryLive.toNat ≤ maxLiveAllocations
  checked : Checked state'
  checked_before : Checked state

theorem forward_post (request : Request) (self : CounterState) :
    Post (CounterState.forward request) self (Forwarded self request) := by
  unfold CounterState.forward
  dsimp only
  refine post_get (post_lift fun _ hchecked => post_reject fun hattempt => ?_)
  refine post_lift fun attempts hattempts => post_lift fun spent hspent => ?_
  refine post_lift fun held hheld => post_lift fun temporary htemporary => ?_
  refine post_reject fun hdenied => post_set ?_
  obtain rfl := eq_of_checkedAdd hattempts
  obtain rfl := eq_of_checkedAdd hspent
  obtain rfl := eq_of_checkedAdd hheld
  obtain rfl := eq_of_checkedAdd htemporary
  have hbefore := checked_eq_ok.mp hchecked
  simp only [Bool.or_eq_true, decide_eq_true_eq, not_or, Bool.not_eq_true,
    overdrawn_eq_false, Nat.not_lt] at hdenied
  have hlive := hbefore.live_le_attempts
  refine ⟨rfl, rfl, rfl, rfl, by simpa using hattempt, hdenied.1.2, ?_, hbefore⟩
  exact ⟨hdenied.1.1, hbefore.live_le, by dsimp only; omega, hdenied.2⟩

/-- A method that checks what it is about to write. -/
theorem post_checked_set {next : CounterState} {Q : Unit → CounterState → Prop}
    (h : Checked next → Q () next) : Post (do liftM next.checked; set next : Method Unit) self Q :=
  post_lift fun _ hchecked => h (checked_eq_ok.mp hchecked)

theorem complete_post (admission : Admission) (success : Bool) (self : CounterState) :
    Post (CounterState.complete admission success) self fun _ self' => Checked self' := by
  unfold CounterState.complete
  dsimp only
  refine post_get (post_reject fun _ => ?_)
  split
  · exact post_lift fun _ _ => post_checked_set id
  · exact post_checked_set id

theorem completeGrowth_post (admission : Admission) (success oldPositive : Bool)
    (self : CounterState) :
    Post (CounterState.completeGrowth admission success oldPositive) self
      fun _ self' => Checked self' := by
  unfold CounterState.completeGrowth
  dsimp only
  refine post_get (post_reject fun _ => ?_)
  split
  · exact post_lift fun _ _ => post_lift fun _ _ => post_checked_set id
  · exact post_checked_set id

theorem release_post (positive : Bool) (self : CounterState) :
    Post (CounterState.release positive) self fun _ self' => Checked self' :=
  post_get (post_lift fun _ _ => post_lift fun _ _ => post_lift fun _ _ => post_lift fun _ _ =>
    post_checked_set id)

/-! ### Steps and runs -/

theorem Operation.perform_post (operation : Operation) (self : CounterState) :
    Post operation.perform self fun _ self' => Checked self' := by
  cases operation with
  | forward request =>
    exact (forward_post request self).map fun _ _ h => h.checked
  | complete admission success => exact complete_post admission success self
  | completeGrowth admission success oldPositive =>
    exact completeGrowth_post admission success oldPositive self
  | release positive => exact release_post positive self

/-- One call keeps the invariant, whether it succeeds or not. -/
theorem Checked.step (h : Checked self) (operation : Operation) :
    Checked (operation.perform self).2 := by
  have hpost := operation.perform_post self
  unfold Post at hpost
  split at hpost
  · next hm => rwa [hm]
  · next hm =>
    rw [hm, hpost]
    exact h

theorem Checked.run (h : Checked self) (operations : List Operation) :
    Checked (run operations self) := by
  induction operations generalizing self with
  | nil => exact h
  | cons operation operations ih => exact ih (h.step operation)

theorem checked_default : Checked {} := ⟨by decide, by decide, by decide, by decide⟩

variable {self' : CounterState}

theorem Operation.unchanged_of_error {operation : Operation}
    (h : operation.perform self = (.error fault, self')) : self' = self :=
  (operation.perform_post self).of_error h

/-- A receipt that is completed before anything else happens is never refused. -/
theorem complete_of_forward {request : Request} {admission : Admission}
    (h : CounterState.forward request self = (.ok admission, self'))
    (success : Bool) : ∃ self'', CounterState.complete admission success self' = (.ok (), self'') := by
  have hf := (forward_post request self).of_ok h
  have hbefore := hf.checked_before.live_le_attempts
  have hlive : request.temporaryLive.toNat ≤ request.attempt.toNat := by
    have := hf.attempt_of_temporary
    cases ht : request.temporaryLive <;> simp_all
  have hsum := hf.checked.spent_held_le
  have hattempts := hf.checked.attempts_le
  have htemporary := hf.temporary_le
  rw [hf.counters] at hsum hattempts
  dsimp only at hsum hattempts
  have hu64 : self'.live + admission.request.temporaryLive.toNat < 2 ^ 64 := by
    rw [hf.counters, hf.request_eq]
    unfold maxLiveAllocations at htemporary
    dsimp only
    omega
  unfold CounterState.complete
  dsimp only
  cases success with
  | true =>
    -- the block announced by the request now counts as live
    refine ⟨_, call_get (call_reject (not_not.mpr hf.reserved_eq.symm)
      (call_lift (checkedAdd_eq _ hu64) (call_bind rfl (call_lift (checked_eq_ok.mpr ?_) rfl))))⟩
    rw [hf.counters, hf.request_eq]
    exact ⟨hattempts, htemporary, by dsimp only; omega, hsum⟩
  | false =>
    -- only the prospective debt is cancelled
    refine ⟨_, call_get (call_reject (not_not.mpr hf.reserved_eq.symm)
      (call_bind rfl (call_lift (checked_eq_ok.mpr ?_) rfl)))⟩
    rw [hf.counters, hf.before_eq]
    exact ⟨hattempts, hf.checked_before.live_le, by dsimp only; omega, by dsimp only; omega⟩

/-- A held credit can be spent: the sum of spent and held does not move. -/
theorem release_of_held (h : Checked self) {positive : Bool}
    (hheld : 0 < self.held) (hlive : positive = true → 0 < self.live) :
    CounterState.release positive self
      = (.ok (), ⟨self.attempts, self.live - positive.toNat, self.spent + 1, self.held - 1⟩) := by
  have hsum := h.spent_held_le
  have hattempts := h.live_le_attempts
  have hle := h.live_le
  have hpositive : positive.toNat ≤ self.live := by
    cases positive with
    | true => exact hlive rfl
    | false => exact Nat.zero_le _
  have hu64 : self.spent + 1 < 2 ^ 64 := by
    unfold maxStatusTransitions at hsum
    omega
  have hnext : Checked ⟨self.attempts, self.live - positive.toNat, self.spent + 1, self.held - 1⟩ :=
    ⟨h.attempts_le, by dsimp only; omega, by dsimp only; omega, by dsimp only; omega⟩
  exact call_get (call_lift (checked_eq_ok.mpr h) (call_lift (checkedSub_eq _ hpositive)
    (call_lift (checkedAdd_eq _ hu64) (call_lift (checkedSub_eq _ hheld)
      (call_lift (checked_eq_ok.mpr hnext) rfl)))))

/-- Outstanding credits can be spent in any order, whatever is left of the budget. -/
theorem releaseAll_of_held (positives : List Bool) (h : Checked self)
    (hheld : positives.length ≤ self.held) (hlive : positives.count true ≤ self.live) :
    releaseAll positives self = (.ok (), ⟨self.attempts, self.live - positives.count true,
      self.spent + positives.length, self.held - positives.length⟩) := by
  induction positives generalizing self with
  | nil => rfl
  | cons positive positives ih =>
    rw [List.length_cons] at hheld
    have hcount : (positive :: positives).count true = positives.count true + positive.toNat := by
      cases positive <;> simp
    rw [hcount] at hlive
    have hpositive : positive = true → 0 < self.live := by
      rintro rfl
      simp only [Bool.toNat_true] at hlive
      omega
    have hrelease := release_of_held h (Nat.lt_of_lt_of_le (Nat.succ_pos _) hheld) hpositive
    have hnext : Checked ⟨self.attempts, self.live - positive.toNat, self.spent + 1,
        self.held - 1⟩ := (release_post positive self).of_ok hrelease
    have hrest := ih hnext (by dsimp only; omega) (by dsimp only; omega)
    refine call_bind hrelease (hrest.trans ?_)
    rw [hcount, List.length_cons]
    simp only [Nat.sub_sub, Nat.add_comm positive.toNat, Nat.add_assoc,
      Nat.add_comm 1 positives.length]

/-- **Accounting is safe.** After any sequence of calls the counters are checked; a failed call
leaves them unchanged; a receipt completed right after it was issued is accepted; and held credits
can always be spent, one by one down to the last. -/
theorem accounting_safe (operations : List Operation) :
    (run operations {}).checked = .ok ()
      ∧ (∀ (operation : Operation) (fault : Fault) (self' : CounterState),
        operation.perform (run operations {}) = (.error fault, self') →
          self' = run operations {})
      ∧ (∀ (request : Request) (admission : Admission) (self' : CounterState) (success : Bool),
        CounterState.forward request (run operations {}) = (.ok admission, self') →
          ∃ self'', CounterState.complete admission success self' = (.ok (), self''))
      ∧ (∀ positive : Bool, 0 < (run operations {}).held →
        (positive = true → 0 < (run operations {}).live) →
          ∃ self', CounterState.release positive (run operations {}) = (.ok (), self'))
      ∧ ∀ positives : List Bool, positives.length = (run operations {}).held →
        positives.count true ≤ (run operations {}).live →
          ∃ self', releaseAll positives (run operations {}) = (.ok (), self') ∧ self'.held = 0 := by
  have h : Checked (run operations {}) := checked_default.run operations
  refine ⟨checked_eq_ok.mpr h, ?_, ?_, ?_, ?_⟩
  · intro operation fault self' hfail
    exact Operation.unchanged_of_error hfail
  · intro request admission self' success hforward
    exact complete_of_forward hforward success
  · intro positive hheld hlive
    exact ⟨_, release_of_held h hheld hlive⟩
  · intro positives hlength hlive
    exact ⟨_, releaseAll_of_held positives h (Nat.le_of_eq hlength) hlive, by simp [hlength]⟩

end Zryna.OwnershipRuntime.Accounting
