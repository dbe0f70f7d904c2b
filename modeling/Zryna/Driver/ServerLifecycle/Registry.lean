import Mathlib.Data.String.Basic
import Mathlib.Order.Nat
import Zryna.Foundation.Checked
import Zryna.Foundation.OrderedMap

/-!
# The registry of request leases

One mutex guards the registry of a server. Every definition here that takes a `Shared` is one
critical section under that mutex; what an operation does between two of its sections, above all to
destroy entries, is not part of any section. A panic with the mutex held poisons it.

Instants and durations are numbers of nanoseconds. What an adapter transfers to a request is of any
type.
-/

namespace Zryna.Driver.ServerLifecycle

/-! ### Limits -/

/-- Maximum concurrently retained incoming requests. -/
def maxRequests : ℕ := 64
/-- Maximum bytes in either one incoming or one outgoing body. -/
def maxBodyBytes : ℕ := 65536
/-- Maximum reserved body storage. -/
def maxBufferBytes : ℕ := 8 * 1024 * 1024
/-- Maximum lifetime of an incoming request. -/
def maxDeadline : ℕ := 5 * 1000000000

/-- Stable internal rejection categories. -/
inductive Error where
  | limit
  | malformed
  | deadline
  | inactive
  | denied
  | host
deriving DecidableEq

structure Limits where
  requests : ℕ
  requestBytes : ℕ
  responseBytes : ℕ
  bufferBytes : ℕ
  timeout : ℕ
deriving DecidableEq

def Limits.validate (self : Limits) : Except Error Limits :=
  if self.requests = 0 ∨ self.requests > maxRequests
      ∨ self.requestBytes = 0 ∨ self.requestBytes > maxBodyBytes
      ∨ self.responseBytes = 0 ∨ self.responseBytes > maxBodyBytes
      ∨ self.bufferBytes = 0 ∨ self.bufferBytes > maxBufferBytes
      ∨ self.timeout = 0 ∨ self.timeout > maxDeadline then
    .error .limit
  else .ok self

/-- Input from an incoming-handler adapter. -/
structure Input where
  method : String
  path : String
  body : List UInt8
  deadline : ℕ

/-- A path with a character that is not printable ASCII, or with a fragment. -/
def refusedPath (path : String) : Bool :=
  path.toList.any fun c => ¬(0x21 ≤ c.toNat ∧ c.toNat ≤ 0x7e) || c = '#'

/-- What is charged for an input: its own bytes, and those of the longest response to it. -/
def Input.reservation (self : Input) (limits : Limits) (now : ℕ) : Except Error ℕ :=
  if ¬(self.method = "GET" ∨ self.method = "POST") ∨ self.path = "" ∨ self.path.utf8ByteSize > 256
      ∨ self.path.toList.head? ≠ some '/' ∨ refusedPath self.path then
    .error .malformed
  else if self.deadline ≤ now then .error .deadline
  else if self.deadline - now > limits.timeout ∨ self.body.length > limits.requestBytes then
    .error .limit
  else
    let bytes := self.body.length + self.path.utf8ByteSize + self.method.utf8ByteSize
      + limits.responseBytes
    if bytes ≥ 2 ^ 64 then .error .limit else .ok bytes

/-! ### State -/

structure Entry (Authority : Type) where
  deadline : ℕ
  reservation : ℕ
  method : String
  path : String
  body : List UInt8
  /-- The resource that an adapter transferred, if it has done so. -/
  authority : Option Authority

structure State (Authority : Type) where
  stopped : Bool
  next : ℕ
  bytes : ℕ
  live : ℕ
  failed : Bool
  entries : OrderedMap ℕ (Entry Authority)

/-- A lease that was removed, if there was one. -/
def leased {Authority : Type} (id : ℕ) (entry : Option (Entry Authority)) :
    List (ℕ × Entry Authority) :=
  (entry.map fun entry => (id, entry)).toList

namespace State

variable {Authority : Type} (self : State Authority)

/-- The state that a server starts with. -/
def start : State Authority := ⟨false, 0, 0, 0, false, .empty⟩

def active : Except Error Unit := if self.stopped then .error .inactive else .ok ()

/-- Stops the host and detaches all entries. -/
def stop : List (ℕ × Entry Authority) × State Authority :=
  (self.entries.entries, { self with stopped := true, entries := .empty })

def remove (id : ℕ) : Option (Entry Authority) × State Authority :=
  (self.entries.get? id, { self with entries := self.entries.erase id })

/-- Removes entries one after another. -/
def removeAll : List ℕ → State Authority → List (ℕ × Entry Authority) × State Authority
  | [], self => ([], self)
  | id :: ids, self =>
    let (entry, self) := self.remove id
    let (removed, self) := removeAll ids self
    (leased id entry ++ removed, self)

/-- Admits one request under the lock. -/
def admission (limits : Limits) (input : Input) (reservation now : ℕ) :
    Except Error (ℕ × State Authority) := do
  self.active
  if input.deadline ≤ now then .error .deadline
  let total := self.bytes + reservation
  if total ≥ 2 ^ 64 then .error .limit
  if self.live ≥ limits.requests ∨ total > limits.bufferBytes then .error .limit
  let id := self.next
  if id + 1 ≥ 2 ^ 64 then .error .limit
  let entry : Entry Authority :=
    ⟨input.deadline, reservation, input.method, input.path, input.body, none⟩
  .ok (id, { self with
    entries := self.entries.insert id entry
    next := id + 1
    bytes := total
    live := self.live + 1 })

/-- The ids whose deadline has come. -/
def expired (now : ℕ) : List ℕ :=
  (self.entries.entries.filter fun entry => entry.2.deadline ≤ now).map Prod.fst

end State

/-! ### Critical sections -/

structure Shared (Authority : Type) where
  state : State Authority
  poisoned : Bool

/-- What a publication callback does. -/
inductive Callback where
  | returns (result : Except Error Unit)
  | panics

/-- What the section of a publication leads to. -/
structure Publication (Authority : Type) where
  /-- The callback ran. -/
  committed : Bool
  removed : Option (Entry Authority)
  /-- What is returned once the entry is retired; nothing when the callback panics. -/
  result : Option (Except Error Unit)
  shared : Shared Authority

/-- What the deadline worker does next. -/
inductive Watch (Authority : Type) where
  | returns (result : Except Error Unit)
  | retires (removed : List (ℕ × Entry Authority)) (shared : Shared Authority)
  | waits

namespace Shared

variable {Authority : Type} (self : Shared Authority)

def lock : Except Error (State Authority) :=
  if self.poisoned then .error .host else .ok self.state

/-- The section of an admission. -/
def admission (limits : Limits) (input : Input) (reservation now : ℕ) :
    Except Error (ℕ × Shared Authority) := do
  let state ← self.lock
  let (id, state) ← state.admission limits input reservation now
  .ok (id, { self with state := state })

/-- The section of a revocation: a cancellation, a denied capability or the end of a request. -/
def remove (id : ℕ) : Except Error (Option (Entry Authority) × Shared Authority) := do
  let state ← self.lock
  let (entry, state) := state.remove id
  .ok (entry, { self with state := state })

/-- The section of a check, with the entry that it removes because it has expired. -/
def check (id now : ℕ) : Except Error Unit × Option (Entry Authority) × Shared Authority :=
  match self.lock with
  | .error error => (.error error, none, self)
  | .ok state =>
    match state.active with
    | .error error => (.error error, none, self)
    | .ok () =>
      match state.entries.get? id with
      | none => (.error .inactive, none, self)
      | some entry =>
        if entry.deadline ≤ now then
          let (removed, state) := state.remove id
          (.error .deadline, removed, { self with state := state })
        else (.ok (), none, self)

/-- The section in which a request that has passed its check takes over a resource. -/
def retain (id : ℕ) (authority : Authority) (now : ℕ) : Except Error (Shared Authority) := do
  let state ← self.lock
  state.active
  match state.entries.get? id with
  | none => .error .inactive
  | some entry =>
    if entry.deadline ≤ now then .error .deadline
    else if entry.authority.isSome then .error .limit
    else .ok { self with state := { state with
      entries := state.entries.insert id { entry with authority := some authority } } }

/-- The section of a publication, which holds the lock while its callback runs. -/
def publish (id status : ℕ) (callback : Callback) (now : ℕ) : Publication Authority :=
  match self.lock with
  | .error error => ⟨false, none, some (.error error), self⟩
  | .ok state =>
    match state.active with
    | .error error => ⟨false, none, some (.error error), self⟩
    | .ok () =>
      match state.entries.get? id with
      | none => ⟨false, none, some (.error .inactive), self⟩
      | some entry =>
        let (removed, state) := state.remove id
        let shared := { self with state := state }
        if entry.deadline ≤ now then ⟨false, removed, some (.error .deadline), shared⟩
        else if ¬(200 ≤ status ∧ status ≤ 599) then
          ⟨false, removed, some (.error .malformed), shared⟩
        else match callback with
          | .returns result => ⟨true, removed, some result, shared⟩
          | .panics => ⟨true, none, none, { self with poisoned := true }⟩

/-- The section of a termination; a poisoned mutex does not stop it. -/
def stop : List (ℕ × Entry Authority) × Shared Authority :=
  let (entries, state) := self.state.stop
  (entries, { self with state := state })

/-- The section that charges an entry back once it is destroyed; a poisoned mutex does not stop it
either. A destructor that failed stops the host. There is no result when a subtraction
overflows. -/
def retire (entry : Entry Authority) (destroyed : Bool) :
    Option (List (ℕ × Entry Authority) × Shared Authority) :=
  if self.state.bytes < entry.reservation ∨ self.state.live < 1 then none
  else
    let state := { self.state with
      bytes := self.state.bytes - entry.reservation
      live := self.state.live - 1 }
    if destroyed then some ([], { self with state := state })
    else
      let (revoked, state) := { state with failed := true }.stop
      some (revoked, { self with state := state })

/-- One round of the deadline worker. -/
def watch (now : ℕ) : Watch Authority :=
  match self.lock with
  | .error error => .returns (.error error)
  | .ok state =>
    if state.stopped then .returns (.ok ())
    else if state.expired now ≠ [] then
      let (removed, state) := state.removeAll (state.expired now)
      .retires removed { self with state := state }
    else .waits

/-- One round of the wait for destructions; there is no result while it waits. -/
def awaitEmpty : Option (Except Error Unit) :=
  match self.lock with
  | .error error => some (.error error)
  | .ok state =>
    if state.live ≠ 0 then none
    else if state.failed then some (.error .host)
    else some (.ok ())

end Shared

end Zryna.Driver.ServerLifecycle
