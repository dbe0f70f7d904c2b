import Zryna.OwnershipRuntime.Native.Control
import Zryna.OwnershipRuntime.Native.Utf8
import Zryna.OwnershipRuntime.Native.Vec

/-!
# The entry points of the native runtime

The String operations and the rest of the Vec operations of
`runtime/native/ownership_runtime_v1.c`, and all seventeen entry points as one kind of call. A
result record is an argument of a call, with the value it holds before; the result of a call is its
status, the result record after it, and the heap. Where a record may be `NULL` it is an option, and
`aliased` says that it is the same record as an input.
-/

namespace Zryna.OwnershipRuntime.Native

section Operations

variable (bucket : ℕ → ℕ)

/-! ### Strings -/

def validStringStorage (heap : Heap) (value : Option Handle) : Option Bool :=
  match value with
  | none => some false
  | some value =>
    if value.length > value.capacity then some false
    else if value.capacity = 0 then some (value.pointer = 0)
    else do
      let header ← headerFor bucket heap value.pointer
      if header = 0 then some false
      else do
        let record ← heap.headers header
        some (record.size = value.capacity && record.alignment = 1
          && record.pendingLastStrong = 0)

/-- The bytes are read from memory, from the address `bytes` on. -/
def stringFromUtf8Copy (heap : Heap) (bytes byteLength : ℕ) (out : Option Handle) (base : ℕ) :
    Option (RuntimeStatus × Option Handle × Heap) :=
  if out.isNone ∨ bytes = 0 ∧ byteLength ≠ 0 then some (.abiViolation, out, heap)
  else if byteLength > maxDynamicAllocationBytes then some (.capacity, some .zero, heap)
  else do
    let valid ← validUtf8 (fun i => some (heap.memory (bytes + i))) byteLength
    if !valid then some (.utf8, some .zero, heap)
    else do
      let (status, pointer, heap) ← allocateBytes bucket heap byteLength 1 (some 0) base
      if status ≠ .ok then some (status, some .zero, heap)
      else
        let pointer := pointer.getD 0
        let heap := if byteLength ≠ 0 then heap.memcpy pointer bytes byteLength else heap
        some (.ok, some ⟨pointer, byteLength, byteLength⟩, heap)

def stringClone (heap : Heap) (source out : Option Handle) (aliased : Bool) (base : ℕ) :
    Option (RuntimeStatus × Option Handle × Heap) :=
  if aliased then some (.abiViolation, out, heap)
  else do
    let valid ← validStringStorage bucket heap source
    match source, valid with
    | some source, true => stringFromUtf8Copy bucket heap source.pointer source.length out base
    | _, _ => some (.abiViolation, out.map fun _ => .zero, heap)

/-- The two copies of a concatenation, each left out when it has no bytes. -/
def Heap.concat (heap : Heap) (pointer : ℕ) (left right : Handle) : Heap :=
  let heap := if left.length ≠ 0 then heap.memcpy pointer left.pointer left.length else heap
  if right.length ≠ 0 then heap.memcpy (pointer + left.length) right.pointer right.length
  else heap

/-- Lengths are `uint64_t`: the difference and the sum are taken modulo `2 ^ 64`. -/
def stringConcat (heap : Heap) (left right out : Option Handle) (aliased : Bool) (base : ℕ) :
    Option (RuntimeStatus × Option Handle × Heap) :=
  if aliased then some (.abiViolation, out, heap)
  else do
    let validLeft ← validStringStorage bucket heap left
    let validRight ← validStringStorage bucket heap right
    match left, right, out, validLeft && validRight with
    | some left, some right, some _, true =>
      if left.length > (2 ^ 64 + maxDynamicAllocationBytes - right.length) % 2 ^ 64 then
        some (.capacity, some .zero, heap)
      else do
        let length := (left.length + right.length) % 2 ^ 64
        let (status, pointer, heap) ← allocateBytes bucket heap length 1 (some 0) base
        if status ≠ .ok then some (status, some .zero, heap)
        else
          let pointer := pointer.getD 0
          some (.ok, some ⟨pointer, length, length⟩, heap.concat pointer left right)
    | _, _, _, _ => some (.abiViolation, out.map fun _ => .zero, heap)

def stringRelease (heap : Heap) (value : Option Handle) : Option (RuntimeStatus × Heap) :=
  match value with
  | none => some (.abiViolation, heap)
  | some value =>
    if value.length > value.capacity then some (.abiViolation, heap)
    else release bucket heap value.pointer value.capacity 1

/-! ### Vec storage -/

variable (vecLayout : ℕ → Option (ℕ × ℕ))

/-- A layout of stride 0 would be divided by. -/
def vecAllocate (heap : Heap) (elementLayoutId requiredCapacity : ℕ) (out : Option Handle)
    (base : ℕ) : Option (RuntimeStatus × Option Handle × Heap) :=
  match out, vecLayout elementLayoutId with
  | none, _ => some (.abiViolation, none, heap)
  | some _, none => some (.abiViolation, some .zero, heap)
  | some _, some (stride, alignment) =>
    if requiredCapacity > maxVecElements then some (.capacity, some .zero, heap)
    else if stride = 0 then none
    else if requiredCapacity > maxDynamicAllocationBytes / stride then
      some (.capacity, some .zero, heap)
    else do
      let (status, pointer, heap) ←
        allocateBytes bucket heap (requiredCapacity * stride) alignment (some 0) base
      if status ≠ .ok then some (status, some .zero, heap)
      else some (.ok, some ⟨pointer.getD 0, 0, requiredCapacity⟩, heap)

def vecReleaseStorage (heap : Heap) (elementLayoutId : ℕ) (storage : Option Handle) :
    Option (RuntimeStatus × Heap) :=
  match vecLayout elementLayoutId with
  | none => some (.abiViolation, heap)
  | some (stride, alignment) => do
    let valid ← validVecStorage bucket heap storage stride alignment
    match storage, valid with
    | some storage, true => release bucket heap storage.pointer (storage.capacity * stride) alignment
    | _, _ => some (.abiViolation, heap)

/-! ### Calls -/

/-- A call of the runtime, with what `malloc` answers if it is asked. -/
inductive RuntimeCall where
  | allocation (call : Call)
  | stringFromUtf8Copy (bytes byteLength : ℕ) (out : Option Handle) (base : ℕ)
  | stringClone (source out : Option Handle) (aliased : Bool) (base : ℕ)
  | stringConcat (left right out : Option Handle) (aliased : Bool) (base : ℕ)
  | stringRelease (value : Option Handle)
  | vecAllocate (elementLayoutId requiredCapacity : ℕ) (out : Option Handle) (base : ℕ)
  | vecReserve (elementLayoutId : ℕ) (storage : Option Handle) (requiredLength : ℕ)
      (out : Option Handle) (aliased : Bool) (base : ℕ)
  | vecReleaseStorage (elementLayoutId : ℕ) (storage : Option Handle)
  | control (operation : LogicalOperation) (control : ℕ) (lane : Option ℕ)
deriving DecidableEq

/-- The result record of a call. -/
inductive Output where
  | nothing
  | cell (value : Option ℕ)
  | record (value : Option Handle)
deriving DecidableEq

/-- Control operations that write a boolean result. -/
def hasLane (operation : LogicalOperation) : Bool :=
  operation = .strongReleaseBegin || operation = .weakRelease

def Heap.call (heap : Heap) (call : RuntimeCall) : Option (RuntimeStatus × Output × Heap) :=
  let plain (result : Option (RuntimeStatus × Heap)) : Option (RuntimeStatus × Output × Heap) :=
    result.map fun (status, heap) => (status, .nothing, heap)
  let record (result : Option (RuntimeStatus × Option Handle × Heap)) :
      Option (RuntimeStatus × Output × Heap) :=
    result.map fun (status, out, heap) => (status, .record out, heap)
  match call with
  | .allocation (.release pointer byteSize alignment) =>
    plain (release bucket heap pointer byteSize alignment)
  | .allocation call =>
    (heap.perform bucket call).map fun (status, out, heap) => (status, .cell out, heap)
  | .stringFromUtf8Copy bytes byteLength out base =>
    record (Native.stringFromUtf8Copy bucket heap bytes byteLength out base)
  | .stringClone source out aliased base =>
    record (Native.stringClone bucket heap source out aliased base)
  | .stringConcat left right out aliased base =>
    record (Native.stringConcat bucket heap left right out aliased base)
  | .stringRelease value => plain (Native.stringRelease bucket heap value)
  | .vecAllocate elementLayoutId requiredCapacity out base =>
    record (Native.vecAllocate bucket vecLayout heap elementLayoutId requiredCapacity out base)
  | .vecReserve elementLayoutId storage requiredLength out aliased base =>
    record (Native.vecReserve bucket vecLayout heap elementLayoutId storage requiredLength out
      aliased base)
  | .vecReleaseStorage elementLayoutId storage =>
    plain (Native.vecReleaseStorage bucket vecLayout heap elementLayoutId storage)
  | .control operation control lane =>
    (heap.control bucket operation control lane).map fun (status, lane, heap) =>
      (status, if hasLane operation then .cell lane else .nothing, heap)

end Operations

end Zryna.OwnershipRuntime.Native
