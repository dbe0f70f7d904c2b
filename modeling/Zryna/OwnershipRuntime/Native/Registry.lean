import Mathlib.Order.Nat
import Zryna.Foundation.OrderedMap
import Zryna.OwnershipRuntime.Abi

/-!
# The native allocation registry

`allocate_bytes`, `header_for`, `release_known`, `allocate`, `grow` and `release` of the native C
runtimes. Every live allocation has a header in front of its data, and the headers form doubly
linked lists: one list in `runtime/native/ownership_runtime_v1.c`, 4096 lists indexed by a hash of
the data pointer in `runtime/native/generic_execution_v1/allocation.h`. The two files differ in the
choice of the list head and nowhere else, so the functions here take that choice as the parameter
`bucket`: `allocationHead` and `registryHead`.

The heap keeps the blocks that `malloc` has given out, the header records in them and the bytes of
memory. A result is `none` where the C program has no defined behaviour: a header pointer outside
every live block, a walk that does not end, or `free` of something that is not a block. What
`malloc` answers is an argument of each call, 0 for `NULL`. Pointers and sizes are natural numbers;
a block that `malloc` returns lies inside the address space, so no address computation wraps.
-/

namespace Zryna.OwnershipRuntime.Native

/-- `sizeof(allocation_header)`. -/
def headerSize : ℕ := 56
def allocationMagic : ℕ := 0x7a72796e616f3175
def targetAllocationBudget : ℕ := 67108864
def allocationBuckets : ℕ := 4096

/-- `allocation_header`. The address 0 is the null link. -/
structure Header where
  magic : ℕ
  size : ℕ
  base : ℕ
  data : ℕ
  previous : ℕ
  next : ℕ
  alignment : ℕ
  pendingLastStrong : ℕ
deriving DecidableEq

/-- The state that the runtime works on: live blocks by base address with their sizes, header
records by address, list heads by bucket, and bytes. -/
structure Heap where
  blocks : OrderedMap ℕ ℕ
  headers : ℕ → Option Header
  heads : ℕ → ℕ
  memory : ℕ → UInt8

namespace Heap

def empty (memory : ℕ → UInt8) : Heap := ⟨.empty, fun _ => none, fun _ => 0, memory⟩

variable (heap : Heap)

/-- A write through a header pointer. -/
def modify (header : ℕ) (f : Header → Header) : Option Heap := do
  let record ← heap.headers header
  some { heap with headers := Function.update heap.headers header (some (f record)) }

def setHead (b header : ℕ) : Heap :=
  { heap with heads := Function.update heap.heads b header }

/-- `node->previous = header` unless the node is null. -/
def setPrevious (node header : ℕ) : Option Heap :=
  if node ≠ 0 then heap.modify node fun record => { record with previous := header } else some heap

/-- `node->next = header`, or the head of the list where the node is null. -/
def setNext (node b header : ℕ) : Option Heap :=
  if node ≠ 0 then heap.modify node fun record => { record with next := header }
  else some (heap.setHead b header)

/-- Releases a block; the header records in it are gone. -/
def free (base : ℕ) : Option Heap := do
  let total ← heap.blocks.get? base
  some { heap with
    blocks := heap.blocks.erase base
    headers := fun a => if base ≤ a ∧ a < base + total then none else heap.headers a }

def memcpy (target source count : ℕ) : Heap :=
  { heap with memory := fun a =>
      if target ≤ a ∧ a < target + count then heap.memory (source + (a - target))
      else heap.memory a }

end Heap

/-- The list of `allocation_head`. -/
def allocationHead (_pointer : ℕ) : ℕ := 0

/-- The index of `registry_head` in `allocation_buckets`. -/
def registryHead (pointer : ℕ) : ℕ :=
  let key := pointer >>> 3
  let key := key ^^^ (key >>> 13)
  let key := key ^^^ (key >>> 7)
  key &&& (allocationBuckets - 1)

/-- The index stays inside the table. -/
theorem registryHead_lt (pointer : ℕ) : registryHead pointer < allocationBuckets :=
  Nat.lt_of_le_of_lt Nat.and_le_right (by decide)

def validAlignment (alignment : ℕ) : Bool :=
  alignment ≠ 0 && alignment ≤ 32768 && alignment &&& (alignment - 1) = 0

/-- `(address + alignment - 1) & ~(alignment - 1)`, for an alignment that is a power of two. -/
def alignUp (address alignment : ℕ) : ℕ := (address + alignment - 1) / alignment * alignment

/-- The bytes that `allocate_bytes` asks `malloc` for. -/
def totalSize (byteSize alignment : ℕ) : ℕ := byteSize + headerSize + alignment - 1

section Registry

variable (bucket : ℕ → ℕ)

/-- The loop of `header_for`. -/
def headerWalk (heap : Heap) (pointer : ℕ) : ℕ → ℕ → Option ℕ
  | 0, _ => none
  | rounds + 1, header =>
    if header = 0 then some 0
    else do
      let record ← heap.headers header
      if record.data = pointer then some header
      else headerWalk heap pointer rounds record.next

section

variable (heap : Heap)

/-- The header of a data pointer, or 0. A walk that ends visits each live block at most once. -/
def headerFor (pointer : ℕ) : Option ℕ :=
  if pointer = 0 then some 0
  else headerWalk heap pointer (heap.blocks.size + 1) (heap.heads (bucket pointer))

/-- The out parameter is `none` for `NULL` and otherwise the value of the cell it points to. -/
def allocateBytes (byteSize alignment : ℕ) (out : Option ℕ) (base : ℕ) :
    Option (RuntimeStatus × Option ℕ × Heap) :=
  if out.isNone then some (.abiViolation, none, heap)
  else if !validAlignment alignment then some (.abiViolation, some 0, heap)
  else if byteSize = 0 then some (.ok, some 0, heap)
  else if byteSize > maxDynamicAllocationBytes then some (.capacity, some 0, heap)
  else if byteSize > targetAllocationBudget then some (.allocation, some 0, heap)
  else if base = 0 then some (.allocation, some 0, heap)
  else do
    let heap := { heap with blocks := heap.blocks.insert base (totalSize byteSize alignment) }
    let unaligned := base + headerSize
    let aligned := alignUp unaligned alignment
    let header := aligned - headerSize
    let head := heap.heads (bucket aligned)
    let record : Header := ⟨allocationMagic, byteSize, base, aligned, 0, head, alignment, 0⟩
    let heap := { heap with headers := Function.update heap.headers header (some record) }
    let heap ← heap.setPrevious head header
    some (.ok, some aligned, heap.setHead (bucket aligned) header)

def releaseKnown (header : ℕ) : Option (RuntimeStatus × Heap) :=
  if header = 0 then some (.abiViolation, heap)
  else do
    let record ← heap.headers header
    if record.pendingLastStrong ≠ 0 then some (.abiViolation, heap)
    else do
      let heap ← heap.setNext record.previous (bucket record.data) record.next
      let heap ← heap.setPrevious record.next record.previous
      let heap ← heap.modify header fun record => { record with magic := 0, base := 0, data := 0 }
      let heap ← heap.free record.base
      some (.ok, heap)

def allocate (byteSize alignment : ℕ) (out : Option ℕ) (base : ℕ) :
    Option (RuntimeStatus × Option ℕ × Heap) :=
  allocateBytes bucket heap byteSize alignment out base

/-- The replacement of a live allocation. -/
def growLive (pointer oldByteSize newByteSize alignment base oldHeader : ℕ) :
    Option (RuntimeStatus × Option ℕ × Heap) := do
  let (status, replacement, heap) ←
    allocateBytes bucket heap newByteSize alignment (some 0) base
  if status ≠ .ok then some (status, some 0, heap)
  else do
    let replacement := replacement.getD 0
    let heap := heap.memcpy replacement pointer (min oldByteSize newByteSize)
    let (status, heap) ← releaseKnown bucket heap oldHeader
    if status ≠ .ok then do
      let header ← headerFor bucket heap replacement
      let (_, heap) ← releaseKnown bucket heap header
      some (status, some 0, heap)
    else some (.ok, some replacement, heap)

def grow (pointer oldByteSize newByteSize alignment : ℕ) (out : Option ℕ)
    (base : ℕ) : Option (RuntimeStatus × Option ℕ × Heap) :=
  if out.isNone then some (.abiViolation, none, heap)
  else if oldByteSize = 0 ∧ pointer = 0 then
    allocateBytes bucket heap newByteSize alignment (some 0) base
  else do
    let oldHeader ← headerFor bucket heap pointer
    if oldHeader = 0 then some (.abiViolation, some 0, heap)
    else do
      let record ← heap.headers oldHeader
      if record.size ≠ oldByteSize ∨ record.alignment ≠ alignment
          ∨ record.pendingLastStrong ≠ 0 then
        some (.abiViolation, some 0, heap)
      else if newByteSize = oldByteSize then some (.ok, some pointer, heap)
      else if newByteSize = 0 then do
        let (status, heap) ← releaseKnown bucket heap oldHeader
        some (status, some 0, heap)
      else growLive bucket heap pointer oldByteSize newByteSize alignment base oldHeader

def release (pointer byteSize alignment : ℕ) : Option (RuntimeStatus × Heap) :=
  if pointer = 0 ∧ byteSize = 0 ∧ validAlignment alignment then some (.ok, heap)
  else do
    let header ← headerFor bucket heap pointer
    if header = 0 then some (.abiViolation, heap)
    else do
      let record ← heap.headers header
      if record.size ≠ byteSize ∨ record.alignment ≠ alignment then some (.abiViolation, heap)
      else releaseKnown bucket heap header

/-! ### Calls -/

/-- A call of the allocation interface, with what `malloc` answers if it is asked. -/
inductive Call where
  | allocate (byteSize alignment : ℕ) (out : Option ℕ) (base : ℕ)
  | grow (pointer oldByteSize newByteSize alignment : ℕ) (out : Option ℕ) (base : ℕ)
  | release (pointer byteSize alignment : ℕ)
deriving DecidableEq

/-- One call: its status, the out cell after it, and the heap. -/
def Heap.perform : Call → Option (RuntimeStatus × Option ℕ × Heap)
  | .allocate byteSize alignment out base => allocate bucket heap byteSize alignment out base
  | .grow pointer oldByteSize newByteSize alignment out base =>
    grow bucket heap pointer oldByteSize newByteSize alignment out base
  | .release pointer byteSize alignment => do
    let (status, heap) ← release bucket heap pointer byteSize alignment
    some (status, none, heap)

end

/-- Calls in order, with the result of each. -/
def Heap.run (heap : Heap) : List Call → Option (List (RuntimeStatus × Option ℕ) × Heap)
  | [] => some ([], heap)
  | call :: calls => do
    let (status, out, heap) ← heap.perform bucket call
    let (results, heap) ← Heap.run heap calls
    some ((status, out) :: results, heap)

end Registry

end Zryna.OwnershipRuntime.Native
