import Mathlib.Data.List.Perm.Subperm
import Zryna.Foundation.DoublyLinked
import Zryna.OwnershipRuntime.Native.Allocations

/-!
# The registry is a finite map

`Refines bucket heap live` relates a heap to the map of its live allocations: the header records
are the map, the blocks are those of its allocations, and each bucket is a doubly linked list of
exactly the headers whose data pointer hashes to it.

Every operation of the registry keeps the relation and returns what the map returns, whatever the
hash is. The two native runtimes are two choices of the hash, so they return the same results.
-/

namespace Zryna.OwnershipRuntime.Native

open Zryna.Links OrderedMap List Option

variable {live : Allocations}

/-! ### The relation -/

/-- What the registry records in a header, without the links. -/
def Header.allocation (record : Header) : Allocation :=
  ⟨record.base, record.size, record.alignment, record.pendingLastStrong⟩

def Heap.links (heap : Heap) : Links :=
  fun a => (heap.headers a).map fun record => (record.previous, record.next)

/-- Each bucket is a doubly linked list of exactly the headers that hash to it. -/
def Bucketed (bucket : ℕ → ℕ) (heap : Heap) : Prop :=
  ∃ nodes : ℕ → List ℕ, ∀ b, Linked heap.links (heap.heads b) (nodes b)
    ∧ ∀ a, a ∈ nodes b ↔ ∃ record, heap.headers a = some record ∧ bucket record.data = b

/-- The heap represents the map of live allocations. -/
structure Refines (bucket : ℕ → ℕ) (heap : Heap) (live : Allocations) : Prop where
  placed : Placed live
  data : ∀ {a : ℕ} {record : Header}, heap.headers a = some record → record.data = a + headerSize
  headers : ∀ a : ℕ, (heap.headers a).map Header.allocation = live.get? (a + headerSize)
  blocks : ∀ b t : ℕ, heap.blocks.get? b = some t ↔
    ∃ p x, live.get? p = some x ∧ x.base = b ∧ x.total = t
  bucketed : Bucketed bucket heap

variable {bucket : ℕ → ℕ} {heap : Heap}

theorem refines_empty (bucket : ℕ → ℕ) (memory : ℕ → UInt8) :
    Refines bucket (.empty memory) empty := by
  refine ⟨placed_empty, ?_, ?_, ?_, fun _ => [], ?_⟩
  · intro a record hrecord
    cases hrecord
  · intro a
    rfl
  · intro b t
    simp [Heap.empty, get?_empty]
  · intro b
    exact ⟨linked_nil, by simp [Heap.empty]⟩

variable {p a b : ℕ} {x : Allocation} {nodes : List ℕ}

section

variable (h : Refines bucket heap live)

include h

/-- The header in front of a live data pointer. -/
theorem Refines.header (hx : live.get? p = some x) :
    headerSize ≤ p ∧ p - headerSize ≠ 0
      ∧ ∃ record, heap.headers (p - headerSize) = some record ∧ record.data = p
        ∧ record.allocation = x := by
  obtain ⟨hbase, hle, -⟩ := h.placed.inside hx
  have hsub : p - headerSize + headerSize = p := by omega
  have hheader := h.headers (p - headerSize)
  rw [hsub, hx] at hheader
  obtain ⟨record, hrecord, hallocation⟩ := map_eq_some_iff.mp hheader
  refine ⟨by omega, by omega, record, hrecord, ?_, hallocation⟩
  rw [h.data hrecord, hsub]

theorem Refines.get?_eq {record : Header} (hrecord : heap.headers a = some record) :
    live.get? (a + headerSize) = some record.allocation := by
  rw [← h.headers, hrecord]
  rfl

/-- A header lies in the block of its allocation. -/
theorem Refines.inside {record : Header} (hrecord : heap.headers a = some record) :
    0 < record.base ∧ record.base ≤ a ∧ a < record.base + record.allocation.total := by
  obtain ⟨hbase, hle, hend⟩ := h.placed.inside (h.get?_eq hrecord)
  have hsize : record.allocation.base = record.base := rfl
  have : 0 < headerSize := by decide
  omega

/-- Headers of different addresses lie in different blocks. -/
theorem Refines.base_inj {c : ℕ} {record other : Header} (ha : heap.headers a = some record)
    (hc : heap.headers c = some other) (hbase : record.base = other.base) : a = c := by
  by_contra hne
  have hapart := h.placed.apart (h.get?_eq ha) (h.get?_eq hc) (by omega)
  have hra : record.allocation.base = record.base := rfl
  have hrc : other.allocation.base = other.base := rfl
  have := h.inside ha
  have := h.inside hc
  omega

end

/-! ### Lookup -/

/-- The walk along a list finds the header of a data pointer that is in the list. -/
theorem headerWalk_of_segment {pointer before first last rounds : ℕ}
    (h : Segment heap.links before first nodes last 0)
    (data : ∀ {a : ℕ} {record : Header}, heap.headers a = some record →
      record.data = a + headerSize)
    (enough : nodes.length < rounds) :
    headerWalk heap pointer rounds first =
      some ((nodes.find? fun a => a + headerSize = pointer).getD 0) := by
  induction nodes generalizing before first rounds with
  | nil =>
    obtain ⟨rounds, rfl⟩ : ∃ k, rounds = k + 1 := ⟨rounds - 1, by simp at enough; omega⟩
    simp [headerWalk, h.2]
  | cons a nodes ih =>
    obtain ⟨rfl, hne, n, hlinks, hrest⟩ := h
    obtain ⟨rounds, rfl⟩ : ∃ k, rounds = k + 1 := ⟨rounds - 1, by simp at enough; omega⟩
    obtain ⟨record, hrecord, hlink⟩ := map_eq_some_iff.mp hlinks
    have hnext : record.next = n := congrArg Prod.snd hlink
    unfold headerWalk
    rw [if_neg hne, hrecord]
    simp only [bind_eq_bind, bind_some, data hrecord, hnext, find?_cons]
    by_cases hfound : first + headerSize = pointer
    · simp [hfound]
    · rw [if_neg hfound, ih hrest (by simpa using enough)]
      simp [hfound]

/-- A bucket has no more headers than there are blocks. -/
theorem Refines.length_le (h : Refines bucket heap live) (nodup : nodes.Nodup)
    (hnodes : ∀ a ∈ nodes, ∃ record, heap.headers a = some record) :
    nodes.length ≤ heap.blocks.size := by
  let base (a : ℕ) : ℕ := ((heap.headers a).map Header.base).getD 0
  have hnodup : (nodes.map base).Nodup := by
    refine nodup.map_on fun a ha c hc heq => ?_
    obtain ⟨record, hrecord⟩ := hnodes a ha
    obtain ⟨other, hother⟩ := hnodes c hc
    exact h.base_inj hrecord hother (by simpa [base, hrecord, hother] using heq)
  have hsubset : nodes.map base ⊆ heap.blocks.entries.map Prod.fst := by
    intro b hb
    obtain ⟨a, ha, rfl⟩ := mem_map.mp hb
    obtain ⟨record, hrecord⟩ := hnodes a ha
    have hblock := (h.blocks record.base record.allocation.total).mpr
      ⟨a + headerSize, record.allocation, h.get?_eq hrecord, rfl, rfl⟩
    refine mem_map.mpr ⟨_, get?_eq_some.mp hblock, ?_⟩
    simp [base, hrecord]
  calc nodes.length = (nodes.map base).length := (length_map base).symm
    _ ≤ (heap.blocks.entries.map Prod.fst).length := (hnodup.subperm hsubset).length_le
    _ = heap.blocks.size := length_map _

/-- `header_for` finds exactly the live data pointers. -/
theorem Refines.headerFor (h : Refines bucket heap live) (p : ℕ) :
    headerFor bucket heap p
      = some (if (live.get? p).isSome then p - headerSize else 0) := by
  unfold Native.headerFor
  split
  · next hp =>
    subst hp
    cases hx : live.get? 0 with
    | none => rfl
    | some x => rfl
  · obtain ⟨nodes, hnodes⟩ := h.bucketed
    obtain ⟨hlinked, hmem⟩ := hnodes (bucket p)
    obtain ⟨last, hsegment⟩ := hlinked.segment
    have hlength := h.length_le hlinked.nodup fun a ha => by
      obtain ⟨record, hrecord, -⟩ := (hmem a).mp ha
      exact ⟨record, hrecord⟩
    rw [headerWalk_of_segment hsegment h.data (by omega)]
    congr 1
    cases hx : live.get? p with
    | none =>
      have hnone : (nodes (bucket p)).find? (fun a => a + headerSize = p) = none := by
        rw [find?_eq_none]
        intro a ha hap
        obtain ⟨record, hrecord, -⟩ := (hmem a).mp ha
        have hlive := h.get?_eq hrecord
        rw [of_decide_eq_true hap, hx] at hlive
        cases hlive
      simp [hnone]
    | some x =>
      obtain ⟨hle, hne, record, hrecord, hdata, -⟩ := h.header hx
      have hin : p - headerSize ∈ nodes (bucket p) := (hmem _).mpr ⟨record, hrecord, by rw [hdata]⟩
      cases hfind : (nodes (bucket p)).find? fun a => a + headerSize = p with
      | none =>
        have := find?_eq_none.mp hfind _ hin
        simp only [decide_eq_true_eq] at this
        omega
      | some a =>
        have := find?_some hfind
        simp only [decide_eq_true_eq] at this
        simp only [getD_some, isSome_some, if_true]
        omega

/-! ### Writes through links -/

/-- No header is at the null address. -/
theorem Refines.headers_zero (h : Refines bucket heap live) : heap.headers 0 = none := by
  cases hrecord : heap.headers 0 with
  | none => rfl
  | some record =>
    have := h.inside hrecord
    omega

/-- A write through a header pointer changes the record there. -/
theorem Heap.modify_eq (heap : Heap) (node : ℕ) (f : Header → Header)
    (hnode : ∃ r, heap.headers node = some r) :
    ∃ heap', heap.modify node f = some heap' ∧ heap'.blocks = heap.blocks
      ∧ heap'.heads = heap.heads ∧ heap'.memory = heap.memory
      ∧ ∀ c, heap'.headers c = (heap.headers c).map fun r => if c = node then f r else r := by
  obtain ⟨record, hrecord⟩ := hnode
  refine ⟨{ heap with headers := Function.update heap.headers node (some (f record)) },
    by simp [Heap.modify, hrecord], rfl, rfl, rfl, fun c => ?_⟩
  by_cases hc : c = node
  · subst hc
    simp [hrecord]
  · simp [hc]

theorem Heap.setPrevious_eq (heap : Heap) (node header : ℕ) (hzero : heap.headers 0 = none)
    (hnode : node ≠ 0 → ∃ r, heap.headers node = some r) :
    ∃ heap', heap.setPrevious node header = some heap' ∧ heap'.blocks = heap.blocks
      ∧ heap'.heads = heap.heads ∧ heap'.memory = heap.memory
      ∧ ∀ c, heap'.headers c = (heap.headers c).map fun r =>
        if c = node then { r with previous := header } else r := by
  unfold Heap.setPrevious
  by_cases hne : node = 0
  · rw [if_neg (not_not.mpr hne)]
    refine ⟨heap, rfl, rfl, rfl, rfl, fun c => ?_⟩
    by_cases hc : c = node
    · rw [hc, hne, hzero]
      rfl
    · simp [hc]
  · rw [if_pos hne]
    exact heap.modify_eq node _ (hnode hne)

theorem Heap.setNext_eq (heap : Heap) (node b header : ℕ) (hzero : heap.headers 0 = none)
    (hnode : node ≠ 0 → ∃ r, heap.headers node = some r) :
    ∃ heap', heap.setNext node b header = some heap' ∧ heap'.blocks = heap.blocks
      ∧ heap'.heads = (if node = 0 then Function.update heap.heads b header else heap.heads)
      ∧ heap'.memory = heap.memory
      ∧ ∀ c, heap'.headers c = (heap.headers c).map fun r =>
        if c = node then { r with next := header } else r := by
  unfold Heap.setNext
  by_cases hne : node = 0
  · rw [if_neg (not_not.mpr hne)]
    refine ⟨heap.setHead b header, rfl, rfl, by rw [if_pos hne]; rfl, rfl, fun c => ?_⟩
    by_cases hc : c = node
    · rw [hc, hne]
      change heap.headers 0 = _
      rw [hzero]
      rfl
    · simp [hc, Heap.setHead]
  · rw [if_pos hne, if_neg hne]
    exact heap.modify_eq node _ (hnode hne)

/-! ### Allocation -/

/-- A header that is put at the front of its bucket. Away from it one back link changes. -/
structure Pushed (bucket : ℕ → ℕ) (heap heap' : Heap) (a : ℕ) (new : Header) : Prop where
  unused : heap.headers a = none
  nonzero : a ≠ 0
  previous : new.previous = 0
  next : new.next = heap.heads (bucket new.data)
  heads : heap'.heads = Function.update heap.heads (bucket new.data) a
  front : heap'.headers a = some new
  rest : ∀ c, c ≠ a → heap'.headers c = (heap.headers c).map fun record =>
    if c = heap.heads (bucket new.data) then { record with previous := a } else record

variable {heap' : Heap} {new : Header}

/-- A record away from the new header is an old one, up to its back link. -/
theorem Pushed.map_headers (h : Pushed bucket heap heap' a new) {β : Type}
    (f : Header → β) (hf : ∀ record previous, f { record with previous } = f record) {c : ℕ}
    (hc : c ≠ a) : (heap'.headers c).map f = (heap.headers c).map f := by
  rw [h.rest c hc, Option.map_map]
  congr 1
  funext record
  simp only [Function.comp]
  split
  · exact hf record a
  · rfl

theorem Pushed.links (h : Pushed bucket heap heap' a new) {c : ℕ}
    (hc : c ≠ a) : heap'.links c = (heap.links c).map fun link =>
      if c = heap.heads (bucket new.data) then (a, link.2) else link := by
  unfold Heap.links
  rw [h.rest c hc, Option.map_map, Option.map_map]
  congr 1
  funext record
  simp only [Function.comp]
  split <;> rfl

/-- Writing a new header and linking it in front of its bucket. -/
theorem Refines.setPrevious (h : Refines bucket heap live) (new : Header)
    (blocks : OrderedMap ℕ ℕ) (unused : heap.headers a = none) (nonzero : a ≠ 0)
    (previous : new.previous = 0) (next : new.next = heap.heads (bucket new.data)) :
    ∃ heap', ({ heap with blocks, headers := Function.update heap.headers a (some new) } :
          Heap).setPrevious new.next a = some heap'
      ∧ heap'.blocks = blocks ∧ heap'.memory = heap.memory
      ∧ Pushed bucket heap (heap'.setHead (bucket new.data) a) a new := by
  obtain ⟨nodes, hnodes⟩ := h.bucketed
  obtain ⟨hlinked, hmem⟩ := hnodes (bucket new.data)
  have hsecond (hne : new.next ≠ 0) : ∃ r, heap.headers new.next = some r := by
    obtain ⟨record, hrecord, -⟩ := (hmem _).mp (hlinked.head_mem (next ▸ hne))
    exact ⟨record, next ▸ hrecord⟩
  have hne (hzero : new.next ≠ 0) : new.next ≠ a := by
    intro heq
    obtain ⟨r, hr⟩ := hsecond hzero
    rw [heq, unused] at hr
    cases hr
  have hself : new.next ≠ a := by
    by_cases hzero : new.next = 0
    · exact hzero ▸ nonzero.symm
    · exact hne hzero
  obtain ⟨heap', hset, hblocks, hheads, hmemory, hheaders⟩ := Heap.setPrevious_eq
    { heap with blocks, headers := Function.update heap.headers a (some new) } new.next a
    (by simp [nonzero.symm, h.headers_zero])
    (fun hzero => by simpa [hne hzero] using hsecond hzero)
  refine ⟨heap', hset, hblocks, hmemory, unused, nonzero, previous, next, ?_, ?_, ?_⟩
  · simp [Heap.setHead, hheads]
  · change heap'.headers a = _
    rw [hheaders]
    simp [hself.symm]
  · intro c hc
    change heap'.headers c = _
    rw [hheaders, ← next]
    simp [hc]

/-- Membership in a bucket depends on the data pointers of the records only. -/
theorem exists_data_iff (h : (heap.headers a).map Header.data = (heap'.headers a).map Header.data) :
    (∃ record, heap.headers a = some record ∧ bucket record.data = b)
      ↔ ∃ record, heap'.headers a = some record ∧ bucket record.data = b := by
  have hiff (heap : Heap) : (∃ record, heap.headers a = some record ∧ bucket record.data = b) ↔
      ∃ data, (heap.headers a).map Header.data = some data ∧ bucket data = b := by
    simp
  rw [hiff, hiff, h]

/-- Two buckets share no header. -/
theorem bucket_eq {nodes : ℕ → List ℕ}
    (hnodes : ∀ b a, a ∈ nodes b ↔ ∃ record, heap.headers a = some record ∧ bucket record.data = b)
    {c : ℕ} (hb : a ∈ nodes b) (hc : a ∈ nodes c) : b = c := by
  obtain ⟨record, hrecord, hbucket⟩ := (hnodes b a).mp hb
  obtain ⟨record', hrecord', hbucket'⟩ := (hnodes c a).mp hc
  rw [hrecord] at hrecord'
  cases hrecord'
  exact hbucket.symm.trans hbucket'

theorem Bucketed.push (hbucketed : Bucketed bucket heap)
    (h : Pushed bucket heap heap' a new) : Bucketed bucket heap' := by
  obtain ⟨nodes, hnodes⟩ := hbucketed
  have hmem := fun b => (hnodes b).2
  have hunused (b c : ℕ) (hc : c ∈ nodes b) : c ≠ a := by
    rintro rfl
    obtain ⟨record, hrecord, -⟩ := (hmem b c).mp hc
    rw [h.unused] at hrecord
    cases hrecord
  refine ⟨fun b => if b = bucket new.data then a :: nodes b else nodes b, fun b => ⟨?_, ?_⟩⟩
  · -- the bucket of the new header gets a new front, the others keep their lists
    have hlinked := (hnodes b).1
    dsimp only
    rw [h.heads]
    by_cases hb : b = bucket new.data
    · subst hb
      rw [if_pos rfl, Function.update_self]
      refine hlinked.push h.nonzero (fun ha => hunused _ a ha rfl) ?_ ?_ ?_
      · unfold Heap.links
        rw [h.front, map_some, h.previous, h.next]
      · intro hhead
        rw [h.links (hunused _ _ (hlinked.head_mem hhead))]
        simp
      · intro c hc hne
        rw [h.links (hunused _ c hc)]
        simp [hne]
    · rw [if_neg hb, Function.update_of_ne hb]
      refine hlinked.congr fun c hc => ?_
      have hne : c ≠ heap.heads (bucket new.data) := by
        rintro rfl
        obtain ⟨last, hsegment⟩ := hlinked.segment
        have hother := (hnodes (bucket new.data)).1.head_mem (hsegment.ne_zero hc)
        exact hb (bucket_eq hmem hc hother)
      rw [h.links (hunused b c hc)]
      simp [hne]
  · intro c
    dsimp only
    by_cases hc : c = a
    · subst hc
      rw [h.front]
      simp only [Option.some.injEq, exists_eq_left']
      split
      · next hb => simp [hb]
      · next hb => simpa [Ne.symm hb] using fun hin => hunused b c hin rfl
    · have hdata := h.map_headers Header.data (fun _ _ => rfl) hc
      rw [exists_data_iff hdata, ← hmem]
      split
      · simp [hc]
      · rfl

/-- A heap with a new header represents the map with the new allocation. -/
theorem Refines.push (h : Refines bucket heap live)
    (pushed : Pushed bucket heap heap' a new) (data : new.data = a + headerSize)
    (placed : Placed (live.insert (a + headerSize) new.allocation))
    (other : ∀ p x, live.get? p = some x → x.base ≠ new.base)
    (blocks : heap'.blocks = heap.blocks.insert new.base new.allocation.total) :
    Refines bucket heap' (live.insert (a + headerSize) new.allocation) := by
  refine ⟨placed, ?_, ?_, ?_, h.bucketed.push pushed⟩
  · intro c record hrecord
    by_cases hc : c = a
    · subst hc
      rw [pushed.front] at hrecord
      cases hrecord
      exact data
    · have hdata := pushed.map_headers Header.data (fun _ _ => rfl) hc
      rw [hrecord, map_some, eq_comm, map_eq_some_iff] at hdata
      obtain ⟨old, hold, heq⟩ := hdata
      rw [← heq, h.data hold]
  · intro c
    rw [get?_insert]
    by_cases hc : c = a
    · subst hc
      rw [pushed.front, if_pos rfl]
      rfl
    · rw [if_neg (by omega), ← h.headers]
      exact pushed.map_headers Header.allocation (fun _ _ => rfl) hc
  · intro b t
    rw [blocks, get?_insert]
    constructor
    · intro hb
      split at hb
      · next hbase =>
        cases hb
        exact ⟨a + headerSize, _, by rw [get?_insert, if_pos rfl], hbase.symm, rfl⟩
      · obtain ⟨p, x, hx, hbase, htotal⟩ := (h.blocks b t).mp hb
        refine ⟨p, x, ?_, hbase, htotal⟩
        rw [get?_insert, if_neg, hx]
        rintro rfl
        rw [← h.headers, pushed.unused] at hx
        cases hx
    · rintro ⟨p, x, hx, rfl, rfl⟩
      rw [get?_insert] at hx
      split at hx
      · cases hx
        exact if_pos rfl
      · rw [if_neg (other p x hx)]
        exact (h.blocks _ _).mpr ⟨p, x, hx, rfl, rfl⟩

/-- `allocate_bytes` is insertion into the map. -/
theorem Refines.allocateBytes (h : Refines bucket heap live) {byteSize alignment base : ℕ}
    (out : Option ℕ) (fresh : byteSize ≤ targetAllocationBudget →
      base = 0 ∨ live.Fresh (totalSize byteSize alignment) base) :
    ∃ heap', allocateBytes bucket heap byteSize alignment out base
        = some ((live.allocate byteSize alignment out base).1,
            (live.allocate byteSize alignment out base).2.1, heap')
      ∧ Refines bucket heap' (live.allocate byteSize alignment out base).2.2 := by
  unfold Native.allocateBytes Allocations.allocate
  split
  · exact ⟨heap, rfl, h⟩
  split
  · exact ⟨heap, rfl, h⟩
  next hvalid =>
  split
  · exact ⟨heap, rfl, h⟩
  next hsize =>
  split
  · exact ⟨heap, rfl, h⟩
  split
  · exact ⟨heap, rfl, h⟩
  next hbudget =>
  split
  · exact ⟨heap, rfl, h⟩
  next hbase =>
  have hvalid : validAlignment alignment = true := by simpa using hvalid
  have hfresh := (fresh (Nat.not_lt.mp hbudget)).resolve_left hbase
  obtain ⟨a, ha⟩ : ∃ a, alignUp (base + headerSize) alignment = a + headerSize :=
    ⟨_, (Nat.sub_add_cancel (by have := alignUp_inside base byteSize hvalid; omega)).symm⟩
  have hinside := alignUp_inside base byteSize hvalid
  rw [ha] at hinside
  have hsub : a + headerSize - headerSize = a := Nat.add_sub_cancel a headerSize
  -- the new header lies in the new block, so no record is there
  have hnone : heap.headers a = none := by
    cases hrecord : heap.headers a with
    | none => rfl
    | some record =>
      have hapart := hfresh.2 _ (get?_eq_some.mp (h.get?_eq hrecord))
      have := h.inside hrecord
      have hallocation : record.allocation.base = record.base := rfl
      simp only at hapart
      omega
  have hother (p : ℕ) (x : Allocation) (hx : live.get? p = some x) : x.base ≠ base := by
    intro heq
    have hapart := hfresh.2 _ (get?_eq_some.mp hx)
    have := h.placed.inside hx
    have : 0 < headerSize := by decide
    simp only [heq] at hapart this
    omega
  have hplaced := h.placed.insert hvalid hsize hbase hfresh
  rw [ha] at hplaced
  dsimp only
  rw [ha, hsub]
  obtain ⟨heap', hset, hblocks, -, hpushed⟩ := h.setPrevious
    ⟨allocationMagic, byteSize, base, a + headerSize, 0, heap.heads (bucket (a + headerSize)),
      alignment, 0⟩
    (heap.blocks.insert base (totalSize byteSize alignment)) hnone (by omega) rfl rfl
  exact ⟨_, by rw [hset]; rfl, h.push hpushed rfl hplaced hother hblocks⟩

/-! ### Release -/

/-- A header that is taken out of its bucket. Away from it two links change. -/
structure Unlinked (bucket : ℕ → ℕ) (heap heap' : Heap) (a : ℕ) (old : Header) : Prop where
  found : heap.headers a = some old
  gone : heap'.headers a = none
  heads : heap'.heads = if old.previous = 0 then
    Function.update heap.heads (bucket old.data) old.next else heap.heads
  rest : ∀ c, c ≠ a → heap'.headers c = (heap.headers c).map fun record =>
    { record with
      next := if c = old.previous then old.next else record.next
      previous := if c = old.next then old.previous else record.previous }

variable {old : Header}

theorem Unlinked.map_headers (h : Unlinked bucket heap heap' a old) {β : Type} (f : Header → β)
    (hf : ∀ record next previous, f { record with next, previous } = f record) {c : ℕ}
    (hc : c ≠ a) : (heap'.headers c).map f = (heap.headers c).map f := by
  rw [h.rest c hc, Option.map_map]
  congr 1
  funext record
  exact hf record _ _

theorem Unlinked.links (h : Unlinked bucket heap heap' a old) {c : ℕ}
    (hc : c ≠ a) : heap'.links c = (heap.links c).map fun link =>
      (if c = old.next then old.previous else link.1,
        if c = old.previous then old.next else link.2) := by
  unfold Heap.links
  rw [h.rest c hc, Option.map_map, Option.map_map]
  rfl

theorem Bucketed.unlink (hbucketed : Bucketed bucket heap)
    (h : Unlinked bucket heap heap' a old) : Bucketed bucket heap' := by
  obtain ⟨nodes, hnodes⟩ := hbucketed
  have hmem := fun b => (hnodes b).2
  have hin : a ∈ nodes (bucket old.data) := (hmem _ a).mpr ⟨old, h.found, rfl⟩
  have hlinks : heap.links a = some (old.previous, old.next) := by
    unfold Heap.links
    rw [h.found]
    rfl
  have hneighbours := (hnodes (bucket old.data)).1.neighbours hin hlinks
  refine ⟨fun b => (nodes b).erase a, fun b => ⟨?_, ?_⟩⟩
  · have hlinked := (hnodes b).1
    dsimp only
    by_cases hb : b = bucket old.data
    · subst hb
      obtain ⟨left, right, hsplit, herase⟩ :
          ∃ left right, nodes (bucket old.data) = left ++ a :: right
            ∧ (nodes (bucket old.data)).erase a = left ++ right := by
        obtain ⟨left, right, hleft, hsplit, herase⟩ := exists_erase_eq hin
        exact ⟨left, right, hsplit, herase⟩
      have hnodup := hlinked.nodup
      rw [hsplit] at hlinked hnodup hneighbours
      rw [herase]
      have hne (c : ℕ) (hc : c ∈ left ++ right) : c ≠ a := by
        rintro rfl
        have := (nodup_middle.mp hnodup)
        exact (nodup_cons.mp this).1 hc
      refine hlinked.unlink hlinks ?_ ?_ ?_ ?_
      · intro hp
        rw [h.heads, if_pos hp, Function.update_self]
      · intro hp
        obtain ⟨-, hpa, hpn⟩ := hneighbours.1 hp
        refine ⟨by rw [h.heads, if_neg hp], ?_⟩
        rw [h.links hpa]
        simp [hpn]
      · intro hn
        obtain ⟨-, hna, hnp⟩ := hneighbours.2 hn
        rw [h.links hna]
        simp [hnp]
      · intro c hc hcp hcn
        rw [h.links (hne c hc)]
        simp [hcp, hcn]
    · -- the links that change belong to the bucket of the released header
      have ha : a ∉ nodes b := fun ha => hb (bucket_eq hmem ha hin)
      rw [erase_of_not_mem ha]
      have hheads : heap'.heads b = heap.heads b := by
        rw [h.heads]
        split
        · rw [Function.update_of_ne hb]
        · rfl
      rw [hheads]
      obtain ⟨last, hsegment⟩ := hlinked.segment
      refine hlinked.congr fun c hc => ?_
      have hcp : c ≠ old.previous := by
        rintro rfl
        exact hb (bucket_eq hmem hc (hneighbours.1 (hsegment.ne_zero hc)).1)
      have hcn : c ≠ old.next := by
        rintro rfl
        exact hb (bucket_eq hmem hc (hneighbours.2 (hsegment.ne_zero hc)).1)
      rw [h.links (fun heq => ha (heq ▸ hc))]
      simp [hcp, hcn]
  · intro c
    have hnodup := (hnodes b).1.nodup
    dsimp only
    rw [hnodup.mem_erase_iff]
    by_cases hc : c = a
    · subst hc
      simp [h.gone]
    · rw [hmem]
      have hdata := h.map_headers Header.data (fun _ _ _ => rfl) hc
      simp only [ne_eq, hc, not_false_eq_true, true_and]
      exact exists_data_iff hdata.symm

section

variable (h : Refines bucket heap live)

include h

theorem Refines.unlink (unlinked : Unlinked bucket heap heap' a old)
    (blocks : heap'.blocks = heap.blocks.erase old.base) :
    Refines bucket heap' (live.erase (a + headerSize)) := by
  refine ⟨h.placed.erase _, ?_, ?_, ?_, h.bucketed.unlink unlinked⟩
  · intro c record hrecord
    by_cases hc : c = a
    · subst hc
      rw [unlinked.gone] at hrecord
      cases hrecord
    · have hdata := unlinked.map_headers Header.data (fun _ _ _ => rfl) hc
      rw [hrecord, map_some, eq_comm, map_eq_some_iff] at hdata
      obtain ⟨old, hold, heq⟩ := hdata
      rw [← heq, h.data hold]
  · intro c
    rw [get?_erase]
    by_cases hc : c = a
    · subst hc
      rw [unlinked.gone, if_pos rfl]
      rfl
    · rw [if_neg (by omega), ← h.headers]
      exact unlinked.map_headers Header.allocation (fun _ _ _ => rfl) hc
  · intro b t
    rw [blocks, get?_erase]
    constructor
    · intro hb
      split at hb
      · cases hb
      · next hbase =>
        obtain ⟨p, x, hx, rfl, htotal⟩ := (h.blocks b t).mp hb
        refine ⟨p, x, ?_, rfl, htotal⟩
        rw [get?_erase, if_neg, hx]
        rintro rfl
        rw [h.get?_eq unlinked.found] at hx
        cases hx
        exact hbase rfl
    · rintro ⟨p, x, hx, rfl, rfl⟩
      rw [get?_erase] at hx
      split at hx
      · cases hx
      · next hp =>
        obtain ⟨-, -, record, hrecord, -, rfl⟩ := h.header hx
        rw [if_neg, (h.blocks _ _).mpr ⟨p, _, hx, rfl, rfl⟩]
        intro hbase
        have := h.base_inj hrecord unlinked.found hbase
        have := (h.placed.inside hx).2.1
        omega

/-- `release_known` is removal from the map. -/
theorem Refines.releaseKnown (hx : live.get? p = some x) (hpending : x.pendingLastStrong = 0) :
    ∃ heap', releaseKnown bucket heap (p - headerSize) = some (.ok, heap')
      ∧ heap'.memory = heap.memory ∧ Refines bucket heap' (live.erase p) := by
  obtain ⟨hle, hne, old, hold, hdata, rfl⟩ := h.header hx
  obtain ⟨a, rfl⟩ : ∃ a, p = a + headerSize := ⟨p - headerSize, by omega⟩
  rw [Nat.add_sub_cancel] at hne hold ⊢
  have hzero := h.headers_zero
  obtain ⟨nodes, hnodes⟩ := h.bucketed
  obtain ⟨hlinked, hmem⟩ := hnodes (bucket old.data)
  have hlinks : heap.links a = some (old.previous, old.next) := by
    unfold Heap.links
    rw [hold]
    rfl
  have hneighbours := hlinked.neighbours ((hmem a).mpr ⟨old, hold, rfl⟩) hlinks
  have hrecord {c : ℕ} (hc : c ∈ nodes (bucket old.data)) : ∃ r, heap.headers c = some r := by
    obtain ⟨record, hrecord, -⟩ := (hmem c).mp hc
    exact ⟨record, hrecord⟩
  -- the four writes in order
  obtain ⟨heap₁, hnext, hblocks₁, hheads₁, hmemory₁, hheaders₁⟩ :=
    heap.setNext_eq old.previous (bucket old.data) old.next hzero
      fun hp => hrecord (hneighbours.1 hp).1
  obtain ⟨heap₂, hprevious, hblocks₂, hheads₂, hmemory₂, hheaders₂⟩ :=
    heap₁.setPrevious_eq old.next old.previous (by rw [hheaders₁, hzero]; rfl) fun hn => by
      obtain ⟨record, hrecord⟩ := hrecord (hneighbours.2 hn).1
      exact ⟨_, by rw [hheaders₁, hrecord]; rfl⟩
  obtain ⟨heap₃, hclear, hblocks₃, hheads₃, hmemory₃, hheaders₃⟩ :=
    heap₂.modify_eq a (fun record => { record with magic := 0, base := 0, data := 0 })
      ⟨_, by rw [hheaders₂, hheaders₁, hold]; rfl⟩
  have hblock : heap₃.blocks.get? old.base = some old.allocation.total := by
    rw [hblocks₃, hblocks₂, hblocks₁]
    exact (h.blocks _ _).mpr ⟨_, _, hx, rfl, rfl⟩
  -- no other header lies in the freed block
  have hfree (c : ℕ) (hc : c ≠ a) (hin : old.base ≤ c ∧ c < old.base + old.allocation.total) :
      heap.headers c = none := by
    cases hother : heap.headers c with
    | none => rfl
    | some record =>
      have hapart := h.placed.apart (h.get?_eq hother) hx (by omega)
      have hinside := h.inside hother
      have hbase : record.allocation.base = record.base := rfl
      have hbase' : old.allocation.base = old.base := rfl
      omega
  refine ⟨{ heap₃ with
      blocks := heap₃.blocks.erase old.base
      headers := fun c => if old.base ≤ c ∧ c < old.base + old.allocation.total then none
        else heap₃.headers c }, ?_, ?_, h.unlink ⟨hold, ?_, ?_, ?_⟩ ?_⟩
  · have hidle : old.pendingLastStrong = 0 := hpending
    simp [Native.releaseKnown, hne, hold, hidle, hnext, hprevious, hclear, Heap.free, hblock]
  · rw [hmemory₃, hmemory₂, hmemory₁]
  · exact if_pos (h.inside hold).2
  · rw [hheads₃, hheads₂, hheads₁]
  · intro c hc
    dsimp only
    by_cases hin : old.base ≤ c ∧ c < old.base + old.allocation.total
    · rw [if_pos hin, hfree c hc hin]
      rfl
    · rw [if_neg hin, hheaders₃, hheaders₂, hheaders₁, Option.map_map, Option.map_map]
      congr 1
      funext record
      simp only [Function.comp, hc, if_false]
      split <;> split <;> rfl
  · rw [hblocks₃, hblocks₂, hblocks₁]

/-! ### Calls -/

theorem Refines.release (pointer byteSize alignment : ℕ) :
    ∃ heap', release bucket heap pointer byteSize alignment
        = some ((live.release pointer byteSize alignment).1, heap')
      ∧ Refines bucket heap' (live.release pointer byteSize alignment).2 := by
  unfold Native.release Allocations.release
  split
  · exact ⟨heap, rfl, h⟩
  rw [h.headerFor]
  cases hx : live.get? pointer with
  | none => exact ⟨heap, rfl, h⟩
  | some x =>
    obtain ⟨-, hne, record, hrecord, -, rfl⟩ := h.header hx
    simp only [isSome_some, if_true, bind_eq_bind, bind_some, hne, if_false,
      hrecord]
    have hsize : record.allocation.size = record.size := rfl
    have halignment : record.allocation.alignment = record.alignment := rfl
    by_cases hmatch : record.size ≠ byteSize ∨ record.alignment ≠ alignment
    · rw [if_pos hmatch, if_pos (by rw [hsize, halignment]; tauto)]
      exact ⟨heap, rfl, h⟩
    · rw [if_neg hmatch]
      by_cases hpending : record.allocation.pendingLastStrong = 0
      · rw [if_neg (by rw [hsize, halignment]; tauto)]
        obtain ⟨heap', hrelease, -, h'⟩ := h.releaseKnown hx hpending
        exact ⟨heap', hrelease, h'⟩
      · rw [if_pos (.inr (.inr hpending))]
        refine ⟨heap, ?_, h⟩
        have hidle : record.pendingLastStrong ≠ 0 := hpending
        simp [Native.releaseKnown, hne, hrecord, hidle]

/-- Copying bytes changes no header. -/
theorem Refines.memcpy (target source count : ℕ) :
    Refines bucket (heap.memcpy target source count) live :=
  ⟨h.placed, h.data, h.headers, h.blocks, h.bucketed⟩

theorem Refines.grow (pointer oldByteSize newByteSize alignment : ℕ) (out : Option ℕ) (base : ℕ)
    (fresh : newByteSize ≤ targetAllocationBudget →
      base = 0 ∨ live.Fresh (totalSize newByteSize alignment) base) :
    ∃ heap', grow bucket heap pointer oldByteSize newByteSize alignment out base
        = some ((live.grow pointer oldByteSize newByteSize alignment out base).1,
            (live.grow pointer oldByteSize newByteSize alignment out base).2.1, heap')
      ∧ Refines bucket heap'
          (live.grow pointer oldByteSize newByteSize alignment out base).2.2 := by
  unfold Native.grow Allocations.grow
  split
  · exact ⟨heap, rfl, h⟩
  split
  · exact h.allocateBytes _ fresh
  rw [h.headerFor]
  cases hx : live.get? pointer with
  | none => exact ⟨heap, rfl, h⟩
  | some x =>
    obtain ⟨-, hne, record, hrecord, -, rfl⟩ := h.header hx
    simp only [isSome_some, if_true, bind_eq_bind, bind_some, hne, if_false,
      hrecord]
    have hrefl : (record.allocation.size ≠ oldByteSize ∨ record.allocation.alignment ≠ alignment
        ∨ record.allocation.pendingLastStrong ≠ 0) ↔ (record.size ≠ oldByteSize
        ∨ record.alignment ≠ alignment ∨ record.pendingLastStrong ≠ 0) := Iff.rfl
    simp only [hrefl]
    split
    · exact ⟨heap, rfl, h⟩
    next hmatch =>
    have hpending : record.allocation.pendingLastStrong = 0 := by
      by_contra hpending
      exact hmatch (.inr (.inr hpending))
    split
    · exact ⟨heap, rfl, h⟩
    split
    · obtain ⟨heap', hrelease, -, h'⟩ := h.releaseKnown hx hpending
      exact ⟨heap', by rw [hrelease]; rfl, h'⟩
    · obtain ⟨heap₁, hallocate, h₁⟩ := h.allocateBytes (some 0) fresh
      unfold growLive
      rw [hallocate]
      simp only [bind_eq_bind, bind_some]
      split
      · exact ⟨heap₁, rfl, h₁⟩
      · have hx₁ := (h.placed.get?_allocate (some 0) fresh hx).1
        obtain ⟨heap₂, hrelease, -, h₂⟩ := (h₁.memcpy _ _ _).releaseKnown hx₁ hpending
        rw [hrelease]
        exact ⟨heap₂, rfl, h₂⟩

/-- One call returns what the map returns and keeps the relation. -/
theorem Refines.perform (call : Call) (fresh : ∀ total base, call.request = some (total, base) →
      base = 0 ∨ live.Fresh total base) :
    ∃ heap', heap.perform bucket call
        = some ((live.perform call).1, (live.perform call).2.1, heap')
      ∧ Refines bucket heap' (live.perform call).2.2 := by
  cases call with
  | allocate byteSize alignment out base =>
    exact h.allocateBytes out fun hbudget => fresh _ _ (if_pos hbudget)
  | grow pointer oldByteSize newByteSize alignment out base =>
    exact h.grow _ _ _ _ _ _ fun hbudget => fresh _ _ (if_pos hbudget)
  | release pointer byteSize alignment =>
    obtain ⟨heap', hrelease, h'⟩ := h.release pointer byteSize alignment
    exact ⟨heap', by simp [Heap.perform, hrelease, Allocations.perform], h'⟩

/-- A whole run returns what the map returns. -/
theorem Refines.run (calls : List Call) (fresh : live.FreshRun calls) :
    ∃ heap', heap.run bucket calls = some ((live.run calls).1, heap')
      ∧ Refines bucket heap' (live.run calls).2 := by
  induction calls generalizing heap live with
  | nil => exact ⟨heap, rfl, h⟩
  | cons call calls ih =>
    obtain ⟨heap₁, hperform, h₁⟩ := h.perform call fresh.1
    obtain ⟨heap₂, hrun, h₂⟩ := ih h₁ fresh.2
    exact ⟨heap₂, by simp [Heap.run, hperform, hrun, Allocations.run], h₂⟩

/-! ### Runs -/

/-- Along a run, the pointers that the caller sees as live are the keys of the map. -/
theorem Refines.mem_livePointers (calls : List Call) (fresh : live.FreshRun calls)
    (pointers : List ℕ) (hp : ∀ p, p ∈ pointers ↔ (live.get? p).isSome) (p : ℕ) :
    p ∈ livePointers pointers (calls.zip (live.run calls).1)
      ↔ ((live.run calls).2.get? p).isSome := by
  induction calls generalizing heap live pointers with
  | nil => exact hp p
  | cons call calls ih =>
    obtain ⟨heap', -, h'⟩ := h.perform call fresh.1
    exact ih h' fresh.2 _ (h.placed.liveAfter_perform call fresh.1 hp)

end

/-- The 4096 buckets of the generic runtime and the single list of the ownership runtime return
the same results on every sequence of calls, those of one finite map of the live allocations.
`header_for` finds a header exactly for the pointers that a successful call returned and no later
one released or grew away, with the size, alignment and pending flag in the map, and every bucket
is a doubly linked list of exactly the headers that hash to it. -/
theorem registry_refines (calls : List Call) (memory : ℕ → UInt8)
    (fresh : Allocations.FreshRun empty calls) :
    ∃ results live heap heap',
      Allocations.run empty calls = (results, live)
      ∧ (Heap.empty memory).run registryHead calls = some (results, heap)
      ∧ (Heap.empty memory).run allocationHead calls = some (results, heap')
      ∧ (∀ p, ∃ header, headerFor registryHead heap p = some header
        ∧ (header ≠ 0 ↔ p ∈ livePointers [] (calls.zip results))
        ∧ (header ≠ 0 ↔ (live.get? p).isSome)
        ∧ (header ≠ 0 → ∃ record, heap.headers header = some record ∧ record.data = p
          ∧ live.get? p = some record.allocation))
      ∧ (∀ p, registryHead p < allocationBuckets) ∧ Bucketed registryHead heap := by
  obtain ⟨heap, hrun, h⟩ := (refines_empty registryHead memory).run calls fresh
  obtain ⟨heap', hrun', -⟩ := (refines_empty allocationHead memory).run calls fresh
  refine ⟨_, _, heap, heap', rfl, hrun, hrun', fun p => ?_, registryHead_lt, h.bucketed⟩
  have hlive := (refines_empty registryHead memory).mem_livePointers calls fresh
    [] (by simp [get?_empty]) p
  rw [hlive]
  refine ⟨_, h.headerFor p, ?_⟩
  cases hx : (Allocations.run empty calls).2.get? p with
  | none => simp
  | some x =>
    obtain ⟨-, hne, record, hrecord, hdata, rfl⟩ := h.header hx
    refine ⟨by simpa using hne, by simpa using hne, fun _ => ⟨record, hrecord, hdata, rfl⟩⟩

/-- Allocation, growth into a second block, and release of the grown allocation. -/
def growAndRelease : List Call :=
  [.allocate 8 8 (some 0) 4096, .grow 4152 8 16 8 (some 0) 8192, .release 8248 16 8]

theorem registry_refines_growAndRelease :
    ∃ heap, (Heap.empty fun _ => 0).run registryHead growAndRelease
        = some ([(.ok, some 4152), (.ok, some 8248), (.ok, none)], heap)
      ∧ Bucketed registryHead heap := by
  have hfresh : Allocations.FreshRun empty growAndRelease := by
    refine ⟨?_, ?_, ?_, trivial⟩ <;> intro total base h <;> cases h
    · exact .inr ⟨by decide, by decide⟩
    · exact .inr ⟨by decide, by decide⟩
  obtain ⟨results, live, heap, heap', hmap, hrun, -, -, -, hbucketed⟩ :=
    registry_refines growAndRelease (fun _ => 0) hfresh
  have hresults : results = [(.ok, some 4152), (.ok, some 8248), (.ok, none)] :=
    (congrArg Prod.fst hmap).symm
  exact ⟨heap, hresults ▸ hrun, hbucketed⟩

end Zryna.OwnershipRuntime.Native
