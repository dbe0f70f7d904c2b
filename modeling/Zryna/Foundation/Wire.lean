import Mathlib.Algebra.BigOperators.Group.List.Basic
import Zryna.Foundation.Checked
import Zryna.Foundation.LittleEndian

/-!
# Bounded messages

Messages of bytes with a budget: a writer appends to a message, a reader takes from the front of
one, and both count the elements of the lists they pass against one ceiling.

A `Format` says how a value is written, how many list elements that takes, and which values are
within the ceilings of a reader. Formats are put together from parts that follow one another.
`Writes` and `Reads` tie code to a format: what is written for a value is what is read as it.
-/

namespace Zryna.Wire

open List

variable {ε α β : Type} {maxBytes maxChildren : ℕ}

/-- A message that is being written. -/
structure Writer (maxBytes maxChildren : ℕ) where
  bytes : List UInt8
  children : ℕ
  bytes_le : bytes.length ≤ maxBytes
  children_le : children ≤ maxChildren

/-- What is left of a message that is being read. -/
structure Reader (maxChildren : ℕ) where
  rest : List UInt8
  children : ℕ
  children_le : children ≤ maxChildren

/-- How values are written, and which are within the ceilings of a reader. -/
structure Format (α : Type) where
  bytes : α → List UInt8
  children : α → ℕ
  Fits : α → Prop

namespace Format

/-- A 32-bit lane. -/
def lane : Format UInt32 := ⟨laneBytes, fun _ => 0, fun _ => True⟩

/-- A flag, as one byte. -/
def flag : Format Bool := ⟨fun value => [if value then 1 else 0], fun _ => 0, fun _ => True⟩

@[simp] theorem lane_children (value : UInt32) : lane.children value = 0 := rfl

@[simp] theorem flag_children (value : Bool) : flag.children value = 0 := rfl

/-- Bytes after their length. -/
def blob (limit : ℕ) : Format (List UInt8) where
  bytes value := laneBytes (.ofNat value.length) ++ value
  children _ := 0
  Fits value := value.length ≤ limit

def vector (limit : ℕ) (F : Format α) : Format (List α) where
  bytes xs := laneBytes (.ofNat xs.length) ++ xs.flatMap F.bytes
  children xs := xs.length + (xs.map F.children).sum
  Fits xs := xs.length ≤ limit ∧ ∀ x ∈ xs, F.Fits x

/-- A value that may be missing, after a flag. -/
def optional (F : Format α) : Format (Option α) where
  bytes x := flag.bytes x.isSome ++ x.elim [] F.bytes
  children x := x.elim 0 F.children
  Fits x := ∀ y ∈ x, F.Fits y

/-- A part of a value. -/
def on (F : Format α) (part : β → α) : Format β where
  bytes y := F.bytes (part y)
  children y := F.children (part y)
  Fits y := F.Fits (part y)

/-- One part after another. -/
def andThen (F G : Format α) : Format α where
  bytes x := F.bytes x ++ G.bytes x
  children x := F.children x + G.children x
  Fits x := F.Fits x ∧ G.Fits x

variable {F G : Format α}

@[simp] theorem length_lane (value : UInt32) : (lane.bytes value).length = 4 :=
  length_laneBytes value

@[simp] theorem length_on (part : β → α) (y : β) :
    ((F.on part).bytes y).length = (F.bytes (part y)).length := rfl

@[simp] theorem length_andThen (x : α) :
    ((F.andThen G).bytes x).length = (F.bytes x).length + (G.bytes x).length :=
  length_append

theorem length_vector (limit : ℕ) (xs : List α) : 4 ≤ ((vector limit F).bytes xs).length := by
  rw [vector, length_append, length_laneBytes]
  exact Nat.le_add_right ..

theorem length_optional (x : Option α) : 1 ≤ ((optional F).bytes x).length := by
  rw [optional, length_append]
  exact Nat.le_add_right ..

theorem length_blob (limit : ℕ) (value : List UInt8) :
    ((blob limit).bytes value).length = 4 + value.length := by
  rw [blob, length_append, length_laneBytes]

end Format

/-! ### Writing -/

namespace Writer

variable {w w' : Writer maxBytes maxChildren} {b c : List UInt8} {k l : ℕ}

@[ext] theorem ext (hbytes : w.bytes = w'.bytes) (hchildren : w.children = w'.children) :
    w = w' := by
  cases w
  cases w'
  cases hbytes
  cases hchildren
  rfl

/-- An empty message. -/
def new (maxBytes maxChildren : ℕ) : Writer maxBytes maxChildren :=
  ⟨[], 0, Nat.zero_le _, Nat.zero_le _⟩

/-- `w'` is `w` after `b` was appended, with `k` more list elements. -/
def Emits (w : Writer maxBytes maxChildren) (b : List UInt8) (k : ℕ)
    (w' : Writer maxBytes maxChildren) : Prop :=
  w'.bytes = w.bytes ++ b ∧ w'.children = w.children + k

theorem emits_nil : w.Emits [] 0 w' ↔ w = w' := by
  constructor
  · rintro ⟨hbytes, hchildren⟩
    exact Writer.ext (by rw [hbytes, append_nil]) (by rw [hchildren, Nat.add_zero])
  · rintro rfl
    exact ⟨(append_nil _).symm, rfl⟩

/-- One piece after the other. -/
theorem emits_append : (∃ v, w.Emits b k v ∧ v.Emits c l w') ↔ w.Emits (b ++ c) (k + l) w' := by
  constructor
  · rintro ⟨v, ⟨hb, hk⟩, hc, hl⟩
    exact ⟨by rw [hc, hb, append_assoc], by rw [hl, hk, Nat.add_assoc]⟩
  · rintro ⟨hbytes, hchildren⟩
    have hlength := w'.bytes_le
    have hcount := w'.children_le
    rw [hbytes, ← append_assoc, length_append] at hlength
    rw [hchildren, ← Nat.add_assoc] at hcount
    exact ⟨⟨w.bytes ++ b, w.children + k, by omega, by omega⟩, ⟨rfl, rfl⟩,
      by rw [hbytes, append_assoc], by rw [hchildren, Nat.add_assoc]⟩

/-- What an empty message becomes. -/
theorem new_emits : (new maxBytes maxChildren).Emits b k w' ↔ w'.bytes = b ∧ w'.children = k := by
  rw [Emits, new, nil_append, Nat.zero_add]

/-- A message within both ceilings can be written. -/
theorem exists_new_emits : (∃ w, (new maxBytes maxChildren).Emits b k w ∧ w.bytes = c)
    ↔ b = c ∧ b.length ≤ maxBytes ∧ k ≤ maxChildren := by
  simp only [new_emits]
  constructor
  · rintro ⟨w, ⟨rfl, rfl⟩, hc⟩
    exact ⟨hc, w.bytes_le, w.children_le⟩
  · rintro ⟨rfl, hbytes, hchildren⟩
    exact ⟨⟨b, k, hbytes, hchildren⟩, ⟨rfl, rfl⟩, rfl⟩

end Writer

/-- The code writes values in a format. -/
abbrev Writes (F : Format α)
    (write : Writer maxBytes maxChildren → α → Except ε (Writer maxBytes maxChildren)) : Prop :=
  ∀ w x w', write w x = .ok w' ↔ w.Emits (F.bytes x) (F.children x) w'

/-- A loop over a list. -/
theorem Writes.foldlM {F : Format α}
    {write : Writer maxBytes maxChildren → α → Except ε (Writer maxBytes maxChildren)}
    (h : Writes F write) (w : Writer maxBytes maxChildren) (xs : List α)
    (w' : Writer maxBytes maxChildren) :
    xs.foldlM write w = .ok w'
      ↔ w.Emits (xs.flatMap F.bytes) (xs.map F.children).sum w' := by
  induction xs generalizing w with
  | nil => rw [foldlM_nil, Checked.pure_eq_ok, ← Writer.emits_nil]; rfl
  | cons x xs ih =>
    rw [foldlM_cons, Checked.bind_eq_ok, flatMap_cons, map_cons, sum_cons,
      ← Writer.emits_append]
    simp only [h, ih]

/-! ### Reading -/

namespace Reader

variable {r r' : Reader maxChildren} {b c : List UInt8} {k l : ℕ}

@[ext] theorem ext (hrest : r.rest = r'.rest) (hchildren : r.children = r'.children) : r = r' := by
  cases r
  cases r'
  cases hrest
  cases hchildren
  rfl

/-- A message from its beginning. -/
def new (maxChildren : ℕ) (bytes : List UInt8) : Reader maxChildren := ⟨bytes, 0, Nat.zero_le _⟩

/-- `r'` is `r` after `b` was taken, with `k` more list elements. -/
def Consumes (r : Reader maxChildren) (b : List UInt8) (k : ℕ) (r' : Reader maxChildren) : Prop :=
  r.rest = b ++ r'.rest ∧ r'.children = r.children + k

theorem consumes_nil : r.Consumes [] 0 r' ↔ r = r' := by
  constructor
  · rintro ⟨hrest, hchildren⟩
    exact Reader.ext hrest hchildren.symm
  · rintro rfl
    exact ⟨rfl, rfl⟩

/-- One piece after the other. -/
theorem Consumes.trans {s : Reader maxChildren} (h : r.Consumes b k s) (h' : s.Consumes c l r') :
    r.Consumes (b ++ c) (k + l) r' :=
  ⟨by rw [h.1, h'.1, append_assoc], by rw [h'.2, h.2, Nat.add_assoc]⟩

theorem Consumes.split (h : r.Consumes (b ++ c) (k + l) r') :
    ∃ s, r.Consumes b k s ∧ s.Consumes c l r' := by
  obtain ⟨hrest, hchildren⟩ := h
  have hcount := r'.children_le
  rw [hchildren, ← Nat.add_assoc] at hcount
  exact ⟨⟨c ++ r'.rest, r.children + k, by omega⟩, ⟨by rw [hrest, append_assoc], rfl⟩, rfl,
    by rw [hchildren, Nat.add_assoc]⟩

/-- A piece without list elements, and what follows it. -/
theorem Consumes.after {s : Reader maxChildren} (h : r.Consumes b 0 s) (h' : s.Consumes c l r') :
    r.Consumes (b ++ c) l r' := by
  have hboth := h.trans h'
  rwa [Nat.zero_add] at hboth

theorem Consumes.exists_after (h : r.Consumes (b ++ c) l r') :
    ∃ s, r.Consumes b 0 s ∧ s.Consumes c l r' := by
  rw [← Nat.zero_add l] at h
  exact h.split

/-- A message that is read from its beginning. -/
theorem exists_new_consumes {s : List UInt8} :
    (∃ r, (new maxChildren s).Consumes b k r ∧ r.rest = c) ↔ s = b ++ c ∧ k ≤ maxChildren := by
  constructor
  · rintro ⟨r, ⟨hrest, hchildren⟩, rfl⟩
    refine ⟨hrest, ?_⟩
    have hle := r.children_le
    rw [hchildren] at hle
    exact (Nat.le_add_left ..).trans hle
  · rintro ⟨rfl, hchildren⟩
    exact ⟨⟨c, k, hchildren⟩, ⟨rfl, (Nat.zero_add k).symm⟩, rfl⟩

end Reader

/-- The code reads values in a format. -/
abbrev Reads (F : Format α)
    (read : Reader maxChildren → Except ε (α × Reader maxChildren)) : Prop :=
  ∀ r x r', read r = .ok (x, r') ↔ F.Fits x ∧ r.Consumes (F.bytes x) (F.children x) r'

/-- What follows a value that was read. -/
theorem Reads.bind {F : Format α} {read : Reader maxChildren → Except ε (α × Reader maxChildren)}
    {f : α × Reader maxChildren → Except ε β} {s : Reader maxChildren} {x : α} {y : β}
    (h : Reads F read) (hfits : F.Fits x) (hr : r.Consumes (F.bytes x) (F.children x) s)
    (hf : f (x, s) = .ok y) : (read r >>= f) = .ok y := by
  rw [(h r x s).mpr ⟨hfits, hr⟩]
  exact hf

/-- Reads a number of values, one after the other. -/
def readMany (read : Reader maxChildren → Except ε (α × Reader maxChildren)) :
    ℕ → Reader maxChildren → Except ε (List α × Reader maxChildren)
  | 0, r => .ok ([], r)
  | count + 1, r => do
    let (x, r) ← read r
    let (xs, r) ← readMany read count r
    .ok (x :: xs, r)

theorem Reads.many {F : Format α} {read : Reader maxChildren → Except ε (α × Reader maxChildren)}
    (h : Reads F read) (count : ℕ) (r : Reader maxChildren) (xs : List α)
    (r' : Reader maxChildren) :
    readMany read count r = .ok (xs, r') ↔ xs.length = count ∧ (∀ x ∈ xs, F.Fits x)
      ∧ r.Consumes (xs.flatMap F.bytes) (xs.map F.children).sum r' := by
  induction count generalizing r xs r' with
  | zero =>
    rw [readMany, Except.ok.injEq, Prod.mk.injEq, length_eq_zero_iff]
    constructor
    · rintro ⟨rfl, rfl⟩
      exact ⟨rfl, forall_mem_nil _, rfl, rfl⟩
    · rintro ⟨rfl, -, hr⟩
      exact ⟨rfl, by rwa [← Reader.consumes_nil]⟩
  | succ count ih =>
    simp only [readMany, Checked.bind_eq_ok, Prod.exists, h, ih, Except.ok.injEq, Prod.mk.injEq]
    constructor
    · rintro ⟨x, s, ⟨hx, hs⟩, xs, t, ⟨rfl, hxs, ht⟩, rfl, rfl⟩
      exact ⟨rfl, forall_mem_cons.mpr ⟨hx, hxs⟩, hs.trans ht⟩
    · rintro ⟨hlength, hfits, hr⟩
      cases xs with
      | nil => cases hlength
      | cons x xs =>
        obtain ⟨hx, hxs⟩ := forall_mem_cons.mp hfits
        obtain ⟨s, hs, ht⟩ := hr.split
        exact ⟨x, s, ⟨hx, hs⟩, xs, r', ⟨Nat.succ.inj hlength, hxs, ht⟩, rfl, rfl⟩

end Zryna.Wire
