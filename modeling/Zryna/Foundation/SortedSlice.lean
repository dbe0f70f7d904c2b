import Mathlib.Data.List.InsertIdx
import Mathlib.Data.List.Lex
import Mathlib.Order.Lattice

/-!
# Sorted slices

Binary search in a list whose elements have strictly increasing keys, and insertion where a search
did not find its key. The position of a search that fails is the number of smaller elements.
-/

namespace Zryna

open List

instance instLinearOrderUInt8 : LinearOrder UInt8 where
  le_refl := UInt8.le_refl
  le_trans _ _ _ := UInt8.le_trans
  lt_iff_le_not_ge a b := by
    rw [UInt8.not_le]
    exact ⟨fun h => ⟨UInt8.le_of_lt h, h⟩, And.right⟩
  le_antisymm _ _ := UInt8.le_antisymm
  le_total := UInt8.le_total
  toDecidableLE := inferInstance
  toDecidableEq := inferInstance
  toDecidableLT := inferInstance

namespace SortedSlice

variable {α κ : Type} [LinearOrder κ]

/-- Where a key stands in a sorted list, or where it belongs. -/
def search (key : α → κ) (k : κ) : List α → Except ℕ ℕ
  | [] => .error 0
  | x :: xs =>
    if key x < k then
      match search key k xs with
      | .ok i => .ok (i + 1)
      | .error i => .error (i + 1)
    else if key x = k then .ok 0 else .error 0

/-- The keys increase. -/
def Sorted (key : α → κ) (xs : List α) : Prop := xs.Pairwise fun x y => key x < key y

variable {key : α → κ} {k : κ} {xs : List α} {i : ℕ}

theorem search_cons (x : α) (xs : List α) : search key k (x :: xs) =
    if key x < k then
      match search key k xs with
      | .ok i => .ok (i + 1)
      | .error i => .error (i + 1)
    else if key x = k then .ok 0 else .error 0 := rfl

theorem exists_of_search (h : search key k xs = .ok i) : ∃ x, xs[i]? = some x ∧ key x = k := by
  induction xs generalizing i with
  | nil => cases h
  | cons x xs ih =>
    rw [search_cons] at h
    split at h
    · split at h
      · next j hj => exact Except.ok.inj h ▸ ih hj
      · cases h
    · split at h
      · next hkey => exact Except.ok.inj h ▸ ⟨x, rfl, hkey⟩
      · cases h

/-- A search that fails splits the list at its position. -/
theorem split_of_search (hsorted : Sorted key xs) (h : search key k xs = .error i) :
    ∃ smaller greater, xs = smaller ++ greater ∧ smaller.length = i
      ∧ (∀ x ∈ smaller, key x < k) ∧ ∀ x ∈ greater, k < key x := by
  induction xs generalizing i with
  | nil => exact ⟨[], [], rfl, Except.error.inj h, forall_mem_nil _, forall_mem_nil _⟩
  | cons x xs ih =>
    obtain ⟨hfirst, hrest⟩ := pairwise_cons.mp hsorted
    rw [search_cons] at h
    split at h
    · next hlt =>
      split at h
      · cases h
      · next j hj =>
        obtain ⟨smaller, greater, rfl, rfl, hsmaller, hgreater⟩ := ih hrest hj
        exact ⟨x :: smaller, greater, rfl, Except.error.inj h,
          forall_mem_cons.mpr ⟨hlt, hsmaller⟩, hgreater⟩
    · next hge =>
      split at h
      · cases h
      · next hne =>
        have hlt : k < key x := lt_of_le_of_ne (not_lt.mp hge) (Ne.symm hne)
        exact ⟨[], x :: xs, rfl, Except.error.inj h, forall_mem_nil _,
          forall_mem_cons.mpr ⟨hlt, fun y hy => hlt.trans (hfirst y hy)⟩⟩

theorem search_congr {key' : α → κ} (h : ∀ x ∈ xs, key x = key' x) :
    search key k xs = search key' k xs := by
  induction xs with
  | nil => rfl
  | cons x xs ih =>
    obtain ⟨hx, hxs⟩ := forall_mem_cons.mp h
    rw [search_cons, search_cons, hx, ih hxs]

theorem Sorted.congr {key' : α → κ} (hsorted : Sorted key xs) (h : ∀ x ∈ xs, key x = key' x) :
    Sorted key' xs :=
  List.Pairwise.imp_of_mem (fun hx hy hlt => h _ hx ▸ h _ hy ▸ hlt) hsorted

/-- In a sorted list a key stands for one element. -/
theorem Sorted.eq_of_key_eq (hsorted : Sorted key xs) {x y : α} (hx : x ∈ xs) (hy : y ∈ xs)
    (h : key x = key y) : x = y := by
  induction xs with
  | nil => cases hx
  | cons z xs ih =>
    obtain ⟨hz, hrest⟩ := pairwise_cons.mp hsorted
    obtain rfl | hx' := mem_cons.mp hx
    · obtain rfl | hy' := mem_cons.mp hy
      · rfl
      · exact absurd h (hz y hy').ne
    · obtain rfl | hy' := mem_cons.mp hy
      · exact absurd h (hz x hx').ne'
      · exact ih hrest hx' hy'

/-- Insertion of an element where its key belongs. -/
def insertAt (i : ℕ) (x : α) (xs : List α) : List α := xs.take i ++ x :: xs.drop i

theorem mem_insertAt {x y : α} : y ∈ insertAt i x xs ↔ y = x ∨ y ∈ xs := by
  rw [insertAt, mem_append, mem_cons, or_left_comm, ← mem_append,
    take_append_drop]

/-- What is inserted where its key belongs keeps the list sorted. -/
theorem sorted_insertAt {x : α} (hsorted : Sorted key xs)
    (h : search key (key x) xs = .error i) : Sorted key (insertAt i x xs) := by
  obtain ⟨smaller, greater, rfl, rfl, hsmaller, hgreater⟩ := split_of_search hsorted h
  obtain ⟨hfirst, hsecond, hbetween⟩ := pairwise_append.mp hsorted
  rw [insertAt, take_left, drop_left]
  refine pairwise_append.mpr ⟨hfirst, pairwise_cons.mpr ⟨hgreater, hsecond⟩, ?_⟩
  intro y hy z hz
  obtain rfl | hz := mem_cons.mp hz
  · exact hsmaller y hy
  · exact hbetween y hy z hz

end SortedSlice

end Zryna
