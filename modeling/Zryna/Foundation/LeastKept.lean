import Mathlib.Data.List.Sort

/-!
# Keeping the least elements of a stream

A bounded collector keeps at most `k` of the elements that it is given. The first `k` are kept as
they come; a later one takes the place of a greatest kept element, if it is below that one. The
order is a comparison `compare` that reads a `key` in a linear order off the elements, so two
elements may compare as equal and differ.

`Kept` is the invariant: what was seen splits into what is kept and what was dropped, and nothing
dropped is below anything kept. It fixes the keys of what is kept, whatever the order of arrival
(`Kept.map_key`).
-/

namespace Zryna.LeastKept

open List

variable {α β : Type} [LinearOrder β]

section Collector

variable (compare : α → α → Ordering) (k : ℕ)

/-- The better candidate for the last greatest element. -/
def laterGreatest (best : Option (α × ℕ)) (entry : α × ℕ) : Option (α × ℕ) :=
  match best with
  | none => some entry
  | some best => if compare best.1 entry.1 = .gt then some best else some entry

/-- The last greatest element, with its position. -/
def lastGreatest (held : List α) : Option (α × ℕ) :=
  held.zipIdx.foldl (laterGreatest compare) none

/-- One arrival. -/
def keep (held : List α) (x : α) : List α :=
  if held.length < k then held ++ [x]
  else
    match lastGreatest compare held with
    | none => held
    | some (greatest, position) =>
      if compare x greatest = .lt then held.set position x else held

/-- The elements in order; those that compare as equal stay as they are. -/
def inOrder (held : List α) : List α := held.mergeSort fun a b => (compare a b).isLE

end Collector

structure Kept (key : α → β) (k : ℕ) (seen held : List α) : Prop where
  length_eq : held.length = min k seen.length
  split : ∃ dropped, seen.Perm (held ++ dropped) ∧ ∀ x ∈ held, ∀ y ∈ dropped, key x ≤ key y

section Invariant

variable {compare : α → α → Ordering} {key : α → β}

/-- The fold finds a greatest element, at its position. -/
theorem foldl_laterGreatest (hcompare : ∀ a b, compare a b = cmp (key a) (key b))
    (entries : List (α × ℕ)) (best : α × ℕ) :
    ∃ greatest, entries.foldl (laterGreatest compare) (some best) = some greatest
      ∧ (greatest = best ∨ greatest ∈ entries)
      ∧ key best.1 ≤ key greatest.1 ∧ ∀ entry ∈ entries, key entry.1 ≤ key greatest.1 := by
  induction entries generalizing best with
  | nil => exact ⟨best, rfl, .inl rfl, le_rfl, by simp⟩
  | cons entry entries ih =>
    rw [foldl_cons]
    by_cases hgt : compare best.1 entry.1 = .gt
    · have hstep : laterGreatest compare (some best) entry = some best := if_pos hgt
      have hlt : key entry.1 < key best.1 := by
        rw [hcompare, cmp_eq_gt_iff] at hgt
        exact hgt
      obtain ⟨greatest, hfold, hmem, hbest, hall⟩ := ih best
      refine ⟨greatest, by rw [hstep, hfold], hmem.imp_right (mem_cons_of_mem _),
        hbest, ?_⟩
      exact forall_mem_cons.mpr ⟨hlt.le.trans hbest, hall⟩
    · have hstep : laterGreatest compare (some best) entry = some entry := if_neg hgt
      have hle : key best.1 ≤ key entry.1 := by
        rw [hcompare, cmp_eq_gt_iff] at hgt
        exact not_lt.mp hgt
      obtain ⟨greatest, hfold, hmem, hentry, hall⟩ := ih entry
      refine ⟨greatest, by rw [hstep, hfold], .inr ?_, hle.trans hentry, ?_⟩
      · rw [mem_cons]
        exact hmem
      · exact forall_mem_cons.mpr ⟨hentry, hall⟩

theorem lastGreatest_spec (hcompare : ∀ a b, compare a b = cmp (key a) (key b)) {held : List α}
    (hne : held ≠ []) :
    ∃ greatest position, lastGreatest compare held = some (greatest, position)
      ∧ held[position]? = some greatest ∧ ∀ x ∈ held, key x ≤ key greatest := by
  cases held with
  | nil => exact absurd rfl hne
  | cons first rest =>
    have hfirst : lastGreatest compare (first :: rest)
        = (rest.zipIdx 1).foldl (laterGreatest compare) (some (first, 0)) := rfl
    obtain ⟨⟨greatest, position⟩, hfold, hmem, hle, hall⟩ :=
      foldl_laterGreatest hcompare (rest.zipIdx 1) (first, 0)
    refine ⟨greatest, position, hfirst.trans hfold, ?_, ?_⟩
    · have hentry : (greatest, position) ∈ (first :: rest).zipIdx := by
        rw [zipIdx_cons, mem_cons]
        exact hmem
      exact mk_mem_zipIdx_iff_getElem?.mp hentry
    · intro x hx
      obtain rfl | hx := mem_cons.mp hx
      · exact hle
      · obtain ⟨i, hi⟩ := getElem?_of_mem hx
        have hentry : (x, 1 + i) ∈ rest.zipIdx 1 := by
          rw [mem_zipIdx_iff_le_and_getElem?_sub]
          simpa using hi
        exact hall _ hentry

/-- Writing over a position exchanges one element. -/
theorem perm_set {held : List α} {position : ℕ} {old : α} (h : held[position]? = some old)
    (x : α) : (old :: held.set position x).Perm (x :: held) := by
  induction held generalizing position with
  | nil => simp at h
  | cons a held ih =>
    cases position with
    | zero =>
      obtain rfl : a = old := by simpa using h
      exact List.Perm.swap ..
    | succ position =>
      rw [set_cons_succ]
      have hrest : (old :: held.set position x).Perm (x :: held) := ih (by simpa using h)
      calc (old :: a :: held.set position x).Perm (a :: old :: held.set position x) := .swap ..
        _ |>.Perm (a :: x :: held) := hrest.cons a
        _ |>.Perm (x :: a :: held) := .swap ..

theorem kept_nil (key : α → β) (k : ℕ) : Kept key k [] [] :=
  ⟨by simp, [], .nil, by simp⟩

section

variable (hcompare : ∀ a b, compare a b = cmp (key a) (key b))

include hcompare

/-- One arrival keeps the invariant. -/
theorem Kept.keep {k : ℕ} (hk : 0 < k) {seen held : List α} (h : Kept key k seen held) (x : α) :
    Kept key k (seen ++ [x]) (keep compare k held x) := by
  obtain ⟨hlength, dropped, hperm, hleast⟩ := h
  have hsum : seen.length = held.length + dropped.length := by
    rw [hperm.length_eq, length_append]
  have harrive : (seen ++ [x]).Perm (x :: (held ++ dropped)) :=
    (perm_append_singleton x seen).trans (hperm.cons x)
  unfold LeastKept.keep
  by_cases hfree : held.length < k
  · -- nothing was dropped before
    obtain rfl : dropped = [] := length_eq_zero_iff.mp (by omega)
    rw [if_pos hfree]
    refine ⟨by simp only [length_append, length_singleton]; omega, [], ?_, by simp⟩
    rw [append_nil] at harrive ⊢
    exact harrive.trans (perm_append_singleton x held).symm
  have hne : held ≠ [] := by
    rintro rfl
    exact hfree hk
  rw [if_neg hfree]
  obtain ⟨greatest, position, hlast, hposition, hall⟩ := lastGreatest_spec hcompare hne
  have hgreatest : greatest ∈ held := mem_of_getElem? hposition
  rw [hlast]
  dsimp only
  by_cases hlt : compare x greatest = .lt
  · -- the arrival takes the place of the greatest
    have hkey : key x < key greatest := by
      rw [hcompare, cmp_eq_lt_iff] at hlt
      exact hlt
    rw [if_pos hlt]
    refine ⟨?_, greatest :: dropped, ?_, ?_⟩
    · simp only [length_set, length_append, length_singleton]
      omega
    · calc (seen ++ [x]).Perm (x :: (held ++ dropped)) := harrive
        _ |>.Perm ((greatest :: held.set position x) ++ dropped) :=
          (perm_set hposition x).symm.append_right dropped
        _ |>.Perm (held.set position x ++ greatest :: dropped) := perm_middle.symm
    · intro y hy z hz
      have hy' : key y ≤ key greatest ∧ ∀ z ∈ dropped, key y ≤ key z := by
        obtain hy | rfl := mem_or_eq_of_mem_set hy
        · exact ⟨hall y hy, hleast y hy⟩
        · exact ⟨hkey.le, fun z hz => hkey.le.trans (hleast greatest hgreatest z hz)⟩
      obtain rfl | hz := mem_cons.mp hz
      · exact hy'.1
      · exact hy'.2 z hz
  · have hkey : key greatest ≤ key x := by
      rw [hcompare, cmp_eq_lt_iff] at hlt
      exact not_lt.mp hlt
    rw [if_neg hlt]
    refine ⟨?_, x :: dropped, harrive.trans perm_middle.symm, ?_⟩
    · simp only [length_append, length_singleton]
      omega
    · intro y hy z hz
      obtain rfl | hz := mem_cons.mp hz
      · exact (hall y hy).trans hkey
      · exact hleast y hy z hz

theorem isLE_compare (a b : α) : (compare a b).isLE = true ↔ key a ≤ key b := by
  rw [hcompare, Ordering.isLE_iff_ne_gt, ← not_lt, ← cmp_eq_gt_iff]

theorem pairwise_inOrder (xs : List α) :
    (inOrder compare xs).Pairwise fun a b => key a ≤ key b := by
  have hle := isLE_compare hcompare
  refine (pairwise_mergeSort (fun a b c hab hbc => ?_) (fun a b => ?_) xs).imp (hle _ _).mp
  · rw [hle] at hab hbc ⊢
    exact hab.trans hbc
  · rw [Bool.or_eq_true, hle, hle]
    exact le_total _ _

end

theorem eq_mergeSort {keys sorted : List β} (hsorted : sorted.Pairwise (· ≤ ·))
    (hperm : sorted.Perm keys) : sorted = keys.mergeSort (· ≤ ·) :=
  List.Perm.eq_of_pairwise (fun _ _ _ _ => le_antisymm) hsorted (pairwise_mergeSort' _ keys)
    (hperm.trans (mergeSort_perm _ _).symm)

theorem mergeSort_congr {xs ys : List β} (h : xs.Perm ys) :
    xs.mergeSort (· ≤ ·) = ys.mergeSort (· ≤ ·) :=
  eq_mergeSort (pairwise_mergeSort' _ xs) ((mergeSort_perm _ _).trans h)

section

variable (hcompare : ∀ a b, compare a b = cmp (key a) (key b))

include hcompare

theorem map_key_inOrder (xs : List α) :
    (inOrder compare xs).map key = (xs.map key).mergeSort (· ≤ ·) :=
  eq_mergeSort (pairwise_map.mpr (pairwise_inOrder hcompare xs))
    ((mergeSort_perm _ _).map key)

/-- A greatest element goes last. -/
theorem map_key_inOrder_concat {xs : List α} {y : α} (hy : ∀ x ∈ xs, key x ≤ key y) :
    (inOrder compare (xs ++ [y])).map key = (inOrder compare xs).map key ++ [key y] := by
  have hxs : (inOrder compare xs).Perm xs := mergeSort_perm _ _
  rw [map_key_inOrder hcompare]
  refine (eq_mergeSort ?_ ?_).symm
  · rw [pairwise_append]
    refine ⟨pairwise_map.mpr (pairwise_inOrder hcompare xs), pairwise_singleton _ _, ?_⟩
    intro a ha b hb
    obtain ⟨x, hx, rfl⟩ := mem_map.mp ha
    obtain rfl := mem_singleton.mp hb
    exact hy x (hxs.mem_iff.mp hx)
  · rw [map_append]
    exact (hxs.map key).append_right _

theorem Kept.map_key {k : ℕ} {seen held : List α} (h : Kept key k seen held) :
    (inOrder compare held).map key = ((seen.map key).mergeSort (· ≤ ·)).take k := by
  obtain ⟨hlength, dropped, hperm, hleast⟩ := h
  have hheld : (inOrder compare held).Perm held := mergeSort_perm _ _
  have hdropped : (inOrder compare dropped).Perm dropped := mergeSort_perm _ _
  -- what is kept and what was dropped, each in order, are everything in order
  have hall : (inOrder compare held).map key ++ (inOrder compare dropped).map key
      = (seen.map key).mergeSort (· ≤ ·) := by
    refine eq_mergeSort ?_ ?_
    · rw [← map_append, pairwise_map, pairwise_append]
      refine ⟨pairwise_inOrder hcompare held, pairwise_inOrder hcompare dropped, ?_⟩
      intro x hx y hy
      exact hleast x (hheld.mem_iff.mp hx) y (hdropped.mem_iff.mp hy)
    · rw [← map_append]
      exact ((hheld.append hdropped).trans hperm.symm).map key
  have hsum : seen.length = held.length + dropped.length := by
    rw [hperm.length_eq, length_append]
  have hkept : ((inOrder compare held).map key).length = held.length := by
    rw [length_map, hheld.length_eq]
  rw [← hall]
  obtain hle | hlt := le_or_gt k seen.length
  · rw [take_left' (by omega)]
  · obtain rfl : dropped = [] := length_eq_zero_iff.mp (by omega)
    rw [show inOrder compare ([] : List α) = [] by simp [inOrder], map_nil, append_nil,
      take_of_length_le (by omega)]

end

end Invariant

end Zryna.LeastKept
