import Mathlib.Data.List.Pairwise
import Mathlib.Order.Lattice

/-!
# Ordered maps

A finite map whose entries are kept in increasing key order, as a balanced search tree keeps them.
The order is a field of the map, so every map value is ordered and lookups, neighbours and
iteration agree.

The neighbours of a key are what a range query returns first: `lastLE?` is the entry with the
greatest key at most `k`, `firstGE?` the entry with the least key at least `k`.
-/

namespace Zryna

/-- In a table with one entry for each key the entries are what is looked up. -/
theorem mem_iff_lookup {κ β : Type} [DecidableEq κ] {l : List (κ × β)}
    (hnd : (l.map Prod.fst).Nodup) {k : κ} {b : β} : (k, b) ∈ l ↔ l.lookup k = some b := by
  induction l with
  | nil => simp
  | cons e l ih =>
    obtain ⟨key, value⟩ := e
    rw [List.map_cons, List.nodup_cons] at hnd
    rw [List.mem_cons, List.lookup_cons, ih hnd.2]
    by_cases hkey : k = key
    · subst hkey
      have hnone : l.lookup k ≠ some b := fun h =>
        hnd.1 (List.mem_map.mpr ⟨(k, b), (ih hnd.2).mpr h, rfl⟩)
      simp [hnone, eq_comm]
    · have hk : (k == key) = false := by simp [hkey]
      simp [hkey, hk]

/-- A finite map with its entries in strictly increasing key order. -/
structure OrderedMap (κ ν : Type) [LinearOrder κ] where
  entries : List (κ × ν)
  sorted : entries.Pairwise fun a b => a.1 < b.1

namespace OrderedMap

open List

variable {κ ν : Type} [LinearOrder κ]

instance [DecidableEq ν] : DecidableEq (OrderedMap κ ν) := fun a b =>
  decidable_of_iff (a.entries = b.entries) ⟨fun h => by cases a; cases b; congr, fun h => h ▸ rfl⟩

/-- The map without entries. -/
def empty : OrderedMap κ ν := ⟨[], .nil⟩

/-- Insertion into ordered entries, replacing the entry of the same key. -/
def insertEntry (k : κ) (v : ν) : List (κ × ν) → List (κ × ν)
  | [] => [(k, v)]
  | e :: entries =>
    if k < e.1 then (k, v) :: e :: entries
    else if k = e.1 then (k, v) :: entries
    else e :: insertEntry k v entries

theorem mem_insertEntry {k : κ} {v : ν} {entries : List (κ × ν)}
    (h : entries.Pairwise fun a b => a.1 < b.1) {e : κ × ν} :
    e ∈ insertEntry k v entries ↔ e = (k, v) ∨ e ∈ entries ∧ e.1 ≠ k := by
  induction entries with
  | nil => simp [insertEntry]
  | cons d entries ih =>
    obtain ⟨hd, htail⟩ := pairwise_cons.mp h
    have hne : ∀ a ∈ entries, a.1 ≠ d.1 := fun a ha => (hd a ha).ne'
    unfold insertEntry
    split
    · next hlt =>
      have hd' : d.1 ≠ k := hlt.ne'
      have hall : ∀ a ∈ entries, a.1 ≠ k := fun a ha => (hlt.trans (hd a ha)).ne'
      grind
    · split
      · next hk => grind
      · next hk => grind

theorem sorted_insertEntry {k : κ} {v : ν} {entries : List (κ × ν)}
    (h : entries.Pairwise fun a b => a.1 < b.1) :
    (insertEntry k v entries).Pairwise fun a b => a.1 < b.1 := by
  induction entries with
  | nil => simp [insertEntry]
  | cons d entries ih =>
    obtain ⟨hd, htail⟩ := pairwise_cons.mp h
    unfold insertEntry
    split
    · next hlt =>
      refine pairwise_cons.mpr ⟨fun a ha => ?_, h⟩
      obtain rfl | ha := mem_cons.mp ha
      · exact hlt
      · exact hlt.trans (hd a ha)
    · split
      · next hk =>
        exact pairwise_cons.mpr ⟨fun a ha => hk ▸ hd a ha, htail⟩
      · next hlt hne =>
        refine pairwise_cons.mpr ⟨fun a ha => ?_, ih htail⟩
        obtain rfl | ⟨ha, -⟩ := (mem_insertEntry htail).mp ha
        · exact lt_of_le_of_ne (not_lt.mp hlt) (Ne.symm hne)
        · exact hd a ha

section

variable (m : OrderedMap κ ν) (k : κ)

/-- The map with the value of a key set. -/
def insert (v : ν) : OrderedMap κ ν :=
  ⟨insertEntry k v m.entries, sorted_insertEntry m.sorted⟩

/-- The map without a key. -/
def erase : OrderedMap κ ν :=
  ⟨m.entries.filter fun e => e.1 ≠ k, m.sorted.filter _⟩

/-- The value of a key. -/
def get? : Option ν :=
  (m.entries.find? fun e => e.1 = k).map Prod.snd

/-- The entry with the greatest key at most `k`. -/
def lastLE? : Option (κ × ν) :=
  (m.entries.filter fun e => e.1 ≤ k).getLast?

/-- The entry with the least key at least `k`. -/
def firstGE? : Option (κ × ν) := m.entries.find? fun e => k ≤ e.1

end

/-- The number of entries. -/
def size (m : OrderedMap κ ν) : ℕ := m.entries.length

variable {m : OrderedMap κ ν} {k : κ} {v : ν} {e : κ × ν}

@[simp] theorem mem_insert : e ∈ (m.insert k v).entries ↔ e = (k, v) ∨ e ∈ m.entries ∧ e.1 ≠ k :=
  mem_insertEntry m.sorted

@[simp] theorem mem_erase : e ∈ (m.erase k).entries ↔ e ∈ m.entries ∧ e.1 ≠ k := by
  simp [erase]

theorem eq_of_key_eq {a b : κ × ν} (ha : a ∈ m.entries) (hb : b ∈ m.entries) (h : a.1 = b.1) :
    a = b := by
  obtain ⟨entries, sorted⟩ := m
  dsimp only at ha hb
  induction entries with
  | nil => cases ha
  | cons d entries ih =>
    obtain ⟨hd, htail⟩ := pairwise_cons.mp sorted
    rcases mem_cons.mp ha with hda | ha' <;> rcases mem_cons.mp hb with hdb | hb'
    · exact hda.trans hdb.symm
    · exact absurd (hda ▸ h) (hd b hb').ne
    · exact absurd (hdb ▸ h) (hd a ha').ne'
    · exact ih htail ha' hb'

theorem get?_eq_some : m.get? k = some v ↔ (k, v) ∈ m.entries := by
  unfold get?
  constructor
  · intro h
    obtain ⟨e, he, rfl⟩ := Option.map_eq_some_iff.mp h
    have hk : e.1 = k := by simpa using find?_some he
    exact hk ▸ mem_of_find?_eq_some he
  · intro h
    cases hfind : m.entries.find? fun e => e.1 = k with
    | none => simpa using find?_eq_none.mp hfind (k, v) h
    | some e =>
      have hk : e.1 = k := by simpa using find?_some hfind
      rw [eq_of_key_eq (mem_of_find?_eq_some hfind) h hk]
      rfl

theorem get?_empty : (empty : OrderedMap κ ν).get? k = none := rfl

theorem get?_insert {j : κ} : (m.insert k v).get? j = if j = k then some v else m.get? j := by
  ext w
  rw [get?_eq_some, mem_insert]
  split
  · next h => simp [h, eq_comm]
  · next h => simp [h, get?_eq_some]

theorem get?_erase {j : κ} : (m.erase k).get? j = if j = k then none else m.get? j := by
  ext w
  rw [get?_eq_some, mem_erase]
  split
  · next h => simp [h]
  · next h => simp [h, get?_eq_some]

/-! ### Keys -/

def keys (m : OrderedMap κ ν) : List κ := m.entries.map Prod.fst

theorem nodup_keys (m : OrderedMap κ ν) : m.keys.Nodup := by
  rw [keys, List.Nodup, pairwise_map]
  exact m.sorted.imp fun h => h.ne

theorem mem_keys : k ∈ m.keys ↔ (m.get? k).isSome := by
  rw [keys, mem_map, Option.isSome_iff_exists]
  constructor
  · rintro ⟨⟨k, v⟩, hmem, rfl⟩
    exact ⟨v, get?_eq_some.mpr hmem⟩
  · rintro ⟨v, hv⟩
    exact ⟨(k, v), get?_eq_some.mp hv, rfl⟩

theorem mem_keys_insert {j : κ} : j ∈ (m.insert k v).keys ↔ j = k ∨ j ∈ m.keys := by
  rw [mem_keys, mem_keys, get?_insert]
  by_cases hj : j = k <;> simp [hj]

theorem keys_eq_of_perm {μ : Type} {m' : OrderedMap κ μ} (h : m.keys.Perm m'.keys) :
    m.keys = m'.keys :=
  h.eq_of_pairwise (fun _ _ _ _ hlt hgt => absurd hlt hgt.asymm) (pairwise_map.mpr m.sorted)
    (pairwise_map.mpr m'.sorted)

/-- A replacement leaves the keys as they are. -/
theorem keys_insert (h : k ∈ m.keys) : (m.insert k v).keys = m.keys := by
  obtain ⟨entries, sorted⟩ := m
  show (insertEntry k v entries).map Prod.fst = entries.map Prod.fst
  replace h : k ∈ entries.map Prod.fst := h
  induction entries with
  | nil => cases h
  | cons d entries ih =>
    obtain ⟨hd, htail⟩ := pairwise_cons.mp sorted
    unfold insertEntry
    rw [map_cons, mem_cons] at h
    obtain rfl | hmem := h
    · rw [if_neg (lt_irrefl _), if_pos rfl]
      rfl
    · obtain ⟨e, he, rfl⟩ := mem_map.mp hmem
      rw [if_neg (hd e he).not_gt, if_neg (hd e he).ne', map_cons, map_cons,
        ih htail (mem_map_of_mem he)]

theorem length_keys (m : OrderedMap κ ν) : m.keys.length = m.size := by
  simp [keys, size]

theorem nodup_entries (m : OrderedMap κ ν) : m.entries.Nodup :=
  m.sorted.imp fun hlt heq => hlt.ne (congrArg Prod.fst heq)

/-- A removal splits the entry of its key off. -/
theorem perm_erase (h : m.get? k = some v) : m.entries.Perm ((k, v) :: (m.erase k).entries) := by
  have hmem : (k, v) ∈ m.entries := get?_eq_some.mp h
  have hnodup : ((k, v) :: (m.erase k).entries).Nodup :=
    nodup_cons.mpr ⟨fun hmem => (mem_erase.mp hmem).2 rfl, (m.erase k).nodup_entries⟩
  refine (perm_ext_iff_of_nodup m.nodup_entries hnodup).mpr fun a => ?_
  rw [mem_cons, mem_erase]
  constructor
  · intro ha
    by_cases hk : a.1 = k
    · exact .inl (eq_of_key_eq ha hmem hk)
    · exact .inr ⟨ha, hk⟩
  · rintro (rfl | ⟨ha, -⟩)
    · exact hmem
    · exact ha

/-- An insertion of a new key adds its entry. -/
theorem perm_insert (h : m.get? k = none) : (m.insert k v).entries.Perm ((k, v) :: m.entries) := by
  have hne : ∀ e ∈ m.entries, e.1 ≠ k := by
    rintro ⟨k', v'⟩ he rfl
    rw [get?_eq_some.mpr he] at h
    cases h
  have hnodup : ((k, v) :: m.entries).Nodup :=
    nodup_cons.mpr ⟨fun hmem => hne _ hmem rfl, m.nodup_entries⟩
  refine (perm_ext_iff_of_nodup (m.insert k v).nodup_entries hnodup).mpr fun a => ?_
  rw [mem_cons, mem_insert]
  exact or_congr_right ⟨And.left, fun ha => ⟨ha, hne a ha⟩⟩

/-- A new key is one more entry. -/
theorem size_insert (h : m.get? k = none) : (m.insert k v).size = m.size + 1 :=
  (perm_insert h).length_eq

/-- The map with the values of several keys set. -/
def insertAll (m : OrderedMap κ ν) (xs : List (κ × ν)) : OrderedMap κ ν :=
  xs.foldl (fun m x => m.insert x.1 x.2) m

theorem perm_insertAll {xs : List (κ × ν)} (hnodup : (xs.map Prod.fst).Nodup)
    (hnew : ∀ x ∈ xs, m.get? x.1 = none) : (m.insertAll xs).entries.Perm (xs ++ m.entries) := by
  induction xs generalizing m with
  | nil => exact .refl _
  | cons x xs ih =>
    obtain ⟨hx, hnodup⟩ := nodup_cons.mp hnodup
    obtain ⟨hfirst, hrest⟩ := forall_mem_cons.mp hnew
    have hnew' : ∀ y ∈ xs, (m.insert x.1 x.2).get? y.1 = none := fun y hy => by
      have hne : y.1 ≠ x.1 := fun heq => hx (heq ▸ mem_map_of_mem hy)
      rw [get?_insert, if_neg hne]
      exact hrest y hy
    calc ((m.insert x.1 x.2).insertAll xs).entries
        _ ~ xs ++ (m.insert x.1 x.2).entries := ih hnodup hnew'
        _ ~ xs ++ (x :: m.entries) := (perm_insert hfirst).append_left xs
        _ ~ x :: (xs ++ m.entries) := perm_middle

theorem perm_insertAll_empty {xs : List (κ × ν)} (hnodup : (xs.map Prod.fst).Nodup) :
    (empty.insertAll xs).entries.Perm xs := by
  have hperm := perm_insertAll hnodup fun x _ => get?_empty
  rwa [empty, append_nil] at hperm

theorem erase_eq_self (h : m.get? k = none) : m.erase k = m := by
  have hfilter : m.entries.filter (fun e => e.1 ≠ k) = m.entries := by
    refine filter_eq_self.mpr fun e he => decide_eq_true ?_
    rintro rfl
    rw [get?_eq_some.mpr he] at h
    cases h
  obtain ⟨entries, sorted⟩ := m
  exact (OrderedMap.mk.injEq ..).mpr hfilter

/-! ### Neighbours -/

theorem lastLE?_eq_none : m.lastLE? k = none ↔ ∀ a ∈ m.entries, k < a.1 := by
  simp [lastLE?]

theorem firstGE?_eq_none : m.firstGE? k = none ↔ ∀ a ∈ m.entries, a.1 < k := by
  simp [firstGE?]

/-- The predecessor of a key: no entry lies strictly between them. -/
theorem lastLE?_eq_some (h : m.lastLE? k = some e) :
    e ∈ m.entries ∧ e.1 ≤ k ∧ ∀ a ∈ m.entries, a.1 ≤ k → a.1 < e.1 ∨ a = e := by
  obtain ⟨pre, hpre⟩ := getLast?_eq_some_iff.mp h
  have hmem : e ∈ m.entries.filter fun e => e.1 ≤ k := by rw [hpre]; simp
  have hsorted := m.sorted.filter fun e => e.1 ≤ k
  rw [hpre, pairwise_append] at hsorted
  refine ⟨(mem_filter.mp hmem).1, by simpa using (mem_filter.mp hmem).2, ?_⟩
  intro a ha hle
  have hin : a ∈ m.entries.filter fun e => e.1 ≤ k := mem_filter.mpr ⟨ha, by simpa using hle⟩
  rw [hpre, mem_append, mem_singleton] at hin
  exact hin.imp_left fun hin => hsorted.2.2 a hin e (by simp)

/-- The successor of a key. -/
theorem firstGE?_eq_some (h : m.firstGE? k = some e) :
    e ∈ m.entries ∧ k ≤ e.1 ∧ ∀ a ∈ m.entries, k ≤ a.1 → e.1 < a.1 ∨ a = e := by
  obtain ⟨hle, pre, post, hsplit, hpre⟩ := find?_eq_some_iff_append.mp h
  have hsorted := m.sorted
  rw [hsplit, pairwise_append, pairwise_cons] at hsorted
  refine ⟨by rw [hsplit]; simp, by simpa using hle, ?_⟩
  intro a ha hka
  rw [hsplit, mem_append, mem_cons] at ha
  rcases ha with ha | rfl | ha
  · have := hpre a ha
    simp [hka] at this
  · exact .inr rfl
  · exact .inl (hsorted.2.1.1 a ha)

end OrderedMap

end Zryna
