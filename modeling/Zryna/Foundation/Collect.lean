import Mathlib.Data.Finset.Card
import Zryna.Foundation.Checked
import Zryna.Foundation.OrderedMap

/-!
# Collecting a closure

A worklist loader: it loads a first key, then the keys that what is loaded asks for, each once and
in depth-first order, until nothing is asked for any more. It gives up at the first key that does
not load, and when more keys are asked for than there is room for.

`get?_collect` and `collect_succeeds`: the loader succeeds exactly when the keys that are needed all
load and fit, and it then holds these keys and no others.
-/

namespace Zryna

open OrderedMap List Option

variable {κ ν ε : Type} [LinearOrder κ]

section Collect

variable (load : κ → Except ε ν) (next : ν → List κ) (full : ε)

/-- Loads what is pending, with room for so many more keys. -/
def collect (room : ℕ) (pending : List κ) (loaded : OrderedMap κ ν) : Except ε (OrderedMap κ ν) :=
  match pending with
  | [] => .ok loaded
  | key :: pending =>
    if (loaded.get? key).isSome then collect room pending loaded
    else match room with
      | 0 => .error full
      | room + 1 => do
        let value ← load key
        collect room (next value ++ pending) (loaded.insert key value)
termination_by (room, pending.length)
decreasing_by
  · exact .right _ (Nat.lt_succ_self _)
  · exact .left _ _ (Nat.lt_succ_self _)

/-- The keys that a first key needs. -/
inductive Needed (first : κ) : κ → Prop
  | first : Needed first first
  | next {key key' : κ} {value : ν} (hkey : Needed first key) (hload : load key = .ok value)
    (hnext : key' ∈ next value) : Needed first key'

end Collect

variable {load : κ → Except ε ν} {next : ν → List κ} {full : ε}

/-! ### Rounds -/

section Rounds

variable {room : ℕ} {key : κ} {pending : List κ} {loaded : OrderedMap κ ν}

theorem collect_nil : collect load next full room [] loaded = .ok loaded := by
  rw [collect.eq_def]

theorem collect_loaded (h : (loaded.get? key).isSome) :
    collect load next full room (key :: pending) loaded
      = collect load next full room pending loaded := by
  rw [collect.eq_def]
  exact if_pos h

theorem collect_full (h : loaded.get? key = none) :
    collect load next full 0 (key :: pending) loaded = .error full := by
  rw [collect.eq_def]
  simp [h]

theorem collect_load (h : loaded.get? key = none) :
    collect load next full (room + 1) (key :: pending) loaded
      = load key >>= fun value =>
        collect load next full room (next value ++ pending) (loaded.insert key value) := by
  rw [collect.eq_def]
  simp [h]

end Rounds

/-! ### Runs -/

/-- What holds of the keys that are pending and of those that are loaded: all were asked for, and
what a loaded key asks for is loaded or pending. -/
structure Collected (load : κ → Except ε ν) (next : ν → List κ) (asked : κ → Prop)
    (pending : List κ) (loaded : OrderedMap κ ν) : Prop where
  asked_pending : ∀ key ∈ pending, asked key
  asked_loaded : ∀ key value, loaded.get? key = some value → asked key
  load_eq : ∀ key value, loaded.get? key = some value → load key = .ok value
  closed : ∀ key value, loaded.get? key = some value → ∀ key' ∈ next value,
    (loaded.get? key').isSome ∨ key' ∈ pending

namespace Collected

variable {asked : κ → Prop} {key : κ} {pending : List κ} {loaded : OrderedMap κ ν}

theorem skip (h : Collected load next asked (key :: pending) loaded)
    (hkey : (loaded.get? key).isSome) : Collected load next asked pending loaded where
  asked_pending key' hkey' := h.asked_pending key' (mem_cons_of_mem _ hkey')
  asked_loaded := h.asked_loaded
  load_eq := h.load_eq
  closed := by
    intro other value hother key' hkey'
    obtain hloaded | hpending := h.closed other value hother key' hkey'
    · exact .inl hloaded
    · obtain rfl | hpending := mem_cons.mp hpending
      · exact .inl hkey
      · exact .inr hpending

theorem insert (h : Collected load next asked (key :: pending) loaded) {value : ν}
    (hload : load key = .ok value) (hnext : ∀ key' ∈ next value, asked key') :
    Collected load next asked (next value ++ pending) (loaded.insert key value) where
  asked_pending := by
    intro key' hkey'
    obtain hkey' | hkey' := mem_append.mp hkey'
    · exact hnext key' hkey'
    · exact h.asked_pending key' (mem_cons_of_mem _ hkey')
  asked_loaded := by
    intro other value' hother
    rw [get?_insert] at hother
    split at hother
    · next heq => exact heq ▸ h.asked_pending key mem_cons_self
    · exact h.asked_loaded other value' hother
  load_eq := by
    intro other value' hother
    rw [get?_insert] at hother
    split at hother
    · next heq =>
      cases hother
      exact heq ▸ hload
    · exact h.load_eq other value' hother
  closed := by
    intro other value' hother key' hkey'
    rw [get?_insert] at hother ⊢
    split at hother
    · cases hother
      exact .inr (mem_append_left _ hkey')
    · obtain hloaded | hpending := h.closed other value' hother key' hkey'
      · left
        split
        · rfl
        · exact hloaded
      · obtain rfl | hpending := mem_cons.mp hpending
        · left
          rw [if_pos rfl]
          rfl
        · exact .inr (mem_append_right _ hpending)

end Collected

section Run

variable {asked : κ → Prop}
  (hasked : ∀ key value, asked key → load key = .ok value → ∀ key' ∈ next value, asked key')
include hasked

variable {loaded : OrderedMap κ ν} {pending : List κ} {room : ℕ}

/-- A run ends with nothing pending, keeps what is loaded, and stays within its room. -/
theorem collect_ok {m : OrderedMap κ ν} (h : Collected load next asked pending loaded)
    (hrun : collect load next full room pending loaded = .ok m) :
    Collected load next asked [] m ∧ m.size ≤ loaded.size + room
      ∧ (∀ key, (loaded.get? key).isSome ∨ key ∈ pending → (m.get? key).isSome) := by
  induction room, pending, loaded using collect.induct next with
  | case1 room loaded =>
    rw [collect_nil] at hrun
    cases hrun
    exact ⟨h, Nat.le_add_right _ _, fun key hkey => by simpa using hkey⟩
  | case2 room loaded key pending hkey ih =>
    rw [collect_loaded hkey] at hrun
    obtain ⟨hcollected, hsize, hall⟩ := ih (h.skip hkey) hrun
    refine ⟨hcollected, hsize, fun key' hkey' => hall key' ?_⟩
    obtain hloaded | hpending := hkey'
    · exact .inl hloaded
    · obtain rfl | hpending := mem_cons.mp hpending
      · exact .inl hkey
      · exact .inr hpending
  | case3 loaded key pending hkey =>
    rw [collect_full (not_isSome_iff_eq_none.mp hkey)] at hrun
    cases hrun
  | case4 loaded key pending hkey room ih =>
    have hnone := not_isSome_iff_eq_none.mp hkey
    rw [collect_load hnone, Checked.bind_eq_ok] at hrun
    obtain ⟨value, hload, hrun⟩ := hrun
    have hnext := hasked key value (h.asked_pending key mem_cons_self) hload
    obtain ⟨hcollected, hsize, hall⟩ := ih value (h.insert hload hnext) hrun
    rw [size_insert hnone] at hsize
    refine ⟨hcollected, by omega, fun key' hkey' => hall key' ?_⟩
    rw [get?_insert]
    split
    · exact .inl rfl
    · next hne =>
      obtain hloaded | hpending := hkey'
      · exact .inl hloaded
      · obtain rfl | hpending := mem_cons.mp hpending
        · exact absurd rfl hne
        · exact .inr (mem_append_right _ hpending)

/-- A run succeeds when everything that is asked for loads and fits. -/
theorem collect_complete {S : Finset κ} (hS : ∀ key, asked key → key ∈ S)
    (hload : ∀ key, asked key → ∃ value, load key = .ok value)
    (h : Collected load next asked pending loaded) (hroom : S.card ≤ loaded.size + room) :
    ∃ m, collect load next full room pending loaded = .ok m := by
  induction room, pending, loaded using collect.induct next with
  | case1 room loaded => exact ⟨loaded, collect_nil⟩
  | case2 room loaded key pending hkey ih =>
    rw [collect_loaded hkey]
    exact ih (h.skip hkey) hroom
  | case3 loaded key pending hkey =>
    -- the loaded keys and this one are more than there are
    have hsubset : insert key loaded.keys.toFinset ⊆ S := by
      intro key' hkey'
      obtain rfl | hmem := Finset.mem_insert.mp hkey'
      · exact hS _ (h.asked_pending _ mem_cons_self)
      · obtain ⟨value, hvalue⟩ :=
          isSome_iff_exists.mp (mem_keys.mp (mem_toFinset.mp hmem))
        exact hS _ (h.asked_loaded _ value hvalue)
    have hnot : key ∉ loaded.keys.toFinset := by
      rwa [List.mem_toFinset, OrderedMap.mem_keys]
    have hcard := Finset.card_le_card hsubset
    rw [Finset.card_insert_of_notMem hnot, toFinset_card_of_nodup loaded.nodup_keys,
      length_keys] at hcard
    omega
  | case4 loaded key pending hkey room ih =>
    have hnone := not_isSome_iff_eq_none.mp hkey
    have hasks := h.asked_pending key mem_cons_self
    obtain ⟨value, hvalue⟩ := hload key hasks
    obtain ⟨m, hm⟩ := ih value (h.insert hvalue (hasked key value hasks hvalue))
      (by rw [size_insert hnone]; omega)
    exact ⟨m, by rw [collect_load hnone, hvalue]; exact hm⟩

end Run

section First

variable {room : ℕ} {first : κ} {key : κ} {m : OrderedMap κ ν}

omit [LinearOrder κ] in
theorem Needed.step {value : ν} (hkey : Needed load next first key)
    (hload : load key = .ok value) : ∀ key' ∈ next value, Needed load next first key' :=
  fun _ hnext => .next hkey hload hnext

theorem collected_first : Collected load next (Needed load next first) [first] .empty := by
  refine ⟨?_, ?_, ?_, ?_⟩
  · intro key hkey
    rw [mem_singleton.mp hkey]
    exact .first
  all_goals
    intro key value hkey
    rw [get?_empty] at hkey
    cases hkey

section

variable (hrun : collect load next full room [first] .empty = .ok m)

include hrun

/-- A needed key is loaded in the end. -/
theorem isSome_collect (hkey : Needed load next first key) : ∃ value, m.get? key = some value := by
  obtain ⟨hcollected, -, hall⟩ := collect_ok (fun _ _ => Needed.step) collected_first hrun
  induction hkey with
  | first => exact isSome_iff_exists.mp (hall first (.inr mem_cons_self))
  | next hkey hload hnext ih =>
    obtain ⟨value, hget⟩ := ih
    obtain rfl := Except.ok.inj ((hcollected.load_eq _ _ hget).symm.trans hload)
    have hclosed := hcollected.closed _ _ hget _ hnext
    rwa [or_iff_left not_mem_nil, isSome_iff_exists] at hclosed

/-- The loader holds the keys that are needed and no others. -/
theorem get?_collect (key : κ) (value : ν) :
    m.get? key = some value ↔ Needed load next first key ∧ load key = .ok value := by
  obtain ⟨hcollected, -, -⟩ := collect_ok (fun _ _ => Needed.step) collected_first hrun
  constructor
  · exact fun hget => ⟨hcollected.asked_loaded key value hget, hcollected.load_eq key value hget⟩
  · rintro ⟨hkey, hvalue⟩
    obtain ⟨value', hget⟩ := isSome_collect hrun hkey
    rw [hget, Option.some.injEq]
    exact Except.ok.inj ((hcollected.load_eq _ _ hget).symm.trans hvalue)

theorem size_collect : m.size ≤ room := by
  obtain ⟨-, hsize, -⟩ := collect_ok (fun _ _ => Needed.step) collected_first hrun
  simpa [size, empty] using hsize

end

/-- The loader succeeds when all needed keys load and fit. -/
theorem collect_succeeds {S : Finset κ} (hS : ∀ key, Needed load next first key → key ∈ S)
    (hcard : S.card ≤ room)
    (hload : ∀ key, Needed load next first key → ∃ value, load key = .ok value) :
    ∃ m, collect load next full room [first] .empty = .ok m :=
  collect_complete (fun _ _ => Needed.step) hS hload collected_first
    (hcard.trans (Nat.le_add_left _ _))

end First

end Zryna
