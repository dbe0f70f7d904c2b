import Zryna.Foundation.Gather

/-!
# Spreading a failure

A worklist that unsets the flags of all nodes that depend on a node whose flag is unset. A node is
taken from the top of the list, and its dependents whose flags are still set are unset and added.
At the end a flag is unset exactly when the node depends, in any number of steps, on a node whose
flag was unset at the beginning (`spread_spec`).
-/

namespace Zryna

open Relation List

/-- Unsets the flags of some nodes, and adds those whose flags were set to the list. -/
def unset (flags : List Bool) (pending : List ℕ) : List ℕ → List Bool × List ℕ
  | [] => (flags, pending)
  | v :: vs =>
    if flags[v]? = some true then unset (flags.set v false) (v :: pending) vs
    else unset flags pending vs

variable {flags : List Bool} {pending : List ℕ}

@[simp] theorem length_unset (vs : List ℕ) : (unset flags pending vs).1.length = flags.length := by
  induction vs generalizing flags pending with
  | nil => rfl
  | cons v vs ih =>
    rw [unset]
    split
    · rw [ih, length_set]
    · exact ih

theorem getElem?_set_false {v u : ℕ} (hv : flags[v]? = some true) :
    (flags.set v false)[u]? = some false ↔ flags[u]? = some false ∨ u = v := by
  obtain ⟨hlt, -⟩ := List.getElem?_eq_some_iff.mp hv
  by_cases h : v = u
  · subst h
    simp [getElem?_set_self hlt]
  · rw [getElem?_set_ne h]
    exact ⟨.inl, fun hu => hu.resolve_right (Ne.symm h)⟩

/-- Unsetting a flag and adding its node keeps the total. -/
theorem count_unset (vs : List ℕ) :
    (unset flags pending vs).1.count true + (unset flags pending vs).2.length
      = flags.count true + pending.length := by
  induction vs generalizing flags pending with
  | nil => rfl
  | cons v vs ih =>
    rw [unset]
    split
    · next hv =>
      obtain ⟨hlt, hget⟩ := List.getElem?_eq_some_iff.mp hv
      have hpos : 0 < flags.count true := count_pos_iff.mpr (hget ▸ getElem_mem hlt)
      have hset : (flags.set v false).count true = flags.count true - 1 := by
        rw [count_set hlt, hget]
        simp
      rw [ih, hset, length_cons]
      omega
    · exact ih

/-- What is unset afterwards, and what was added. -/
theorem unset_spec {vs : List ℕ} (hvs : ∀ v ∈ vs, v < flags.length) (u : ℕ) :
    ((unset flags pending vs).1[u]? = some false ↔ flags[u]? = some false ∨ u ∈ vs)
      ∧ (u ∈ (unset flags pending vs).2 ↔ u ∈ pending ∨ u ∈ vs ∧ ¬ flags[u]? = some false) := by
  induction vs generalizing flags pending with
  | nil => simp [unset]
  | cons v vs ih =>
    obtain ⟨hv, hvs⟩ := forall_mem_cons.mp hvs
    rw [unset]
    split
    · next hset =>
      obtain ⟨hflags, hpending⟩ := @ih (flags.set v false) (v :: pending)
        (by rwa [length_set])
      have hunset : ¬ flags[v]? = some false := by
        rw [hset]
        simp
      rw [hflags, hpending, getElem?_set_false hset, mem_cons, mem_cons]
      grind
    · next hnot =>
      obtain ⟨hflags, hpending⟩ := @ih flags pending hvs
      have hunset : flags[v]? = some false := by
        rw [getElem?_eq_getElem hv] at hnot ⊢
        simpa using hnot
      rw [hflags, hpending, mem_cons]
      grind

/-- The loop. Every round takes a node from the list. -/
def spread (dependents : ℕ → List ℕ) (flags : List Bool) (pending : List ℕ) : List Bool :=
  match pending with
  | [] => flags
  | v :: pending =>
    let next := unset flags pending (dependents v)
    spread dependents next.1 next.2
termination_by flags.count true + pending.length
decreasing_by
  rw [count_unset, length_cons]
  omega

variable {dependents : ℕ → List ℕ} {starts : List ℕ}

theorem spread_gathering (hrange : ∀ v, ∀ u ∈ dependents v, u < flags.length)
    (h : Gathering dependents (fun _ => False) starts (fun u => flags[u]? = some false) pending) :
    Gathering dependents (fun _ => False) starts
        (fun u => (spread dependents flags pending)[u]? = some false) []
      ∧ (spread dependents flags pending).length = flags.length := by
  induction hsize : flags.count true + pending.length using Nat.strongRecOn
    generalizing flags pending with
  | _ size ih =>
  cases pending with
  | nil =>
    rw [spread]
    exact ⟨h, rfl⟩
  | cons v pending =>
    rw [spread]
    have hunset := fun u => @unset_spec flags pending _ (hrange v) u
    have hnext := h.step (fun u => (hunset u).1) (fun u => (hunset u).2)
    obtain ⟨hend, hlength⟩ := ih _ (by rw [← hsize, count_unset, length_cons]; omega)
      (by rwa [length_unset]) hnext rfl
    exact ⟨hend, hlength.trans (length_unset _)⟩

theorem spread_start (hpending : ∀ u, u ∈ pending ↔ flags[u]? = some false) :
    Gathering dependents (fun _ => False) pending (fun u => flags[u]? = some false) pending := by
  have hseen : (fun u => flags[u]? = some false) = fun u => False ∨ u ∈ pending :=
    funext fun u => by rw [false_or, hpending]
  rw [hseen]
  exact Gathering.start

variable (hrange : ∀ v, ∀ u ∈ dependents v, u < flags.length)
  (hpending : ∀ u, u ∈ pending ↔ flags[u]? = some false)

include hrange hpending

/-- A flag is unset at the end exactly when the node depends on one that was unset at the
beginning. -/
theorem spread_spec (u : ℕ) :
    (spread dependents flags pending)[u]? = some false
      ↔ ∃ w, flags[w]? = some false ∧ ReflTransGen (fun a b => a ∈ dependents b) u w := by
  rw [(spread_gathering hrange (spread_start hpending)).1.seen_iff (x := u), false_or, ReachesStart]
  simp only [hpending, not_false_eq_true, and_true]

@[simp] theorem length_spread :
    (spread dependents flags pending).length = flags.length :=
  (spread_gathering hrange (spread_start hpending)).2

end Zryna
