import Mathlib.Order.Lattice.Nat
import Zryna.Foundation.Dominance

/-!
# Walks and their retreating edges

Let the nodes of a rooted graph be visited in a fixed order, again and again. One round carries a
fact along every walk whose edges go forward in that order, and an edge that does not, a
*retreating* one, has to wait for the next round. What a round misses is therefore counted by the
retreating edges of a walk.

`RetreatWalk E pos r d k v` is a walk from `r` to `v` with `k` retreating edges that does not touch
`d`. Two facts are used of it: a walk either avoids a further node `b` or reaches `b` on the way
with no more retreating edges (`RetreatWalk.split`), and fewer retreating edges than there are
nodes suffice (`RetreatWalk.exists_lt`).
-/

namespace Zryna

variable {α : Type*} {E : α → α → Prop} {pos : α → ℕ} {r d v : α} {k : ℕ}

/-- A walk from `r` that avoids `d`, with the number of its retreating edges. -/
inductive RetreatWalk (E : α → α → Prop) (pos : α → ℕ) (r d : α) : ℕ → α → Prop where
  | root (hne : d ≠ r) : RetreatWalk E pos r d 0 r
  | advance {k : ℕ} {u v : α} (h : RetreatWalk E pos r d k u) (hedge : E u v) (hne : v ≠ d)
    (hlt : pos u < pos v) : RetreatWalk E pos r d k v
  | retreat {k : ℕ} {u v : α} (h : RetreatWalk E pos r d k u) (hedge : E u v) (hne : v ≠ d)
    (hle : pos v ≤ pos u) : RetreatWalk E pos r d (k + 1) v

theorem RetreatWalk.avoids (h : RetreatWalk E pos r d k v) : Avoids E r d v := by
  induction h with
  | root hne => exact ⟨hne, .refl⟩
  | advance _ hedge hne _ ih => exact ih.tail hedge hne.symm
  | retreat _ hedge hne _ ih => exact ih.tail hedge hne.symm

theorem Avoids.exists_retreatWalk (pos : α → ℕ) (h : Avoids E r d v) :
    ∃ k, RetreatWalk E pos r d k v := by
  obtain ⟨hne, hpath⟩ := h
  induction hpath with
  | refl => exact ⟨0, .root hne⟩
  | @tail u v _ hstep ih =>
    obtain ⟨k, hwalk⟩ := ih
    rcases Nat.lt_or_ge (pos u) (pos v) with hlt | hle
    · exact ⟨k, hwalk.advance hstep.1 hstep.2 hlt⟩
    · exact ⟨k + 1, hwalk.retreat hstep.1 hstep.2 hle⟩

/-- A walk avoids `b` as well, or passes it. -/
theorem RetreatWalk.split (h : RetreatWalk E pos r d k v) {b : α} (hb : b ≠ r) :
    RetreatWalk E pos r b k v ∨ ∃ j ≤ k, RetreatWalk E pos r d j b := by
  induction h with
  | root _ => exact .inl (.root hb)
  | @advance k u v h hedge hne hlt ih =>
    obtain hu | hpass := ih
    · by_cases hv : v = b
      · exact .inr ⟨k, le_refl k, hv ▸ h.advance hedge hne hlt⟩
      · exact .inl (hu.advance hedge hv hlt)
    · exact .inr hpass
  | @retreat k u v h hedge hne hle ih =>
    obtain hu | ⟨j, hj, hpass⟩ := ih
    · by_cases hv : v = b
      · exact .inr ⟨k + 1, le_refl _, hv ▸ h.retreat hedge hne hle⟩
      · exact .inl (hu.retreat hedge hv hle)
    · exact .inr ⟨j, by omega, hpass⟩

/-! ### Levels -/

/-- The least number of retreating edges that a walk to `v` needs. -/
noncomputable def retreatLevel (E : α → α → Prop) (pos : α → ℕ) (r d v : α) : ℕ :=
  sInf {k | RetreatWalk E pos r d k v}

section

variable (h : RetreatWalk E pos r d k v)

include h

theorem RetreatWalk.level_le : retreatLevel E pos r d v ≤ k :=
  Nat.sInf_le h

theorem RetreatWalk.level : RetreatWalk E pos r d (retreatLevel E pos r d v) v :=
  Nat.sInf_mem (s := {k | RetreatWalk E pos r d k v}) ⟨k, h⟩

/-- The levels grow by at most one along an edge, so none is left out. -/
theorem RetreatWalk.exists_level {i : ℕ}
    (hi : i ≤ retreatLevel E pos r d v) : ∃ u, Avoids E r d u ∧ retreatLevel E pos r d u = i := by
  induction h with
  | root hne =>
    have hroot : RetreatWalk E pos r d 0 r := .root hne
    have hzero := hroot.level_le
    exact ⟨r, ⟨hne, .refl⟩, by omega⟩
  | @advance k u v h hedge hne hlt ih =>
    have hle := (h.level.advance hedge hne hlt).level_le
    exact ih (by omega)
  | @retreat k u v h hedge hne hle ih =>
    have hnext := (h.level.retreat hedge hne hle).level_le
    by_cases hu : i ≤ retreatLevel E pos r d u
    · exact ih hu
    · exact ⟨v, (h.retreat hedge hne hle).avoids, by omega⟩

/-- Nodes at different levels are different, so there are no more levels than nodes. -/
theorem RetreatWalk.exists_lt {nodes : Finset α}
    (hnodes : ∀ u, Avoids E r d u → u ∈ nodes) : ∃ j < nodes.card, RetreatWalk E pos r d j v := by
  classical
  refine ⟨_, ?_, h.level⟩
  have hsub : Finset.range (retreatLevel E pos r d v + 1)
      ⊆ nodes.image (retreatLevel E pos r d) := by
    intro i hi
    obtain ⟨u, hu, rfl⟩ := h.exists_level (Nat.lt_succ_iff.mp (Finset.mem_range.mp hi))
    exact Finset.mem_image_of_mem _ (hnodes u hu)
  calc retreatLevel E pos r d v
      < (Finset.range (retreatLevel E pos r d v + 1)).card := by
        rw [Finset.card_range]
        exact Nat.lt_succ_self _
    _ ≤ (nodes.image (retreatLevel E pos r d)).card := Finset.card_le_card hsub
    _ ≤ nodes.card := Finset.card_image_le

end

end Zryna
