import Mathlib.Logic.Relation
import Mathlib.Data.List.Basic

/-!
# Gathering what reaches a start

A backward walk over a graph: take a node from a work list and add its predecessors that were not
seen yet, to what is seen and to the list. Nodes of `before` count as seen from the beginning. The
walk ends with the nodes of `before` and those that reach a start through nodes outside `before`
(`Gathering.seen_iff`), in whatever order the list is taken.
-/

namespace Zryna

open Relation List

variable {α : Type*} {preds : α → List α} {before : α → Prop} {starts : List α}

/-- `x` reaches a start, and no node it passes on the way is in `before`. -/
def ReachesStart (preds : α → List α) (before : α → Prop) (starts : List α) (x : α) : Prop :=
  ∃ w ∈ starts, ReflTransGen (fun u v => u ∈ preds v ∧ ¬ before u) x w

/-- What holds of the walk whenever it looks at its list. -/
structure Gathering (preds : α → List α) (before : α → Prop) (starts : List α)
    (seen : α → Prop) (work : List α) : Prop where
  seen_before : ∀ x, before x → seen x
  seen_starts : ∀ x ∈ starts, seen x
  seen_work : ∀ x ∈ work, seen x
  seen_reaches : ∀ x, seen x → before x ∨ ReachesStart preds before starts x
  work_reaches : ∀ x ∈ work, ReachesStart preds before starts x
  expanded : ∀ x, x ∈ starts ∨ seen x ∧ ¬ before x → x ∈ work ∨ ∀ p ∈ preds x, seen p

namespace Gathering

variable {seen seen' : α → Prop} {x : α} {work work' : List α}

theorem start : Gathering preds before starts (fun x => before x ∨ x ∈ starts) starts where
  seen_before _ hx := .inl hx
  seen_starts _ hx := .inr hx
  seen_work _ hx := .inr hx
  seen_reaches x hx := hx.imp id fun hx => ⟨x, hx, .refl⟩
  work_reaches x hx := ⟨x, hx, .refl⟩
  expanded x hx := by
    rcases hx with hx | ⟨hx | hx, hbefore⟩
    · exact .inl hx
    · exact absurd hx hbefore
    · exact .inl hx

theorem step (h : Gathering preds before starts seen (x :: work))
    (hseen : ∀ y, seen' y ↔ seen y ∨ y ∈ preds x)
    (hwork : ∀ y, y ∈ work' ↔ y ∈ work ∨ y ∈ preds x ∧ ¬ seen y) :
    Gathering preds before starts seen' work' := by
  have hnew : ∀ y, y ∈ preds x → ¬ seen y → ReachesStart preds before starts y := by
    intro y hy hunseen
    obtain ⟨w, hw, hpath⟩ := h.work_reaches x mem_cons_self
    exact ⟨w, hw, hpath.head ⟨hy, fun hbefore => hunseen (h.seen_before y hbefore)⟩⟩
  refine ⟨fun y hy => (hseen y).mpr (.inl (h.seen_before y hy)),
    fun y hy => (hseen y).mpr (.inl (h.seen_starts y hy)), ?_, ?_, ?_, ?_⟩
  · intro y hy
    rcases (hwork y).mp hy with hy | ⟨hy, -⟩
    · exact (hseen y).mpr (.inl (h.seen_work y (mem_cons_of_mem _ hy)))
    · exact (hseen y).mpr (.inr hy)
  · intro y hy
    by_cases hold : seen y
    · exact h.seen_reaches y hold
    · exact .inr (hnew y (((hseen y).mp hy).resolve_left hold) hold)
  · intro y hy
    rcases (hwork y).mp hy with hy | ⟨hy, hunseen⟩
    · exact h.work_reaches y (mem_cons_of_mem _ hy)
    · exact hnew y hy hunseen
  · intro y hy
    by_cases hold : y ∈ starts ∨ seen y ∧ ¬ before y
    · rcases h.expanded y hold with hy | hy
      · rcases mem_cons.mp hy with rfl | hy
        · exact .inr fun p hp => (hseen p).mpr (.inr hp)
        · exact .inl ((hwork y).mpr (.inl hy))
      · exact .inr fun p hp => (hseen p).mpr (.inl (hy p hp))
    · obtain ⟨hstart, hnot⟩ := not_or.mp hold
      obtain ⟨hy, hbefore⟩ := hy.resolve_left hstart
      have hunseen : ¬ seen y := fun hold => hnot ⟨hold, hbefore⟩
      exact .inl ((hwork y).mpr (.inr ⟨((hseen y).mp hy).resolve_left hunseen, hunseen⟩))

/-- What a finished walk has seen. -/
theorem seen_iff (h : Gathering preds before starts seen []) :
    seen x ↔ before x ∨ ReachesStart preds before starts x := by
  refine ⟨h.seen_reaches x, ?_⟩
  rintro (hx | ⟨w, hw, hpath⟩)
  · exact h.seen_before x hx
  · -- every node of the path is a start or was added outside `before`
    have hlive : w ∈ starts ∨ seen w ∧ ¬ before w := .inl hw
    have hseen : seen w := h.seen_starts w hw
    suffices h' : seen x ∧ (x ∈ starts ∨ seen x ∧ ¬ before x) from h'.1
    induction hpath using ReflTransGen.head_induction_on with
    | refl => exact ⟨hseen, hlive⟩
    | @head u v hstep _ ih =>
      have hu : seen u :=
        (h.expanded v ih.2).resolve_left not_mem_nil u hstep.1
      exact ⟨hu, .inr ⟨hu, hstep.2⟩⟩

end Gathering

end Zryna
