import Mathlib.Logic.Relation

/-!
# Dominance in a rooted graph

`Dominates E r d b` says that every path from the root `r` to `b` passes `d`. A path that avoids
`d` is a chain of edges none of whose nodes is `d`, so dominance is the absence of such a chain.
-/

namespace Zryna

variable {α : Type*} {E : α → α → Prop} {r d b p : α}

/-- There is a path from `r` to `b` that does not touch `d`. -/
def Avoids (E : α → α → Prop) (r d b : α) : Prop :=
  d ≠ r ∧ Relation.ReflTransGen (fun u v => E u v ∧ v ≠ d) r b

/-- Every path from `r` to `b` passes `d`. -/
def Dominates (E : α → α → Prop) (r d b : α) : Prop := ¬ Avoids E r d b

theorem Avoids.ne (h : Avoids E r d b) : d ≠ b := by
  obtain ⟨hr, hpath⟩ := h
  cases hpath with
  | refl => exact hr
  | tail _ hstep => exact hstep.2.symm

theorem Avoids.tail (h : Avoids E r d p) (he : E p b) (hne : d ≠ b) : Avoids E r d b :=
  ⟨h.1, h.2.tail ⟨he, hne.symm⟩⟩

theorem Avoids.trans (h : Avoids E r d p)
    (hpath : Relation.ReflTransGen (fun u v => E u v ∧ v ≠ d) p b) : Avoids E r d b :=
  ⟨h.1, h.2.trans hpath⟩

theorem Dominates.refl : Dominates E r b b := fun h => h.ne rfl

theorem Dominates.root : Dominates E r r b := fun h => h.1 rfl

/-- A dominator other than the node itself dominates every predecessor. -/
theorem Dominates.pred (h : Dominates E r d b) (hne : d ≠ b) (he : E p b) :
    Dominates E r d p := fun hp => h (hp.tail he hne)

/-- Dominance of the end of a path that avoids `d` comes from its start. -/
theorem Dominates.of_path (h : Dominates E r d b)
    (hpath : Relation.ReflTransGen (fun u v => E u v ∧ v ≠ d) p b) : Dominates E r d p :=
  fun hp => h (hp.trans hpath)

/-- A relation that is trivial at the root and pulled back along edges is contained in
dominance. -/
theorem dominates_of_closed {D : α → α → Prop} (hroot : ∀ d, D d r → d = r)
    (hedge : ∀ d u v, E u v → D d v → d = v ∨ D d u) (h : D d b) : Dominates E r d b := by
  rintro ⟨hr, hpath⟩
  induction hpath with
  | refl => exact hr (hroot d h)
  | tail _ hstep ih =>
    rcases hedge d _ _ hstep.1 h with h | h
    · exact hstep.2 h.symm
    · exact ih h

/-- The nearest of the dominators of `b` other than `b` itself. -/
def ImmediatelyDominates (E : α → α → Prop) (r p b : α) : Prop :=
  p ≠ b ∧ Dominates E r p b ∧ ∀ d, d ≠ b → Dominates E r d b → Dominates E r d p

/-- What dominates every predecessor of a node other than the root dominates the node. -/
theorem Dominates.of_preds (hb : b ≠ r) (h : ∀ p, E p b → Dominates E r d p) :
    Dominates E r d b := by
  rintro ⟨hne, hpath⟩
  cases hpath with
  | refl => exact hb rfl
  | tail hpath hstep => exact h _ hstep.1 ⟨hne, hpath⟩

end Zryna
