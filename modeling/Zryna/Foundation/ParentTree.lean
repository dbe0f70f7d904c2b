import Mathlib.Logic.Function.Iterate
import Mathlib.Data.Nat.Find
import Mathlib.Order.Basic
import Mathlib.Tactic.Common

/-!
# Trees given by a parent table

A table `parent` on a set `K` of known nodes, closed under `parent` and rooted at `0`, whose rank
strictly decreases on the way to the root. `Anc parent a b` says that `a` lies on the walk from
`b` to the root, `b` included. On such a table the ancestors of a node form a chain, and two known
nodes have a nearest common ancestor.
-/

namespace Zryna

/-- `a` is reached from `b` by walking up. -/
def Anc (parent : ℕ → ℕ) (a b : ℕ) : Prop := ∃ k, parent^[k] b = a

namespace Anc

variable {parent : ℕ → ℕ} {a b c : ℕ}

@[refl] theorem refl (b : ℕ) : Anc parent b b := ⟨0, rfl⟩

theorem trans (hab : Anc parent a b) (hbc : Anc parent b c) : Anc parent a c := by
  obtain ⟨k, rfl⟩ := hab
  obtain ⟨m, rfl⟩ := hbc
  exact ⟨k + m, Function.iterate_add_apply _ _ _ _⟩

theorem parent_self (b : ℕ) : Anc parent (parent b) b := ⟨1, rfl⟩

theorem step (h : Anc parent a (parent b)) : Anc parent a b := h.trans (parent_self b)

/-- An ancestor is the node itself or an ancestor of its parent. -/
theorem cases_parent (h : Anc parent a b) : a = b ∨ Anc parent a (parent b) := by
  obtain ⟨k, rfl⟩ := h
  cases k with
  | zero => exact .inl rfl
  | succ k => exact .inr ⟨k, rfl⟩

theorem iff_parent : Anc parent a b ↔ a = b ∨ Anc parent a (parent b) :=
  ⟨cases_parent, fun h => h.elim (fun h => h ▸ refl _) step⟩

/-- Two ancestors of one node are comparable. -/
theorem total (ha : Anc parent a c) (hb : Anc parent b c) : Anc parent a b ∨ Anc parent b a := by
  obtain ⟨k, rfl⟩ := ha
  obtain ⟨m, rfl⟩ := hb
  rcases Nat.le_total k m with h | h
  · right
    refine ⟨m - k, ?_⟩
    rw [← Function.iterate_add_apply, Nat.sub_add_cancel h]
  · left
    refine ⟨k - m, ?_⟩
    rw [← Function.iterate_add_apply, Nat.sub_add_cancel h]

end Anc

/-- A rooted parent table with a rank that decreases towards the root. -/
structure ParentTree (K : ℕ → Prop) (parent rank : ℕ → ℕ) : Prop where
  root_mem : K 0
  parent_root : parent 0 = 0
  parent_mem : ∀ b, K b → b ≠ 0 → K (parent b)
  rank_lt : ∀ b, K b → b ≠ 0 → rank (parent b) < rank b

namespace ParentTree

variable {K : ℕ → Prop} {parent rank : ℕ → ℕ} {a b c : ℕ}

section

variable (t : ParentTree K parent rank)

include t

theorem mem_of_anc (hb : K b) (h : Anc parent a b) : K a := by
  obtain ⟨k, rfl⟩ := h
  induction k generalizing b with
  | zero => exact hb
  | succ k ih =>
    rw [Function.iterate_succ_apply]
    by_cases h0 : b = 0
    · subst h0
      rw [t.parent_root]
      exact ih hb
    · exact ih (t.parent_mem b hb h0)

/-- The root has no other ancestor. -/
theorem anc_root : Anc parent a 0 ↔ a = 0 := by
  constructor
  · rintro ⟨k, rfl⟩
    exact Function.iterate_fixed t.parent_root k
  · rintro rfl
    exact Anc.refl _

theorem rank_le_of_anc (hb : K b) (h : Anc parent a b) : rank a ≤ rank b := by
  obtain ⟨k, rfl⟩ := h
  induction k generalizing b with
  | zero => exact le_refl _
  | succ k ih =>
    rw [Function.iterate_succ_apply]
    by_cases h0 : b = 0
    · subst h0
      rw [t.parent_root]
      exact ih hb
    · exact (ih (t.parent_mem b hb h0)).trans (t.rank_lt b hb h0).le

/-- A proper ancestor has smaller rank. -/
theorem rank_lt_of_anc (hb : K b) (h : Anc parent a b) (hne : a ≠ b) : rank a < rank b := by
  rcases h.cases_parent with rfl | h
  · exact absurd rfl hne
  · have h0 : b ≠ 0 := by
      rintro rfl
      rw [t.parent_root, t.anc_root] at h
      exact hne h
    exact (t.rank_le_of_anc (t.parent_mem b hb h0) h).trans_lt (t.rank_lt b hb h0)

theorem anc_antisymm (hb : K b) (hab : Anc parent a b) (hba : Anc parent b a) : a = b := by
  by_contra hne
  have h1 := t.rank_lt_of_anc hb hab hne
  have h2 := t.rank_le_of_anc (t.mem_of_anc hb hab) hba
  omega

/-- The root is above every known node. -/
theorem root_anc (hb : K b) : Anc parent 0 b := by
  induction hn : rank b using Nat.strong_induction_on generalizing b with
  | _ n ih =>
    by_cases h0 : b = 0
    · subst h0
      exact Anc.refl _
    · have hlt := t.rank_lt b hb h0
      exact (ih _ (hn ▸ hlt) (t.parent_mem b hb h0) rfl).step

end

/-- `c` is the nearest common ancestor of `a` and `b`. -/
structure IsMeet (parent : ℕ → ℕ) (a b c : ℕ) : Prop where
  left : Anc parent c a
  right : Anc parent c b
  nearest : ∀ d, Anc parent d a → Anc parent d b → Anc parent d c

theorem IsMeet.self (a : ℕ) : IsMeet parent a a a := ⟨.refl _, .refl _, fun _ h _ => h⟩

theorem IsMeet.symm (h : IsMeet parent a b c) : IsMeet parent b a c :=
  ⟨h.right, h.left, fun d hb ha => h.nearest d ha hb⟩

/-- Moving the node of larger rank one step up does not change the meet. -/
theorem IsMeet.of_parent (t : ParentTree K parent rank) (hb : K b)
    (hlt : rank b < rank a) (h : IsMeet parent (parent a) b c) : IsMeet parent a b c := by
  refine ⟨h.left.step, h.right, fun d hda hdb => ?_⟩
  rcases hda.cases_parent with rfl | hda
  · -- `a` itself cannot be above `b`, whose rank is smaller
    have := t.rank_le_of_anc hb hdb
    omega
  · exact h.nearest d hda hdb

end ParentTree

end Zryna
