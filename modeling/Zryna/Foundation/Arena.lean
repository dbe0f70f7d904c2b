import Mathlib.Data.List.Perm.Basic
import Mathlib.Data.List.Range

/-!
# Trees in an arena

Trees stored in one list, every node after its parts. The parts of a node are given by their
positions; where each position is a part of at most one node, the arena is a forest.

`subtree` lists the nodes of a tree and `unwind` what they own, in the order in which the tree is
taken apart: the parts from the last to the first, and then the node. The trees of the nodes that
are no parts cover the arena, each position once (`flatMap_roots`), so an arena with one root is one
tree (`subtree_perm`).
-/

namespace Zryna.Arena

open List

variable {α : Type*} (parts : ℕ → List ℕ)

/-- The nodes of a tree, the root first. A part that does not lie before its node is left out. -/
def subtree (node : ℕ) : List ℕ :=
  node :: (parts node).flatMap fun part => if part < node then subtree part else []
termination_by node

/-- What the nodes of a tree own, the last part first and the root last. -/
def unwind (own : ℕ → List α) (node : ℕ) : List α :=
  ((parts node).reverse.flatMap fun part => if part < node then unwind own part else []) ++ own node
termination_by node

variable {parts} {node n : ℕ}

theorem subtree_eq (h : ∀ part ∈ parts node, part < node) :
    subtree parts node = node :: (parts node).flatMap (subtree parts) := by
  rw [subtree]
  congr 1
  exact flatMap_congr fun part hpart => if_pos (h part hpart)

theorem unwind_eq (own : ℕ → List α) (h : ∀ part ∈ parts node, part < node) :
    unwind parts own node = (parts node).reverse.flatMap (unwind parts own) ++ own node := by
  rw [unwind]
  congr 1
  exact flatMap_congr fun part hpart => if_pos (h part (mem_reverse.mp hpart))

/-- Taking a tree apart gives up what its nodes own and nothing else. -/
theorem unwind_perm (own : ℕ → List α) (node : ℕ) :
    (unwind parts own node).Perm ((subtree parts node).flatMap own) := by
  induction node using Nat.strong_induction_on with
  | _ node ih =>
    rw [unwind, subtree, flatMap_cons, flatMap_assoc]
    refine perm_append_comm.trans (List.Perm.append_left _ ?_)
    refine ((reverse_perm _).flatMap_right _).trans (List.Perm.flatMap_left _ fun part _ => ?_)
    by_cases hlt : part < node
    · rw [if_pos hlt, if_pos hlt]
      exact ih part hlt
    · rw [if_neg hlt, if_neg hlt]
      exact .refl _

/-- The trees of the roots cover the arena. A new node takes the trees of its parts together. -/
theorem flatMap_roots (hdown : ∀ i < n, ∀ part ∈ parts i, part < i)
    (honce : ((List.range n).flatMap parts).Nodup) :
    (((List.range n).filter (· ∉ (List.range n).flatMap parts)).flatMap (subtree parts)).Perm
      (List.range n) := by
  induction n with
  | zero => exact .refl _
  | succ n ih =>
    have hused : (List.range (n + 1)).flatMap parts = (List.range n).flatMap parts ++ parts n := by
      simp [range_succ]
    rw [hused] at honce ⊢
    obtain ⟨hold, hnew, hapart⟩ := nodup_append.mp honce
    have ih := ih (fun i hi => hdown i (by omega)) hold
    have hlt : ∀ part ∈ (List.range n).flatMap parts ++ parts n, part < n := by
      intro part hpart
      rcases mem_append.mp hpart with hpart | hpart
      · obtain ⟨i, hi, hpart⟩ := mem_flatMap.mp hpart
        have := hdown i (by have := mem_range.mp hi; omega) part hpart
        have := mem_range.mp hi
        omega
      · exact hdown n (by omega) part hpart
    generalize (List.range n).flatMap parts = used at *
    generalize hroots : (List.range n).filter (· ∉ used) = roots at ih
    -- the roots that are left, and the new one
    have hfilter : (List.range (n + 1)).filter (· ∉ used ++ parts n)
        = roots.filter (· ∉ parts n) ++ [n] := by
      have hself : n ∉ used ++ parts n := fun h => absurd (hlt n h) (Nat.lt_irrefl n)
      rw [range_succ, filter_append, filter_singleton, ← hroots, filter_filter]
      simp only [hself, not_false_eq_true, decide_true, cond_true]
      congr 1
      exact filter_congr fun x _ => by simp [Bool.and_comm]
    -- the roots that are taken are the parts of the new node
    have hpicked : (roots.filter (· ∈ parts n)).Perm (parts n) := by
      refine (perm_ext_iff_of_nodup ?_ hnew).mpr fun x => ?_
      · exact (hroots ▸ (nodup_range.filter _)).filter _
      · simp only [← hroots, mem_filter, mem_range, decide_eq_true_eq]
        refine ⟨fun h => h.2, fun h => ⟨⟨hlt x (mem_append_right _ h), fun hx => ?_⟩, h⟩⟩
        exact hapart x hx x h rfl
    have hsplit : (roots.filter (· ∉ parts n) ++ roots.filter (· ∈ parts n)).Perm roots := by
      have := filter_append_perm (· ∉ parts n) roots
      simpa using this
    rw [hfilter, flatMap_append, flatMap_singleton, subtree_eq (hdown n (by omega))]
    calc
      List.Perm ((roots.filter (· ∉ parts n)).flatMap (subtree parts)
          ++ n :: (parts n).flatMap (subtree parts))
        (n :: ((roots.filter (· ∉ parts n)).flatMap (subtree parts)
          ++ (parts n).flatMap (subtree parts))) := perm_middle
      List.Perm _ (n :: ((roots.filter (· ∉ parts n) ++ roots.filter (· ∈ parts n)).flatMap
          (subtree parts))) := by
        rw [flatMap_append]
        exact ((hpicked.symm.flatMap_right _).append_left _).cons n
      List.Perm _ (n :: List.range n) := ((hsplit.flatMap_right _).trans ih).cons n
      List.Perm _ (List.range (n + 1)) := by
        rw [range_succ]
        exact (perm_append_singleton n _).symm

/-- An arena in which every position but the last is a part of one node is the tree of the last. -/
theorem subtree_perm (hdown : ∀ i < n + 1, ∀ part ∈ parts i, part < i)
    (honce : ((List.range (n + 1)).flatMap parts).Nodup)
    (hall : ∀ i < n, i ∈ (List.range (n + 1)).flatMap parts) :
    (subtree parts n).Perm (List.range (n + 1)) := by
  have hlast : n ∉ (List.range (n + 1)).flatMap parts := by
    intro h
    obtain ⟨i, hi, hpart⟩ := mem_flatMap.mp h
    have hi := mem_range.mp hi
    have := hdown i hi n hpart
    omega
  have hroots : (List.range (n + 1)).filter (· ∉ (List.range (n + 1)).flatMap parts) = [n] := by
    generalize (List.range (n + 1)).flatMap parts = used at *
    rw [range_succ, filter_append, filter_eq_nil_iff.mpr fun i hi => by
      simpa using hall i (mem_range.mp hi)]
    simp [hlast]
  have h := flatMap_roots hdown honce
  rwa [hroots, flatMap_singleton] at h

end Zryna.Arena
