import Mathlib.Data.Finset.Card

/-!
# Forward closures that may be refused

A walk from a node collects the nodes that it reaches and stops with nothing at a node whose
children are refused. `Frontier` gives the children; it is given together with a finite set outside
which every node is refused, so that the walk ends.

`gather_eq_some` and `gather_isSome` say what the walk returns, in whatever order its list is taken.
-/

namespace Zryna

open Relation List

/-- Children of the nodes that are not refused, all of which are in a finite set. -/
structure Frontier (α : Type*) where
  children : α → Option (List α)
  bound : Finset α
  inside : ∀ v, (children v).isSome = true → v ∈ bound

namespace Frontier

variable {α : Type*} {frontier : Frontier α} {root : α}

/-- A node leads to its children, unless they are refused. -/
def Leads (frontier : Frontier α) (u v : α) : Prop := ∃ children, frontier.children u = some children
  ∧ v ∈ children

/-- What holds whenever the walk looks at its list. -/
structure Walk (frontier : Frontier α) (root : α) (reached : Finset α) (pending : List α) :
    Prop where
  reaches : ∀ v, v ∈ reached ∨ v ∈ pending → ReflTransGen frontier.Leads root v
  start : root ∈ reached ∨ root ∈ pending
  admitted : ∀ v ∈ reached, (frontier.children v).isSome = true
  closed : ∀ u ∈ reached, ∀ v, frontier.Leads u v → v ∈ reached ∨ v ∈ pending

theorem walk_start (frontier : Frontier α) (root : α) : Walk frontier root ∅ [root] where
  reaches v hv := by
    obtain rfl : v = root := by simpa using hv
    exact .refl
  start := .inr (mem_singleton_self root)
  admitted := by simp
  closed := by simp

/-- What a finished walk has collected. -/
theorem Walk.mem_iff {all : Finset α} (h : Walk frontier root all []) (v : α) :
    v ∈ all ↔ ReflTransGen frontier.Leads root v := by
  refine ⟨fun hv => h.reaches v (.inl hv), fun hv => ?_⟩
  induction hv with
  | refl => exact h.start.resolve_right not_mem_nil
  | tail _ hstep ih => exact (h.closed _ ih _ hstep).resolve_right not_mem_nil

theorem Walk.skip {reached : Finset α} {pending : List α} {v : α}
    (h : Walk frontier root reached (v :: pending)) (hv : v ∈ reached) :
    Walk frontier root reached pending := by
  have hkeep {w : α} (hw : w ∈ reached ∨ w ∈ v :: pending) : w ∈ reached ∨ w ∈ pending := by
    obtain hw | hw := hw
    · exact .inl hw
    · obtain rfl | hw := mem_cons.mp hw
      · exact .inl hv
      · exact .inr hw
  exact ⟨fun w hw => h.reaches w (hw.imp id (mem_cons_of_mem v)), hkeep h.start, h.admitted,
    fun u hu w hw => hkeep (h.closed u hu w hw)⟩

variable [DecidableEq α]

/-- The walk. A node is taken from the top of the list, and its children are added in reverse. -/
def gather (frontier : Frontier α) (reached : Finset α) (pending : List α) : Option (Finset α) :=
  match pending with
  | [] => some reached
  | v :: pending =>
    if v ∈ reached then frontier.gather reached pending
    else match _h : frontier.children v with
      | none => none
      | some children => frontier.gather (insert v reached) (children.reverse ++ pending)
termination_by ((frontier.bound \ reached).card, pending.length)
decreasing_by
  · exact .right _ (Nat.lt_succ_self _)
  · next hnew =>
    refine .left _ _ (Finset.card_lt_card ?_)
    refine Finset.ssubset_iff_of_subset (fun u hu => ?_) |>.mpr ⟨v, ?_, ?_⟩
    · simp only [Finset.mem_sdiff, Finset.mem_insert, not_or] at hu ⊢
      exact ⟨hu.1, hu.2.2⟩
    · exact Finset.mem_sdiff.mpr ⟨frontier.inside v (by rw [_h]; rfl), hnew⟩
    · simp

theorem Walk.enter {reached : Finset α} {pending children : List α} {v : α}
    (h : Walk frontier root reached (v :: pending)) (hv : frontier.children v = some children) :
    Walk frontier root (insert v reached) (children.reverse ++ pending) := by
  have hkeep {w : α} (hw : w ∈ reached ∨ w ∈ v :: pending) :
      w ∈ insert v reached ∨ w ∈ children.reverse ++ pending := by
    obtain hw | hw := hw
    · exact .inl (Finset.mem_insert_of_mem hw)
    · obtain rfl | hw := mem_cons.mp hw
      · exact .inl (Finset.mem_insert_self _ _)
      · exact .inr (mem_append_right _ hw)
  have hreach : ReflTransGen frontier.Leads root v := h.reaches v (.inr mem_cons_self)
  refine ⟨fun w hw => ?_, hkeep h.start, fun w hw => ?_, fun u hu w hw => ?_⟩
  · obtain hw | hw := hw
    · obtain rfl | hw := Finset.mem_insert.mp hw
      · exact hreach
      · exact h.reaches w (.inl hw)
    · obtain hw | hw := mem_append.mp hw
      · exact hreach.tail ⟨children, hv, mem_reverse.mp hw⟩
      · exact h.reaches w (.inr (mem_cons_of_mem v hw))
  · obtain rfl | hw := Finset.mem_insert.mp hw
    · rw [hv]
      rfl
    · exact h.admitted w hw
  · obtain rfl | hu := Finset.mem_insert.mp hu
    · obtain ⟨children', hchildren, hw⟩ := hw
      obtain rfl : children = children' := Option.some.inj (hv.symm.trans hchildren)
      exact .inr (mem_append_left _ (mem_reverse.mpr hw))
    · exact hkeep (h.closed u hu w hw)

/-- The walk ends with all that the root reaches, or because it reaches a refused node. -/
theorem Walk.gather {reached : Finset α} {pending : List α}
    (h : Walk frontier root reached pending) :
    (∃ all, frontier.gather reached pending = some all ∧ Walk frontier root all [])
      ∨ frontier.gather reached pending = none
        ∧ ∃ v, ReflTransGen frontier.Leads root v ∧ frontier.children v = none := by
  fun_induction frontier.gather reached pending with
  | case1 reached => exact .inl ⟨reached, rfl, h⟩
  | case2 reached v pending hv ih => exact ih (h.skip hv)
  | case3 reached v pending hv hnone =>
    exact .inr ⟨rfl, v, h.reaches v (.inr mem_cons_self), hnone⟩
  | case4 reached v pending hv children hchildren ih =>
    rw [unattach_reverse, unattach_attach] at ih
    exact ih (h.enter hchildren)

theorem gather_isSome : (frontier.gather ∅ [root]).isSome = true
    ↔ ∀ v, ReflTransGen frontier.Leads root v → (frontier.children v).isSome = true := by
  obtain ⟨all, hall, hwalk⟩ | ⟨hnone, v, hv, hrefused⟩ := (walk_start frontier root).gather
  · rw [hall]
    exact iff_of_true rfl fun v hv => hwalk.admitted v ((hwalk.mem_iff v).mpr hv)
  · rw [hnone]
    refine iff_of_false (by simp) fun h => ?_
    have hsome := h v hv
    rw [hrefused] at hsome
    cases hsome

theorem gather_eq_none (h : frontier.children root = none) : frontier.gather ∅ [root] = none := by
  rw [← Option.not_isSome_iff_eq_none, gather_isSome]
  intro hall
  have hsome := hall root .refl
  rw [h] at hsome
  cases hsome

theorem gather_eq_some {all : Finset α} (h : frontier.gather ∅ [root] = some all) (v : α) :
    v ∈ all ↔ ReflTransGen frontier.Leads root v := by
  obtain ⟨all', hall, hwalk⟩ | ⟨hnone, -⟩ := (walk_start frontier root).gather
  · rw [hall, Option.some.injEq] at h
    exact h ▸ hwalk.mem_iff v
  · rw [hnone] at h
    cases h

end Frontier

end Zryna
