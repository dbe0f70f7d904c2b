import Zryna.Foundation.Gather
import Zryna.Foundation.Reducible

/-!
# Finishing orders and components

A depth-first walk with an explicit stack lists a node when all of its children were looked at. The
list is a *finishing order*: of all nodes that a node reaches, the last one listed reaches it back
(`FinishWalk.Listed`). Without cycles, therefore, children are listed before their parents
(`Listed.before`).

With cycles, the components are found in a second pass. From the last node that has no component
yet, whatever reaches it through nodes without a component is linked to it
(`Listed.reachesStart_iff`).
-/

namespace Zryna.FinishWalk

open Relation List

variable {α : Type*} {E : α → α → Prop}

/-- Of all nodes that `x` reaches, the last one listed is linked to it. -/
def Listed (E : α → α → Prop) (order : List α) (x : α) : Prop :=
  ∃ before last after, order = before ++ last :: after ∧ Mutual E x last
    ∧ ∀ s, ReflTransGen E x s → s ∈ before ++ [last]

theorem Listed.append {order : List α} {x : α} (h : Listed E order x) (more : List α) :
    Listed E (order ++ more) x := by
  obtain ⟨before, last, after, rfl, hlinked, hall⟩ := h
  exact ⟨before, last, after ++ more, by simp, hlinked, hall⟩

/-- Nodes that lie on no cycle are listed after everything they reach. -/
theorem Listed.before {order : List α} {x y : α} (h : Listed E order x)
    (hacyclic : ∀ z, ¬ TransGen E z z) (hxy : E x y) :
    ∃ before after, order = before ++ x :: after ∧ y ∈ before := by
  obtain ⟨before, last, after, heq, ⟨hlast, hback⟩, hall⟩ := h
  obtain rfl : last = x := by
    by_contra hne
    obtain hx | hx := ReflTransGen.cases_head hlast
    · exact hne hx.symm
    · obtain ⟨z, hstep, hpath⟩ := hx
      exact hacyclic x ((TransGen.single hstep).trans_left (hpath.trans hback))
  refine ⟨before, after, heq, ?_⟩
  obtain hy | hy := mem_append.mp (hall y (.single hxy))
  · exact hy
  · rw [mem_singleton] at hy
    subst hy
    exact absurd (.single hxy) (hacyclic y)

end Zryna.FinishWalk

/-! ### The walk -/

namespace Zryna

open Relation FinishWalk List

variable {α : Type*}

theorem mem_take_succ {xs : List α} {n : ℕ} {x y : α} (h : xs[n]? = some x) :
    y ∈ xs.take (n + 1) ↔ y ∈ xs.take n ∨ y = x := by
  rw [take_add_one, h, mem_append]
  simp

/-- What holds whenever the walk looks at its stack. An entry of the stack is a node and the
position of its next child. -/
structure FinishWalk (children : α → List α) (visited : α → Prop) (stack : List (α × ℕ))
    (order : List α) : Prop where
  nodup : (order ++ stack.map Prod.fst).Nodup
  visited_iff : ∀ v, visited v ↔ v ∈ order ++ stack.map Prod.fst
  chain : stack.IsChain fun x y => x.1 ∈ children y.1
  done : ∀ v ∈ order, ∀ w ∈ children v, visited w
  partly : ∀ x ∈ stack, ∀ w ∈ (children x.1).take x.2, visited w
  /-- A listed node is settled, or it is linked to a node that is not. -/
  listed : ∀ x ∈ order, Listed (fun u v => v ∈ children u) order x
    ∨ ∃ w ∈ stack.map Prod.fst, Mutual (fun u v => v ∈ children u) x w

namespace FinishWalk

variable {children : α → List α} {visited visited' : α → Prop} {stack : List (α × ℕ)}
  {order : List α} {node child : α} {next : ℕ}

theorem empty (h : ∀ v, ¬ visited v) : FinishWalk children visited [] [] where
  nodup := nodup_nil
  visited_iff v := iff_of_false (h v) not_mem_nil
  chain := .nil
  done _ hv := absurd hv not_mem_nil
  partly _ hx := absurd hx not_mem_nil
  listed _ hx := absurd hx not_mem_nil

/-- The node gets on the stack. It is a child of the node on top. -/
theorem push (h : FinishWalk children visited stack order) (hnew : ¬ visited child)
    (htop : ∀ x ∈ stack.head?, child ∈ children x.1)
    (hvisited : ∀ v, visited' v ↔ v = child ∨ visited v) :
    FinishWalk children visited' ((child, 0) :: stack) order := by
  have hperm : (order ++ ((child, 0) :: stack).map Prod.fst).Perm
      (child :: (order ++ stack.map Prod.fst)) := perm_middle
  have hkept {v : α} (hv : visited v) : visited' v := (hvisited v).mpr (.inr hv)
  refine ⟨hperm.nodup_iff.mpr (nodup_cons.mpr ⟨fun hin => hnew ?_, h.nodup⟩), fun v => ?_, ?_,
    fun v hv w hw => hkept (h.done v hv w hw), fun x hx w hw => ?_, fun x hx => ?_⟩
  · exact (h.visited_iff child).mpr hin
  · rw [hvisited, hperm.mem_iff, mem_cons, h.visited_iff]
  · cases stack with
    | nil => simp
    | cons x stack =>
      rw [isChain_cons_cons]
      exact ⟨htop x rfl, h.chain⟩
  · obtain rfl | hx := mem_cons.mp hx
    · simp at hw
    · exact hkept (h.partly x hx w hw)
  · exact (h.listed x hx).imp id fun ⟨w, hw, hx⟩ => ⟨w, mem_cons_of_mem _ hw, hx⟩

section

variable (h : FinishWalk children visited ((node, next) :: stack) order)

include h

theorem advance (hnext : (children node)[next]? = some child) (hchild : visited child) :
    FinishWalk children visited ((node, next + 1) :: stack) order where
  nodup := h.nodup
  visited_iff := h.visited_iff
  chain := by
    have hchain := h.chain
    cases stack with
    | nil => simp
    | cons x stack =>
      rw [isChain_cons_cons] at hchain ⊢
      exact hchain
  done := h.done
  partly x hx w hw := by
    obtain rfl | hx := mem_cons.mp hx
    · obtain hw | rfl := (mem_take_succ hnext).mp hw
      · exact h.partly (node, next) mem_cons_self w hw
      · exact hchild
    · exact h.partly x (mem_cons_of_mem _ hx) w hw
  listed := h.listed

/-- The next child of the node on top gets on the stack. -/
theorem descend (hnext : (children node)[next]? = some child) (hnew : ¬ visited child)
    (hvisited : ∀ v, visited' v ↔ v = child ∨ visited v) :
    FinishWalk children visited' ((child, 0) :: (node, next + 1) :: stack) order := by
  have hpushed : FinishWalk children visited' ((child, 0) :: (node, next) :: stack) order :=
    h.push hnew (fun x hx => by cases hx; exact mem_of_getElem? hnext) hvisited
  have hchild : visited' child := (hvisited child).mpr (.inl rfl)
  refine ⟨hpushed.nodup, hpushed.visited_iff, ?_, hpushed.done, fun x hx w hw => ?_, hpushed.listed⟩
  · have hchain := hpushed.chain
    cases stack with
    | nil => simpa using hchain
    | cons x stack =>
      rw [isChain_cons_cons, isChain_cons_cons] at hchain ⊢
      exact hchain
  · obtain rfl | hx := mem_cons.mp hx
    · simp at hw
    obtain rfl | hx := mem_cons.mp hx
    · obtain hw | rfl := (mem_take_succ hnext).mp hw
      · exact hpushed.partly (node, next) (by simp) w hw
      · exact hchild
    · exact hpushed.partly x (by simp [hx]) w hw

theorem reaches_top {w : α}
    (hw : w ∈ stack.map Prod.fst) : ReflTransGen (fun u v => v ∈ children u) w node := by
  obtain ⟨x, hx, rfl⟩ := mem_map.mp hw
  refine h.chain.induction (fun y => ReflTransGen (fun u v => v ∈ children u) y.1 node) _ ?_ ?_ x
    (mem_cons_of_mem _ hx)
  · exact fun x y hstep hpath => hpath.head hstep
  · exact fun _ => .refl

/-- A node whose children were all looked at and that reaches no node left on the stack reaches only
listed nodes. -/
theorem mem_of_reaches_top (hnext : (children node)[next]? = none)
    (hnone : ∀ w ∈ stack.map Prod.fst, ¬ ReflTransGen (fun u v => v ∈ children u) node w) {s : α}
    (hs : ReflTransGen (fun u v => v ∈ children u) node s) : s ∈ order ++ [node] := by
  induction hs with
  | refl => simp
  | @tail p s hpath hstep ih =>
    have hvisited : visited s := by
      obtain hp | hp := mem_append.mp ih
      · exact h.done p hp s hstep
      · obtain rfl := mem_singleton.mp hp
        refine h.partly (p, next) mem_cons_self s ?_
        rw [getElem?_eq_none_iff] at hnext
        rwa [take_of_length_le hnext]
    have hmem := (h.visited_iff s).mp hvisited
    simp only [map_cons, mem_append, mem_cons] at hmem
    obtain hs | rfl | hs := hmem
    · exact mem_append_left _ hs
    · simp
    · exact absurd (hpath.tail hstep) (hnone s hs)

/-- The node on top is listed when its children were all looked at. -/
theorem finish (hnext : (children node)[next]? = none) :
    FinishWalk children visited stack (order ++ [node]) := by
  have happ : order ++ [node] ++ stack.map Prod.fst
      = order ++ ((node, next) :: stack).map Prod.fst := by simp
  refine ⟨happ ▸ h.nodup, fun v => happ ▸ h.visited_iff v, h.chain.of_cons, fun v hv w hw => ?_,
    fun x hx => h.partly x (mem_cons_of_mem _ hx), ?_⟩
  · obtain hv | hv := mem_append.mp hv
    · exact h.done v hv w hw
    · obtain rfl := mem_singleton.mp hv
      refine h.partly (v, next) mem_cons_self w ?_
      rw [getElem?_eq_none_iff] at hnext
      rwa [take_of_length_le hnext]
  by_cases hstack : ∃ w ∈ stack.map Prod.fst, ReflTransGen (fun u v => v ∈ children u) node w
  · -- the node is linked to one that stays on the stack
    obtain ⟨w, hw, hpath⟩ := hstack
    have hlinked : Mutual (fun u v => v ∈ children u) node w := ⟨hpath, h.reaches_top hw⟩
    intro x hx
    obtain hx | hx := mem_append.mp hx
    · obtain hx' | ⟨w', hw', hx'⟩ := h.listed x hx
      · exact .inl (hx'.append _)
      · obtain rfl | hw' := mem_cons.mp hw'
        · exact .inr ⟨w, hw, hx'.trans hlinked⟩
        · exact .inr ⟨w', hw', hx'⟩
    · rw [mem_singleton.mp hx]
      exact .inr ⟨w, hw, hlinked⟩
  · -- everything it reaches is listed, and it is the last
    have hclosed {s : α} := @mem_of_reaches_top _ _ _ _ _ _ _ h hnext (fun w hw hpath =>
      hstack ⟨w, hw, hpath⟩) s
    have hlast : ∀ x, Mutual (fun u v => v ∈ children u) x node →
        Listed (fun u v => v ∈ children u) (order ++ [node]) x := fun x hx =>
      ⟨order, node, [], rfl, hx, fun s hs => hclosed (hx.2.trans hs)⟩
    intro x hx
    obtain hx | hx := mem_append.mp hx
    · obtain hx' | ⟨w', hw', hx'⟩ := h.listed x hx
      · exact .inl (hx'.append _)
      · obtain rfl | hw' := mem_cons.mp hw'
        · exact .inl (hlast x hx')
        · exact .inr ⟨w', hw', hx'⟩
    · rw [mem_singleton.mp hx]
      exact .inl (hlast node (Mutual.refl node))

end

/-- After a walk, every listed node is settled. -/
theorem listed_of_done (h : FinishWalk children visited [] order) {x : α} (hx : x ∈ order) :
    Listed (fun u v => v ∈ children u) order x :=
  (h.listed x hx).resolve_right (by simp)

end FinishWalk

/-! ### Components -/

section Components

variable {E : α → α → Prop} {preds : α → List α} {before : α → Prop} {start x : α}
  {rest done : List α}

/-- From the last node that has no component yet, whatever reaches it through nodes without a
component is linked to it. -/
theorem FinishWalk.reachesStart_iff (hnodup : (rest ++ start :: done).Nodup)
    (hlisted : ∀ x ∈ rest ++ start :: done, Listed E (rest ++ start :: done) x)
    (hpreds : ∀ u v, u ∈ preds v ↔ E u v) (hnodes : ∀ u v, E u v → u ∈ rest ++ start :: done)
    (hdone : ∀ v ∈ done, before v) (hlinked : ∀ u v, before u → Mutual E u v → before v)
    (hstart : ¬ before start) : ReachesStart preds before [start] x ↔ Mutual E start x := by
  have hopen : ∀ v, Mutual E start v → ¬ before v := fun v hv hbefore =>
    hstart (hlinked v start hbefore hv.symm)
  simp only [ReachesStart, mem_singleton, exists_eq_left]
  constructor
  · intro hpath
    have hreach : ReflTransGen E x start :=
      ReflTransGen.mono (fun u v hstep => (hpreds u v).mp hstep.1) _ _ hpath
    obtain rfl | ⟨w, hstep, -⟩ := ReflTransGen.cases_head hpath
    · exact Mutual.refl x
    -- the node listed last among those `x` reaches has no component, so it is the start
    obtain ⟨front, last, back, heq, hlast, hall⟩ :=
      hlisted x (hnodes x w ((hpreds x w).mp hstep.1))
    have hlastOpen : ¬ before last := fun hb => hstep.2 (hlinked last x hb hlast.symm)
    suffices hls : last = start from hls ▸ hlast.symm
    by_contra hne
    obtain ⟨gap, -, hgap⟩ | ⟨gap, hrest, -⟩ := append_eq_append_iff.mp heq
    · have hin : last ∈ start :: done := by simp [hgap]
      exact hlastOpen (hdone last ((mem_cons.mp hin).resolve_left hne))
    · -- the start would be listed twice
      have hfront : start ∈ front := by
        obtain hin | hin := mem_append.mp (hall start hreach)
        · exact hin
        · exact absurd (mem_singleton.mp hin).symm hne
      have hin : start ∈ rest := hrest ▸ mem_append_left _ hfront
      exact (nodup_append.mp hnodup).2.2 start hin start mem_cons_self rfl
  · intro hmutual
    refine ReflTransGen.mono (fun u w hstep => ?_) _ _ hmutual.symm.path
    exact ⟨(hpreds u w).mpr hstep.2.2, hopen u (hmutual.trans hstep.1)⟩

end Components

end Zryna
