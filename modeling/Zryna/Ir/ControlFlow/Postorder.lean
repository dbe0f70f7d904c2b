import Mathlib.Algebra.BigOperators.Group.List.Basic
import Zryna.Ir.ControlFlow.Cfg

/-!
# The depth-first walks of the verifier

`postorder` visits exactly the blocks reachable from block zero, each once, and ends with block
zero. In the reversed list every other block comes after one of its predecessors
(`postorder_spec`): the block the walk was at when it first looked at it. `reachableFromEntry`
marks the same blocks (`reachableFromEntry_iff`).

Both results come from an invariant of the stack loop and a potential that bounds the number of
rounds left, so the step bounds in the definitions are never the reason a loop ends.
-/

namespace Zryna.Ir.ControlFlow

open List

/-- `v` is reachable from block zero. -/
def Reaches (successors : Adjacency) : ℕ → Prop :=
  Relation.ReflTransGen (fun u v => v ∈ successors.at u) 0

/-- Adjacency lists that name only blocks of the graph. -/
structure Adjacency.Valid (adj : Adjacency) : Prop where
  nonempty : 0 < adj.length
  lt : ∀ u v, v ∈ adj.at u → v < adj.length

variable {adj : Adjacency} {child next node block : ℕ}

theorem Adjacency.at_eq_nil {u : ℕ} (h : adj.length ≤ u) : adj.at u = [] := by
  simp [Adjacency.at, getD_eq_getElem?_getD, getElem?_eq_none h]

theorem Adjacency.lt_of_mem_at {u v : ℕ} (h : v ∈ adj.at u) : u < adj.length := by
  by_contra hge
  rw [Adjacency.at_eq_nil (by omega)] at h
  exact absurd h not_mem_nil

theorem Adjacency.size_eq (adj : Adjacency) :
    adj.size = ((List.range adj.length).map fun u => (adj.at u).length).sum := by
  unfold Adjacency.size
  congr 1
  apply ext_getElem
  · simp
  · intro i h1 h2
    simp only [length_map] at h1
    simp [Adjacency.at, h1]

/-! ### Marks in a list of booleans -/

theorem getD_set_true (marks : List Bool) (n v : ℕ) (hn : n < marks.length) :
    (marks.set n true).getD v false = true ↔ v = n ∨ marks.getD v false = true := by
  by_cases h : v = n
  · subst h
    simp [getD_eq_getElem?_getD, hn]
  · simp [getD_eq_getElem?_getD, getElem?_set_ne (Ne.symm h), h]

/-- Weight of the blocks not yet marked. -/
def pendingWeight (marks : List Bool) (weight : ℕ → ℕ) : ℕ :=
  ((List.range marks.length).map fun v => if marks.getD v false then 0 else weight v).sum

theorem pendingWeight_set (marks : List Bool) (weight : ℕ → ℕ) {n : ℕ} (hn : n < marks.length)
    (hu : marks.getD n false = false) :
    pendingWeight (marks.set n true) weight + weight n = pendingWeight marks weight := by
  unfold pendingWeight
  rw [length_set]
  have hmem : n ∈ List.range marks.length := by simpa using hn
  have hnd : (List.range marks.length).Nodup := nodup_range
  generalize List.range marks.length = l at hmem hnd
  induction l with
  | nil => cases hmem
  | cons a l ih =>
    rw [nodup_cons] at hnd
    simp only [map_cons, sum_cons]
    by_cases ha : a = n
    · subst ha
      have htail : l.map (fun v => if (marks.set a true).getD v false = true then 0 else weight v)
          = l.map (fun v => if marks.getD v false = true then 0 else weight v) := by
        apply map_congr_left
        intro v hv
        have hva : v ≠ a := by
          rintro rfl
          exact hnd.1 hv
        rw [show (marks.set a true).getD v false = marks.getD v false by
          simp [getD_eq_getElem?_getD, getElem?_set_ne (Ne.symm hva)]]
      rw [htail, hu, (getD_set_true marks a a hn).2 (.inl rfl)]
      simp only [if_true, Bool.false_eq_true, if_false]
      omega
    · have := ih ((mem_cons.mp hmem).resolve_left (Ne.symm ha)) hnd.2
      rw [show (marks.set n true).getD a false = marks.getD a false by
        simp [getD_eq_getElem?_getD, getElem?_set_ne (Ne.symm ha)]]
      omega

theorem pendingWeight_replicate_le (n : ℕ) (weight : ℕ → ℕ) :
    pendingWeight (List.replicate n false) weight = ((List.range n).map weight).sum := by
  unfold pendingWeight
  rw [length_replicate]
  congr 1
  apply map_congr_left
  intro v hv
  have hv' : v < n := by simpa using hv
  simp [getD_eq_getElem?_getD, hv']

/-! ### Postorder -/

/-- What holds whenever the loop of `postorder` looks at its stack. -/
structure PostorderInv (successors : Adjacency) (stack : List (ℕ × ℕ)) (visited : List Bool)
    (order : List ℕ) : Prop where
  length_eq : visited.length = successors.length
  nodup : (order ++ stack.map Prod.fst).Nodup
  lt : ∀ v ∈ order ++ stack.map Prod.fst, v < successors.length
  visited_iff : ∀ v, visited.getD v false = true ↔ v ∈ order ++ stack.map Prod.fst
  reaches : ∀ v ∈ order ++ stack.map Prod.fst, Reaches successors v
  chain : stack.IsChain fun x y => x.1 ∈ successors.at y.1
  last : (order ++ stack.map Prod.fst).getLast? = some 0
  /-- Every listed block other than zero has a predecessor that is listed later. -/
  later : ∀ v ∈ order, v ≠ 0 →
    ∃ u, v ∈ successors.at u ∧ ([v, u].Sublist order ∨ u ∈ stack.map Prod.fst)
  done : ∀ v ∈ order, ∀ w ∈ successors.at v, visited.getD w false = true
  partly : ∀ x ∈ stack, ∀ w ∈ (successors.at x.1).take x.2, visited.getD w false = true

/-- Rounds the loop still needs. -/
def postorderPotential (successors : Adjacency) (stack : List (ℕ × ℕ)) (visited : List Bool) : ℕ :=
  pendingWeight visited (fun v => (successors.at v).length + 1)
    + (stack.map fun x => (successors.at x.1).length - x.2 + 1).sum

variable {order : List ℕ} {stack : List (ℕ × ℕ)} {successors : Adjacency} {visited : List Bool}

theorem PostorderInv.skip (h : PostorderInv successors ((node, child) :: stack) visited order)
    (hnext : (successors.at node)[child]? = some next) (hv : visited.getD next false = true) :
    PostorderInv successors ((node, child + 1) :: stack) visited order where
  length_eq := h.length_eq
  nodup := h.nodup
  lt := h.lt
  visited_iff := h.visited_iff
  reaches := h.reaches
  chain := by
    have := h.chain
    cases stack with
    | nil => simp
    | cons y ys =>
      rw [isChain_cons_cons] at this ⊢
      exact this
  last := h.last
  later := h.later
  done := h.done
  partly := by
    intro x hx w hw
    rcases mem_cons.mp hx with rfl | hx
    · simp only [take_add_one, hnext, Option.toList_some, mem_append,
        mem_singleton] at hw
      rcases hw with hw | rfl
      · exact h.partly (node, child) (by simp) w hw
      · exact hv
    · exact h.partly x (by simp [hx]) w hw

theorem PostorderInv.descend (hvalid : successors.Valid)
    (h : PostorderInv successors ((node, child) :: stack) visited order)
    (hnext : (successors.at node)[child]? = some next) (hv : visited.getD next false = false) :
    PostorderInv successors ((next, 0) :: (node, child + 1) :: stack) (visited.set next true)
      order := by
  have hmem : next ∈ successors.at node := mem_of_getElem? hnext
  have hlt : next < successors.length := hvalid.lt _ _ hmem
  have hlen : next < visited.length := h.length_eq ▸ hlt
  have hnew : next ∉ order ++ ((node, child) :: stack).map Prod.fst := fun hin => by
    rw [(h.visited_iff next).mpr hin] at hv
    cases hv
  have hperm : (order ++ ((next, 0) :: (node, child + 1) :: stack).map Prod.fst).Perm
      (next :: (order ++ ((node, child) :: stack).map Prod.fst)) := by
    simp
  refine ⟨by simpa using h.length_eq, ?_, ?_, ?_, ?_, ?_, ?_, ?_, ?_, ?_⟩
  · exact hperm.nodup_iff.mpr (nodup_cons.mpr ⟨hnew, h.nodup⟩)
  · intro v hv'
    rcases mem_cons.mp (hperm.mem_iff.mp hv') with rfl | hv'
    · exact hlt
    · exact h.lt v hv'
  · intro v
    rw [getD_set_true _ _ _ hlen, hperm.mem_iff, mem_cons, h.visited_iff]
  · intro v hv'
    rcases mem_cons.mp (hperm.mem_iff.mp hv') with rfl | hv'
    · exact (h.reaches node (by simp)).tail hmem
    · exact h.reaches v hv'
  · rw [isChain_cons_cons]
    refine ⟨hmem, ?_⟩
    have := h.chain
    cases stack with
    | nil => simp
    | cons y ys =>
      rw [isChain_cons_cons] at this ⊢
      exact this
  · have := h.last
    simp only [map_cons, getLast?_append, getLast?_cons] at this ⊢
    simpa using this
  · intro v hv' h0
    obtain ⟨u, hu, hlater⟩ := h.later v hv' h0
    refine ⟨u, hu, hlater.imp id fun hin => ?_⟩
    simp only [map_cons, mem_cons] at hin ⊢
    exact .inr hin
  · intro v hv' w hw
    exact (getD_set_true _ _ _ hlen).mpr (.inr (h.done v hv' w hw))
  · intro x hx w hw
    refine (getD_set_true _ _ _ hlen).mpr ?_
    rcases mem_cons.mp hx with rfl | hx
    · simp at hw
    rcases mem_cons.mp hx with rfl | hx
    · simp only [take_add_one, hnext, Option.toList_some, mem_append,
        mem_singleton] at hw
      rcases hw with hw | rfl
      · exact .inr (h.partly (node, child) (by simp) w hw)
      · exact .inl rfl
    · exact .inr (h.partly x (by simp [hx]) w hw)

theorem PostorderInv.finish (h : PostorderInv successors ((node, child) :: stack) visited order)
    (hnext : (successors.at node)[child]? = none) :
    PostorderInv successors stack visited (order ++ [node]) := by
  have happ : order ++ [node] ++ stack.map Prod.fst
      = order ++ ((node, child) :: stack).map Prod.fst := by simp
  refine ⟨h.length_eq, happ ▸ h.nodup, happ ▸ h.lt, ?_, happ ▸ h.reaches, h.chain.of_cons,
    happ ▸ h.last, ?_, ?_, ?_⟩
  · intro v
    rw [happ]
    exact h.visited_iff v
  · intro v hmem h0
    rcases mem_append.mp hmem with hv | hv
    · obtain ⟨u, hu, hlater | hin⟩ := h.later v hv h0
      · exact ⟨u, hu, .inl (hlater.trans (sublist_append_left _ _))⟩
      · rcases mem_cons.mp hin with rfl | hin
        · -- the predecessor was on top of the stack and is listed now
          have hpair : [v, u].Sublist (order ++ [u]) :=
            (singleton_sublist.mpr hv).append (List.Sublist.refl [u])
          exact ⟨u, hu, .inl hpair⟩
        · exact ⟨u, hu, .inr hin⟩
    · obtain rfl : v = node := by simpa using hv
      cases stack with
      | nil =>
        have := h.last
        simp at this
        exact absurd this h0
      | cons y ys =>
        have hchain := h.chain
        rw [isChain_cons_cons] at hchain
        exact ⟨y.1, hchain.1, .inr (by simp)⟩
  · intro v hv w hw
    rcases mem_append.mp hv with hv | hv
    · exact h.done v hv w hw
    · obtain rfl : v = node := by simpa using hv
      refine h.partly (v, child) (by simp) w ?_
      rw [getElem?_eq_none_iff] at hnext
      rwa [take_of_length_le hnext]
  · intro x hx
    exact h.partly x (by simp [hx])

/-- The loop ends with an empty stack and keeps the invariant. -/
theorem postorderLoop_spec (hvalid : successors.Valid) (fuel : ℕ) :
    ∀ {stack : List (ℕ × ℕ)} {visited : List Bool} {order : List ℕ},
      PostorderInv successors stack visited order →
      postorderPotential successors stack visited < fuel →
      ∃ visited', PostorderInv successors [] visited'
        (postorderLoop successors fuel stack visited order) := by
  induction fuel with
  | zero => intro stack visited order _ hfuel; omega
  | succ fuel ih =>
    intro stack visited order h hfuel
    match stack with
    | [] => exact ⟨visited, h⟩
    | (node, child) :: stack =>
      simp only [postorderLoop]
      cases hnext : (successors.at node)[child]? with
      | none =>
        refine ih (h.finish hnext) ?_
        simp only [postorderPotential, map_cons, sum_cons] at hfuel ⊢
        omega
      | some next =>
        have hchild : child < (successors.at node).length :=
          (List.getElem?_eq_some_iff.mp hnext).1
        cases hv : visited.getD next false with
        | true =>
          simp only [hv, if_true]
          refine ih (h.skip hnext hv) ?_
          simp only [postorderPotential, map_cons, sum_cons] at hfuel ⊢
          omega
        | false =>
          simp only [hv, Bool.false_eq_true, if_false]
          refine ih (h.descend hvalid hnext hv) ?_
          have hlen : next < visited.length :=
            h.length_eq ▸ hvalid.lt _ _ (mem_of_getElem? hnext)
          have := pendingWeight_set visited (fun v => (successors.at v).length + 1) hlen hv
          simp only [postorderPotential, map_cons, sum_cons] at hfuel ⊢
          omega

theorem postorderInv_initial (hvalid : successors.Valid) :
    PostorderInv successors [(0, 0)] ((List.replicate successors.length false).set 0 true) [] := by
  have hlen : 0 < (List.replicate successors.length false).length := by
    simpa using hvalid.nonempty
  refine ⟨by simp, by simp, ?_, ?_, ?_, by simp, by simp, by simp, by simp, by simp⟩
  · simpa using hvalid.nonempty
  · intro v
    rw [getD_set_true _ _ _ hlen]
    have : (List.replicate successors.length false).getD v false = false := by
      rw [getD_eq_getElem?_getD, getElem?_replicate]
      split <;> rfl
    rw [this]
    simp
  · simp only [map_cons, map_nil, nil_append, mem_singleton]
    rintro v rfl
    exact Relation.ReflTransGen.refl

/-- What `postorder` returns. -/
structure PostorderSpec (successors : Adjacency) (order : List ℕ) : Prop where
  nodup : order.Nodup
  mem_iff : ∀ v, v ∈ order ↔ Reaches successors v
  lt : ∀ v ∈ order, v < successors.length
  last : order.getLast? = some 0
  later : ∀ v ∈ order, v ≠ 0 → ∃ u, v ∈ successors.at u ∧ [v, u].Sublist order

theorem postorder_spec (hvalid : successors.Valid) :
    PostorderSpec successors (postorder successors) := by
  have hpot : postorderPotential successors [(0, 0)]
      ((List.replicate successors.length false).set 0 true)
      < successors.size + successors.length + 1 := by
    have hlen : 0 < (List.replicate successors.length false).length := by
      simpa using hvalid.nonempty
    have h1 := pendingWeight_set (List.replicate successors.length false)
      (fun v => (successors.at v).length + 1) hlen (by
        simp [getD_eq_getElem?_getD, hvalid.nonempty])
    rw [pendingWeight_replicate_le] at h1
    have h2 : ((List.range successors.length).map fun v => (successors.at v).length + 1).sum
        = successors.size + successors.length := by
      rw [sum_map_add, ← Adjacency.size_eq, map_const', sum_replicate, Nat.nsmul_eq_mul, mul_one,
        length_range]
    simp only [postorderPotential, map_cons, map_nil, sum_cons, sum_nil]
    omega
  obtain ⟨visited, h⟩ := postorderLoop_spec hvalid _ (postorderInv_initial hvalid) hpot
  change PostorderInv successors [] visited (postorder successors) at h
  have hreach : ∀ v, Reaches successors v → v ∈ postorder successors := by
    intro v hv
    induction hv with
    | refl =>
      have := h.last
      simp only [map_nil, append_nil] at this
      exact mem_of_getLast? this
    | tail _ hstep ih =>
      have := (h.visited_iff _).mp (h.done _ ih _ hstep)
      simpa using this
  refine ⟨by simpa using h.nodup, fun v => ⟨fun hv => h.reaches v (by simpa using hv), hreach v⟩,
    fun v hv => h.lt v (by simpa using hv), by simpa using h.last, fun v hv h0 => ?_⟩
  obtain ⟨u, hu, hlater | hin⟩ := h.later v hv h0
  · exact ⟨u, hu, hlater⟩
  · simp at hin

/-! ### Reachability -/

/-- What holds whenever the loop of `reachableFromEntry` looks at its stack. -/
structure ReachableInv (successors : Adjacency) (stack : List ℕ) (reachable : List Bool) :
    Prop where
  length_eq : reachable.length = successors.length
  lt : ∀ v ∈ stack, v < successors.length
  stack_reaches : ∀ v ∈ stack, Reaches successors v
  marked_reaches : ∀ v, reachable.getD v false = true → Reaches successors v
  entry : reachable.getD 0 false = true ∨ 0 ∈ stack
  frontier : ∀ v w, reachable.getD v false = true → w ∈ successors.at v →
    reachable.getD w false = true ∨ w ∈ stack

variable {reachable : List Bool}

theorem ReachableInv.pop {stack : List ℕ} (h : ReachableInv successors (block :: stack) reachable)
    (hm : reachable.getD block false = true) : ReachableInv successors stack reachable where
  length_eq := h.length_eq
  lt v hv := h.lt v (by simp [hv])
  stack_reaches v hv := h.stack_reaches v (by simp [hv])
  marked_reaches := h.marked_reaches
  entry := by
    rcases h.entry with h0 | h0
    · exact .inl h0
    · rcases mem_cons.mp h0 with rfl | h0
      · exact .inl hm
      · exact .inr h0
  frontier v w hv hw := by
    rcases h.frontier v w hv hw with h1 | h1
    · exact .inl h1
    · rcases mem_cons.mp h1 with rfl | h1
      · exact .inl hm
      · exact .inr h1

theorem ReachableInv.mark (hvalid : successors.Valid) {stack : List ℕ}
    (h : ReachableInv successors (block :: stack) reachable) :
    ReachableInv successors (successors.at block ++ stack) (reachable.set block true) := by
  have hb : block < reachable.length := h.length_eq ▸ h.lt block (by simp)
  have hreach := h.stack_reaches block (by simp)
  refine ⟨by simpa using h.length_eq, ?_, ?_, ?_, ?_, ?_⟩
  · intro v hv
    rcases mem_append.mp hv with hv | hv
    · exact hvalid.lt _ _ hv
    · exact h.lt v (by simp [hv])
  · intro v hv
    rcases mem_append.mp hv with hv | hv
    · exact hreach.tail hv
    · exact h.stack_reaches v (by simp [hv])
  · intro v hv
    rcases (getD_set_true _ _ _ hb).mp hv with rfl | hv
    · exact hreach
    · exact h.marked_reaches v hv
  · rcases h.entry with h0 | h0
    · exact .inl ((getD_set_true _ _ _ hb).mpr (.inr h0))
    · rcases mem_cons.mp h0 with h0 | h0
      · exact .inl ((getD_set_true _ _ _ hb).mpr (.inl h0))
      · exact .inr (by simp [h0])
  · intro v w hv hw
    rcases (getD_set_true _ _ _ hb).mp hv with rfl | hv
    · exact .inr (by simp [hw])
    · rcases h.frontier v w hv hw with h1 | h1
      · exact .inl ((getD_set_true _ _ _ hb).mpr (.inr h1))
      · rcases mem_cons.mp h1 with h1 | h1
        · exact .inl ((getD_set_true _ _ _ hb).mpr (.inl h1))
        · exact .inr (by simp [h1])

theorem reachableLoop_spec (hvalid : successors.Valid) (fuel : ℕ) :
    ∀ {stack : List ℕ} {reachable : List Bool}, ReachableInv successors stack reachable →
      pendingWeight reachable (fun v => (successors.at v).length) + stack.length < fuel →
      ReachableInv successors [] (reachableLoop successors fuel stack reachable) := by
  induction fuel with
  | zero => intro stack reachable _ hfuel; omega
  | succ fuel ih =>
    intro stack reachable h hfuel
    match stack with
    | [] => exact h
    | block :: stack =>
      simp only [reachableLoop]
      cases hm : reachable.getD block false with
      | true =>
        rw [if_pos rfl]
        exact ih (h.pop hm) (by simp only [length_cons] at hfuel; omega)
      | false =>
        rw [if_neg (by simp)]
        refine ih (h.mark hvalid) ?_
        have hb : block < reachable.length := h.length_eq ▸ h.lt block (by simp)
        have := pendingWeight_set reachable (fun v => (successors.at v).length) hb hm
        simp only [length_cons, length_append] at hfuel ⊢
        omega

/-- The marks are the reachable blocks. -/
theorem reachableFromEntry_iff (hvalid : successors.Valid) (v : ℕ) :
    (reachableFromEntry successors).getD v false = true ↔ Reaches successors v := by
  have hnone : ∀ w, (List.replicate successors.length false).getD w false = false := by
    intro w
    rw [getD_eq_getElem?_getD, getElem?_replicate]
    split <;> rfl
  have hinit : ReachableInv successors [0] (List.replicate successors.length false) := by
    refine ⟨by simp, ?_, ?_, ?_, .inr (by simp), ?_⟩
    · simpa using hvalid.nonempty
    · simp only [mem_singleton]
      rintro w rfl
      exact Relation.ReflTransGen.refl
    · intro w hw
      rw [hnone] at hw
      cases hw
    · intro u w hu
      rw [hnone] at hu
      cases hu
  have h := reachableLoop_spec hvalid (successors.size + 2) hinit (by
    rw [pendingWeight_replicate_le, ← Adjacency.size_eq]
    simp)
  refine ⟨h.marked_reaches v, fun hv => ?_⟩
  induction hv with
  | refl => exact h.entry.resolve_right (by simp)
  | tail _ hstep ih => exact (h.frontier _ _ ih hstep).resolve_right (by simp)

theorem length_reachableLoop (successors : Adjacency) (fuel : ℕ) (stack : List ℕ)
    (reachable : List Bool) :
    (reachableLoop successors fuel stack reachable).length = reachable.length := by
  induction fuel generalizing stack reachable with
  | zero => rfl
  | succ fuel ih =>
    match stack with
    | [] => rfl
    | block :: stack =>
      simp only [reachableLoop]
      split
      · exact ih _ _
      · rw [ih, length_set]

@[simp] theorem length_reachableFromEntry (successors : Adjacency) :
    (reachableFromEntry successors).length = successors.length := by
  simp [reachableFromEntry, length_reachableLoop]

end Zryna.Ir.ControlFlow
