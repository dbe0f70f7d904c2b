import Zryna.Foundation.FinishOrder
import Zryna.Ir.ControlFlow.Dominators
import Zryna.Ir.DataOwnership.Fixpoint

/-!
# Strongly connected components

`strongly_connected_components` lists the blocks in the order a depth-first walk leaves them, and
then gathers, from the last of them on, the blocks that reach it and were not gathered before.

A block is *settled* in the finishing order when, of all blocks it reaches, the last one listed is
linked to it. Every block is (`finishOrder_spec`): the walk is a `FinishWalk`. The blocks gathered
from the last block left are then those linked to it (`stronglyConnectedComponents_spec`).
-/

namespace Zryna.Ir.DataOwnership

open Relation ControlFlow List

/-- A control-flow graph whose blocks are all reachable from block zero. -/
structure FlowGraph where
  successors : Adjacency
  valid : successors.Valid
  reaches : ∀ b < successors.length, Reaches successors b

namespace FlowGraph

variable (g : FlowGraph)

def count : ℕ := g.successors.length

def Edge (u v : ℕ) : Prop := v ∈ g.successors.at u

def predecessors : Adjacency := predecessorLists g.successors

end FlowGraph

variable {g : FlowGraph} {u v : ℕ}

theorem FlowGraph.Edge.source_lt (h : g.Edge u v) : u < g.count := Adjacency.lt_of_mem_at h

theorem FlowGraph.Edge.target_lt (h : g.Edge u v) : v < g.count := g.valid.lt u v h

theorem FlowGraph.reachable (hv : v < g.count) : ReflTransGen g.Edge 0 v := g.reaches v hv

theorem FlowGraph.lt_of_reaches (h : ReflTransGen g.Edge u v) (hu : u < g.count) : v < g.count := by
  rcases ReflTransGen.cases_tail h with rfl | ⟨p, -, hstep⟩
  · exact hu
  · exact hstep.target_lt

theorem FlowGraph.lt_of_linked (h : Mutual g.Edge u v) (hu : u < g.count) : v < g.count :=
  g.lt_of_reaches h.1 hu

theorem FlowGraph.finite_sources (g : FlowGraph) : {u | ∃ v, g.Edge u v}.Finite :=
  (Set.Finite.subset (Finset.finite_toSet (Finset.range g.count))) fun _ ⟨_, hv⟩ => by
    simpa using hv.source_lt

theorem mem_predecessorsOf (successors : Adjacency) :
    u ∈ predecessorsOf successors v ↔ v ∈ successors.at u := by
  simp only [predecessorsOf, mem_flatMap, mem_map, mem_filter, Prod.exists,
    mem_zipIdx_iff_getElem?, Adjacency.at, getD_eq_getElem?_getD]
  constructor
  · rintro ⟨targets, block, hget, w, ⟨hw, heq⟩, rfl⟩
    obtain rfl : w = v := by simpa using heq
    rwa [hget]
  · intro h
    cases hget : successors[u]? with
    | none => simp [hget] at h
    | some targets =>
      rw [hget] at h
      exact ⟨targets, u, hget, v, ⟨h, by simp⟩, rfl⟩

theorem FlowGraph.predecessors_at (hv : v < g.count) :
    g.predecessors.at v = predecessorsOf g.successors v := by
  have hv' : v < g.successors.length := hv
  simp [FlowGraph.predecessors, predecessorLists, Adjacency.at, getD_eq_getElem?_getD, hv']

theorem FlowGraph.mem_predecessors : u ∈ g.predecessors.at v ↔ g.Edge u v := by
  by_cases hv : v < g.count
  · rw [FlowGraph.predecessors_at hv]
    exact mem_predecessorsOf _
  · have hnil : g.predecessors.at v = [] :=
      Adjacency.at_eq_nil
        (by simpa [FlowGraph.predecessors, predecessorLists, FlowGraph.count] using hv)
    rw [hnil]
    exact iff_of_false not_mem_nil fun h => hv h.target_lt

/-! ### The finishing order -/

/-- Of all blocks that `x` reaches, the last one listed is linked to it. -/
def Settled (E : ℕ → ℕ → Prop) (order : List ℕ) (x : ℕ) : Prop :=
  ∃ before last after, order = before ++ last :: after ∧ Mutual E x last
    ∧ ∀ s, ReflTransGen E x s → s ∈ before ++ [last]

/-- Every listed block is settled or linked to a block on the stack. -/
def Settling (E : ℕ → ℕ → Prop) (stack : List (ℕ × ℕ)) (order : List ℕ) : Prop :=
  ∀ x ∈ order, Settled E order x ∨ ∃ w ∈ stack.map Prod.fst, Mutual E x w

section Finish

variable {node child : ℕ} {stack : List (ℕ × ℕ)} {visited : List Bool} {order : List ℕ}

theorem Settling.walk (hset : Settling g.Edge stack order)
    (h : PostorderInv g.successors stack visited order) :
    FinishWalk g.successors.at (fun v => visited.getD v false = true) stack order :=
  ⟨h.nodup, h.visited_iff, h.chain, h.done, h.partly, hset⟩

theorem Settling.finish (hset : Settling g.Edge ((node, child) :: stack) order)
    (h : PostorderInv g.successors ((node, child) :: stack) visited order)
    (hnext : (g.successors.at node)[child]? = none) : Settling g.Edge stack (order ++ [node]) :=
  ((hset.walk h).finish hnext).listed

end Finish

/-- One traversal ends with an empty stack and settled blocks. -/
theorem finishRounds_spec (fuel : ℕ) :
    ∀ {stack : List (ℕ × ℕ)} {visited : List Bool} {order : List ℕ},
      PostorderInv g.successors stack visited order → Settling g.Edge stack order →
      postorderPotential g.successors stack visited < fuel →
      PostorderInv g.successors [] (finishRounds g.successors fuel stack visited order).1
          (finishRounds g.successors fuel stack visited order).2
        ∧ Settling g.Edge [] (finishRounds g.successors fuel stack visited order).2 := by
  induction fuel with
  | zero => intro stack visited order _ _ hfuel; omega
  | succ fuel ih =>
    intro stack visited order h hset hfuel
    cases stack with
    | nil => exact ⟨h, hset⟩
    | cons top stack =>
      obtain ⟨node, child⟩ := top
      have hat : (g.successors[node]?).getD [] = g.successors.at node := rfl
      simp only [finishRounds, hat]
      cases hnext : (g.successors.at node)[child]? with
      | none =>
        refine ih (h.finish hnext) (hset.finish h hnext) ?_
        simp only [postorderPotential, map_cons, sum_cons] at hfuel ⊢
        omega
      | some next =>
        have hchild : child < (g.successors.at node).length :=
          (List.getElem?_eq_some_iff.mp hnext).1
        cases hv : visited.getD next false with
        | true =>
          simp only [hv, if_true]
          refine ih (h.skip hnext hv) hset ?_
          simp only [postorderPotential, map_cons, sum_cons] at hfuel ⊢
          omega
        | false =>
          simp only [hv, Bool.false_eq_true, if_false]
          refine ih (h.descend g.valid hnext hv) (fun x hx => ?_) ?_
          · exact (hset x hx).imp_right (Exists.imp fun w => And.imp_left (mem_cons_of_mem _))
          have hlen : next < visited.length :=
            h.length_eq ▸ g.valid.lt _ _ (mem_of_getElem? hnext)
          have := pendingWeight_set visited (fun v => (g.successors.at v).length + 1) hlen hv
          simp only [postorderPotential, map_cons, sum_cons] at hfuel ⊢
          omega

variable {visited : List Bool} {start : ℕ} {xs : List ℕ}

theorem mem_finish {order : List ℕ}
    (h : PostorderInv g.successors [] visited order) : v ∈ order ↔ v < g.count := by
  have hreach : ∀ v, ReflTransGen g.Edge 0 v → v ∈ order := by
    intro v hv
    induction hv with
    | refl =>
      have := h.last
      simp only [map_nil, append_nil] at this
      exact mem_of_getLast? this
    | tail _ hstep ih => simpa using (h.visited_iff _).mp (h.done _ ih _ hstep)
  exact ⟨fun hv => h.lt v (by simpa using hv), fun hv => hreach v (g.reachable hv)⟩

/-- What `finishOrder` lists. -/
structure FinishOrder (g : FlowGraph) (order : List ℕ) : Prop where
  nodup : order.Nodup
  mem_iff : ∀ v, v ∈ order ↔ v < g.count
  settled : ∀ x ∈ order, Settled g.Edge order x

theorem finishOrder_spec (g : FlowGraph) : FinishOrder g (finishOrder g.successors) := by
  -- the walk from block zero visits every block, and the later starts find nothing to do
  have hpot : postorderPotential g.successors [(0, 0)]
      ((List.replicate g.successors.length false).set 0 true) < stackBudget g.successors := by
    have hlen : 0 < (List.replicate g.successors.length false).length := by
      simpa using g.valid.nonempty
    have h1 := pendingWeight_set (List.replicate g.successors.length false)
      (fun v => (g.successors.at v).length + 1) hlen (by
        simp [getD_eq_getElem?_getD, g.valid.nonempty])
    rw [pendingWeight_replicate_le] at h1
    have h2 : ((List.range g.successors.length).map fun v => (g.successors.at v).length + 1).sum
        = g.successors.size + g.successors.length := by
      rw [sum_map_add, ← Adjacency.size_eq]
      simp
    simp only [postorderPotential, stackBudget, map_cons, map_nil, sum_cons,
      sum_nil, Adjacency.size] at h1 h2 ⊢
    omega
  obtain ⟨h, hset⟩ := finishRounds_spec (stackBudget g.successors)
    (postorderInv_initial g.valid) (fun x hx => absurd hx not_mem_nil) hpot
  generalize hrun : finishRounds g.successors (stackBudget g.successors) [(0, 0)]
    ((List.replicate g.successors.length false).set 0 true) [] = run at h hset
  obtain ⟨visited, order⟩ := run
  have hmem := fun v => mem_finish (v := v) h
  have hvisited (s : ℕ) (hs : s < g.count) : visited.getD s false = true :=
    (h.visited_iff s).mpr (by simpa using (hmem s).mpr hs)
  have horder : finishOrder g.successors = order := by
    obtain ⟨n, hn⟩ := Nat.exists_eq_succ_of_ne_zero g.valid.nonempty.ne'
    have hfirst : (List.replicate g.successors.length false).getD 0 false = false := by
      simp [getD_eq_getElem?_getD, g.valid.nonempty]
    unfold finishOrder
    conv_lhs =>
      rw [hn, range_succ_eq_map, foldl_cons]
    simp only [← hn, hfirst, Bool.false_eq_true, if_false, hrun]
    refine congrArg Prod.snd (foldlRecOn (motive := (· = (visited, order))) _ _ rfl ?_)
    rintro _ rfl s hs
    obtain ⟨a, ha, rfl⟩ := mem_map.mp hs
    have : a < n := by simpa using ha
    exact if_pos (hvisited (a + 1) (by change a + 1 < g.successors.length; omega))
  rw [horder]
  exact ⟨by simpa using h.nodup, hmem, fun x hx => (hset x hx).resolve_right (by simp)⟩

/-! ### Gathering a component -/

/-- What pushing the predecessors of a block does to the marks and the stack. -/
theorem pushed_spec (preds : List ℕ) :
    ∀ (visited : List Bool) (stack : List ℕ), (∀ p ∈ preds, p < visited.length) →
      let pushed := preds.foldl (fun (visited, stack) predecessor =>
        if visited.getD predecessor false then (visited, stack)
        else (visited.set predecessor true, predecessor :: stack)) (visited, stack)
      pushed.1.length = visited.length
        ∧ (∀ v, pushed.1.getD v false = true ↔ visited.getD v false = true ∨ v ∈ preds)
        ∧ (∀ v, v ∈ pushed.2 ↔ v ∈ stack ∨ v ∈ preds ∧ ¬ visited.getD v false = true)
        ∧ pendingWeight pushed.1 (fun _ => 1) + pushed.2.length
          = pendingWeight visited (fun _ => 1) + stack.length := by
  induction preds with
  | nil => intro visited stack _; simp
  | cons p preds ih =>
    intro visited stack hlt
    have hp : p < visited.length := hlt p mem_cons_self
    rw [foldl_cons]
    cases hv : visited.getD p false with
    | true =>
      simp only [hv, if_true]
      obtain ⟨hlen, hmarks, hstack, hweight⟩ :=
        ih visited stack fun q hq => hlt q (mem_cons_of_mem _ hq)
      refine ⟨hlen, fun v => ?_, fun v => ?_, hweight⟩
      · rw [hmarks, mem_cons]
        refine or_congr_right' fun hnot => ⟨.inr, fun h => h.resolve_left ?_⟩
        rintro rfl
        exact hnot hv
      · rw [hstack, mem_cons]
        refine or_congr_right (and_congr_left fun hnot => ⟨.inr, fun h => h.resolve_left ?_⟩)
        rintro rfl
        exact hnot hv
    | false =>
      simp only [hv, Bool.false_eq_true, if_false]
      obtain ⟨hlen, hmarks, hstack, hweight⟩ := ih (visited.set p true) (p :: stack) fun q hq => by
        rw [length_set]
        exact hlt q (mem_cons_of_mem _ hq)
      have hset := pendingWeight_set visited (fun _ => 1) hp hv
      refine ⟨by rw [hlen, length_set], fun v => ?_, fun v => ?_, ?_⟩
      · rw [hmarks, getD_set_true _ _ _ hp, mem_cons]
        tauto
      · rw [hstack, getD_set_true _ _ _ hp, mem_cons, mem_cons]
        have hnot : ¬ visited.getD p false = true := by
          rw [hv]
          exact Bool.false_ne_true
        by_cases hvp : v = p
        · rw [hvp]
          tauto
        · tauto
      · rw [hweight, length_cons]
        omega

/-- What `componentRounds` gathers from what it has marked and stacked. -/
theorem componentRounds_spec {before : ℕ → Prop} (fuel : ℕ) :
    ∀ {stack : List ℕ} {visited : List Bool} {component : List ℕ},
      Gathering g.predecessors.at before [start] (fun v => visited.getD v false = true) stack →
      visited.length = g.count →
      (∀ v, visited.getD v false = true ↔ before v ∨ v ∈ component ∨ v ∈ stack) →
      (∀ v ∈ component, ¬ before v) → (∀ v ∈ stack, ¬ before v) →
      pendingWeight visited (fun _ => 1) + stack.length < fuel →
      let gathered := componentRounds g.predecessors fuel stack visited component
      gathered.1.length = g.count
        ∧ (∀ v, gathered.1.getD v false = true
          ↔ before v ∨ ReachesStart g.predecessors.at before [start] v)
        ∧ (∀ v, v ∈ gathered.2 ↔ gathered.1.getD v false = true ∧ ¬ before v) := by
  induction fuel with
  | zero => intro stack visited component _ _ _ _ _ hfuel; omega
  | succ fuel ih =>
    intro stack visited component h hlen hmarks hcomponent hstack hfuel
    match stack with
    | [] =>
      refine ⟨hlen, fun v => h.seen_iff, fun v => ?_⟩
      change v ∈ component ↔ visited.getD v false = true ∧ ¬ before v
      rw [hmarks]
      refine ⟨fun hv => ⟨.inr (.inl hv), hcomponent v hv⟩, fun ⟨hv, hnot⟩ => ?_⟩
      exact (hv.resolve_left hnot).resolve_right not_mem_nil
    | node :: stack =>
      have hpreds : ∀ p ∈ g.predecessors.at node, p < visited.length := fun p hp =>
        hlen ▸ (FlowGraph.mem_predecessors.mp hp).source_lt
      obtain ⟨hlen', hmarks', hstack', hweight⟩ := pushed_spec _ visited stack hpreds
      have hat : (g.predecessors[node]?).getD [] = g.predecessors.at node := rfl
      simp only [componentRounds, hat]
      generalize (g.predecessors.at node).foldl (fun (visited, stack) predecessor =>
        if visited.getD predecessor false then (visited, stack)
        else (visited.set predecessor true, predecessor :: stack)) (visited, stack) = pushed
        at hlen' hmarks' hstack' hweight
      obtain ⟨visited', stack'⟩ := pushed
      refine ih (h.step hmarks' hstack') (hlen'.trans hlen) (fun v => ?_) (fun v hv => ?_)
        (fun v hv => ?_) ?_
      · rw [hmarks', mem_append, mem_singleton, hstack', hmarks, mem_cons]
        tauto
      · rcases mem_append.mp hv with hv | hv
        · exact hcomponent v hv
        · rw [mem_singleton.mp hv]
          exact hstack node mem_cons_self
      · rcases (hstack' v).mp hv with hv | ⟨-, hnew⟩
        · exact hstack v (mem_cons_of_mem _ hv)
        · exact fun hbefore => hnew (h.seen_before v hbefore)
      · rw [length_cons] at hfuel
        change pendingWeight visited' (fun _ => 1) + stack'.length < fuel
        dsimp only at hweight
        omega

/-! ### The components -/

theorem mem_foldl_insertAscending {sorted : List ℕ} :
    v ∈ xs.foldl (fun sorted node => insertAscending node sorted) sorted ↔ v ∈ xs ∨ v ∈ sorted := by
  induction xs generalizing sorted with
  | nil => simp
  | cons x xs ih =>
    rw [foldl_cons, ih, mem_insertAscending, mem_cons]
    tauto

theorem pairwise_insertAscending {x : ℕ} (h : xs.Pairwise (· < ·)) :
    (insertAscending x xs).Pairwise (· < ·) := by
  induction xs with
  | nil => simp [insertAscending]
  | cons y ys ih =>
    obtain ⟨hy, hys⟩ := pairwise_cons.mp h
    unfold insertAscending
    split_ifs with hlt heq
    · exact pairwise_cons.mpr ⟨fun z hz => by
        rcases mem_cons.mp hz with rfl | hz
        · exact hlt
        · exact hlt.trans (hy z hz), h⟩
    · exact h
    · refine pairwise_cons.mpr ⟨fun z hz => ?_, ih hys⟩
      rcases mem_insertAscending.mp hz with rfl | hz
      · omega
      · exact hy z hz

theorem pairwise_foldl_insertAscending {sorted : List ℕ} (h : sorted.Pairwise (· < ·)) :
    (xs.foldl (fun sorted node => insertAscending node sorted) sorted).Pairwise (· < ·) := by
  induction xs generalizing sorted with
  | nil => exact h
  | cons x xs ih => exact ih (pairwise_insertAscending h)

/-- A list of blocks is one strongly connected component. -/
structure IsComponent (g : FlowGraph) (component : List ℕ) : Prop where
  pairwise : component.Pairwise (· < ·)
  lt : ∀ v ∈ component, v < g.count
  nonempty : component ≠ []
  linked : ∀ u ∈ component, ∀ v, v ∈ component ↔ Mutual g.Edge u v

theorem isComponent_of_mem {component : List ℕ} (hpairwise : component.Pairwise (· < ·))
    (hstart : start < g.count)
    (hmem : ∀ v, v ∈ component ↔ Mutual g.Edge start v) : IsComponent g component where
  pairwise := hpairwise
  lt v hv := g.lt_of_linked ((hmem v).mp hv) hstart
  nonempty := ne_nil_of_mem ((hmem start).mpr (Mutual.refl start))
  linked u hu v := by
    rw [hmem]
    have hu := (hmem u).mp hu
    exact ⟨fun hv => hu.symm.trans hv, fun hv => hu.trans hv⟩

/-- What holds after a part of the blocks, from the last one left on, was started from. -/
structure ComponentsInv (g : FlowGraph) (rest : List ℕ) (visited : List Bool)
    (components : List (List ℕ)) : Prop where
  length_eq : visited.length = g.count
  /-- The blocks left to start from are the first ones of the finishing order. -/
  order : ∃ done, FinishOrder g (rest.reverse ++ done)
    ∧ ∀ v ∈ done, visited.getD v false = true
  visited_iff : ∀ v, visited.getD v false = true ↔ ∃ c ∈ components, v ∈ c
  component : ∀ c ∈ components, IsComponent g c
  nodup : components.Nodup

variable {components : List (List ℕ)} {rest : List ℕ}

theorem ComponentsInv.visited_linked (h : ComponentsInv g rest visited components)
    (hu : visited.getD u false = true) (huv : Mutual g.Edge u v) : visited.getD v false = true := by
  obtain ⟨c, hc, hmem⟩ := (h.visited_iff u).mp hu
  exact (h.visited_iff v).mpr ⟨c, hc, ((h.component c hc).linked u hmem v).mpr huv⟩

/-- From the last block left, the walk gathers exactly the blocks linked to it. -/
theorem ComponentsInv.reachesStart_iff (h : ComponentsInv g (start :: rest) visited components)
    (hstart : visited.getD start false = false) :
    ReachesStart g.predecessors.at (fun v => visited.getD v false = true) [start] v
      ↔ Mutual g.Edge start v := by
  obtain ⟨done, horder, hdone⟩ := h.order
  have hsplit : (start :: rest).reverse ++ done = rest.reverse ++ start :: done := by simp
  rw [hsplit] at horder
  exact FinishWalk.reachesStart_iff horder.nodup horder.settled (fun _ _ => FlowGraph.mem_predecessors)
    (fun u _ hstep => (horder.mem_iff u).mpr hstep.source_lt) hdone
    (fun _ _ => h.visited_linked) (ne_true_of_eq_false hstart)

/-- Starting from the last block left gathers its component or finds it visited. -/
def componentStep (g : FlowGraph) (state : List Bool × List (List ℕ)) (start : ℕ) :
    List Bool × List (List ℕ) :=
  if state.1.getD start false then state
  else
    let gathered := componentRounds g.predecessors (stackBudget g.successors) [start]
      (state.1.set start true) []
    (gathered.1, state.2 ++ [gathered.2.foldl (fun sorted node => insertAscending node sorted) []])

theorem pendingWeight_one_le (marks : List Bool) : pendingWeight marks (fun _ => 1) ≤ marks.length := by
  refine (sum_le_card_nsmul _ 1 fun n hn => ?_).trans (by simp)
  obtain ⟨v, -, rfl⟩ := mem_map.mp hn
  split <;> simp

theorem ComponentsInv.step (h : ComponentsInv g (start :: rest) visited components) :
    ComponentsInv g rest (componentStep g (visited, components) start).1
      (componentStep g (visited, components) start).2 := by
  obtain ⟨done, horder, hdone⟩ := h.order
  have hsplit : (start :: rest).reverse ++ done = rest.reverse ++ start :: done := by simp
  rw [hsplit] at horder
  have hstart : start < g.count := (horder.mem_iff start).mp (by simp)
  cases hv : visited.getD start false with
  | true =>
    simp only [componentStep, hv, if_true]
    refine ⟨h.length_eq, ⟨start :: done, horder, fun v hmem => ?_⟩, h.visited_iff, h.component,
      h.nodup⟩
    rcases mem_cons.mp hmem with rfl | hmem
    · exact hv
    · exact hdone v hmem
  | false =>
    simp only [componentStep, hv, Bool.false_eq_true, if_false]
    have hlen : start < visited.length := h.length_eq ▸ hstart
    have hmarks : ∀ v, (visited.set start true).getD v false = true
        ↔ visited.getD v false = true ∨ v ∈ [start] := fun v => by
      rw [getD_set_true _ _ _ hlen, mem_singleton, or_comm]
    have hgather : Gathering g.predecessors.at (fun v => visited.getD v false = true) [start]
        (fun v => (visited.set start true).getD v false = true) [start] := by
      rw [funext fun v => propext (hmarks v)]
      exact Gathering.start
    have hweight : pendingWeight (visited.set start true) (fun _ => 1) + [start].length
        < stackBudget g.successors := by
      have h1 := pendingWeight_set visited (fun _ => 1) hlen hv
      have h2 := pendingWeight_one_le visited
      have h3 : visited.length = g.successors.length := h.length_eq
      simp only [stackBudget, length_singleton] at h1 ⊢
      omega
    obtain ⟨hlen', hvisited', hmem'⟩ := componentRounds_spec (stackBudget g.successors) hgather
      (by rw [length_set, h.length_eq]) (fun v => by simpa using hmarks v)
      (fun v hv => absurd hv not_mem_nil)
      (fun v hmem => by
        rw [mem_singleton.mp hmem, hv]
        exact Bool.false_ne_true) hweight
    generalize componentRounds g.predecessors (stackBudget g.successors) [start]
      (visited.set start true) [] = gathered at hlen' hvisited' hmem' ⊢
    obtain ⟨visited', component⟩ := gathered
    dsimp only at hlen' hvisited' hmem' ⊢
    have hunvisited : ∀ v, Mutual g.Edge start v → ¬ visited.getD v false = true := fun v hl hm => by
      have := h.visited_linked hm hl.symm
      rw [hv] at this
      cases this
    have hiff : ∀ v, v ∈ component.foldl (fun sorted node => insertAscending node sorted) []
        ↔ Mutual g.Edge start v := fun v => by
      rw [mem_foldl_insertAscending, hmem', hvisited', h.reachesStart_iff hv]
      have := hunvisited v
      simp only [not_mem_nil, or_false]
      tauto
    have hcomponent := isComponent_of_mem (pairwise_foldl_insertAscending List.Pairwise.nil) hstart
      hiff
    generalize component.foldl (fun sorted node => insertAscending node sorted) [] = sorted
      at hiff hcomponent ⊢
    refine ⟨hlen', ⟨start :: done, horder, fun v hmem => ?_⟩, fun v => ?_, fun c hc => ?_, ?_⟩
    · rcases mem_cons.mp hmem with rfl | hmem
      · exact (hvisited' v).mpr (.inr ((h.reachesStart_iff hv).mpr (Mutual.refl v)))
      · exact (hvisited' v).mpr (.inl (hdone v hmem))
    · rw [hvisited', h.visited_iff, h.reachesStart_iff hv, ← hiff]
      simp
    · rcases mem_append.mp hc with hc | hc
      · exact h.component c hc
      · rw [mem_singleton.mp hc]
        exact hcomponent
    · refine nodup_append.mpr ⟨h.nodup, by simp, fun c hc d hd heq => ?_⟩
      rw [mem_singleton.mp hd] at heq
      have hin : start ∈ c := heq ▸ (hiff start).mpr (Mutual.refl start)
      exact hunvisited start (Mutual.refl start) ((h.visited_iff start).mpr ⟨c, hc, hin⟩)

theorem foldl_componentStep :
    ∀ {visited : List Bool} {components : List (List ℕ)}, ComponentsInv g rest visited components →
      ComponentsInv g [] (rest.foldl (componentStep g) (visited, components)).1
        (rest.foldl (componentStep g) (visited, components)).2 := by
  induction rest with
  | nil => exact id
  | cons start rest ih => exact fun h => ih h.step

/-- **The components listed are the strongly connected components**, each once and in ascending
order, and every block is in one of them. -/
theorem stronglyConnectedComponents_spec (g : FlowGraph) :
    (stronglyConnectedComponents g.successors).Nodup
      ∧ (∀ c ∈ stronglyConnectedComponents g.successors, IsComponent g c)
      ∧ ∀ v < g.count, ∃ c ∈ stronglyConnectedComponents g.successors, v ∈ c := by
  have hspec := finishOrder_spec g
  have hnone : ∀ w, (List.replicate g.successors.length false).getD w false = false := by
    intro w
    rw [getD_eq_getElem?_getD, getElem?_replicate]
    split <;> rfl
  have hinit : ComponentsInv g (finishOrder g.successors).reverse
      (List.replicate g.successors.length false) [] := by
    refine ⟨by simp [FlowGraph.count], ⟨[], by simpa using hspec, by simp⟩, fun v => ?_, by simp,
      nodup_nil⟩
    rw [hnone]
    simp
  have h := foldl_componentStep hinit
  have hfold : stronglyConnectedComponents g.successors
      = ((finishOrder g.successors).reverse.foldl (componentStep g)
        (List.replicate g.successors.length false, [])).2 := rfl
  rw [← hfold] at h
  refine ⟨h.nodup, h.component, fun v hv => ?_⟩
  obtain ⟨done, horder, hdone⟩ := h.order
  refine (h.visited_iff v).mp (hdone v ?_)
  simpa using (horder.mem_iff v).mpr hv

end Zryna.Ir.DataOwnership
