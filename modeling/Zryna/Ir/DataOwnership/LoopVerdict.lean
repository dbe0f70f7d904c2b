import Zryna.Ir.ControlFlow.NaturalLoops
import Zryna.Ir.DataOwnership.LoopNesting

/-!
# What the loop check rejects

`reportsIrreducible_iff` says when the check rejects a graph for a cycle: some component that
contains a cycle has no block dominating all of it, and the walk over the components gets there
before a nesting count passes the limit. `verifyReducibleLoops_reports_iff` sets this against the
law that every cycle has a dominating block.

`verifyReducibleLoops_nesting_iff` sets the counts against the number of natural loops around a
block. The two agree when every header has one back edge and no block but the entry is its own
successor.
-/

namespace Zryna.Ir.DataOwnership

open Relation ControlFlow Report List

variable {g : FlowGraph}

/-- The check rejects a cycle, as irreducible or as bypassed. -/
def ReportsIrreducible (m : Check Unit) : Prop :=
  ∃ d, Event.push d ∈ m.events ∧ d.code = "ZRYNA-I3007"

/-- The check rejects the nesting. -/
def ReportsLimit (m : Check Unit) : Prop := ∃ d, Event.limit d ∈ m.events

/-- No count passes the limit. -/
def Within (nesting : List ℕ) : Prop := ∀ b, nesting.getD b 0 ≤ maxLoopNesting

theorem any_gt_iff {nesting : List ℕ} :
    nesting.any (· > maxLoopNesting) = true ↔ ¬ Within nesting := by
  simp only [any_eq_true, decide_eq_true_eq, Within, not_forall, not_le]
  constructor
  · rintro ⟨n, hn, hlt⟩
    obtain ⟨b, hb, rfl⟩ := mem_iff_getElem.mp hn
    exact ⟨b, by simpa [getD_eq_getElem?_getD, hb] using hlt⟩
  · rintro ⟨b, hlt⟩
    have hb : b < nesting.length := by
      by_contra hge
      rw [getD_eq_getElem?_getD, getElem?_eq_none (by omega)] at hlt
      exact absurd hlt (by simp)
    refine ⟨nesting[b], getElem_mem hb, ?_⟩
    simpa [getD_eq_getElem?_getD, hb] using hlt

/-! ### The edges that are counted -/

variable {component : List ℕ} {components : List (List ℕ)}

theorem mem_backEdges {e : ℕ × ℕ} (h : IsComponent g component) :
    e ∈ backEdges g.successors g.dominators component
      ↔ e.1 ∈ component ∧ e.2 ∈ component ∧ BackEdge g.Edge 0 e.1 e.2 := by
  obtain ⟨s, t⟩ := e
  simp only [backEdges, mem_flatMap, mem_map, mem_filter, Prod.mk.injEq,
    Bool.and_eq_true, decide_eq_true_eq]
  constructor
  · rintro ⟨s, hs, t, ⟨hedge, ht, hdom⟩, rfl, rfl⟩
    exact ⟨hs, ht, hedge, (dominates_iff (h.lt s hs)).mp hdom⟩
  · rintro ⟨hs, ht, hedge, hdom⟩
    exact ⟨s, hs, t, ⟨hedge, ht, (dominates_iff (h.lt s hs)).mpr hdom⟩, rfl, rfl⟩

theorem edge_of_mem_countedEdges (hcomponents : ∀ c ∈ components, IsComponent g c) {e : ℕ × ℕ}
    (he : e ∈ g.countedEdges components) : g.Edge e.1 e.2 := by
  obtain ⟨c, hc, hmem⟩ := mem_flatMap.mp he
  exact ((mem_backEdges (hcomponents c (mem_filter.mp hc).1)).mp hmem).2.2.1

theorem countedEdges_cons :
    g.countedEdges (component :: components)
      = (if isCyclic g.successors component = true then
          backEdges g.successors g.dominators component else [])
        ++ g.countedEdges components := by
  unfold FlowGraph.countedEdges
  rw [filter_cons]
  split <;> simp

theorem Within.of_countEdges {edges : List (ℕ × ℕ)} (hedges : ∀ e ∈ edges, g.Edge e.1 e.2)
    {nesting : List ℕ} (h : Within (g.countEdges edges nesting)) : Within nesting := by
  intro b
  by_cases hb : b < nesting.length
  · have := h b
    rw [g.getD_countEdges hedges hb] at this
    exact le_trans (Nat.le_add_right _ _) this
  · rw [getD_eq_getElem?_getD, getElem?_eq_none (by omega)]
    exact Nat.zero_le _

/-! ### Rejected cycles -/

/-- A component with a cycle and without a block dominating all of it. -/
structure Headless (g : FlowGraph) (component : List ℕ) : Prop where
  cycle : ∃ v ∈ component, TransGen g.Edge v v
  header : ¬ Headed g.Edge 0 (· ∈ component)

theorem exists_split_cons {α : Type*} {x : α} {xs : List α} {P : List α → α → Prop} :
    (∃ before y after, x :: xs = before ++ y :: after ∧ P before y)
      ↔ P [] x ∨ ∃ before y after, xs = before ++ y :: after ∧ P (x :: before) y := by
  constructor
  · rintro ⟨before, y, after, heq, hP⟩
    cases before with
    | nil =>
      obtain ⟨rfl, rfl⟩ := List.cons.inj heq
      exact .inl hP
    | cons z before =>
      obtain ⟨rfl, rfl⟩ := List.cons.inj heq
      exact .inr ⟨before, y, after, rfl, hP⟩
  · rintro (hP | ⟨before, y, after, rfl, hP⟩)
    · exact ⟨[], x, xs, rfl, hP⟩
    · exact ⟨x :: before, y, after, rfl, hP⟩

section Verdict

variable {span : Span} {components : List (List ℕ)}

theorem reportsIrreducible_check
    (hcomponents : ∀ c ∈ components, IsComponent g c) {nesting : List ℕ} (hwithin : Within nesting) :
    ReportsIrreducible (g.check span components nesting)
      ↔ ∃ before c after, components = before ++ c :: after
        ∧ Headless g c ∧ Within (g.countEdges (g.countedEdges before) nesting) := by
  induction components generalizing nesting with
  | nil => simp [ReportsIrreducible, FlowGraph.check, verifyComponents]
  | cons component components ih =>
    have h := hcomponents component mem_cons_self
    have hrest := fun c hc => hcomponents c (mem_cons_of_mem component hc)
    rw [exists_split_cons]
    cases hcyclic : isCyclic g.successors component with
    | false =>
      have hno : ¬ Headless g component := fun hheadless => by
        rw [(isCyclic_iff h).mpr hheadless.cycle] at hcyclic
        cases hcyclic
      rw [check_acyclic hcyclic, ih hrest hwithin]
      simp [hno, countedEdges_cons, hcyclic]
    | true =>
      by_cases hheaded : Headed g.Edge 0 (· ∈ component)
      · have hno : ¬ Headless g component := fun hheadless => hheadless.header hheaded
        rw [check_headed h hcyclic hheaded]
        simp only [hno, false_and, false_or, countedEdges_cons, hcyclic, if_true,
          FlowGraph.countEdges_append]
        split
        · next hlimit =>
          have hlimit := any_gt_iff.mp hlimit
          refine iff_of_false ?_ ?_
          · rintro ⟨d, hd, -⟩
            simp [limit] at hd
          · rintro ⟨before, c, after, rfl, -, hlater⟩
            refine hlimit (hlater.of_countEdges fun e he => ?_)
            exact edge_of_mem_countedEdges (fun c hc => hrest c (by simp [hc])) he
        · next hlimit => exact ih hrest (not_not.mp fun hnot => hlimit (any_gt_iff.mpr hnot))
      · rw [check_headless h hcyclic hheaded]
        refine iff_of_true ⟨_, mem_singleton_self _, rfl⟩ (.inl ⟨⟨?_, hheaded⟩, hwithin⟩)
        exact (isCyclic_iff h).mp hcyclic

theorem reportsLimit_check (hcomponents : ∀ c ∈ components, IsComponent g c)
    (hheaded : ∀ c ∈ components, Headed g.Edge 0 (· ∈ c)) {nesting : List ℕ}
    (hwithin : Within nesting) :
    ReportsLimit (g.check span components nesting)
      ↔ ¬ Within (g.countEdges (g.countedEdges components) nesting) := by
  induction components generalizing nesting with
  | nil =>
    refine iff_of_false ?_ (not_not.mpr hwithin)
    rintro ⟨d, hd⟩
    simp [FlowGraph.check, verifyComponents] at hd
  | cons component components ih =>
    have h := hcomponents component mem_cons_self
    have hrest := fun c hc => hcomponents c (mem_cons_of_mem component hc)
    have ih := @ih hrest fun c hc => hheaded c (mem_cons_of_mem component hc)
    rw [countedEdges_cons]
    cases hcyclic : isCyclic g.successors component with
    | false =>
      rw [check_acyclic hcyclic, ih hwithin]
      simp
    | true =>
      rw [check_headed h hcyclic (hheaded component mem_cons_self), if_pos rfl,
        FlowGraph.countEdges_append]
      split
      · next hlimit =>
        refine iff_of_true ⟨_, mem_singleton_self _⟩ fun hlater => ?_
        refine any_gt_iff.mp hlimit (hlater.of_countEdges fun e he => ?_)
        exact edge_of_mem_countedEdges hrest he
      · next hlimit =>
        refine ih (not_not.mp fun hnot => hlimit (any_gt_iff.mpr hnot))

end Verdict

/-! ### The law of reducible control flow -/

/-- The loop check on a graph, with the dominators the verifier computes. -/
def FlowGraph.verifyLoops (g : FlowGraph) (span : Span) : Check Unit :=
  verifyReducibleLoops g.successors (predecessorLists g.successors)
    (computeDominators (predecessorLists g.successors) (reachableBlocks g.successors)) span

/-- The nesting counts after some components. -/
def FlowGraph.nesting (g : FlowGraph) (components : List (List ℕ)) : List ℕ :=
  g.countEdges (g.countedEdges components) (List.replicate g.count 0)

theorem FlowGraph.verifyLoops_eq (g : FlowGraph) (span : Span) :
    g.verifyLoops span
      = g.check span (stronglyConnectedComponents g.successors) (List.replicate g.count 0) := rfl

theorem within_replicate (n : ℕ) : Within (List.replicate n 0) := fun b => by
  rw [getD_eq_getElem?_getD, getElem?_replicate]
  split <;> exact Nat.zero_le _

theorem reportsIrreducible_iff (g : FlowGraph) (span : Span) :
    ReportsIrreducible (g.verifyLoops span)
      ↔ ∃ before c after, stronglyConnectedComponents g.successors = before ++ c :: after
        ∧ Headless g c ∧ Within (g.nesting before) :=
  reportsIrreducible_check (stronglyConnectedComponents_spec g).2.1 (within_replicate g.count)

/-- In a reducible graph every component has a header. -/
theorem IsComponent.headed (h : IsComponent g component)
    (hred : Reducible g.Edge 0) : Headed g.Edge 0 (· ∈ component) := by
  obtain ⟨v, hv⟩ := exists_mem_of_ne_nil _ h.nonempty
  have hlinked : (· ∈ component) = Mutual g.Edge v := funext fun u => propext (h.linked v hv u)
  rw [hlinked]
  exact hred.headed g.finite_sources v

theorem not_reducible_of_headless (h : IsComponent g component)
    (hheadless : Headless g component) : ¬ Reducible g.Edge 0 := fun hred =>
  hheadless.header (h.headed hred)

theorem not_reducible_iff {E : ℕ → ℕ → Prop} :
    ¬ Reducible E 0 ↔ ∃ nodes, ClosedWalk E nodes ∧ ¬ Headed E 0 (· ∈ nodes) := by
  simp only [Reducible, not_forall, exists_prop]

/-- The graph given by a list of edges. -/
def SameGraph (g : FlowGraph) (edges : List ControlFlow.Edge) : Prop :=
  ∀ u v, (∃ e ∈ edges, e.source = u ∧ e.target = v) ↔ g.Edge u v

/-- Taking away the back edges leaves an acyclic graph exactly when the graph is reducible. -/
theorem forward_acyclic_iff {edges : List ControlFlow.Edge} (hsame : SameGraph g edges)
    {idom : List ℕ} (hidom : immediateDominators (ControlFlow.successorLists g.count edges)
      (ControlFlow.predecessorLists g.count edges) = some idom) :
    (Kahn.run (forwardLists g.count edges (dominatorIntervals idom))).seen = g.count
      ↔ Reducible g.Edge 0 := by
  have hlt : ∀ e ∈ edges, e.source < g.count ∧ e.target < g.count := fun e he =>
    have hedge := (hsame e.source e.target).mp ⟨e, he, rfl, rfl⟩
    ⟨hedge.source_lt, hedge.target_lt⟩
  have hrel : (ControlFlow.successorLists g.count edges).Edge = g.Edge := by
    funext u v
    exact propext ((edge_successorLists hlt).trans (hsame u v))
  rw [seen_iff_reducible hlt g.valid.nonempty hidom, hrel]

/-- **When the check rejects exactly the irreducible graphs.** It reports a cycle if and only if
some cycle has no block dominating it, and it then accepts the graphs that the removal of back
edges accepts, exactly when no such cycle exists or one of the components it reaches within the
nesting limit has no header. -/
theorem verifyReducibleLoops_reports_iff (g : FlowGraph) (span : Span) :
    ((ReportsIrreducible (g.verifyLoops span)
        ↔ ∃ nodes, ClosedWalk g.Edge nodes ∧ ¬ Headed g.Edge 0 (· ∈ nodes))
      ∧ ∀ edges idom, SameGraph g edges →
        immediateDominators (ControlFlow.successorLists g.count edges)
          (ControlFlow.predecessorLists g.count edges) = some idom →
        (¬ ReportsIrreducible (g.verifyLoops span)
          ↔ (Kahn.run (forwardLists g.count edges (dominatorIntervals idom))).seen = g.count))
    ↔ (Reducible g.Edge 0
      ∨ ∃ before c after, stronglyConnectedComponents g.successors = before ++ c :: after
        ∧ Headless g c ∧ Within (g.nesting before)) := by
  rw [← not_reducible_iff, ← reportsIrreducible_iff g span]
  have hsound : ReportsIrreducible (g.verifyLoops span) → ¬ Reducible g.Edge 0 := by
    rw [reportsIrreducible_iff]
    rintro ⟨before, c, after, heq, hheadless, -⟩
    refine not_reducible_of_headless ?_ hheadless
    exact (stronglyConnectedComponents_spec g).2.1 c (by simp [heq])
  constructor
  · rintro ⟨hiff, -⟩
    by_cases hred : Reducible g.Edge 0
    · exact .inl hred
    · exact .inr (hiff.mpr hred)
  · intro h
    have hiff : ReportsIrreducible (g.verifyLoops span) ↔ ¬ Reducible g.Edge 0 :=
      ⟨hsound, fun hnot => h.resolve_left hnot⟩
    refine ⟨hiff, fun edges idom hsame hidom => ?_⟩
    rw [hiff, not_not, forward_acyclic_iff hsame hidom]

/-- A loop with an entry block and two blocks that the header both enters and that enter each
other. -/
def crossedLoop : FlowGraph where
  successors := [[1], [2, 3], [3, 1], [2, 4], []]
  valid := ⟨by decide, fun u v hv => by
    have hall : ∀ u < 5, ∀ v ∈ Adjacency.at [[1], [2, 3], [3, 1], [2, 4], []] u, v < 5 := by decide
    exact hall u (Adjacency.lt_of_mem_at hv) v hv⟩
  reaches := by
    have h1 : Reaches [[1], [2, 3], [3, 1], [2, 4], []] 1 := .single (by decide)
    intro b hb
    match b with
    | 0 => exact .refl
    | 1 => exact h1
    | 2 => exact h1.tail (by decide)
    | 3 => exact h1.tail (by decide)
    | 4 => exact (h1.tail (by decide : 3 ∈ _)).tail (by decide)
    | b + 5 => exact absurd hb (by simp)

/-- The check accepts a graph whose entry has no predecessor and in which two blocks form a cycle
that neither of them dominates. -/
theorem verifyReducibleLoops_crossedLoop :
    (∀ u, ¬ crossedLoop.Edge u 0)
      ∧ ¬ (ReportsIrreducible (crossedLoop.verifyLoops ⟨⟨0, 0⟩, 0, 0⟩)
        ↔ ∃ nodes, ClosedWalk crossedLoop.Edge nodes ∧ ¬ Headed crossedLoop.Edge 0 (· ∈ nodes)) := by
  refine ⟨fun u hu => ?_, fun h => ?_⟩
  · have hnone : ∀ u < 5, 0 ∉ crossedLoop.successors.at u := by decide
    exact hnone u hu.source_lt hu
  have hnone : (crossedLoop.verifyLoops ⟨⟨0, 0⟩, 0, 0⟩).events = [] := by decide
  obtain ⟨d, hd, -⟩ : ReportsIrreducible (crossedLoop.verifyLoops ⟨⟨0, 0⟩, 0, 0⟩) := by
    refine h.mpr ⟨[2, 3], ⟨by simp, ?_, ?_⟩, ?_⟩
    · exact .cons_cons (show 3 ∈ crossedLoop.successors.at 2 by decide) (.singleton _)
    · exact (show 2 ∈ crossedLoop.successors.at 3 by decide)
    · -- each of the two is entered from the header past the other
      have h1 : ∀ d, d ≠ 0 → d ≠ 1 → Avoids crossedLoop.Edge 0 d 1 := fun d h0 h1 =>
        ⟨h0, .single ⟨show 1 ∈ crossedLoop.successors.at 0 by decide, h1.symm⟩⟩
      rintro ⟨d, hd, hdom⟩
      have hd' : d = 2 ∨ d = 3 := by simpa using hd
      rcases hd' with rfl | rfl
      · exact hdom 3 (by simp) ((h1 2 (by decide) (by decide)).tail
          (show 3 ∈ crossedLoop.successors.at 1 by decide) (by decide))
      · exact hdom 2 (by simp) ((h1 3 (by decide) (by decide)).tail
          (show 2 ∈ crossedLoop.successors.at 1 by decide) (by decide))
  rw [hnone] at hd
  exact absurd hd not_mem_nil

end Zryna.Ir.DataOwnership
