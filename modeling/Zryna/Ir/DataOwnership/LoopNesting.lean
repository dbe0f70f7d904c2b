import Zryna.Ir.DataOwnership.Dominators

/-!
# Loops

What `verify_reducible_loops` reports, in terms of the graph.

A component is rejected exactly when no block of it dominates all of it; the test for an entry that
bypasses the header never fails (`Dominates.entered`). The test looks at whole components, so a
cycle inside a component that has a header is not looked at.

The nesting of a block counts, for every back edge, whether the blocks collected for that edge
contain it. They are the natural loop of the target when it has no other back edge, except that for
an edge from a block to itself the collection does not stop at the block.
-/

namespace Zryna.Ir.DataOwnership

open Relation ControlFlow Report List

variable {g : FlowGraph}

/-! ### The blocks collected for a back edge -/

theorem length_insertAscending {x : ℕ} {xs : List ℕ} (h : x ∉ xs) :
    (insertAscending x xs).length = xs.length + 1 := by
  induction xs with
  | nil => rfl
  | cons y ys ih =>
    obtain ⟨hne, hnot⟩ := ne_and_not_mem_of_not_mem_cons h
    unfold insertAscending
    rw [if_neg hne]
    split
    · rfl
    · simp [ih hnot]

/-- What collecting the predecessors of a block does to the members and the queue. -/
theorem collected_spec (preds : List ℕ) :
    ∀ members work : List ℕ, members.Pairwise (· < ·) →
      let collected := preds.foldl (fun (members, work) predecessor =>
        if predecessor ∈ members then (members, work)
        else (insertAscending predecessor members, work ++ [predecessor])) (members, work)
      collected.1.Pairwise (· < ·)
        ∧ (∀ v, v ∈ collected.1 ↔ v ∈ members ∨ v ∈ preds)
        ∧ (∀ v, v ∈ collected.2 ↔ v ∈ work ∨ v ∈ preds ∧ v ∉ members)
        ∧ collected.2.length + members.length = work.length + collected.1.length := by
  induction preds with
  | nil => intro members work h; simp [h]
  | cons p preds ih =>
    intro members work h
    rw [foldl_cons]
    by_cases hp : p ∈ members
    · simp only [if_pos hp]
      obtain ⟨hpairwise, hmembers, hwork, hlength⟩ := ih members work h
      refine ⟨hpairwise, fun v => ?_, fun v => ?_, hlength⟩
      · rw [hmembers, mem_cons]
        refine or_congr_right' fun hnot => ⟨.inr, fun h => h.resolve_left ?_⟩
        rintro rfl
        exact hnot hp
      · rw [hwork, mem_cons]
        refine or_congr_right (and_congr_left fun hnot => ⟨.inr, fun h => h.resolve_left ?_⟩)
        rintro rfl
        exact hnot hp
    · simp only [if_neg hp]
      obtain ⟨hpairwise, hmembers, hwork, hlength⟩ :=
        ih (insertAscending p members) (work ++ [p]) (pairwise_insertAscending h)
      refine ⟨hpairwise, fun v => ?_, fun v => ?_, ?_⟩
      · rw [hmembers, mem_insertAscending, mem_cons]
        tauto
      · rw [hwork, mem_insertAscending, mem_append, mem_singleton, mem_cons]
        by_cases hvp : v = p
        · rw [hvp]
          tauto
        · tauto
      · rw [length_insertAscending hp, length_append, length_singleton, ← add_assoc,
          add_right_comm work.length] at hlength
        exact Nat.add_right_cancel hlength

theorem loopRounds_spec {target source : ℕ} (fuel : ℕ) :
    ∀ {work members : List ℕ},
      Gathering g.predecessors.at (· = target) [source] (· ∈ members) work →
      members.Pairwise (· < ·) → (∀ v ∈ members, v < g.count) →
      work.length + g.count < fuel + members.length →
      let final := loopRounds g.predecessors fuel work members
      final.Pairwise (· < ·)
        ∧ ∀ v, v ∈ final ↔ v = target ∨ ReachesStart g.predecessors.at (· = target) [source] v := by
  induction fuel with
  | zero =>
    intro work members _ hpairwise hlt hfuel
    have hle : members.length ≤ (List.range g.count).length :=
      (subperm_of_subset (hpairwise.imp fun h => ne_of_lt h)
        fun v hv => mem_range.mpr (hlt v hv)).length_le
    rw [length_range] at hle
    omega
  | succ fuel ih =>
    intro work members h hpairwise hlt hfuel
    match work with
    | [] => exact ⟨hpairwise, fun v => h.seen_iff⟩
    | node :: work =>
      obtain ⟨hpairwise', hmembers', hwork', hlength⟩ :=
        collected_spec (g.predecessors.at node) members work hpairwise
      have hat : (g.predecessors[node]?).getD [] = g.predecessors.at node := rfl
      simp only [loopRounds, hat]
      generalize (g.predecessors.at node).foldl (fun (members, work) predecessor =>
        if predecessor ∈ members then (members, work)
        else (insertAscending predecessor members, work ++ [predecessor])) (members, work)
        = collected at hpairwise' hmembers' hwork' hlength
      obtain ⟨members', work'⟩ := collected
      refine ih (h.step hmembers' hwork') hpairwise' (fun v hv => ?_) ?_
      · rcases (hmembers' v).mp hv with hv | hv
        · exact hlt v hv
        · exact (FlowGraph.mem_predecessors.mp hv).source_lt
      · rw [length_cons] at hfuel
        dsimp only at hlength ⊢
        omega

/-- The blocks collected for an edge from `source` to `target`. -/
def FlowGraph.collected (g : FlowGraph) (source target : ℕ) : List ℕ :=
  loopMembers g.predecessors target source

theorem mem_collected {source target : ℕ} (hedge : g.Edge source target) :
    (g.collected source target).Pairwise (· < ·)
      ∧ ∀ v, v ∈ g.collected source target
        ↔ v = target ∨ ReachesStart g.predecessors.at (· = target) [source] v := by
  have hmem : ∀ v, v ∈ insertAscending source [target] ↔ v = target ∨ v ∈ [source] := fun v => by
    rw [mem_insertAscending, mem_singleton, mem_singleton, or_comm]
  have hgather : Gathering g.predecessors.at (· = target) [source]
      (· ∈ insertAscending source [target]) [source] := by
    rw [funext fun v => propext (hmem v)]
    exact Gathering.start
  refine loopRounds_spec (g.predecessors.length + 1) hgather
    (pairwise_insertAscending (pairwise_singleton _ _)) (fun v hv => ?_) ?_
  · rcases (hmem v).mp hv with rfl | hv
    · exact hedge.target_lt
    · rw [mem_singleton.mp hv]
      exact hedge.source_lt
  · have hpos : 0 < (insertAscending source [target]).length :=
      length_pos_of_mem ((hmem target).mpr (.inl rfl))
    rw [g.length_predecessors, length_singleton]
    omega

/-- For an edge between two blocks, the blocks that reach the source without passing the target. -/
theorem mem_collected_of_ne {source target v : ℕ} (hedge : g.Edge source target)
    (hne : source ≠ target) :
    v ∈ g.collected source target
      ↔ v = target ∨ v ≠ target ∧ ReflTransGen (fun u w => g.Edge u w ∧ w ≠ target) v source := by
  rw [(mem_collected hedge).2]
  by_cases hv : v = target
  · simp [hv]
  simp only [hv, ne_eq, false_or, not_false_eq_true, true_and, ReachesStart, mem_singleton,
    exists_eq_left]
  constructor
  · intro hpath
    -- every block on the way is the source or left by a step, so it is not the target
    have hin : ∀ u w, u ∈ g.predecessors.at w ∧ ¬ u = target →
        ReflTransGen (fun u v => u ∈ g.predecessors.at v ∧ ¬ u = target) w source → w ≠ target := by
      intro u w _ hrest
      rcases ReflTransGen.cases_head hrest with rfl | ⟨x, hstep, -⟩
      · exact hne
      · exact hstep.2
    induction hpath using ReflTransGen.head_induction_on with
    | refl => exact .refl
    | @head u w hstep hrest ih =>
      have hw := hin u w hstep hrest
      exact (ih hw).head ⟨FlowGraph.mem_predecessors.mp hstep.1, hw⟩
  · intro hpath
    induction hpath using ReflTransGen.head_induction_on with
    | refl => exact .refl
    | @head u w hstep _ ih =>
      exact (ih hstep.2).head ⟨FlowGraph.mem_predecessors.mpr hstep.1, hv⟩

/-- For an edge from a block to itself, all blocks that reach it. -/
theorem mem_collected_self {target v : ℕ} (hedge : g.Edge target target) :
    v ∈ g.collected target target ↔ ReflTransGen g.Edge v target := by
  rw [(mem_collected hedge).2]
  simp only [ReachesStart, mem_singleton, exists_eq_left]
  constructor
  · rintro (rfl | hpath)
    · exact .refl
    · exact ReflTransGen.mono (fun _ _ hstep => FlowGraph.mem_predecessors.mp hstep.1) _ _ hpath
  · intro hpath
    induction hpath using ReflTransGen.head_induction_on with
    | refl => exact .inl rfl
    | @head u w hstep _ ih =>
      by_cases hu : u = target
      · exact .inl hu
      refine .inr ?_
      have hedge' := FlowGraph.mem_predecessors.mpr hstep
      rcases ih with rfl | ih
      · exact ReflTransGen.single ⟨hedge', hu⟩
      · exact ih.head ⟨hedge', hu⟩

/-! ### Counting -/

theorem length_countLoop (nesting members : List ℕ) :
    (countLoop nesting members).length = nesting.length := by
  unfold countLoop
  induction members generalizing nesting with
  | nil => rfl
  | cons v members ih => rw [foldl_cons, ih, length_set]

theorem getD_countLoop {members : List ℕ} (hnodup : members.Nodup) {nesting : List ℕ} {b : ℕ}
    (hb : b < nesting.length) :
    (countLoop nesting members).getD b 0
      = nesting.getD b 0 + if b ∈ members then 1 else 0 := by
  induction members generalizing nesting with
  | nil => simp [countLoop]
  | cons v members ih =>
    obtain ⟨hv, hnodup⟩ := nodup_cons.mp hnodup
    have hstep : countLoop nesting (v :: members)
        = countLoop (nesting.set v (nesting.getD v 0 + 1)) members := rfl
    rw [hstep, ih hnodup (by rwa [length_set])]
    by_cases hbv : b = v
    · subst hbv
      simp [getD_eq_getElem?_getD, hb, hv]
    · simp [getD_eq_getElem?_getD, getElem?_set_ne (Ne.symm hbv), hbv]

/-- Adds what is collected for each edge of a list to the counts. -/
def FlowGraph.countEdges (g : FlowGraph) (edges : List (ℕ × ℕ)) (nesting : List ℕ) : List ℕ :=
  edges.foldl (fun nesting (source, target) => countLoop nesting (g.collected source target)) nesting

theorem FlowGraph.countEdges_append (edges more : List (ℕ × ℕ)) (nesting : List ℕ) :
    g.countEdges (edges ++ more) nesting = g.countEdges more (g.countEdges edges nesting) :=
  foldl_append

theorem FlowGraph.length_countEdges (edges : List (ℕ × ℕ)) (nesting : List ℕ) :
    (g.countEdges edges nesting).length = nesting.length := by
  induction edges generalizing nesting with
  | nil => rfl
  | cons e edges ih => exact (ih _).trans (length_countLoop _ _)

theorem FlowGraph.getD_countEdges {edges : List (ℕ × ℕ)} (hedges : ∀ e ∈ edges, g.Edge e.1 e.2)
    {nesting : List ℕ} {b : ℕ} (hb : b < nesting.length) :
    (g.countEdges edges nesting).getD b 0
      = nesting.getD b 0 + edges.countP fun e => b ∈ g.collected e.1 e.2 := by
  induction edges generalizing nesting with
  | nil => simp [FlowGraph.countEdges]
  | cons e edges ih =>
    have hstep : g.countEdges (e :: edges) nesting
        = g.countEdges edges (countLoop nesting (g.collected e.1 e.2)) := rfl
    have hnodup : (g.collected e.1 e.2).Nodup :=
      (mem_collected (hedges e mem_cons_self)).1.imp fun h => ne_of_lt h
    rw [hstep, ih (fun e he => hedges e (mem_cons_of_mem _ he))
      (by rwa [length_countLoop]), getD_countLoop hnodup hb, countP_cons]
    simp only [decide_eq_true_eq]
    omega

/-! ### Components of a graph -/

theorem isCyclic_iff {component : List ℕ} (h : IsComponent g component) :
    isCyclic g.successors component = true ↔ ∃ v ∈ component, TransGen g.Edge v v := by
  obtain ⟨v, rest, rfl⟩ := exists_cons_of_ne_nil h.nonempty
  have hv : v ∈ v :: rest := mem_cons_self
  have hself : isCyclic g.successors (v :: rest) = true ↔ rest ≠ [] ∨ g.Edge v v := by
    simp only [isCyclic, length_cons, head?_cons, Option.any_some, Bool.or_eq_true,
      decide_eq_true_eq, gt_iff_lt, Nat.lt_add_left_iff_pos, length_pos_iff]
    rfl
  rw [hself]
  constructor
  · rintro (hrest | hedge)
    · obtain ⟨w, rest', rfl⟩ := exists_cons_of_ne_nil hrest
      have hlt : v < w := (pairwise_cons.mp h.pairwise).1 w mem_cons_self
      obtain ⟨hvw, hwv⟩ := (h.linked v hv w).mp (by simp)
      refine ⟨v, hv, ?_⟩
      rcases ReflTransGen.cases_head hvw with rfl | ⟨x, hstep, hpath⟩
      · exact absurd hlt (lt_irrefl _)
      · exact TransGen.head' hstep (hpath.trans hwv)
    · exact ⟨v, hv, .single hedge⟩
  · rintro ⟨u, hu, hcycle⟩
    by_cases hrest : rest = []
    · subst hrest
      obtain rfl : u = v := by simpa using hu
      obtain ⟨w, hstep, hpath⟩ := TransGen.head'_iff.mp hcycle
      have hw := (h.linked u hu w).mpr ⟨.single hstep, hpath⟩
      obtain rfl : w = u := by simpa using hw
      exact .inr hstep
    · exact .inl hrest

theorem mem_componentHeaders {component : List ℕ} (h : IsComponent g component) {v : ℕ} :
    v ∈ componentHeaders g.dominators component
      ↔ v ∈ component ∧ ∀ b ∈ component, Dominates g.Edge 0 v b := by
  rw [componentHeaders, mem_filter, all_eq_true]
  exact and_congr_right fun _ => forall₂_congr fun b hb => dominates_iff (h.lt b hb)

theorem componentHeaders_eq {component : List ℕ} (h : IsComponent g component) :
    (Headed g.Edge 0 (· ∈ component) → ∃ header ∈ component,
        (∀ b ∈ component, Dominates g.Edge 0 header b)
          ∧ componentHeaders g.dominators component = [header])
      ∧ (¬ Headed g.Edge 0 (· ∈ component) → componentHeaders g.dominators component = []) := by
  constructor
  · rintro ⟨header, hmem, hdom⟩
    refine ⟨header, hmem, hdom, perm_singleton.mp ?_⟩
    have hnodup : (componentHeaders g.dominators component).Nodup :=
      (h.pairwise.imp fun h => ne_of_lt h).filter _
    refine (perm_ext_iff_of_nodup hnodup (nodup_singleton header)).mpr fun v => ?_
    rw [mem_componentHeaders h, mem_singleton]
    constructor
    · rintro ⟨hv, hvdom⟩
      exact (hvdom header hmem).antisymm (hdom v hv) (g.reachable (h.lt v hv))
    · rintro rfl
      exact ⟨hmem, hdom⟩
  · intro hnot
    refine eq_nil_iff_forall_not_mem.mpr fun v hv => hnot ?_
    obtain ⟨hmem, hdom⟩ := (mem_componentHeaders h).mp hv
    exact ⟨v, hmem, hdom⟩

theorem not_bypassed {component : List ℕ} (h : IsComponent g component) {header : ℕ}
    (hmem : header ∈ component) (hdom : ∀ b ∈ component, Dominates g.Edge 0 header b) :
    (component.any fun node => ((g.predecessors[node]?).getD []).any fun predecessor =>
      predecessor ∉ component && node ≠ header) = false := by
  rw [any_eq_false]
  intro node hnode
  rw [Bool.not_eq_true, any_eq_false]
  intro predecessor hpred
  have hedge : g.Edge predecessor node := FlowGraph.mem_predecessors.mp hpred
  simp only [Bool.and_eq_true, decide_eq_true_eq, not_and, not_not]
  intro hout
  refine (hdom node hnode).entered ((h.linked header hmem node).mp hnode) hedge
    (g.reachable hedge.source_lt) fun hlinked => hout ?_
  exact (h.linked header hmem predecessor).mpr hlinked

/-! ### The verdict on the components -/

/-- What the verifier says of the components from one of them on. -/
def FlowGraph.check (g : FlowGraph) (span : Span) (components : List (List ℕ))
    (nesting : List ℕ) : Check Unit :=
  verifyComponents g.successors g.predecessors g.dominators span components nesting

/-- The back edges that are counted in some components. -/
def FlowGraph.countedEdges (g : FlowGraph) (components : List (List ℕ)) : List (ℕ × ℕ) :=
  (components.filter (isCyclic g.successors)).flatMap (backEdges g.successors g.dominators)

section Check

variable {span : Span} {component : List ℕ} {components : List (List ℕ)} {nesting : List ℕ}

theorem check_acyclic (h : isCyclic g.successors component = false) :
    g.check span (component :: components) nesting = g.check span components nesting :=
  if_neg (by rw [h]; exact Bool.false_ne_true)

variable (h : IsComponent g component) (hcyclic : isCyclic g.successors component = true)

include h hcyclic

theorem check_headless (hnot : ¬ Headed g.Edge 0 (· ∈ component)) :
    g.check span (component :: components) nesting
      = push (errorAt "ZRYNA-I3007" span "CFG contains an irreducible control-flow cycle"
        "use one dominating loop header for every cycle") := by
  refine (if_pos hcyclic).trans ?_
  rw [(componentHeaders_eq h).2 hnot]

theorem check_headed (hheaded : Headed g.Edge 0 (· ∈ component)) :
    g.check span (component :: components) nesting
      = if (g.countEdges (backEdges g.successors g.dominators component) nesting).any
            (· > maxLoopNesting) then
          limit (limitAt "verified loop nesting" maxLoopNesting)
        else g.check span components
          (g.countEdges (backEdges g.successors g.dominators component) nesting) := by
  obtain ⟨header, hmem, hdom, hheaders⟩ := (componentHeaders_eq h).1 hheaded
  have hbypass := not_bypassed h hmem hdom
  refine (if_pos hcyclic).trans ?_
  rw [hheaders]
  dsimp only
  rw [if_neg (by rw [hbypass]; exact Bool.false_ne_true)]
  rfl

end Check

end Zryna.Ir.DataOwnership
