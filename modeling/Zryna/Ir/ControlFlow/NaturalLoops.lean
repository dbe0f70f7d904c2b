import Zryna.Foundation.Marking
import Zryna.Foundation.OrderedMap
import Zryna.Foundation.Reducible
import Zryna.Ir.ControlFlow.Convergence
import Zryna.Ir.ControlFlow.Verified

/-!
# Reducibility and natural loops

`verifyReducibility` takes the edges whose target dominates their source for back edges, sorts the
blocks along the others, and collects the natural loop of every header. On a graph whose blocks are
reachable the sort takes every block exactly when each cycle has a dominating block
(`seen_iff_reducible`), a header has exactly its natural loop in the table (`naturalLoops_spec`),
and the count of a block is the number of natural loops around it (`nesting_eq_loopDepth`), which
are nested in one another (`NaturalLoop.nested`).

The walk of a back edge adds to what earlier back edges of the same header have collected, and it
stops at blocks that are there already. That is harmless because what is there is closed under
predecessors other than the header (`LoopMarks`).
-/

namespace Zryna.Ir.ControlFlow

open Relation List

/-! ### The walk of one back edge -/

/-- Where the walk goes from a block. The header is marked from the start and not expanded. -/
def loopChildren (predecessors : Adjacency) (header node : ℕ) : List ℕ :=
  if node = header then [] else ((predecessors.at node).filter (· ≠ header)).reverse

variable {predecessors : Adjacency} {source k : ℕ} {key : FunctionKey}

theorem mem_loopChildren {header u v : ℕ} :
    u ∈ loopChildren predecessors header v
      ↔ v ≠ header ∧ u ∈ predecessors.at v ∧ u ≠ header := by
  unfold loopChildren
  split
  · next h => simp [h]
  · next h => simp [h]

/-- With its step bound the loop is the marking loop. -/
theorem loopMembers_eq {header : ℕ} (fuel : ℕ) :
    ∀ {stack : List ℕ} {members : List Bool},
      (∀ v, ∀ u ∈ predecessors.at v, u < members.length) → (∀ v ∈ stack, v < members.length) →
      members[header]? = some true →
      pendingWeight members (fun v => (predecessors.at v).length) + stack.length < fuel →
      loopMembers predecessors header fuel stack members
        = markFrom (loopChildren predecessors header) members stack := by
  induction fuel with
  | zero =>
    intro stack members _ _ _ hfuel
    exact absurd hfuel (Nat.not_lt_zero _)
  | succ fuel ih =>
    intro stack members hpred hstack hheader hfuel
    match stack with
    | [] => rw [loopMembers, markFrom]
    | node :: stack =>
      have hnode : node < members.length := hstack node (by simp)
      rw [loopMembers, markFrom]
      cases hm : members[node] with
      | true =>
        have hget : members[node]? = some true := by rw [getElem?_eq_getElem hnode, hm]
        rw [if_pos (by simp [getD_eq_getElem?_getD, hget]), if_neg (by simp [hget])]
        exact ih hpred (fun v hv => hstack v (by simp [hv])) hheader
          (by simp only [length_cons] at hfuel; omega)
      | false =>
        have hget : members[node]? = some false := by rw [getElem?_eq_getElem hnode, hm]
        have hgetD : members.getD node false = false := by
          simp [getD_eq_getElem?_getD, hget]
        have hne : node ≠ header := by
          rintro rfl
          rw [hheader] at hget
          cases hget
        rw [if_neg (by simp [getD_eq_getElem?_getD, hget]), if_pos hget]
        have hchildren : loopChildren predecessors header node
            = ((predecessors.at node).filter (· ≠ header)).reverse := if_neg hne
        rw [hchildren]
        refine ih (by simpa using hpred) ?_ ((getElem?_set_true hnode).mpr (.inr hheader)) ?_
        · intro v hv
          rw [length_set]
          rcases mem_append.mp hv with hv | hv
          · exact hpred node v (mem_of_mem_filter (mem_reverse.mp hv))
          · exact hstack v (by simp [hv])
        · -- the pushed predecessors are paid for by the mark
          have hweight := pendingWeight_set members (fun v => (predecessors.at v).length) hnode hgetD
          have hle := length_filter_le (· ≠ header) (predecessors.at node)
          simp only [length_cons, length_append, length_reverse] at hfuel ⊢
          omega

/-- What has been collected for a header: itself, and the blocks that reach one of the sources
without passing it. -/
structure LoopMarks (predecessors : Adjacency) (header : ℕ) (sources : ℕ → Prop)
    (members : List Bool) : Prop where
  length_eq : members.length = predecessors.length
  marked_iff : ∀ b < predecessors.length, members[b]? = some true
    ↔ b = header ∨ b ≠ header ∧ ∃ s, sources s
      ∧ ReflTransGen (fun u v => u ∈ predecessors.at v ∧ v ≠ header) b s

/-- Every list names blocks of the graph. -/
def Adjacency.Inside (adj : Adjacency) : Prop := ∀ v, ∀ u ∈ adj.at v, u < adj.length

theorem loopMarks_initial {header : ℕ} (hheader : header < predecessors.length) :
    LoopMarks predecessors header (fun _ => False)
      ((List.replicate predecessors.length false).set header true) := by
  refine ⟨by simp, fun b hb => ?_⟩
  rw [getElem?_set_true (by simpa using hheader), getElem?_replicate, if_pos hb]
  simp

variable {sources : ℕ → Prop}

/-- The header keeps its mark, so setting it again changes nothing. -/
theorem LoopMarks.set_header {header : ℕ}
    {members : List Bool} (h : LoopMarks predecessors header sources members)
    (hheader : header < predecessors.length) : members.set header true = members := by
  have hmarked := (h.marked_iff header hheader).mpr (.inl rfl)
  obtain ⟨hlt, hget⟩ := List.getElem?_eq_some_iff.mp hmarked
  rw [← hget, set_getElem_self]

/-- The walk of one more back edge. -/
theorem LoopMarks.add (hinside : predecessors.Inside) {header : ℕ}
    {members : List Bool} (h : LoopMarks predecessors header sources members)
    (hheader : header < predecessors.length) (hsource : source < predecessors.length) :
    LoopMarks predecessors header (fun s => sources s ∨ s = source)
      (loopMembers predecessors header (predecessors.size + 2) [source] members) := by
  have hmarked := (h.marked_iff header hheader).mpr (.inl rfl)
  have hfuel : pendingWeight members (fun v => (predecessors.at v).length) + 1
      < predecessors.size + 2 := by
    have hle : pendingWeight members (fun v => (predecessors.at v).length) ≤ predecessors.size := by
      rw [Adjacency.size_eq, pendingWeight, h.length_eq]
      refine sum_le_sum fun v _ => ?_
      split
      · exact Nat.zero_le _
      · exact le_refl _
    omega
  rw [loopMembers_eq _ (by rw [h.length_eq]; exact hinside)
    (by simpa [h.length_eq] using hsource) hmarked hfuel]
  obtain ⟨hkept, hpending, hclosed⟩ := @markFrom_complete
    (loopChildren predecessors header) members [source] fun u v hu hv hlt => by
      -- what was collected before is closed already
      obtain ⟨hne, hv, hvne⟩ := mem_loopChildren.mp hv
      have hult : u < predecessors.length := h.length_eq ▸ (List.getElem?_eq_some_iff.mp hu).1
      obtain ⟨-, s, hs, hpath⟩ := ((h.marked_iff u hult).mp hu).resolve_left hne
      exact .inl ((h.marked_iff v (h.length_eq ▸ hlt)).mpr
        (.inr ⟨hvne, s, hs, hpath.head ⟨hv, hne⟩⟩))
  refine ⟨by rw [length_markFrom, h.length_eq], fun b hb => ⟨fun hb' => ?_, ?_⟩⟩
  · refine markFrom_sound (P := fun b => b = header ∨ b ≠ header ∧ ∃ s, (sources s ∨ s = source)
      ∧ ReflTransGen (fun u v => u ∈ predecessors.at v ∧ v ≠ header) b s) members [source]
      (fun u hu => ?_) (fun u hu _ => ?_) (fun u v hu hv _ => ?_) hb'
    · have hult : u < predecessors.length := h.length_eq ▸ (List.getElem?_eq_some_iff.mp hu).1
      refine ((h.marked_iff u hult).mp hu).imp id ?_
      rintro ⟨hne, s, hs, hpath⟩
      exact ⟨hne, s, .inl hs, hpath⟩
    · obtain rfl : u = source := by simpa using hu
      by_cases hu : u = header
      · exact .inl hu
      · exact .inr ⟨hu, u, .inr rfl, .refl⟩
    · obtain ⟨hne, hv, hvne⟩ := mem_loopChildren.mp hv
      obtain ⟨-, s, hs, hpath⟩ := hu.resolve_left hne
      exact .inr ⟨hvne, s, hs, hpath.head ⟨hv, hne⟩⟩
  · rintro (rfl | ⟨hne, s, hs, hpath⟩)
    · exact hkept b hmarked
    rcases hs with hs | rfl
    · exact hkept b ((h.marked_iff b hb).mpr (.inr ⟨hne, s, hs, hpath⟩))
    -- backwards along the path, every block on it but the header is marked
    clear hb
    induction hpath using ReflTransGen.head_induction_on with
    | refl => exact hpending s (by simp) (h.length_eq ▸ hsource)
    | @head u v hstep _ ih =>
      exact hclosed v u (ih hstep.2) (mem_loopChildren.mpr ⟨hstep.2, hstep.1, hne⟩)
        (h.length_eq ▸ hinside v u hstep.1)

/-! ### The table of loops -/

theorem lookup_filter_ne {β : Type} {k' : ℕ} (hne : k ≠ k') (l : List (ℕ × β)) :
    (l.filter (·.1 ≠ k')).lookup k = l.lookup k := by
  induction l with
  | nil => rfl
  | cons e l ih =>
    obtain ⟨key, value⟩ := e
    by_cases hkey : key = k'
    · have hk : (k == key) = false := by simp [hkey, hne]
      rw [filter_cons_of_neg (by simp [hkey]), ih, lookup_cons, hk]
    · rw [filter_cons_of_pos (by simp [hkey]), lookup_cons, lookup_cons, ih]

/-- The table holds one entry for each header of a back edge, with what its back edges collect. -/
structure LoopTable.Collected (predecessors : Adjacency) (back : ℕ → ℕ → Prop)
    (loops : LoopTable) : Prop where
  nodup : (loops.map Prod.fst).Nodup
  found : ∀ s h, back s h → ∃ members, loops.lookup h = some members
  marks : ∀ h members, loops.lookup h = some members →
    (∃ s, back s h) ∧ LoopMarks predecessors h (back · h) members

theorem LoopTable.Collected.addBackEdge (hinside : predecessors.Inside) {back : ℕ → ℕ → Prop}
    {loops : LoopTable} (h : loops.Collected predecessors back) {header : ℕ}
    (hsource : source < predecessors.length) (hheader : header < predecessors.length) :
    (loops.addBackEdge predecessors predecessors.length source header).Collected predecessors
      fun s h => back s h ∨ s = source ∧ h = header := by
  -- the marks of the header, before and after
  obtain ⟨members, hadd, hmarks⟩ : ∃ members,
      loops.addBackEdge predecessors predecessors.length source header
        = (header, members) :: loops.filter (·.1 ≠ header)
      ∧ LoopMarks predecessors header (fun s => back s header ∨ s = source) members := by
    refine ⟨_, rfl, ?_⟩
    cases hlookup : loops.lookup header with
    | none =>
      have hnone (s : ℕ) : ¬ back s header := fun hs => by
        obtain ⟨members, hmembers⟩ := h.found s header hs
        rw [hlookup] at hmembers
        cases hmembers
      have hnew := (loopMarks_initial hheader).add hinside hheader hsource
      refine ⟨hnew.length_eq, fun b hb => (hnew.marked_iff b hb).trans ?_⟩
      simp only [hnone]
    | some members =>
      have hold := (h.marks header members hlookup).2
      rw [Option.getD_some, hold.set_header hheader]
      exact hold.add hinside hheader hsource
  rw [hadd]
  have hlookup {k : ℕ} (hk : k ≠ header) :
      ((header, members) :: loops.filter (·.1 ≠ header)).lookup k = loops.lookup k := by
    rw [lookup_cons, show (k == header) = false by simpa using hk]
    exact lookup_filter_ne hk loops
  have hself : ((header, members) :: loops.filter (·.1 ≠ header)).lookup header = some members := by
    rw [lookup_cons, beq_self_eq_true]
  refine ⟨?_, ?_, ?_⟩
  · rw [map_cons, nodup_cons]
    refine ⟨fun hmem => ?_, h.nodup.sublist (filter_sublist.map _)⟩
    obtain ⟨e, he, heq⟩ := mem_map.mp hmem
    exact (of_decide_eq_true (mem_filter.mp he).2) heq
  · intro s k hs
    by_cases hk : k = header
    · subst hk
      exact ⟨members, hself⟩
    · rw [hlookup hk]
      exact h.found s k (hs.resolve_right fun hs => hk hs.2)
  · intro k found hfound
    by_cases hk : k = header
    · subst hk
      rw [hself, Option.some.injEq] at hfound
      subst hfound
      refine ⟨⟨source, .inr ⟨rfl, rfl⟩⟩, hmarks.length_eq, fun b hb => ?_⟩
      rw [hmarks.marked_iff b hb]
      simp only [and_true]
    · rw [hlookup hk] at hfound
      obtain ⟨⟨s, hs⟩, hold⟩ := h.marks k found hfound
      refine ⟨⟨s, .inl hs⟩, hold.length_eq, fun b hb => ?_⟩
      rw [hold.marked_iff b hb]
      simp only [hk, and_false, or_false]

theorem naturalLoops_collected (hinside : predecessors.Inside)
    {times : Intervals} {edges : List Edge}
    (hedges : ∀ e ∈ edges, e.source < predecessors.length ∧ e.target < predecessors.length) :
    (naturalLoops predecessors.length edges predecessors times).Collected predecessors
      fun s h => ∃ e ∈ edges, times.dominates e.target e.source = true
        ∧ e.source = s ∧ e.target = h := by
  suffices hfold : ∀ (loops : LoopTable) (back : ℕ → ℕ → Prop),
      loops.Collected predecessors back →
      (edges.foldl (fun loops edge =>
        if times.dominates edge.target edge.source then
          loops.addBackEdge predecessors predecessors.length edge.source edge.target
        else loops) loops).Collected predecessors
        fun s h => back s h ∨ ∃ e ∈ edges, times.dominates e.target e.source = true
          ∧ e.source = s ∧ e.target = h by
    have hempty : LoopTable.Collected predecessors (fun _ _ => False) [] :=
      ⟨by simp, fun _ _ h => h.elim, fun _ _ h => by cases h⟩
    have := hfold [] _ hempty
    simp only [false_or] at this
    exact this
  induction edges with
  | nil =>
    intro loops back h
    simpa using h
  | cons edge edges ih =>
    intro loops back h
    rw [foldl_cons]
    have hrest := ih fun e he => hedges e (mem_cons_of_mem _ he)
    obtain ⟨hsource, htarget⟩ := hedges edge mem_cons_self
    by_cases hback : times.dominates edge.target edge.source = true
    · rw [if_pos hback]
      have hnext := hrest _ _ (h.addBackEdge hinside hsource htarget)
      have heq : (fun s h => (back s h ∨ s = edge.source ∧ h = edge.target)
            ∨ ∃ e ∈ edges, times.dominates e.target e.source = true ∧ e.source = s ∧ e.target = h)
          = fun s h => back s h ∨ ∃ e ∈ edge :: edges, times.dominates e.target e.source = true
            ∧ e.source = s ∧ e.target = h := by
        funext s k
        simp only [mem_cons, exists_eq_or_imp, hback, true_and, eq_comm (a := edge.source),
          eq_comm (a := edge.target), or_assoc]
      exact heq ▸ hnext
    · rw [if_neg hback]
      have hnext := hrest _ _ h
      simp only [mem_cons, exists_eq_or_imp, hback, Bool.false_eq_true, false_and, false_or]
      exact hnext

/-! ### The graph of a function -/

@[simp] theorem length_predecessorLists (count : ℕ) (edges : List Edge) :
    (predecessorLists count edges).length = count := by simp [predecessorLists]

section Graph

variable {count : ℕ} {edges : List Edge}
  (hedges : ∀ e ∈ edges, e.source < count ∧ e.target < count)
include hedges

theorem inside_predecessorLists : (predecessorLists count edges).Inside := by
  intro v u hu
  obtain ⟨-, e, he, rfl, -⟩ := mem_predecessorLists.mp hu
  rw [length_predecessorLists]
  exact (hedges e he).1

variable {u v : ℕ}

theorem edge_successorLists :
    (successorLists count edges).Edge u v ↔ ∃ e ∈ edges, e.source = u ∧ e.target = v := by
  refine mem_successorLists.trans (and_iff_right_of_imp ?_)
  rintro ⟨e, he, rfl, -⟩
  exact (hedges e he).1

variable (hpos : 0 < count) {idom : List ℕ}
  (hidom : immediateDominators (successorLists count edges) (predecessorLists count edges)
    = some idom)
include hpos hidom

/-- The interval test on the ends of an edge. -/
theorem dominates_edge {e : Edge} (he : e ∈ edges) :
    (dominatorIntervals idom).dominates e.target e.source = true
      ↔ Dominates (successorLists count edges).Edge 0 e.target e.source :=
  dominatorIntervals_dominates_iff (graphLists_of_edges hpos hedges) hidom
    (by simpa using (hedges e he).2) (by simpa using (hedges e he).1)

variable {h b : ℕ}

theorem backEdge_iff {s : ℕ} : BackEdge (successorLists count edges).Edge 0 s h
    ↔ ∃ e ∈ edges, (dominatorIntervals idom).dominates e.target e.source = true
      ∧ e.source = s ∧ e.target = h := by
  rw [BackEdge, edge_successorLists hedges]
  constructor
  · rintro ⟨⟨e, he, rfl, rfl⟩, hdom⟩
    exact ⟨e, he, (dominates_edge hedges hpos hidom he).mpr hdom, rfl, rfl⟩
  · rintro ⟨e, he, hdom, rfl, rfl⟩
    exact ⟨⟨e, he, rfl, rfl⟩, (dominates_edge hedges hpos hidom he).mp hdom⟩

/-- The table has a member set for every header of a natural loop, and it is that loop. -/
theorem naturalLoops_spec (hb : b < count) :
    NaturalLoop (successorLists count edges).Edge 0 h b
      ↔ ∃ members, (naturalLoops count edges (predecessorLists count edges)
          (dominatorIntervals idom)).lookup h = some members ∧ members.getD b false = true := by
  have hcollected := @naturalLoops_collected _ (inside_predecessorLists hedges)
    (dominatorIntervals idom) edges (by simpa using hedges)
  rw [length_predecessorLists] at hcollected
  have hpaths : (fun u v => u ∈ (predecessorLists count edges).at v ∧ v ≠ h)
      = fun u v => (successorLists count edges).Edge u v ∧ v ≠ h := by
    funext u v
    rw [(graphLists_of_edges hpos hedges).mem_iff]
    rfl
  have hmarked {members : List Bool} :
      members.getD b false = true ↔ members[b]? = some true := by
    rw [getD_eq_getElem?_getD]
    cases members[b]? <;> simp
  constructor
  · rintro ⟨s, hback, hmem⟩
    have hback := (backEdge_iff hedges hpos hidom).mp hback
    obtain ⟨members, hlookup⟩ := hcollected.found s h hback
    refine ⟨members, hlookup, hmarked.mpr (((hcollected.marks h members hlookup).2.marked_iff b
      (by simpa using hb)).mpr (hmem.imp id fun hmem => ⟨hmem.1, s, hback, ?_⟩))⟩
    rw [hpaths]
    exact hmem.2
  · rintro ⟨members, hlookup, hmem⟩
    obtain ⟨⟨s, hs⟩, hmarks⟩ := hcollected.marks h members hlookup
    rcases (hmarks.marked_iff b (by simpa using hb)).mp (hmarked.mp hmem) with rfl | hmem
    · exact ⟨s, (backEdge_iff hedges hpos hidom).mpr hs, .inl rfl⟩
    · obtain ⟨hne, s, hs, hpath⟩ := hmem
      rw [hpaths] at hpath
      exact ⟨s, (backEdge_iff hedges hpos hidom).mpr hs, .inr ⟨hne, hpath⟩⟩

/-- The count of a block is the number of natural loops around it. -/
theorem nesting_eq_loopDepth (hb : b < count) :
    (naturalLoops count edges (predecessorLists count edges) (dominatorIntervals idom)).nesting b
      = loopDepth (successorLists count edges).Edge 0 b := by
  have hspec := fun h => naturalLoops_spec hedges hpos hidom (h := h) hb
  have hcollected := @naturalLoops_collected _ (inside_predecessorLists hedges)
    (dominatorIntervals idom) edges (by simpa using hedges)
  rw [length_predecessorLists] at hcollected
  have hnodup := hcollected.nodup
  generalize naturalLoops count edges (predecessorLists count edges) (dominatorIntervals idom)
    = loops at hspec hnodup
  have hset : {h | NaturalLoop (successorLists count edges).Edge 0 h b}
      = (((loops.filter fun entry => entry.2.getD b false).map Prod.fst).toFinset : Finset ℕ) := by
    ext h
    rw [Set.mem_ofPred_eq, hspec h]
    simp only [coe_toFinset, Set.mem_ofPred_eq, mem_map, mem_filter, Prod.exists,
      exists_and_right, exists_eq_right]
    exact exists_congr fun members => and_congr_left' (mem_iff_lookup hnodup).symm
  rw [loopDepth, hset, Set.ncard_coe_finset, toFinset_card_of_nodup
    (hnodup.sublist (filter_sublist.map _)), length_map, LoopTable.nesting,
    countP_eq_length_filter]

/-- The forward edges of the lists are those whose target does not dominate their source. -/
theorem mem_forwardLists :
    v ∈ (forwardLists count edges (dominatorIntervals idom)).getD u []
      ↔ ForwardEdge (successorLists count edges).Edge 0 u v := by
  rw [ForwardEdge, edge_successorLists hedges]
  simp only [forwardLists, getD_eq_getElem?_getD, getElem?_map]
  by_cases hu : u < count
  · simp only [getElem?_range hu, Option.map_some, Option.getD_some, mem_map,
      mem_filter, Bool.and_eq_true, decide_eq_true_eq, Bool.not_eq_true']
    constructor
    · rintro ⟨e, ⟨he, rfl, hnot⟩, rfl⟩
      refine ⟨⟨e, he, rfl, rfl⟩, fun hback => ?_⟩
      rw [(dominates_edge hedges hpos hidom he).mpr hback] at hnot
      cases hnot
    · rintro ⟨⟨e, he, rfl, rfl⟩, hnot⟩
      refine ⟨e, ⟨he, rfl, ?_⟩, rfl⟩
      rw [← Bool.not_eq_true, dominates_edge hedges hpos hidom he]
      exact hnot
  · rw [getElem?_eq_none (by simpa using hu)]
    refine iff_of_false (by simp) ?_
    rintro ⟨⟨e, he, rfl, -⟩, -⟩
    exact hu (hedges e he).1

/-- The sort along the forward edges takes every block exactly when the graph is reducible. -/
theorem seen_iff_reducible :
    (Kahn.run (forwardLists count edges (dominatorIntervals idom))).seen = count
      ↔ Reducible (successorLists count edges).Edge 0 := by
  have hforward {u v : ℕ} := mem_forwardLists hedges hpos hidom (u := u) (v := v)
  generalize dominatorIntervals idom = times at hforward ⊢
  have hlength : (forwardLists count edges times).length = count := by simp [forwardLists]
  have hends {u v : ℕ} (h : (successorLists count edges).Edge u v) : u < count ∧ v < count := by
    obtain ⟨e, he, rfl, rfl⟩ := (edge_successorLists hedges).mp h
    exact hedges e he
  have hvalid : ∀ u, ∀ v ∈ (forwardLists count edges times).getD u [],
      v < (forwardLists count edges times).length := fun u v hv =>
    hlength.symm ▸ (hends (hforward.mp hv).1).2
  constructor
  · intro hseen
    have hrank : ∀ u v, ForwardEdge (successorLists count edges).Edge 0 u v →
        (Kahn.run (forwardLists count edges times)).depth.getD u 0
          < (Kahn.run (forwardLists count edges times)).depth.getD v 0 := fun u v hedge =>
      Kahn.run_depth_lt hvalid (hseen.trans hlength.symm) (hlength.symm ▸ (hends hedge.1).1)
        (hforward.mpr hedge)
    exact reducible_of_rank hrank
  · intro hred
    have hfinite : {u | ∃ v, (successorLists count edges).Edge u v}.Finite :=
      (Set.finite_lt_nat count).subset fun u ⟨v, hv⟩ => (hends hv).1
    obtain ⟨rank, hrank⟩ := hred.exists_rank hfinite
    have hincreasing : ∀ u < (forwardLists count edges times).length,
        ∀ v ∈ (forwardLists count edges times).getD u [], rank u < rank v :=
      fun u _ v hv => hrank u v (hforward.mp hv)
    exact (Kahn.run_seen_of_rank hvalid hincreasing).trans hlength

end Graph

/-! ### What the check reports -/

open Report

/-- A finding of irreducible control flow. -/
def FindsIrreducible (m : Check Unit) : Prop :=
  ∃ d, Event.push d ∈ m.events ∧ d.code = "ZRYNA-I2020"

/-- An exceeded limit. -/
def FindsLimit (m : Check Unit) : Prop := ∃ d, Event.limit d ∈ m.events

variable {e : Event Diagnostic}

/-- The uses of a block are reported under another code. -/
theorem events_verifyBlockDominance {times : Intervals} {values : List ValueInfo}
    {entry : Block × ℕ} (he : e ∈ (verifyBlockDominance times values entry).events) :
    ∃ d, e = .push d ∧ d.code = "ZRYNA-I2013" := by
  have huse {operand useBlock position : ℕ} {span : Span}
      (he : e ∈ (verifyDominance times values useBlock position span operand).events) :
      ∃ d, e = .push d ∧ d.code = "ZRYNA-I2013" := by
    unfold verifyDominance at he
    split at he
    · cases he
    · obtain ⟨-, rfl⟩ := mem_events_pushIf.mp he
      exact ⟨_, rfl, rfl⟩
  obtain ⟨block, useBlock⟩ := entry
  unfold verifyBlockDominance at he
  rw [events_bind, mem_append] at he
  rcases he with he | he
  · obtain ⟨entry, -, he⟩ := mem_events_forM.mp he
    obtain ⟨operand, -, he⟩ := mem_events_forM.mp he
    exact huse he
  · split at he
    · obtain ⟨operand, -, he⟩ := mem_events_forM.mp he
      exact huse he
    · cases he

/-- On a graph whose blocks are reachable the check gets to its last part. -/
theorem mem_events_verifyCfg {function : Function} {values : List ValueInfo}
    {edges : List Edge} (hne : function.blocks ≠ [])
    (hedges : ∀ e ∈ edges, e.source < function.blocks.length ∧ e.target < function.blocks.length)
    (hconnected : (successorLists function.blocks.length edges).Connected) {idom : List ℕ}
    (hidom : immediateDominators (successorLists function.blocks.length edges)
      (predecessorLists function.blocks.length edges) = some idom)
    (hcode : ∀ d, e = .push d → d.code = "ZRYNA-I2020") :
    e ∈ (verifyCfg key function values edges).events
      ↔ e ∈ (verifyReducibility key function.blocks.length edges
          (predecessorLists function.blocks.length edges) (dominatorIntervals idom)).events := by
  have hpos : 0 < function.blocks.length := length_pos_iff.mpr hne
  have hg := graphLists_of_edges hpos hedges
  have hall : (reachableFromEntry (successorLists function.blocks.length edges)).all id = true := by
    rw [all_id_iff, length_reachableFromEntry]
    exact fun b hb => (reachableFromEntry_iff hg.valid b).mpr (hconnected b hb)
  unfold verifyCfg
  rw [if_neg hne]
  dsimp only
  rw [events_bind, mem_append, if_pos hall, hidom]
  dsimp only
  rw [events_bind, mem_append]
  refine ⟨fun he => ?_, fun he => .inr (.inr he)⟩
  rcases he with he | he | he
  · obtain ⟨block, -, he⟩ := mem_events_forM.mp he
    obtain ⟨-, rfl⟩ := mem_events_pushIf.mp he
    exact absurd (hcode _ rfl) (show ¬ "ZRYNA-I2018" = "ZRYNA-I2020" by decide)
  · obtain ⟨entry, -, he⟩ := mem_events_forM.mp he
    obtain ⟨d, rfl, hd⟩ := events_verifyBlockDominance he
    rw [hcode d rfl] at hd
    exact absurd hd (by decide)
  · exact he

/-- A collector that is not exhausted retains every finding. -/
theorem Errors.retained {events : List (Event Diagnostic)} {errors : Errors}
    (hopen : (events.foldl Errors.add errors).exhausted = false) (d : Diagnostic) :
    d ∈ (events.foldl Errors.add errors).diagnostics
      ↔ d ∈ errors.diagnostics ∨ Event.push d ∈ events := by
  induction events generalizing errors with
  | nil => simp
  | cons e events ih =>
    rw [foldl_cons] at hopen ⊢
    have hkept {errors : Errors} (hexhausted : errors.exhausted = true) :
        (events.foldl Errors.add errors).exhausted = true := by
      clear ih hopen
      induction events generalizing errors with
      | nil => exact hexhausted
      | cons e events ih =>
        rw [foldl_cons]
        refine ih ?_
        unfold Errors.add
        rw [if_pos hexhausted]
        exact hexhausted
    have hnext : (errors.add e).exhausted = false := by
      by_contra hexhausted
      rw [hkept (by simpa using hexhausted)] at hopen
      cases hopen
    rw [ih hopen]
    unfold Errors.add at hnext ⊢
    split at hnext
    · next hexhausted =>
      rw [hexhausted] at hnext
      cases hnext
    next hexhausted =>
    rw [if_neg hexhausted]
    cases e with
    | limit d => cases hnext
    | push d' =>
      dsimp only at hnext ⊢
      split at hnext
      · next hroom => simp [if_pos hroom, or_assoc]
      · cases hnext

theorem events_verifyReducibility {count : ℕ} {edges : List Edge} {times : Intervals} :
    e ∈ (verifyReducibility key count edges predecessors times).events
      ↔ ((Kahn.run (forwardLists count edges times)).seen ≠ count
          ∧ e = .push (error "ZRYNA-I2020"
            s!"function #{key.module}:{key.function} contains irreducible control flow"
            "every cycle must have one dominating nonentry header"))
        ∨ (maxLoopNesting < ((List.range count).map
            (naturalLoops count edges predecessors times).nesting).foldl max 0
          ∧ e = .limit (limitAt s!"function #{key.module}:{key.function} loop nesting"
            maxLoopNesting)) := by
  unfold verifyReducibility
  dsimp only
  rw [events_bind, mem_append, mem_events_pushIf, mem_events_limitIf]

/-- The findings of the check on a function whose blocks are reachable. -/
theorem finds_verifyCfg {function : Function} {values : List ValueInfo} {edges : List Edge}
    (hedges : ∀ e ∈ edges, e.source < function.blocks.length ∧ e.target < function.blocks.length)
    (hconnected : (successorLists function.blocks.length edges).Connected) :
    (FindsIrreducible (verifyCfg key function values edges)
        ↔ ¬ Reducible (successorLists function.blocks.length edges).Edge 0)
      ∧ (FindsLimit (verifyCfg key function values edges)
        ↔ ∃ b < function.blocks.length, maxLoopNesting
          < loopDepth (successorLists function.blocks.length edges).Edge 0 b) := by
  by_cases hne : function.blocks = []
  · -- nothing is checked, and there is no edge
    have hevents : (verifyCfg key function values edges).events = [] := by
      unfold verifyCfg
      rw [if_pos hne]
      rfl
    have hreducible : Reducible (successorLists function.blocks.length edges).Edge 0 := by
      intro nodes hwalk
      obtain ⟨e, he, -⟩ := (edge_successorLists hedges).mp hwalk.closes
      exact absurd (hedges e he).1 (by simp [hne])
    refine ⟨iff_of_false ?_ (not_not.mpr hreducible), iff_of_false ?_ ?_⟩
    · rintro ⟨d, hd, -⟩
      rw [hevents] at hd
      cases hd
    · rintro ⟨d, hd⟩
      rw [hevents] at hd
      cases hd
    · rintro ⟨b, hb, -⟩
      exact absurd hb (by simp [hne])
  have hpos : 0 < function.blocks.length := length_pos_iff.mpr hne
  obtain ⟨idom, hidom⟩ := immediateDominators_returns (graphLists_of_edges hpos hedges) hconnected
  constructor
  · rw [← seen_iff_reducible hedges hpos hidom]
    constructor
    · rintro ⟨d, hd, hcode⟩
      rw [mem_events_verifyCfg hne hedges hconnected hidom
        (fun d' heq => Event.push.inj heq ▸ hcode), events_verifyReducibility] at hd
      rcases hd with ⟨hseen, -⟩ | ⟨-, hd⟩
      · exact hseen
      · cases hd
    · intro hseen
      refine ⟨_, (mem_events_verifyCfg hne hedges hconnected hidom ?_).mpr
        (events_verifyReducibility.mpr (.inl ⟨hseen, rfl⟩)), rfl⟩
      intro d heq
      cases heq
      rfl
  · have hnesting : maxLoopNesting < ((List.range function.blocks.length).map
          (naturalLoops function.blocks.length edges (predecessorLists function.blocks.length edges)
            (dominatorIntervals idom)).nesting).foldl max 0
        ↔ ∃ b < function.blocks.length, maxLoopNesting
          < loopDepth (successorLists function.blocks.length edges).Edge 0 b := by
      rw [← not_le, foldl_max_le]
      simp only [Nat.zero_le, true_and, mem_map, mem_range, forall_exists_index, and_imp,
        forall_apply_eq_imp_iff₂, not_forall, not_le, exists_prop]
      exact exists_congr fun b => and_congr_right fun hb => by
        rw [nesting_eq_loopDepth hedges hpos hidom hb]
    rw [← hnesting]
    constructor
    · rintro ⟨d, hd⟩
      rw [mem_events_verifyCfg hne hedges hconnected hidom (fun d' heq => by cases heq),
        events_verifyReducibility] at hd
      rcases hd with ⟨-, hd⟩ | ⟨hlimit, -⟩
      · cases hd
      · exact hlimit
    · intro hlimit
      refine ⟨_, (mem_events_verifyCfg hne hedges hconnected hidom ?_).mpr
        (events_verifyReducibility.mpr (.inr ⟨hlimit, rfl⟩))⟩
      intro d hd
      cases hd

/-- **Irreducibility is rejected exactly.** On a function whose blocks are reachable the check
finds irreducible control flow if and only if some cycle has no block that dominates all of it, and
a collector that is not exhausted retains the finding. The member sets of the table are the natural
loops, so the limit is exceeded if and only if some block lies in more natural loops than it
allows; and those are nested in one another. -/
theorem verifyCfg_loops (key : FunctionKey) (function : Function) (values : List ValueInfo)
    (edges : List Edge)
    (hedges : ∀ e ∈ edges, e.source < function.blocks.length ∧ e.target < function.blocks.length)
    (hconnected : (successorLists function.blocks.length edges).Connected) :
    let E := (successorLists function.blocks.length edges).Edge
    let irreducible := ∃ nodes, ClosedWalk E nodes ∧ ¬ Headed E 0 (· ∈ nodes)
    (FindsIrreducible (verifyCfg key function values edges) ↔ irreducible)
      ∧ (∀ errors : Errors,
        ((verifyCfg key function values edges).events.foldl Errors.add errors).exhausted = false →
        ((∃ d ∈ ((verifyCfg key function values edges).events.foldl Errors.add errors).diagnostics,
            d.code = "ZRYNA-I2020")
          ↔ (∃ d ∈ errors.diagnostics, d.code = "ZRYNA-I2020") ∨ irreducible))
      ∧ (function.blocks ≠ [] → ∃ idom,
        immediateDominators (successorLists function.blocks.length edges)
          (predecessorLists function.blocks.length edges) = some idom
        ∧ ∀ h, ∀ b < function.blocks.length, NaturalLoop E 0 h b
          ↔ ∃ members, (naturalLoops function.blocks.length edges
              (predecessorLists function.blocks.length edges) (dominatorIntervals idom)).lookup h
              = some members ∧ members.getD b false = true)
      ∧ (FindsLimit (verifyCfg key function values edges)
        ↔ ∃ b < function.blocks.length, maxLoopNesting < loopDepth E 0 b)
      ∧ ∀ h h', ∀ b < function.blocks.length, NaturalLoop E 0 h b → NaturalLoop E 0 h' b →
        (∀ x, NaturalLoop E 0 h' x → NaturalLoop E 0 h x)
          ∨ ∀ x, NaturalLoop E 0 h x → NaturalLoop E 0 h' x := by
  intro E irreducible
  obtain ⟨hfinds, hlimit⟩ := @finds_verifyCfg key function values edges hedges hconnected
  have hirreducible : ¬ Reducible E 0 ↔ irreducible := by
    simp only [Reducible, not_forall, exists_prop, irreducible]
  have hiff := hfinds.trans hirreducible
  refine ⟨hiff, fun errors hopen => ?_, fun hne => ?_, hlimit, fun h h' b hb hh hh' => ?_⟩
  · rw [← hiff]
    simp only [Errors.retained hopen, or_and_right, exists_or, FindsIrreducible]
  · have hpos : 0 < function.blocks.length := length_pos_iff.mpr hne
    obtain ⟨idom, hidom⟩ := immediateDominators_returns (graphLists_of_edges hpos hedges) hconnected
    exact ⟨idom, hidom, fun h b hb => naturalLoops_spec hedges hpos hidom hb⟩
  · exact NaturalLoop.nested (hconnected b (by simpa using hb)) hh hh'

/-- A branch into a cycle of two blocks at both ends. -/
def crossedFunction : Function where
  id := ⟨0, 0⟩
  entryExport := none
  span := ⟨⟨0, 0⟩, 0, 0⟩
  parameters := [⟨0, .bool, ⟨⟨0, 0⟩, 0, 0⟩⟩]
  result := .unit
  blocks := [⟨0, [], [], [⟨⟨⟨0, 0⟩, 0, 0⟩, .branch 0 1 [] 2 []⟩]⟩,
    ⟨1, [], [], [⟨⟨⟨0, 0⟩, 0, 0⟩, .jump 2 []⟩]⟩, ⟨2, [], [], [⟨⟨⟨0, 0⟩, 0, 0⟩, .jump 1 []⟩]⟩]

def crossedEdges : List Edge := [⟨0, 1, []⟩, ⟨0, 2, []⟩, ⟨1, 2, []⟩, ⟨2, 1, []⟩]

theorem verifyCfg_loops_crossed :
    FindsIrreducible (verifyCfg ⟨0, 0⟩ crossedFunction [] crossedEdges) := by
  have hedge (e : Edge) (he : e ∈ crossedEdges) :
      (successorLists 3 crossedEdges).Edge e.source e.target := by
    refine mem_successorLists.mpr ⟨?_, e, he, rfl, rfl⟩
    exact (by decide : ∀ e ∈ crossedEdges, e.source < 3) e he
  have h01 := hedge ⟨0, 1, []⟩ (by decide)
  have h02 := hedge ⟨0, 2, []⟩ (by decide)
  have hconnected : (successorLists 3 crossedEdges).Connected := by
    intro v hv
    match v with
    | 0 => exact .refl
    | 1 => exact .single h01
    | 2 => exact .single h02
    | v + 3 => exact absurd hv (by simp)
  refine (verifyCfg_loops ⟨0, 0⟩ crossedFunction [] crossedEdges (by decide) hconnected).1.mpr
    ⟨[1, 2], ⟨by simp, ?_, hedge ⟨2, 1, []⟩ (by decide)⟩, ?_⟩
  · exact .cons_cons (hedge ⟨1, 2, []⟩ (by decide)) (.singleton _)
  · -- each of the two is entered past the other
    rintro ⟨d, hd, hdom⟩
    have hd' : d = 1 ∨ d = 2 := by simpa using hd
    rcases hd' with rfl | rfl
    · exact hdom 2 (by simp) ⟨by decide, .single ⟨h02, by decide⟩⟩
    · exact hdom 1 (by simp) ⟨by decide, .single ⟨h01, by decide⟩⟩

end Zryna.Ir.ControlFlow
