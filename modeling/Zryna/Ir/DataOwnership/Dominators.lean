import Zryna.Ir.ControlFlow.Availability
import Zryna.Ir.DataOwnership.Components

/-!
# The dominator sets

`compute_dominators` starts from the largest table and replaces the entry of one block after the
other by the block and what its predecessors have in common. Entries only lose blocks, so a pass
that changes anything makes the table smaller and the passes come to an end; a table that a pass
leaves alone is closed backwards along edges, and never lost a block that dominates
(`mem_computeDominators`).
-/

namespace Zryna.Ir.DataOwnership

open Relation ControlFlow List

variable {g : FlowGraph}

/-! ### Reachable blocks -/

/-- What holds whenever the walk over the reachable blocks looks at its queue. -/
structure MarkingInv (g : FlowGraph) (queue : List ℕ) (reachable : List Bool) : Prop where
  length_eq : reachable.length = g.count
  lt : ∀ v ∈ queue, v < g.count
  entry : reachable.getD 0 false = true ∨ 0 ∈ queue
  frontier : ∀ u v, reachable.getD u false = true → g.Edge u v →
    reachable.getD v false = true ∨ v ∈ queue

variable {block : ℕ} {queue entry : List ℕ} {reachable : List Bool} {after before : List (List ℕ)}

theorem MarkingInv.pop
    (h : MarkingInv g (block :: queue) reachable) (hm : reachable.getD block false = true) :
    MarkingInv g queue reachable where
  length_eq := h.length_eq
  lt v hv := h.lt v (mem_cons_of_mem _ hv)
  entry := by
    rcases h.entry with h0 | h0
    · exact .inl h0
    · rcases mem_cons.mp h0 with rfl | h0
      · exact .inl hm
      · exact .inr h0
  frontier u v hu hedge := by
    rcases h.frontier u v hu hedge with hv | hv
    · exact .inl hv
    · rcases mem_cons.mp hv with rfl | hv
      · exact .inl hm
      · exact .inr hv

theorem MarkingInv.mark (h : MarkingInv g (block :: queue) reachable) :
    MarkingInv g (queue ++ g.successors.at block) (reachable.set block true) := by
  have hb : block < reachable.length := h.length_eq ▸ h.lt block mem_cons_self
  have hkeep : ∀ {v}, reachable.getD v false = true ∨ v ∈ block :: queue →
      (reachable.set block true).getD v false = true ∨ v ∈ queue ++ g.successors.at block := by
    intro v hv
    rw [getD_set_true _ _ _ hb, mem_append]
    rcases hv with hv | hv
    · exact .inl (.inr hv)
    · rcases mem_cons.mp hv with hv | hv
      · exact .inl (.inl hv)
      · exact .inr (.inl hv)
  refine ⟨by rw [length_set, h.length_eq], fun v hv => ?_, hkeep h.entry,
    fun u v hu hedge => ?_⟩
  · rcases mem_append.mp hv with hv | hv
    · exact h.lt v (mem_cons_of_mem _ hv)
    · exact g.valid.lt block v hv
  · rcases (getD_set_true _ _ _ hb).mp hu with rfl | hu
    · exact .inr (mem_append_right _ hedge)
    · exact hkeep (h.frontier u v hu hedge)

theorem reachRounds_spec (fuel : ℕ) :
    ∀ {queue : List ℕ} {reachable : List Bool}, MarkingInv g queue reachable →
      pendingWeight reachable (fun v => (g.successors.at v).length) + queue.length ≤ fuel →
      MarkingInv g [] (reachRounds g.successors fuel queue reachable) := by
  induction fuel with
  | zero =>
    intro queue reachable h hfuel
    obtain rfl : queue = [] := length_eq_zero_iff.mp (by omega)
    exact h
  | succ fuel ih =>
    intro queue reachable h hfuel
    match queue with
    | [] => exact h
    | block :: queue =>
      simp only [reachRounds]
      cases hm : reachable.getD block false with
      | true =>
        rw [if_pos rfl]
        exact ih (h.pop hm) (by simp only [length_cons] at hfuel; omega)
      | false =>
        rw [if_neg (by simp)]
        refine ih h.mark ?_
        have hb : block < reachable.length := h.length_eq ▸ h.lt block mem_cons_self
        have := pendingWeight_set reachable (fun v => (g.successors.at v).length) hb hm
        have hat : (g.successors[block]?).getD [] = g.successors.at block := rfl
        simp only [hat, length_cons, length_append] at hfuel ⊢
        omega

variable {v : ℕ}

theorem reachableBlocks_eq (g : FlowGraph) (hv : v < g.count) :
    (reachableBlocks g.successors).getD v false = true := by
  have hinit : MarkingInv g [0] (List.replicate g.successors.length false) := by
    refine ⟨by simp [FlowGraph.count], fun v hv => ?_, .inr (by simp), fun u v hu => ?_⟩
    · rw [mem_singleton.mp hv]
      exact g.valid.nonempty
    · rw [getD_eq_getElem?_getD, getElem?_replicate] at hu
      split at hu <;> exact absurd hu (by simp)
  have h := reachRounds_spec ((g.successors.map List.length).sum + 1) hinit (by
    rw [pendingWeight_replicate_le, ← Adjacency.size_eq]
    simp [Adjacency.size])
  change MarkingInv g [] (reachableBlocks g.successors) at h
  induction g.reachable hv with
  | refl => exact h.entry.resolve_right not_mem_nil
  | tail hpath hstep ih =>
    exact (h.frontier _ _ (ih hstep.source_lt) hstep).resolve_right not_mem_nil

/-! ### Tables that shrink -/

/-- The blocks a table lists for a block. -/
def tableEntry (table : List (List ℕ)) (b : ℕ) : List ℕ := (table[b]?).getD []

def tableSize (table : List (List ℕ)) : ℕ := (table.map List.length).sum

/-- Every entry of the first table is a part of the same entry of the second. -/
abbrev Shrinks : List (List ℕ) → List (List ℕ) → Prop := List.Forall₂ List.Sublist

theorem Shrinks.tableSize_le (h : Shrinks after before) : tableSize after ≤ tableSize before := by
  induction h with
  | nil => exact le_rfl
  | cons hsub _ ih =>
    simp only [tableSize, map_cons, sum_cons] at ih ⊢
    exact add_le_add hsub.length_le ih

/-- A table that shrinks without getting smaller is the same. -/
theorem Shrinks.eq_of_tableSize (h : Shrinks after before)
    (hsize : tableSize before ≤ tableSize after) : after = before := by
  induction h with
  | nil => rfl
  | cons hsub hrest ih =>
    have hle := hsub.length_le
    have hrestle := Shrinks.tableSize_le hrest
    simp only [tableSize, map_cons, sum_cons] at hsize hrestle ih
    rw [hsub.eq_of_length (by omega), ih (by omega)]

theorem Shrinks.refl (table : List (List ℕ)) : Shrinks table table :=
  forall₂_same.mpr fun _ _ => .refl _

theorem Shrinks.trans {a b c : List (List ℕ)} (hab : Shrinks a b) (hbc : Shrinks b c) :
    Shrinks a c := by
  induction hab generalizing c with
  | nil => exact hbc
  | cons hsub _ ih =>
    cases hbc with
    | cons hsub' hrest' => exact .cons (hsub.trans hsub') (ih hrest')

variable {table : List (List ℕ)}

theorem Shrinks.set {b : ℕ}
    (h : entry.Sublist (tableEntry table b)) : Shrinks (table.set b entry) table := by
  induction table generalizing b with
  | nil => exact .nil
  | cons first table ih =>
    cases b with
    | zero => exact .cons h (Shrinks.refl table)
    | succ b => exact .cons (.refl first) (ih h)

theorem tableEntry_set {b : ℕ} (hb : b < table.length) :
    tableEntry (table.set b entry) v = if v = b then entry else tableEntry table v := by
  unfold tableEntry
  split
  · next heq => simp [heq, hb]
  · next hne => rw [getElem?_set_ne (Ne.symm hne)]

/-! ### One pass -/

def commonBlocks (g : FlowGraph) (table : List (List ℕ)) (block : ℕ) : List ℕ :=
  (g.predecessors.at block).foldl
    (fun next predecessor => next.filter fun dominator => dominator ∈ tableEntry table predecessor)
    (List.range g.count)

/-- Replaces the entry of one block. -/
def dominatorStep (g : FlowGraph) (table : List (List ℕ)) (block : ℕ) : List (List ℕ) :=
  table.set block (insertAscending block (commonBlocks g table block))

theorem foldl_filter_mem (table : List (List ℕ)) (preds : List ℕ) :
    ∀ blocks : List ℕ,
      (∀ d, d ∈ preds.foldl (fun next predecessor =>
          next.filter fun dominator => dominator ∈ tableEntry table predecessor) blocks
        ↔ d ∈ blocks ∧ ∀ p ∈ preds, d ∈ tableEntry table p)
      ∧ (preds.foldl (fun next predecessor =>
          next.filter fun dominator => dominator ∈ tableEntry table predecessor) blocks).Sublist
          blocks := by
  induction preds with
  | nil => intro blocks; simp
  | cons p preds ih =>
    intro blocks
    obtain ⟨hmem, hsub⟩ := ih (blocks.filter fun dominator => dominator ∈ tableEntry table p)
    refine ⟨fun d => ?_, hsub.trans filter_sublist⟩
    rw [foldl_cons, hmem, mem_filter, forall_mem_cons, decide_eq_true_eq, and_assoc]

theorem mem_commonBlocks {d : ℕ} :
    d ∈ commonBlocks g table block
      ↔ d < g.count ∧ ∀ p, g.Edge p block → d ∈ tableEntry table p := by
  unfold commonBlocks
  rw [(foldl_filter_mem table _ _).1, mem_range]
  simp only [FlowGraph.mem_predecessors]

/-- What the table satisfies all along. -/
structure DominatorsInv (g : FlowGraph) (table : List (List ℕ)) : Prop where
  length_eq : table.length = g.count
  pairwise : ∀ b, (tableEntry table b).Pairwise (· < ·)
  root : tableEntry table 0 = [0]
  /-- No dominator is ever lost. -/
  dominators : ∀ b < g.count, ∀ d < g.count, Dominates g.Edge 0 d b → d ∈ tableEntry table b
  /-- Entries contain what replaces them. -/
  shrinking : ∀ b < g.count, b ≠ 0 → ∀ d,
    d = b ∨ d ∈ commonBlocks g table b → d ∈ tableEntry table b

theorem sublist_of_pairwise {xs ys : List ℕ} (hxs : xs.Pairwise (· < ·)) (hys : ys.Pairwise (· < ·))
    (hsub : ∀ x ∈ xs, x ∈ ys) : xs.Sublist ys := by
  refine sublist_of_subperm_of_pairwise (r := (· < ·)) ?_ hxs hys
  exact subperm_of_subset (hxs.imp fun h => ne_of_lt h) hsub

theorem DominatorsInv.sublist (h : DominatorsInv g table) {b : ℕ} (hb : b < g.count) (h0 : b ≠ 0) :
    (insertAscending b (commonBlocks g table b)).Sublist (tableEntry table b) := by
  have hcommon : (commonBlocks g table b).Pairwise (· < ·) :=
    pairwise_lt_range.sublist (foldl_filter_mem table _ _).2
  refine sublist_of_pairwise (pairwise_insertAscending hcommon) (h.pairwise b) fun d hd => ?_
  exact h.shrinking b hb h0 d (mem_insertAscending.mp hd)

theorem DominatorsInv.step (h : DominatorsInv g table) {b : ℕ}
    (hb : b < g.count) (h0 : b ≠ 0) : DominatorsInv g (dominatorStep g table b) := by
  have hlen : b < table.length := h.length_eq ▸ hb
  have hsub := h.sublist hb h0
  have hentry : ∀ v, tableEntry (dominatorStep g table b) v
      = if v = b then insertAscending b (commonBlocks g table b) else tableEntry table v :=
    fun v => tableEntry_set hlen
  have hle : ∀ v d, d ∈ tableEntry (dominatorStep g table b) v → d ∈ tableEntry table v := by
    intro v d hd
    rw [hentry] at hd
    split at hd
    · next heq => exact heq ▸ hsub.subset hd
    · exact hd
  have hcommon : ∀ v d, d ∈ commonBlocks g (dominatorStep g table b) v →
      d ∈ commonBlocks g table v := fun v d hd => by
    rw [mem_commonBlocks] at hd ⊢
    exact ⟨hd.1, fun p hp => hle p d (hd.2 p hp)⟩
  refine ⟨by simp [dominatorStep, h.length_eq], fun v => ?_, ?_, fun v hv d hd hdom => ?_,
    fun v hv hv0 d hd => ?_⟩
  · rw [hentry]
    split
    · exact pairwise_insertAscending (pairwise_lt_range.sublist (foldl_filter_mem table _ _).2)
    · exact h.pairwise v
  · rw [hentry, if_neg (Ne.symm h0)]
    exact h.root
  · rw [hentry]
    split
    · next heq =>
      subst heq
      rw [mem_insertAscending, mem_commonBlocks]
      by_cases hdb : d = v
      · exact .inl hdb
      · exact .inr ⟨hd, fun p hp => h.dominators p hp.source_lt d hd (hdom.pred hdb hp)⟩
    · exact h.dominators v hv d hd hdom
  · have hold := hd.imp id (hcommon v d)
    rw [hentry]
    split
    · next heq => exact heq ▸ mem_insertAscending.mpr (heq ▸ hold)
    · exact h.shrinking v hv hv0 d hold

variable {blocks : List ℕ}

theorem DominatorsInv.foldl (h : DominatorsInv g table)
    (hblocks : ∀ b ∈ blocks, b < g.count ∧ b ≠ 0) :
    DominatorsInv g (blocks.foldl (dominatorStep g) table)
      ∧ Shrinks (blocks.foldl (dominatorStep g) table) table := by
  induction blocks generalizing table with
  | nil => exact ⟨h, Shrinks.refl table⟩
  | cons b blocks ih =>
    obtain ⟨hb, h0⟩ := hblocks b mem_cons_self
    obtain ⟨hinv, hshrinks⟩ := ih (h.step hb h0) fun c hc => hblocks c (mem_cons_of_mem _ hc)
    exact ⟨hinv, hshrinks.trans (Shrinks.set (h.sublist hb h0))⟩

/-- A pass that changes nothing changes no entry. -/
theorem DominatorsInv.fixed (h : DominatorsInv g table)
    (hblocks : ∀ b ∈ blocks, b < g.count ∧ b ≠ 0)
    (hfixed : blocks.foldl (dominatorStep g) table = table) :
    ∀ b ∈ blocks, dominatorStep g table b = table := by
  induction blocks with
  | nil => intro b hb; exact absurd hb not_mem_nil
  | cons b blocks ih =>
    obtain ⟨hb, h0⟩ := hblocks b mem_cons_self
    have hrest := fun c hc => hblocks c (mem_cons_of_mem b hc)
    have hfirst : dominatorStep g table b = table := by
      refine Shrinks.eq_of_tableSize (Shrinks.set (h.sublist hb h0)) ?_
      have := ((h.step hb h0).foldl hrest).2.tableSize_le
      rwa [← foldl_cons, hfixed] at this
    intro c hc
    rcases mem_cons.mp hc with rfl | hc
    · exact hfirst
    · exact ih hrest (by rwa [foldl_cons, hfirst] at hfixed) c hc

/-! ### The whole computation -/

/-- The dominator sets of a graph, as the verifier computes them. -/
def FlowGraph.dominators (g : FlowGraph) : List (List ℕ) :=
  computeDominators g.predecessors (reachableBlocks g.successors)

theorem FlowGraph.length_predecessors (g : FlowGraph) : g.predecessors.length = g.count := by
  simp [FlowGraph.predecessors, predecessorLists, FlowGraph.count]

theorem filter_reachable (g : FlowGraph) :
    (List.range g.count).filter (fun block => (reachableBlocks g.successors).getD block false)
      = List.range g.count :=
  filter_eq_self.mpr fun _ hb => reachableBlocks_eq g (mem_range.mp hb)

theorem dominatorPass_eq (g : FlowGraph) (table : List (List ℕ)) :
    dominatorPass g.predecessors (reachableBlocks g.successors) (List.range g.count) table
      = ((List.range g.count).drop 1).foldl (dominatorStep g) table := by
  unfold dominatorPass
  rw [g.length_predecessors]
  refine foldl_ext _ _ _ fun result block hblock => ?_
  rw [if_pos (reachableBlocks_eq g (mem_range_drop_one.mp hblock).1)]
  rfl

/-- The passes end with a table that a pass leaves alone. -/
theorem dominatorRounds_spec (fuel : ℕ) :
    ∀ {table : List (List ℕ)}, DominatorsInv g table → tableSize table < fuel →
      let final := dominatorRounds g.predecessors (reachableBlocks g.successors)
        (List.range g.count) fuel table
      DominatorsInv g final ∧ ((List.range g.count).drop 1).foldl (dominatorStep g) final = final := by
  induction fuel with
  | zero => intro table _ hfuel; omega
  | succ fuel ih =>
    intro table h hfuel
    have hpass := h.foldl fun _ hb => mem_range_drop_one.mp hb
    simp only [dominatorRounds, dominatorPass_eq]
    split
    · next heq => exact ⟨h, heq⟩
    · next hne =>
      refine ih hpass.1 ?_
      by_contra hge
      exact hne (hpass.2.eq_of_tableSize (by omega))

theorem dominatorsInv_initial (g : FlowGraph) :
    DominatorsInv g ((List.replicate g.count (List.range g.count)).set 0 [0]) := by
  have hpos : 0 < (List.replicate g.count (List.range g.count)).length := by
    simpa [FlowGraph.count] using g.valid.nonempty
  have hentry : ∀ v, tableEntry ((List.replicate g.count (List.range g.count)).set 0 [0]) v
      = if v = 0 then [0] else if v < g.count then List.range g.count else [] := fun v => by
    rw [tableEntry_set hpos]
    refine ite_congr rfl (fun _ => rfl) fun _ => ?_
    unfold tableEntry
    rw [getElem?_replicate]
    split <;> rfl
  refine ⟨by simp, fun b => ?_, by rw [hentry]; rfl, fun b hb d hd hdom => ?_,
    fun b hb h0 d hd => ?_⟩
  · rw [hentry]
    split
    · simp
    split
    · exact pairwise_lt_range
    · exact List.Pairwise.nil
  · rw [hentry]
    split
    · next heq =>
      by_contra hne
      have hd0 : d ≠ 0 := fun h => hne (by simp [h])
      subst heq
      exact hdom ⟨hd0, .refl⟩
    · simpa [hb] using hd
  · rw [hentry, if_neg h0, if_pos hb, mem_range]
    rcases hd with rfl | hd
    · exact hb
    · exact (mem_commonBlocks.mp hd).1

theorem FlowGraph.lt_of_dominates {b d : ℕ} (hb : b < g.count) (h : Dominates g.Edge 0 d b) :
    d < g.count := by
  rcases ReflTransGen.cases_head (h.reaches (g.reachable hb)) with rfl | ⟨c, hstep, -⟩
  · exact hb
  · exact hstep.source_lt

/-- **The entry of a block lists exactly the blocks that dominate it.** -/
theorem mem_dominators {b d : ℕ} (hb : b < g.count) :
    d ∈ tableEntry g.dominators b ↔ Dominates g.Edge 0 d b := by
  have hsize : tableSize ((List.replicate g.count (List.range g.count)).set 0 [0])
      < g.count * g.count + 1 := by
    have hpos : 0 < g.count := g.valid.nonempty
    have hzero : [0].Sublist (tableEntry (List.replicate g.count (List.range g.count)) 0) := by
      simp [tableEntry, hpos]
    have h1 := (Shrinks.set hzero).tableSize_le
    have h2 : tableSize (List.replicate g.count (List.range g.count)) = g.count * g.count := by
      simp [tableSize]
    omega
  have hrun := dominatorRounds_spec _ (dominatorsInv_initial g) hsize
  have hdef : g.dominators = dominatorRounds g.predecessors (reachableBlocks g.successors)
      (List.range g.count) (g.count * g.count + 1)
      ((List.replicate g.count (List.range g.count)).set 0 [0]) := by
    unfold FlowGraph.dominators computeDominators
    simp only [g.length_predecessors, filter_reachable]
  rw [← hdef] at hrun
  obtain ⟨h, hfixed⟩ := hrun
  refine ⟨fun hd => ?_, fun hdom => h.dominators b hb d (g.lt_of_dominates hb hdom) hdom⟩
  refine dominates_of_closed (D := fun d b => d ∈ tableEntry g.dominators b) ?_ ?_ hd
  · intro d hd
    rw [h.root] at hd
    exact mem_singleton.mp hd
  · intro d u v hedge hd
    by_cases hv0 : v = 0
    · subst hv0
      rw [h.root] at hd
      exact .inl (mem_singleton.mp hd)
    · have hv := hedge.target_lt
      have hstep := h.fixed (fun b hb => mem_range_drop_one.mp hb) hfixed v
        (mem_range_drop_one.mpr ⟨hv, hv0⟩)
      rw [← hstep, dominatorStep, tableEntry_set (h.length_eq ▸ hv), if_pos rfl,
        mem_insertAscending, mem_commonBlocks] at hd
      exact hd.imp id fun hd => hd.2 u hedge

/-- The test for dominance decides dominance. -/
theorem dominates_iff {b d : ℕ} (hb : b < g.count) :
    dominates g.dominators b d = true ↔ Dominates g.Edge 0 d b := by
  rw [← mem_dominators hb, dominates, decide_eq_true_eq]
  rfl

end Zryna.Ir.DataOwnership
