import Zryna.Ir.ControlFlow.WellFormed

/-!
# Availability of operands

`verifyCfg` decides through the intervals of the dominator tree whether an operand is available
where it is used. This file turns a clean run into `Availability`: a relation `dom` on blocks that
is trivial at the entry, is pulled back along every edge, and makes every operand available at its
use.
-/

namespace Zryna.Ir.ControlFlow

open Report List

/-! ### The graph of a function -/

variable {count u v : ℕ} {edges : List Edge} {idom : List ℕ}

theorem mem_successorLists :
    v ∈ (successorLists count edges).at u ↔
      u < count ∧ ∃ e ∈ edges, e.source = u ∧ e.target = v := by
  by_cases hu : u < count
  · have : (successorLists count edges).at u
        = ((edges.filter (·.source = u)).map Edge.target).insertionSort (· ≤ ·) := by
      simp [successorLists, Adjacency.at, getD_eq_getElem?_getD, hu]
    rw [this, mem_insertionSort]
    simp [hu, and_assoc]
  · rw [Adjacency.at_eq_nil (by simpa [successorLists] using hu)]
    simp [hu]

theorem mem_predecessorLists :
    u ∈ (predecessorLists count edges).at v ↔
      v < count ∧ ∃ e ∈ edges, e.source = u ∧ e.target = v := by
  by_cases hv : v < count
  · have : (predecessorLists count edges).at v
        = ((edges.filter (·.target = v)).map Edge.source).insertionSort (· ≤ ·) := by
      simp [predecessorLists, Adjacency.at, getD_eq_getElem?_getD, hv]
    rw [this, mem_insertionSort]
    simp only [mem_map, mem_filter, decide_eq_true_eq, hv, true_and, and_assoc]
    exact exists_congr fun e => by tauto
  · rw [Adjacency.at_eq_nil (by simpa [predecessorLists] using hv)]
    simp [hv]

@[simp] theorem length_successorLists (count : ℕ) (edges : List Edge) :
    (successorLists count edges).length = count := by simp [successorLists]

theorem graphLists_of_edges (hpos : 0 < count)
    (hedges : ∀ e ∈ edges, e.source < count ∧ e.target < count) :
    GraphLists (successorLists count edges) (predecessorLists count edges) := by
  refine ⟨⟨by simpa using hpos, fun u v hv => ?_⟩, fun u v => ?_⟩
  · obtain ⟨-, e, he, -, rfl⟩ := mem_successorLists.mp hv
    simpa using (hedges e he).2
  · rw [mem_successorLists, mem_predecessorLists]
    constructor
    · rintro ⟨-, e, he, rfl, rfl⟩
      exact ⟨(hedges e he).1, e, he, rfl, rfl⟩
    · rintro ⟨-, e, he, rfl, rfl⟩
      exact ⟨(hedges e he).2, e, he, rfl, rfl⟩

/-- The interval test decides dominance. -/
theorem dominatorIntervals_dominates_iff {successors predecessors : Adjacency}
    (hg : GraphLists successors predecessors)
    (h : immediateDominators successors predecessors = some idom) {a b : ℕ}
    (ha : a < successors.length) (hb : b < successors.length) :
    (dominatorIntervals idom).dominates a b = true
      ↔ Dominates (fun u v => v ∈ successors.at u) 0 a b := by
  obtain ⟨hlen, -, htree⟩ := immediateDominators_spec hg h
  have t := htree.tree
  rw [← hlen] at t
  rw [dominates_iff_anc t (hlen ▸ ha) (hlen ▸ hb)]
  exact htree.anc_iff hg hb

/-! ### Availability -/

/-- The definition `info` has been passed on every path to position `position` of `block`. -/
def Available (dom : ℕ → ℕ → Prop) (info : ValueInfo) (block position : ℕ) : Prop :=
  match info.location with
  | .parameter => True
  | .blockParameter d => dom d block
  | .instruction d p => if d = block then p < position else dom d block

def OperandsAvailable (dom : ℕ → ℕ → Prop) (values : List ValueInfo) (block position : ℕ)
    (operands : List ℕ) : Prop :=
  ∀ x ∈ operands, ∀ info, values[x]? = some info → Available dom info block position

/-- A relation on blocks under which every use is available. -/
structure Availability (function : Function) (dom : ℕ → ℕ → Prop) : Prop where
  refl : ∀ b < function.blocks.length, dom b b
  entry : ∀ d < function.blocks.length, dom d 0 → d = 0
  edge : ∀ e ∈ function.edges, ∀ d < function.blocks.length, d ≠ e.target → dom d e.target →
    dom d e.source
  instruction : ∀ (b : ℕ) (block : Block), function.blocks[b]? = some block →
    ∀ (k : ℕ) (i : Instruction), block.instructions[k]? = some i →
      OperandsAvailable dom function.valueTable b k (instructionOperands i.kind)
  terminator : ∀ (b : ℕ) (block : Block), function.blocks[b]? = some block →
    ∀ t : SpannedTerminator, block.terminators = [t] →
      OperandsAvailable dom function.valueTable b block.instructions.length
        (terminatorOperands t.kind)

theorem clean_verifyDominance (times : Intervals) (values : List ValueInfo) (block position : ℕ)
    (span : Span) (operands : List ℕ) :
    (forM operands (verifyDominance times values block position span) : Check PUnit).Clean ↔
      OperandsAvailable (fun a b => times.dominates a b = true) values block position operands := by
  rw [clean_forM]
  refine forall₂_congr fun x _ => ?_
  unfold verifyDominance
  cases hx : values[x]? with
  | none => simp
  | some info =>
    simp only [clean_pushIf, Bool.not_eq_false, Option.some.injEq, forall_eq']
    unfold dominanceValid Available
    cases info.location with
    | parameter => simp
    | blockParameter d => simp
    | instruction d p => by_cases hd : d = block <;> simp [hd]

/-- What a clean control-flow check provides. -/
structure CfgChecked (function : Function) (edges : List Edge) (idom : List ℕ) : Prop where
  reaches : ∀ b < function.blocks.length, Reaches (successorLists function.blocks.length edges) b
  pred : ∀ b < function.blocks.length, b ≠ 0 →
    (predecessorLists function.blocks.length edges).at b ≠ []
  idom_eq : immediateDominators (successorLists function.blocks.length edges)
    (predecessorLists function.blocks.length edges) = some idom
  uses : ∀ entry ∈ function.blocks.zipIdx,
    (verifyBlockDominance (dominatorIntervals idom) function.valueTable entry).Clean

theorem mem_range_drop_one {b : ℕ} : b ∈ (List.range count).drop 1 ↔ b < count ∧ b ≠ 0 := by
  cases count with
  | zero => simp
  | succ n =>
    rw [range_succ_eq_map, drop_succ_cons, drop_zero]
    simp only [mem_map, mem_range]
    constructor
    · rintro ⟨a, ha, rfl⟩
      omega
    · rintro ⟨hb, h0⟩
      exact ⟨b - 1, by omega, by omega⟩

theorem all_id_iff {marks : List Bool} :
    marks.all id = true ↔ ∀ b < marks.length, marks.getD b false = true := by
  rw [all_eq_true]
  constructor
  · intro h b hb
    have := h marks[b] (getElem_mem hb)
    simpa [getD_eq_getElem?_getD, hb] using this
  · intro h x hx
    obtain ⟨b, hb, rfl⟩ := mem_iff_getElem.mp hx
    have := h b hb
    simpa [getD_eq_getElem?_getD, hb] using this

variable {function : Function}

/-- A clean control-flow check, read back. -/
theorem clean_verifyCfg (key : FunctionKey) (hne : function.blocks ≠ [])
    (hedges : ∀ e ∈ edges, e.source < function.blocks.length ∧ e.target < function.blocks.length) :
    (verifyCfg key function function.valueTable edges).Clean ↔
      ∃ idom, CfgChecked function edges idom
        ∧ (verifyReducibility key function.blocks.length edges
          (predecessorLists function.blocks.length edges) (dominatorIntervals idom)).Clean := by
  have hpos : 0 < function.blocks.length := length_pos_iff.mpr hne
  have hg := graphLists_of_edges hpos hedges
  have hmark := reachableFromEntry_iff hg.valid
  have hall : (reachableFromEntry (successorLists function.blocks.length edges)).all id = true ↔
      ∀ b < function.blocks.length,
        Reaches (successorLists function.blocks.length edges) b := by
    rw [all_id_iff, length_reachableFromEntry, length_successorLists]
    exact forall₂_congr fun b _ => hmark b
  unfold verifyCfg
  rw [if_neg hne]
  dsimp only
  rw [clean_bind, clean_forM]
  simp only [mem_range_drop_one, clean_pushIf, not_or, Bool.not_eq_false, hmark]
  constructor
  · rintro ⟨hblocks, hrest⟩
    have hreach : ∀ b < function.blocks.length,
        Reaches (successorLists function.blocks.length edges) b := by
      intro b hb
      by_cases h0 : b = 0
      · subst h0
        exact Relation.ReflTransGen.refl
      · exact (hblocks b ⟨hb, h0⟩).2
    rw [if_pos (hall.mpr hreach)] at hrest
    split at hrest
    · simp at hrest
    · next idom hidom =>
      rw [clean_bind, clean_forM] at hrest
      exact ⟨idom, ⟨hreach, fun b hb h0 => (hblocks b ⟨hb, h0⟩).1, hidom, hrest.1⟩, hrest.2⟩
  · rintro ⟨idom, h, hred⟩
    refine ⟨fun b hb => ⟨h.pred b hb.1 hb.2, h.reaches b hb.1⟩, ?_⟩
    rw [if_pos (hall.mpr h.reaches), h.idom_eq]
    simp only [clean_bind, clean_forM]
    exact ⟨h.uses, hred⟩

theorem mem_edges {b : ℕ} {block : Block} {t : SpannedTerminator}
    (hb : function.blocks[b]? = some block) (ht : block.terminators = [t]) {e : Edge}
    (he : e ∈ edgesOf b t.kind) : e ∈ function.edges := by
  refine mem_flatMap.mpr ⟨(block, b), mk_mem_zipIdx_iff_getElem?.mpr hb, ?_⟩
  simpa [blockEdges, ht] using he

/-- The interval test is an availability relation. -/
theorem CfgChecked.availability (hne : function.blocks ≠ []) (hedges : ∀ e ∈ function.edges,
      e.source < function.blocks.length ∧ e.target < function.blocks.length
        ∧ e.target ≠ 0)
    (h : CfgChecked function function.edges idom) :
    Availability function fun a b => (dominatorIntervals idom).dominates a b = true := by
  have hpos : 0 < function.blocks.length := length_pos_iff.mpr hne
  have hg := graphLists_of_edges hpos fun e he => ⟨(hedges e he).1, (hedges e he).2.1⟩
  obtain ⟨hlen, -, htree⟩ := immediateDominators_spec hg h.idom_eq
  rw [length_successorLists] at hlen
  have t := htree.tree
  rw [length_successorLists, ← hlen] at t
  have hdom : ∀ a < function.blocks.length, ∀ b < function.blocks.length,
      ((dominatorIntervals idom).dominates a b = true ↔ Anc (idomParent idom) a b) :=
    fun a ha b hb => dominates_iff_anc t (hlen ▸ ha) (hlen ▸ hb)
  have huse : ∀ (b : ℕ) (block : Block), function.blocks[b]? = some block →
      (verifyBlockDominance (dominatorIntervals idom) function.valueTable (block, b)).Clean :=
    fun b block hb => h.uses _ (mk_mem_zipIdx_iff_getElem?.mpr hb)
  refine ⟨fun b hb => (hdom b hb b hb).mpr (Anc.refl _), fun d hd h0 => ?_,
    fun e he d hd hne' hdt => ?_, fun b block hb k i hi => ?_, fun b block hb t ht => ?_⟩
  · exact t.anc_root.mp ((hdom d hd 0 hpos).mp h0)
  · obtain ⟨hs, htl, ht0⟩ := hedges e he
    have hanc := ((hdom d hd _ htl).mp hdt).cases_parent.resolve_left hne'
    -- the parent of the target is above the source of the edge
    have hmeet := htree.meet e.target (by simpa using htl) ht0
    have hpred : e.source ∈ (predecessorLists function.blocks.length function.edges).at e.target :=
      mem_predecessorLists.mpr ⟨htl, e, he, rfl, rfl⟩
    exact (hdom d hd _ hs).mpr (hanc.trans (hmeet.anc _ hpred))
  · have := huse b block hb
    unfold verifyBlockDominance at this
    simp only [clean_bind, clean_forM] at this
    have hi' := this.1 (i, k) (mk_mem_zipIdx_iff_getElem?.mpr hi)
    exact (clean_verifyDominance ..).mp (clean_forM _ _ |>.mpr hi')
  · have := huse b block hb
    unfold verifyBlockDominance at this
    dsimp only at this
    rw [ht] at this
    simp only [clean_bind] at this
    exact (clean_verifyDominance ..).mp this.2

end Zryna.Ir.ControlFlow
