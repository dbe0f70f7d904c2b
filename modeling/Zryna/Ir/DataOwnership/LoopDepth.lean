import Zryna.Ir.DataOwnership.LoopVerdict

/-!
# Loop nesting

The nesting count of a block is the number of back edges, taken with their multiplicity, whose
collected blocks contain it (`getD_nesting`). It is at least the number of natural loops around the
block (`loopDepth_le_nesting`), and the two agree for every block exactly when each header has one
back edge and no block but the entry is its own successor (`nesting_eq_loopDepth_iff`).
-/

namespace Zryna.Ir.DataOwnership

open Relation ControlFlow Report List

variable {g : FlowGraph}

/-! ### All back edges -/

/-- The back edges that the check counts. -/
def FlowGraph.allBackEdges (g : FlowGraph) : List (ℕ × ℕ) :=
  g.countedEdges (stronglyConnectedComponents g.successors)

theorem exists_component {v : ℕ} (hv : v < g.count) :
    ∃ c ∈ stronglyConnectedComponents g.successors, IsComponent g c ∧ v ∈ c := by
  obtain ⟨-, hcomponents, hcover⟩ := stronglyConnectedComponents_spec g
  obtain ⟨c, hc, hmem⟩ := hcover v hv
  exact ⟨c, hc, hcomponents c hc, hmem⟩

theorem mem_allBackEdges {s h : ℕ} : (s, h) ∈ g.allBackEdges ↔ BackEdge g.Edge 0 s h := by
  obtain ⟨-, hcomponents, -⟩ := stronglyConnectedComponents_spec g
  constructor
  · intro he
    obtain ⟨c, hc, hmem⟩ := mem_flatMap.mp he
    exact ((mem_backEdges (hcomponents c (mem_filter.mp hc).1)).mp hmem).2.2
  · rintro ⟨hedge, hdom⟩
    obtain ⟨c, hc, hcomponent, hs⟩ := exists_component hedge.source_lt
    -- the target dominates the source, so the two lie on a cycle
    have hback := hdom.reaches (g.reachable hedge.source_lt)
    have hh : h ∈ c := (hcomponent.linked s hs h).mpr ⟨.single hedge, hback⟩
    refine mem_flatMap.mpr ⟨c, mem_filter.mpr ⟨hc, ?_⟩, ?_⟩
    · exact (isCyclic_iff hcomponent).mpr ⟨s, hs, TransGen.head' hedge hback⟩
    · exact (mem_backEdges hcomponent).mpr ⟨hs, hh, hedge, hdom⟩

/-- A function on a list without repetitions that vanishes at all but one element. -/
theorem sum_map_single {α : Type*} [DecidableEq α] {xs : List α} (hnodup : xs.Nodup) {x : α}
    (hx : x ∈ xs) {f : α → ℕ} (hf : ∀ y ∈ xs, y ≠ x → f y = 0) : (xs.map f).sum = f x := by
  rw [sum_map_eq_nsmul_single x f fun y hne hy => hf y hy hne,
    count_eq_one_of_mem hnodup hx, one_nsmul]

/-- A back edge is counted as often as the source lists the target. -/
theorem count_allBackEdges {s h : ℕ} (hback : BackEdge g.Edge 0 s h) :
    g.allBackEdges.count (s, h) = (g.successors.at s).count h := by
  obtain ⟨hnodup, hcomponents, -⟩ := stronglyConnectedComponents_spec g
  obtain ⟨c, hc, hmem⟩ := mem_flatMap.mp (mem_allBackEdges.mpr hback)
  obtain ⟨hc, hcyclic⟩ := mem_filter.mp hc
  have hcomponent := hcomponents c hc
  obtain ⟨hs, hh, -, hdom⟩ := (mem_backEdges hcomponent).mp hmem
  have hzero : ∀ c' ∈ (stronglyConnectedComponents g.successors).filter (isCyclic g.successors),
      c' ≠ c → (backEdges g.successors g.dominators c').count (s, h) = 0 := by
    intro c' hc' hne
    have hcomponent' := hcomponents c' (mem_filter.mp hc').1
    refine count_eq_zero.mpr fun hmem' => hne ?_
    obtain ⟨hs', -⟩ := (mem_backEdges hcomponent').mp hmem'
    have hperm : c'.Perm c := (perm_ext_iff_of_nodup
      (hcomponent'.pairwise.imp fun h => ne_of_lt h)
      (hcomponent.pairwise.imp fun h => ne_of_lt h)).mpr fun v =>
        (hcomponent'.linked s hs' v).trans (hcomponent.linked s hs v).symm
    exact hperm.eq_of_pairwise (fun a b _ _ hab hba => absurd hba (not_lt_of_gt hab))
      hcomponent'.pairwise hcomponent.pairwise
  have hone : (backEdges g.successors g.dominators c).count (s, h)
      = (g.successors.at s).count h := by
    rw [backEdges, count_flatMap,
      sum_map_single (hcomponent.pairwise.imp fun h => ne_of_lt h) hs]
    · have hinj : Function.Injective fun target : ℕ => (s, target) := fun _ _ heq =>
        (Prod.mk.inj heq).2
      have htrue : (h ∈ c && dominates g.dominators s h) = true := by
        simp [hh, (dominates_iff (hcomponent.lt s hs)).mpr hdom]
      simp only [Function.comp_apply]
      rw [count_map_of_injective _ _ hinj]
      exact count_filter (p := fun target => target ∈ c && dominates g.dominators s target) htrue
    · intro s' _ hne
      refine count_eq_zero.mpr fun hin => ?_
      obtain ⟨t, -, heq⟩ := mem_map.mp hin
      exact hne (Prod.mk.inj heq).1
  rw [FlowGraph.allBackEdges, FlowGraph.countedEdges, count_flatMap]
  exact (sum_map_single (f := List.count (s, h) ∘ backEdges g.successors g.dominators)
    (hnodup.filter _) (mem_filter.mpr ⟨hc, hcyclic⟩) hzero).trans hone

/-! ### The counts -/

/-- The back edges to `h` whose collected blocks contain `b`. -/
def FlowGraph.loopCount (g : FlowGraph) (h b : ℕ) : ℕ :=
  g.allBackEdges.countP fun e => e.2 = h ∧ b ∈ g.collected e.1 e.2

theorem sum_countP_target (edges : List (ℕ × ℕ)) {n : ℕ} (hlt : ∀ e ∈ edges, e.2 < n)
    (P : ℕ × ℕ → Prop) [DecidablePred P] :
    ∑ h ∈ Finset.range n, (edges.countP fun e => e.2 = h ∧ P e) = edges.countP fun e => P e := by
  induction edges with
  | nil => simp
  | cons e edges ih =>
    have ih := ih fun e he => hlt e (mem_cons_of_mem _ he)
    have hmem : e.2 ∈ Finset.range n := Finset.mem_range.mpr (hlt e mem_cons_self)
    simp only [countP_cons, Finset.sum_add_distrib, ih, decide_eq_true_eq]
    congr 1
    by_cases hP : P e
    · simp [hP, hmem]
    · simp [hP]

/-- **The nesting count of a block counts back edges.** -/
theorem getD_nesting {b : ℕ} (hb : b < g.count) :
    (g.nesting (stronglyConnectedComponents g.successors)).getD b 0
      = ∑ h ∈ Finset.range g.count, g.loopCount h b := by
  have hedges : ∀ e ∈ g.allBackEdges, g.Edge e.1 e.2 := fun e he => (mem_allBackEdges.mp he).1
  have hzero : (List.replicate g.count 0).getD b 0 = 0 := by
    simp [getD_eq_getElem?_getD, hb]
  change (g.countEdges g.allBackEdges (List.replicate g.count 0)).getD b 0 = _
  rw [g.getD_countEdges hedges (by simpa using hb), hzero, zero_add]
  exact (sum_countP_target g.allBackEdges (fun e he => (hedges e he).target_lt)
    fun e => b ∈ g.collected e.1 e.2).symm

open Classical in
theorem loopDepth_eq_sum {b : ℕ} :
    loopDepth g.Edge 0 b
      = ∑ h ∈ Finset.range g.count, if NaturalLoop g.Edge 0 h b then 1 else 0 := by
  have hset : {h | NaturalLoop g.Edge 0 h b}
      = ((Finset.range g.count).filter fun h => NaturalLoop g.Edge 0 h b : Finset ℕ) := by
    ext h
    simp only [Set.mem_ofPred_eq, Finset.coe_filter, Finset.mem_range]
    refine ⟨fun hloop => ⟨?_, hloop⟩, And.right⟩
    obtain ⟨s, hback, -⟩ := hloop
    exact hback.1.target_lt
  rw [loopDepth, hset, Set.ncard_coe_finset, Finset.card_filter]

theorem exists_collected {h b : ℕ} (hloop : NaturalLoop g.Edge 0 h b) :
    ∃ s, BackEdge g.Edge 0 s h ∧ b ∈ g.collected s h := by
  obtain ⟨s, hback, hb⟩ := hloop
  refine ⟨s, hback, ?_⟩
  by_cases hs : s = h
  · subst hs
    rw [mem_collected_self hback.1]
    rcases hb with rfl | ⟨-, hpath⟩
    · exact .refl
    · exact ReflTransGen.mono (fun _ _ hstep => hstep.1) _ _ hpath
  · exact (mem_collected_of_ne hback.1 hs).mpr hb

open Classical in
theorem indicator_le_loopCount (h b : ℕ) :
    (if NaturalLoop g.Edge 0 h b then 1 else 0) ≤ g.loopCount h b := by
  split
  · next hloop =>
    obtain ⟨s, hback, hb⟩ := exists_collected hloop
    exact countP_pos_iff.mpr ⟨(s, h), mem_allBackEdges.mpr hback, by simpa using hb⟩
  · exact Nat.zero_le _

/-- Every natural loop around a block is counted. -/
theorem loopDepth_le_nesting {b : ℕ} (hb : b < g.count) :
    loopDepth g.Edge 0 b ≤ (g.nesting (stronglyConnectedComponents g.successors)).getD b 0 := by
  classical
  rw [getD_nesting hb, loopDepth_eq_sum]
  exact Finset.sum_le_sum fun h _ => indicator_le_loopCount h b

/-! ### When the count is the depth -/

/-- Every header has one back edge, and no block but the entry is its own successor. -/
structure SimpleLoops (g : FlowGraph) : Prop where
  source : ∀ h s s', BackEdge g.Edge 0 s h → BackEdge g.Edge 0 s' h → s = s'
  parallel : ∀ h s, BackEdge g.Edge 0 s h → (g.successors.at s).count h = 1
  self : ∀ h, g.Edge h h → h = 0

theorem SimpleLoops.mem_collected (hsimple : SimpleLoops g) {s h b : ℕ}
    (hback : BackEdge g.Edge 0 s h) : b ∈ g.collected s h ↔ NaturalLoop g.Edge 0 h b := by
  have hloop : NaturalLoop g.Edge 0 h b
      ↔ b = h ∨ b ≠ h ∧ ReflTransGen (fun u v => g.Edge u v ∧ v ≠ h) b s := by
    constructor
    · rintro ⟨s', hback', hb⟩
      rwa [hsimple.source h s s' hback hback']
    · exact fun hb => ⟨s, hback, hb⟩
  by_cases hs : s = h
  · subst hs
    obtain rfl := hsimple.self s hback.1
    rw [mem_collected_self hback.1, hloop]
    constructor
    · intro hpath
      refine .inl ?_
      clear hloop
      -- a path from another block would enter the header by a second back edge
      induction hpath using ReflTransGen.head_induction_on with
      | refl => rfl
      | @head u v hstep _ ih =>
        subst ih
        exact hsimple.source 0 u 0 ⟨hstep, Dominates.root⟩ hback
    · rintro (rfl | ⟨hne, hpath⟩)
      · exact .refl
      · exact ReflTransGen.mono (fun _ _ hstep => hstep.1) _ _ hpath
  · rw [mem_collected_of_ne hback.1 hs, hloop]

open Classical in
theorem SimpleLoops.loopCount (hsimple : SimpleLoops g) (h b : ℕ) :
    g.loopCount h b = if NaturalLoop g.Edge 0 h b then 1 else 0 := by
  split
  · next hloop =>
    obtain ⟨s, hback, hb⟩ := exists_collected hloop
    have hcongr : g.loopCount h b = g.allBackEdges.count (s, h) := by
      refine countP_congr fun e he => ?_
      obtain ⟨s', h'⟩ := e
      simp only [decide_eq_true_eq, beq_iff_eq, Prod.mk.injEq]
      constructor
      · rintro ⟨rfl, -⟩
        exact ⟨hsimple.source h' s' s (mem_allBackEdges.mp he) hback, rfl⟩
      · rintro ⟨rfl, rfl⟩
        exact ⟨rfl, hb⟩
    rw [hcongr, count_allBackEdges hback, hsimple.parallel h s hback]
  · next hnot =>
    refine countP_eq_zero.mpr fun e he => ?_
    simp only [decide_eq_true_eq, not_and]
    rintro rfl hb
    exact hnot ((hsimple.mem_collected (mem_allBackEdges.mp he)).mp hb)

theorem two_le_countP {α : Type*} {xs : List α} {p : α → Bool} {x y : α} (hne : x ≠ y)
    (hx : x ∈ xs) (hy : y ∈ xs) (hpx : p x = true) (hpy : p y = true) : 2 ≤ xs.countP p := by
  rw [countP_eq_length_filter]
  have hsub : [x, y].Subperm (xs.filter p) := by
    refine subperm_of_subset (by simp [hne]) fun z hz => ?_
    rcases mem_cons.mp hz with rfl | hz
    · exact mem_filter.mpr ⟨hx, hpx⟩
    · rw [mem_singleton.mp hz]
      exact mem_filter.mpr ⟨hy, hpy⟩
  exact hsub.length_le

open Classical in
/-- Otherwise some header is counted too often for some block. -/
theorem exists_loopCount_gt (hnot : ¬ SimpleLoops g) :
    ∃ h < g.count, ∃ b < g.count,
      (if NaturalLoop g.Edge 0 h b then 1 else 0) < g.loopCount h b := by
  have hcollected : ∀ {s h}, BackEdge g.Edge 0 s h → h ∈ g.collected s h := fun hback =>
    ((Zryna.Ir.DataOwnership.mem_collected hback.1).2 _).mpr (.inl rfl)
  have hle : ∀ h b, (if NaturalLoop g.Edge 0 h b then 1 else 0) ≤ 1 := fun h b => by
    split <;> simp
  by_contra hall
  have hall : ∀ h < g.count, ∀ b < g.count,
      g.loopCount h b ≤ if NaturalLoop g.Edge 0 h b then 1 else 0 := by
    intro h hh b hb
    by_contra hgt
    exact hall ⟨h, hh, b, hb, by omega⟩
  refine hnot ⟨fun h s s' hback hback' => ?_, fun h s hback => ?_, fun h hself => ?_⟩
  · by_contra hne
    have htwo : 2 ≤ g.loopCount h h :=
      two_le_countP (fun heq => hne (Prod.mk.inj heq).1) (mem_allBackEdges.mpr hback)
        (mem_allBackEdges.mpr hback') (by simpa using hcollected hback)
        (by simpa using hcollected hback')
    have hh := hback.1.target_lt
    have := hall h hh h hh
    have := hle h h
    omega
  · have hcount : g.allBackEdges.count (s, h) ≤ g.loopCount h h := by
      refine countP_mono_left fun e _ he => ?_
      obtain rfl : e = (s, h) := by simpa using he
      simpa using hcollected hback
    rw [count_allBackEdges hback] at hcount
    have hh := hback.1.target_lt
    have := hall h hh h hh
    have := hle h h
    have hpos : 0 < (g.successors.at s).count h := count_pos_iff.mpr hback.1
    omega
  · by_contra h0
    have hback : BackEdge g.Edge 0 h h := ⟨hself, Dominates.refl⟩
    have hh := hself.source_lt
    have hpos : 0 < g.count := g.valid.nonempty
    have hone : 1 ≤ g.loopCount h 0 := by
      refine countP_pos_iff.mpr ⟨(h, h), mem_allBackEdges.mpr hback, ?_⟩
      simpa [mem_collected_self hself] using g.reachable hh
    have hzero := hall h hh 0 hpos
    rw [if_neg fun hloop => h0 hloop.root] at hzero
    omega

/-- **The counts are the depths exactly when the loops are simple.** -/
theorem nesting_eq_loopDepth_iff :
    (∀ b < g.count, (g.nesting (stronglyConnectedComponents g.successors)).getD b 0
      = loopDepth g.Edge 0 b) ↔ SimpleLoops g := by
  classical
  constructor
  · intro hall
    by_contra hnot
    obtain ⟨h, hh, b, hb, hlt⟩ := exists_loopCount_gt hnot
    have hsum : loopDepth g.Edge 0 b < ∑ h ∈ Finset.range g.count, g.loopCount h b := by
      rw [loopDepth_eq_sum]
      exact Finset.sum_lt_sum (fun h _ => indicator_le_loopCount h b)
        ⟨h, Finset.mem_range.mpr hh, hlt⟩
    rw [← getD_nesting hb, hall b hb] at hsum
    exact lt_irrefl _ hsum
  · intro hsimple b hb
    rw [getD_nesting hb, loopDepth_eq_sum]
    exact Finset.sum_congr rfl fun h _ => hsimple.loopCount h b

/-! ### The limit -/

theorem reportsLimit_iff (g : FlowGraph) (span : Span) (hred : Reducible g.Edge 0) :
    ReportsLimit (g.verifyLoops span)
      ↔ ¬ Within (g.nesting (stronglyConnectedComponents g.successors)) := by
  obtain ⟨-, hcomponents, -⟩ := stronglyConnectedComponents_spec g
  rw [FlowGraph.verifyLoops_eq]
  exact reportsLimit_check hcomponents (fun c hc => (hcomponents c hc).headed hred)
    (within_replicate g.count)

theorem not_within_iff :
    ¬ Within (g.nesting (stronglyConnectedComponents g.successors))
      ↔ ∃ b < g.count,
        maxLoopNesting < (g.nesting (stronglyConnectedComponents g.successors)).getD b 0 := by
  simp only [Within, not_forall, not_le]
  refine exists_congr fun b => ⟨fun hlt => ⟨?_, hlt⟩, And.right⟩
  by_contra hge
  have hlength : (g.nesting (stronglyConnectedComponents g.successors)).length = g.count := by
    rw [FlowGraph.nesting, FlowGraph.length_countEdges, length_replicate]
  rw [getD_eq_getElem?_getD, getElem?_eq_none (by omega)] at hlt
  exact absurd hlt (Nat.not_lt_zero _)

/-- **When the nesting counts are the loop depths.** On a reducible graph the check rejects exactly
the nesting that is too deep, and otherwise counts the natural loops around every block, if and
only if some block is nested too deep or the loops are simple. -/
theorem verifyReducibleLoops_nesting_iff (g : FlowGraph) (span : Span) (hred : Reducible g.Edge 0) :
    ((ReportsLimit (g.verifyLoops span) ↔ ∃ b < g.count, maxLoopNesting < loopDepth g.Edge 0 b)
      ∧ (¬ ReportsLimit (g.verifyLoops span) → ∀ b < g.count,
        (g.nesting (stronglyConnectedComponents g.successors)).getD b 0 = loopDepth g.Edge 0 b))
    ↔ ((∃ b < g.count, maxLoopNesting < loopDepth g.Edge 0 b) ∨ SimpleLoops g) := by
  rw [reportsLimit_iff g span hred, not_within_iff, ← nesting_eq_loopDepth_iff]
  constructor
  · rintro ⟨hlimit, hcounts⟩
    by_cases hdeep : ∃ b < g.count, maxLoopNesting < loopDepth g.Edge 0 b
    · exact .inl hdeep
    · exact .inr (hcounts fun h => hdeep (hlimit.mp h))
  · rintro (⟨b, hb, hdeep⟩ | heq)
    · have hcount : ∃ b < g.count, maxLoopNesting
          < (g.nesting (stronglyConnectedComponents g.successors)).getD b 0 :=
        ⟨b, hb, hdeep.trans_le (loopDepth_le_nesting hb)⟩
      exact ⟨iff_of_true hcount ⟨b, hb, hdeep⟩, fun hnot => absurd hcount hnot⟩
    · refine ⟨exists_congr fun b => and_congr_right fun hb => ?_, fun _ => heq⟩
      rw [heq b hb]

/-- An entry, a loop of two blocks and an exit. -/
def simpleLoop : FlowGraph where
  successors := [[1], [2], [1, 3], []]
  valid := ⟨by decide, fun u v hv => by
    have hall : ∀ u < 4, ∀ v ∈ Adjacency.at [[1], [2], [1, 3], []] u, v < 4 := by decide
    exact hall u (Adjacency.lt_of_mem_at hv) v hv⟩
  reaches := by
    have h1 : Reaches [[1], [2], [1, 3], []] 1 := .single (by decide)
    have h2 : Reaches [[1], [2], [1, 3], []] 2 := h1.tail (by decide)
    intro b hb
    match b with
    | 0 => exact .refl
    | 1 => exact h1
    | 2 => exact h2
    | 3 => exact h2.tail (by decide)
    | b + 4 => exact absurd hb (by simp)

/-- A graph whose forward edges lead to greater blocks is reducible. -/
theorem reducible_of_ascending
    (hall : ∀ u < g.count, ∀ v ∈ g.successors.at u, u < v ∨ dominates g.dominators u v = true) :
    Reducible g.Edge 0 := by
  have hrank : ∀ u v, ForwardEdge g.Edge 0 u v → id u < id v := fun u v hedge =>
    (hall u hedge.1.source_lt v hedge.1).resolve_right fun hdom =>
      hedge.2 ((dominates_iff hedge.1.source_lt).mp hdom)
  exact reducible_of_rank hrank

theorem verifyReducibleLoops_nesting_simpleLoop :
    Reducible simpleLoop.Edge 0
      ∧ (((ReportsLimit (simpleLoop.verifyLoops ⟨⟨0, 0⟩, 0, 0⟩)
            ↔ ∃ b < simpleLoop.count, maxLoopNesting < loopDepth simpleLoop.Edge 0 b)
          ∧ (¬ ReportsLimit (simpleLoop.verifyLoops ⟨⟨0, 0⟩, 0, 0⟩) → ∀ b < simpleLoop.count,
            (simpleLoop.nesting (stronglyConnectedComponents simpleLoop.successors)).getD b 0
              = loopDepth simpleLoop.Edge 0 b))
        ↔ ((∃ b < simpleLoop.count, maxLoopNesting < loopDepth simpleLoop.Edge 0 b)
          ∨ SimpleLoops simpleLoop)) :=
  have hred : Reducible simpleLoop.Edge 0 := reducible_of_ascending (by decide)
  ⟨hred, verifyReducibleLoops_nesting_iff simpleLoop ⟨⟨0, 0⟩, 0, 0⟩ hred⟩

/-- An entry, a block that is its own successor, and an exit. -/
def selfLoop : FlowGraph where
  successors := [[1], [1, 2], []]
  valid := ⟨by decide, fun u v hv => by
    have hall : ∀ u < 3, ∀ v ∈ Adjacency.at [[1], [1, 2], []] u, v < 3 := by decide
    exact hall u (Adjacency.lt_of_mem_at hv) v hv⟩
  reaches := by
    have h1 : Reaches [[1], [1, 2], []] 1 := .single (by decide)
    intro b hb
    match b with
    | 0 => exact .refl
    | 1 => exact h1
    | 2 => exact h1.tail (by decide)
    | b + 3 => exact absurd hb (by simp)

/-- The entry of a graph whose only loop is a block of its own is counted as nested in it. -/
theorem verifyReducibleLoops_nesting_selfLoop :
    Reducible selfLoop.Edge 0
      ∧ ¬ ((ReportsLimit (selfLoop.verifyLoops ⟨⟨0, 0⟩, 0, 0⟩)
            ↔ ∃ b < selfLoop.count, maxLoopNesting < loopDepth selfLoop.Edge 0 b)
          ∧ (¬ ReportsLimit (selfLoop.verifyLoops ⟨⟨0, 0⟩, 0, 0⟩) → ∀ b < selfLoop.count,
            (selfLoop.nesting (stronglyConnectedComponents selfLoop.successors)).getD b 0
              = loopDepth selfLoop.Edge 0 b)) := by
  refine ⟨reducible_of_ascending (by decide), ?_⟩
  rintro ⟨-, hcounts⟩
  have hnone : (selfLoop.verifyLoops ⟨⟨0, 0⟩, 0, 0⟩).events = [] := by decide
  have hlimit : ¬ ReportsLimit (selfLoop.verifyLoops ⟨⟨0, 0⟩, 0, 0⟩) := by
    rintro ⟨d, hd⟩
    rw [hnone] at hd
    exact absurd hd not_mem_nil
  have hcount : (selfLoop.nesting (stronglyConnectedComponents selfLoop.successors)).getD 0 0
      = 1 := by decide
  have hdepth : loopDepth selfLoop.Edge 0 0 = 0 := by
    have hentry : ∀ u < 3, 0 ∉ selfLoop.successors.at u := by decide
    have hempty : {h | NaturalLoop selfLoop.Edge 0 h 0} = ∅ := by
      refine Set.eq_empty_iff_forall_notMem.mpr fun h hloop => ?_
      obtain rfl := NaturalLoop.root hloop
      obtain ⟨s, hback, -⟩ := hloop
      exact hentry s hback.1.source_lt hback.1
    rw [loopDepth, hempty, Set.ncard_empty]
  have := hcounts hlimit 0 (by decide)
  rw [hcount, hdepth] at this
  exact absurd this (by decide)

end Zryna.Ir.DataOwnership
