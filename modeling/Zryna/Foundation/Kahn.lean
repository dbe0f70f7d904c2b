import Mathlib.Data.Finset.Card
import Mathlib.Algebra.Order.BigOperators.Group.List
import Mathlib.Algebra.Order.Ring.Nat

/-!
# Kahn's algorithm with depths

A first-in first-out topological sweep of a finite multigraph given by successor lists. Besides
counting the nodes it removes, the sweep keeps for every node the length of the longest chain of
removed nodes that ends in it.

The sweep removes every node exactly when the graph has no cycle. When it does, the depths increase
along every edge (`run_depth_lt`). A ranking that increases along every edge is enough for the sweep
to remove every node (`run_seen_of_rank`).
-/

namespace Zryna.Kahn

open List

/-- State of the sweep. -/
structure State where
  queue : List ℕ
  indegree : List ℕ
  depth : List ℕ
  seen : ℕ
deriving DecidableEq

/-- Relax one edge out of a node of depth `d`. -/
def relax (d : ℕ) (s : State) (target : ℕ) : State :=
  let depth := s.depth.set target (max (s.depth.getD target 0) (d + 1))
  let degree := s.indegree.getD target 0 - 1
  { s with
    depth := depth
    indegree := s.indegree.set target degree
    queue := if degree = 0 then s.queue ++ [target] else s.queue }

/-- The sweep: take a node off the queue and relax its edges. -/
def sweep (successors : List (List ℕ)) : ℕ → State → State
  | 0, s => s
  | fuel + 1, s =>
    match s.queue with
    | [] => s
    | node :: queue =>
      sweep successors fuel
        ((successors.getD node []).foldl (relax (s.depth.getD node 0))
          { s with queue := queue, seen := s.seen + 1 })

section

variable (successors : List (List ℕ))

/-- Number of edges into a node. -/
def indegreeOf (node : ℕ) : ℕ :=
  (successors.map fun targets => targets.count node).sum

/-- The state before the sweep: every node has depth one, and the queue holds the nodes without
an incoming edge in increasing order. -/
def initial : State :=
  let indegree := (List.range successors.length).map (indegreeOf successors)
  { queue := (List.range successors.length).filter fun node => indegree.getD node 0 = 0
    indegree := indegree
    depth := List.replicate successors.length 1
    seen := 0 }

def run : State :=
  sweep successors (successors.length + 1) (initial successors)

/-! ### Relaxing the edges of one node -/

/-- Effect of relaxing a list of targets. -/
structure Relaxed (d : ℕ) (targets : List ℕ) (s s' : State) : Prop where
  indegree_length : s'.indegree.length = s.indegree.length
  depth_length : s'.depth.length = s.depth.length
  indegree_eq : ∀ v, s'.indegree.getD v 0 = s.indegree.getD v 0 - targets.count v
  depth_eq : ∀ v, v < s.depth.length →
    s'.depth.getD v 0 = if v ∈ targets then max (s.depth.getD v 0) (d + 1) else s.depth.getD v 0
  queue_eq : ∃ fresh : List ℕ, s'.queue = s.queue ++ fresh ∧ fresh.Nodup
    ∧ ∀ v, v ∈ fresh ↔ v ∈ targets ∧ s.indegree.getD v 0 = targets.count v
  seen_eq : s'.seen = s.seen

theorem getD_set_self {l : List ℕ} {i x : ℕ} (h : i < l.length) : (l.set i x).getD i 0 = x := by
  simp [getD_eq_getElem?_getD, h]

theorem getD_set_ne {l : List ℕ} {i j x : ℕ} (h : j ≠ i) : (l.set i x).getD j 0 = l.getD j 0 := by
  simp [getD_eq_getElem?_getD, getElem?_set_ne (Ne.symm h)]

theorem foldl_relax_spec (d : ℕ) (targets : List ℕ) :
    ∀ (s : State), (∀ v ∈ targets, v < s.indegree.length ∧ v < s.depth.length) →
      (∀ v, targets.count v ≤ s.indegree.getD v 0) →
      Relaxed d targets s (targets.foldl (relax d) s) := by
  induction targets with
  | nil =>
    intro s _ _
    exact ⟨rfl, rfl, by simp, by simp, ⟨[], by simp⟩, rfl⟩
  | cons x targets ih =>
    intro s hlt hcount
    have hx := hlt x (by simp)
    have hcx : targets.count x + 1 ≤ s.indegree.getD x 0 := by simpa using hcount x
    rw [foldl_cons]
    set s1 := relax d s x with hs1
    have hin : ∀ v, s1.indegree.getD v 0
        = if v = x then s.indegree.getD x 0 - 1 else s.indegree.getD v 0 := by
      intro v
      by_cases hv : v = x
      · subst hv
        simp only [hs1, relax, getD_set_self hx.1, if_true]
      · simp only [hs1, relax, getD_set_ne hv, hv, if_false]
    have hdep : ∀ v, s1.depth.getD v 0
        = if v = x then max (s.depth.getD x 0) (d + 1) else s.depth.getD v 0 := by
      intro v
      by_cases hv : v = x
      · subst hv
        simp only [hs1, relax, getD_set_self hx.2, if_true]
      · simp only [hs1, relax, getD_set_ne hv, hv, if_false]
    have hcount' : ∀ v, targets.count v ≤ s1.indegree.getD v 0 := by
      intro v
      rw [hin]
      by_cases hv : v = x
      · subst hv
        simp only [if_true]
        omega
      · have := hcount v
        rw [count_cons_of_ne (Ne.symm hv)] at this
        simpa [hv] using this
    have h := ih s1 (fun v hv => by
      simpa [hs1, relax] using hlt v (by simp [hv])) hcount'
    refine ⟨by rw [h.indegree_length]; simp [hs1, relax],
      by rw [h.depth_length]; simp [hs1, relax], ?_, ?_, ?_, by rw [h.seen_eq]; rfl⟩
    · intro v
      rw [h.indegree_eq, hin]
      by_cases hv : v = x
      · subst hv
        rw [if_pos rfl, count_cons_self]
        omega
      · rw [if_neg hv, count_cons_of_ne (Ne.symm hv)]
    · intro v hv
      have hv1 : v < s1.depth.length := by simpa [hs1, relax] using hv
      rw [h.depth_eq v hv1, hdep]
      by_cases hvx : v = x
      · subst hvx
        simp
      · simp [hvx]
    · obtain ⟨fresh, hqueue, hnodup, hfresh⟩ := h.queue_eq
      have hfresh' : ∀ v, v ∈ fresh ↔ v ∈ targets ∧ v ≠ x ∧ s.indegree.getD v 0 = targets.count v
          ∨ v ∈ targets ∧ v = x ∧ s.indegree.getD x 0 - 1 = targets.count x := by
        intro v
        rw [hfresh, hin]
        by_cases hv : v = x
        · subst hv; simp
        · simp [hv]
      by_cases hzero : s.indegree.getD x 0 - 1 = 0
      · -- the last edge into `x`: it enters the queue now and not again
        have hcx0 : targets.count x = 0 := by omega
        have hxt : x ∉ targets := count_eq_zero.mp hcx0
        refine ⟨x :: fresh, ?_, nodup_cons.mpr ⟨?_, hnodup⟩, ?_⟩
        · rw [hqueue]
          simp only [hs1, relax]
          rw [if_pos hzero]
          simp
        · rw [hfresh]
          exact fun h => hxt h.1
        · intro v
          rw [mem_cons, hfresh']
          by_cases hv : v = x
          · subst hv
            simp only [true_or, mem_cons, count_cons_self, true_and, true_iff]
            omega
          · simp [hv, count_cons_of_ne (Ne.symm hv)]
      · refine ⟨fresh, ?_, hnodup, ?_⟩
        · rw [hqueue]
          simp only [hs1, relax]
          rw [if_neg hzero]
        · intro v
          rw [hfresh']
          by_cases hv : v = x
          · subst hv
            simp only [ne_eq, not_true_eq_false, false_and, and_false, true_and, false_or,
              mem_cons, true_or, count_cons_self]
            constructor
            · rintro ⟨-, h⟩
              omega
            · intro h
              have : 0 < targets.count v := by omega
              exact ⟨count_pos_iff.mp this, by omega⟩
          · simp [hv, count_cons_of_ne (Ne.symm hv)]

/-! ### The sweep -/

/-- Edges into `v` from nodes outside `done`. -/
def remaining (done : List ℕ) (v : ℕ) : ℕ :=
  ((List.range successors.length).map fun u =>
    if u ∈ done then 0 else (successors.getD u []).count v).sum

theorem remaining_nil (v : ℕ) : remaining successors [] v = indegreeOf successors v := by
  unfold remaining indegreeOf
  congr 1
  apply ext_getElem
  · simp
  · intro i h1 h2
    simp only [length_map, length_range] at h1
    simp [h1]

end

theorem remaining_cons {successors : List (List ℕ)} {done : List ℕ} {u : ℕ}
    (hu : u < successors.length) (hnew : u ∉ done) (v : ℕ) :
    remaining successors done v
      = (successors.getD u []).count v + remaining successors (u :: done) v := by
  unfold remaining
  have hmem : u ∈ List.range successors.length := by simpa using hu
  have hnd : (List.range successors.length).Nodup := nodup_range
  generalize List.range successors.length = l at hmem hnd
  induction l with
  | nil => cases hmem
  | cons a l ih =>
    rw [nodup_cons] at hnd
    simp only [map_cons, sum_cons]
    by_cases ha : a = u
    · subst ha
      have htail : l.map (fun x => if x ∈ a :: done then 0 else (successors.getD x []).count v)
          = l.map (fun x => if x ∈ done then 0 else (successors.getD x []).count v) := by
        apply map_congr_left
        intro x hx
        have hxa : x ≠ a := by
          rintro rfl
          exact hnd.1 hx
        simp [hxa]
      rw [htail]
      simp [hnew]
    · have := ih ((mem_cons.mp hmem).resolve_left (Ne.symm ha)) hnd.2
      simp only [mem_cons, ha, false_or] at this ⊢
      omega

theorem remaining_eq_zero_iff {successors : List (List ℕ)} {done : List ℕ} {v : ℕ} :
    remaining successors done v = 0
      ↔ ∀ u < successors.length, v ∈ successors.getD u [] → u ∈ done := by
  unfold remaining
  rw [sum_eq_zero_iff]
  simp only [mem_map, mem_range, forall_exists_index, and_imp]
  constructor
  · intro h u hu hv
    by_contra hd
    have := h _ u hu rfl
    rw [if_neg hd] at this
    exact absurd (count_eq_zero.mp this) (not_not.mpr hv)
  · rintro h x u hu rfl
    split
    · rfl
    · next hd => exact count_eq_zero.mpr fun hv => hd (h u hu hv)

/-- What holds whenever the sweep looks at its queue, `done` being the nodes taken off it. -/
structure Inv (successors : List (List ℕ)) (done : List ℕ) (s : State) : Prop where
  indegree_length : s.indegree.length = successors.length
  depth_length : s.depth.length = successors.length
  done_nodup : done.Nodup
  done_lt : ∀ u ∈ done, u < successors.length
  seen_eq : s.seen = done.length
  indegree_eq : ∀ v < successors.length, s.indegree.getD v 0 = remaining successors done v
  queue_nodup : s.queue.Nodup
  queue_iff : ∀ v, v ∈ s.queue ↔ v < successors.length ∧ v ∉ done
    ∧ remaining successors done v = 0
  done_closed : ∀ v ∈ done, remaining successors done v = 0
  depth_lt : ∀ u ∈ done, ∀ v ∈ successors.getD u [], s.depth.getD u 0 < s.depth.getD v 0
  depth_pos : ∀ v < successors.length, 1 ≤ s.depth.getD v 0
  depth_le : ∀ rank : ℕ → ℕ, (∀ v < successors.length, 1 ≤ rank v) →
    (∀ u < successors.length, ∀ v ∈ successors.getD u [], rank u < rank v) →
    ∀ v < successors.length, s.depth.getD v 0 ≤ rank v

variable {successors : List (List ℕ)}

theorem getD_initial {f : ℕ → ℕ} {n v : ℕ} (hv : v < n) :
    ((List.range n).map f).getD v 0 = f v := by
  simp [getD_eq_getElem?_getD, hv]

theorem inv_initial : Inv successors [] (initial successors) where
  indegree_length := by simp [initial]
  depth_length := by simp [initial]
  done_nodup := nodup_nil
  done_lt := by simp
  seen_eq := rfl
  indegree_eq v hv := by
    rw [remaining_nil]
    exact getD_initial hv
  queue_nodup := nodup_range.filter _
  queue_iff v := by
    simp only [initial, mem_filter, mem_range, decide_eq_true_eq, remaining_nil,
      not_mem_nil, not_false_eq_true, true_and]
    exact and_congr_right fun hv => by rw [getD_initial hv]
  done_closed := by simp
  depth_lt := by simp
  depth_pos v hv := by simp [initial, getD_eq_getElem?_getD, hv]
  depth_le rank h1 _ v hv := by
    have := h1 v hv
    simpa [initial, getD_eq_getElem?_getD, hv] using this

section

variable (hlt : ∀ u, ∀ v ∈ successors.getD u [], v < successors.length)

include hlt

/-- One round of the sweep. -/
theorem Inv.step {done : List ℕ} {s : State} (h : Inv successors done s) {node : ℕ} {queue : List ℕ}
    (hq : s.queue = node :: queue) :
    Inv successors (node :: done)
      ((successors.getD node []).foldl (relax (s.depth.getD node 0))
        { s with queue := queue, seen := s.seen + 1 }) := by
  obtain ⟨hn, hnew, hzero⟩ := (h.queue_iff node).mp (by simp [hq])
  have hqnd : node ∉ queue ∧ queue.Nodup := nodup_cons.mp (hq ▸ h.queue_nodup)
  have hrem := remaining_cons hn hnew
  have hr := foldl_relax_spec (s.depth.getD node 0) (successors.getD node [])
    { s with queue := queue, seen := s.seen + 1 }
    (fun v hv => ⟨by simpa [h.indegree_length] using hlt node v hv,
      by simpa [h.depth_length] using hlt node v hv⟩)
    (fun v => by
      by_cases hv : v < successors.length
      · simp only [h.indegree_eq v hv, hrem v]
        omega
      · have : v ∉ successors.getD node [] := fun hin => hv (hlt node v hin)
        rw [count_eq_zero.mpr this]
        exact Nat.zero_le _)
  set s' := (successors.getD node []).foldl (relax (s.depth.getD node 0))
    { s with queue := queue, seen := s.seen + 1 } with hs'
  -- a node that is done has no edge from a node that is not
  have hback : ∀ u ∈ node :: done, u ∉ successors.getD node [] := by
    intro u hu hin
    have hz : remaining successors done u = 0 := by
      rcases mem_cons.mp hu with rfl | hu
      · exact hzero
      · exact h.done_closed u hu
    exact hnew (remaining_eq_zero_iff.mp hz node hn hin)
  have hdepth_done : ∀ u ∈ node :: done, s'.depth.getD u 0 = s.depth.getD u 0 := by
    intro u hu
    have hul : u < s.depth.length := by
      rw [h.depth_length]
      rcases mem_cons.mp hu with rfl | hu
      · exact hn
      · exact h.done_lt u hu
    rw [hr.depth_eq u hul, if_neg (hback u hu)]
  have hdepth_ge : ∀ v < successors.length, s.depth.getD v 0 ≤ s'.depth.getD v 0 := by
    intro v hv
    rw [hr.depth_eq v (by rw [h.depth_length]; exact hv)]
    dsimp only
    split
    · exact le_max_left _ _
    · exact le_refl _
  obtain ⟨fresh, hqueue, hfnd, hfresh⟩ := hr.queue_eq
  refine ⟨hr.indegree_length.trans h.indegree_length, hr.depth_length.trans h.depth_length,
    nodup_cons.mpr ⟨hnew, h.done_nodup⟩, ?_, ?_, ?_, ?_, ?_, ?_, ?_, ?_, ?_⟩
  · intro u hu
    rcases mem_cons.mp hu with rfl | hu
    · exact hn
    · exact h.done_lt u hu
  · rw [hr.seen_eq, length_cons, ← h.seen_eq]
  · intro v hv
    rw [hr.indegree_eq]
    dsimp only
    rw [h.indegree_eq v hv, hrem v]
    omega
  · rw [hqueue]
    refine nodup_append.mpr ⟨hqnd.2, hfnd, ?_⟩
    rintro v hv w hw rfl
    obtain ⟨hvl, -, hvz⟩ := (h.queue_iff v).mp (by simp [hq, hv])
    obtain ⟨hin, -⟩ := (hfresh v).mp hw
    exact hnew (remaining_eq_zero_iff.mp hvz node hn hin)
  · intro v
    rw [hqueue, mem_append, hfresh]
    dsimp only
    constructor
    · rintro (hv | ⟨hin, hz⟩)
      · obtain ⟨hvl, hvd, hvz⟩ := (h.queue_iff v).mp (by simp [hq, hv])
        refine ⟨hvl, ?_, ?_⟩
        · rintro hin
          rcases mem_cons.mp hin with rfl | hin
          · exact hqnd.1 hv
          · exact hvd hin
        · have := hrem v
          omega
      · have hvl := hlt node v hin
        refine ⟨hvl, fun hd => hback v hd hin, ?_⟩
        rw [h.indegree_eq v hvl, hrem v] at hz
        omega
    · rintro ⟨hvl, hvd, hvz⟩
      have hvd' : v ∉ done := fun hd => hvd (by simp [hd])
      by_cases hin : v ∈ successors.getD node []
      · right
        refine ⟨hin, ?_⟩
        rw [h.indegree_eq v hvl, hrem v]
        omega
      · left
        have hz : remaining successors done v = 0 := by
          rw [hrem v, hvz, count_eq_zero.mpr hin]
        have := (h.queue_iff v).mpr ⟨hvl, hvd', hz⟩
        rw [hq] at this
        exact (mem_cons.mp this).resolve_left fun he => hvd (by simp [he])
  · intro v hv
    have hz : remaining successors done v = 0 := by
      rcases mem_cons.mp hv with rfl | hv
      · exact hzero
      · exact h.done_closed v hv
    have := hrem v
    omega
  · intro u hu v hv
    rw [hdepth_done u hu]
    have hvl := hlt u v hv
    rcases mem_cons.mp hu with rfl | hu
    · rw [hr.depth_eq v (by rw [h.depth_length]; exact hvl), if_pos hv]
      dsimp only
      omega
    · exact (h.depth_lt u hu v hv).trans_le (hdepth_ge v hvl)
  · intro v hv
    exact (h.depth_pos v hv).trans (hdepth_ge v hv)
  · intro rank h1 h2 v hv
    rw [hr.depth_eq v (by rw [h.depth_length]; exact hv)]
    dsimp only
    have hv' := h.depth_le rank h1 h2 v hv
    split
    · next hin =>
      have hn' := h.depth_le rank h1 h2 node hn
      have := h2 node hn v hin
      omega
    · exact hv'

theorem sweep_spec (fuel : ℕ) :
    ∀ {done : List ℕ} {s : State}, Inv successors done s →
      successors.length < done.length + fuel →
      ∃ done', Inv successors done' (sweep successors fuel s)
        ∧ (sweep successors fuel s).queue = [] := by
  have hle : ∀ {done : List ℕ} {s : State}, Inv successors done s →
      done.length ≤ successors.length := by
    intro done s h
    have hsub : done.toFinset ⊆ Finset.range successors.length := by
      intro u hu
      simpa using h.done_lt u (by simpa using hu)
    have := Finset.card_le_card hsub
    rwa [toFinset_card_of_nodup h.done_nodup, Finset.card_range] at this
  induction fuel with
  | zero =>
    intro done s h hfuel
    have := hle h
    omega
  | succ fuel ih =>
    intro done s h hfuel
    rw [sweep]
    split
    · next hq => exact ⟨done, h, hq⟩
    · next node queue hq =>
      exact ih (h.step hlt hq) (by simp only [length_cons]; omega)

theorem run_spec : ∃ done, Inv successors done (run successors) ∧ (run successors).queue = [] :=
  sweep_spec hlt _ inv_initial (by simp)

/-- When every node was removed, depths increase along edges. -/
theorem run_depth_lt (hseen : (run successors).seen = successors.length) {u v : ℕ}
    (hu : u < successors.length) (hv : v ∈ successors.getD u []) :
    (run successors).depth.getD u 0 < (run successors).depth.getD v 0 := by
  obtain ⟨done, h, -⟩ := run_spec hlt
  refine h.depth_lt u ?_ v hv
  have hsub : done.toFinset ⊆ Finset.range successors.length := by
    intro x hx
    simpa using h.done_lt x (by simpa using hx)
  have hcard : (Finset.range successors.length).card ≤ done.toFinset.card := by
    rw [toFinset_card_of_nodup h.done_nodup, Finset.card_range, ← h.seen_eq, hseen]
  have := Finset.eq_of_subset_of_card_le hsub hcard
  have hur : u ∈ Finset.range successors.length := by simpa using hu
  rw [← this] at hur
  simpa using hur

theorem run_depth_pos {v : ℕ}
    (hv : v < successors.length) : 1 ≤ (run successors).depth.getD v 0 := by
  obtain ⟨done, h, -⟩ := run_spec hlt
  exact h.depth_pos v hv

theorem length_run_depth : (run successors).depth.length = successors.length := by
  obtain ⟨done, h, -⟩ := run_spec hlt
  exact h.depth_length

/-- A graph with a ranking that increases along edges is removed whole. -/
theorem run_seen_of_rank
    {rank : ℕ → ℕ} (hrank : ∀ u < successors.length, ∀ v ∈ successors.getD u [], rank u < rank v) :
    (run successors).seen = successors.length := by
  obtain ⟨done, h, hq⟩ := run_spec hlt
  -- a node of least rank that was not removed would still be in the queue
  have hall : ∀ v < successors.length, v ∈ done := by
    intro v hv
    induction hn : rank v using Nat.strong_induction_on generalizing v with
    | _ n ih =>
      by_contra hd
      have hz : remaining successors done v = 0 :=
        remaining_eq_zero_iff.mpr fun u hu hin => ih _ (hn ▸ hrank u hu v hin) u hu rfl
      have := (h.queue_iff v).mpr ⟨hv, hd, hz⟩
      rw [hq] at this
      exact absurd this not_mem_nil
  rw [h.seen_eq]
  have hperm : done.Perm (List.range successors.length) :=
    (perm_ext_iff_of_nodup h.done_nodup nodup_range).mpr fun v => by
      simp only [mem_range]
      exact ⟨h.done_lt v, hall v⟩
  simpa using hperm.length_eq

end

end Zryna.Kahn
