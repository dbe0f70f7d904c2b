import Mathlib.Data.Fintype.EquivFin
import Mathlib.Order.WellFounded
import Zryna.Foundation.Checked
import Zryna.Foundation.OrderedMap

/-!
# Elimination of the nodes of a graph

A topological sweep over nodes of any ordered type: the least node without an incoming edge is
taken, its edges are removed, and so on. Nodes are the keys of a map to sets of targets; degrees
are the values of a second map.

`drain_spec`: with degrees that count the edges into every node, the sweep finds no fault, and it
takes as many nodes as there are exactly when the graph has no cycle. A node that has been taken is
accessible along the edges, which is what a cycle contradicts.
-/

namespace Zryna.Elimination

open List

variable {κ ε : Type} [LinearOrder κ]

/-- The degrees of the nodes, and the nodes that may be taken. -/
structure State (κ : Type) [LinearOrder κ] where
  indegree : OrderedMap κ ℕ
  ready : OrderedMap κ Unit

/-- Removes one edge into a target. -/
def relax (fault : ε) (s : State κ) (target : κ) : Except ε (State κ) :=
  match s.indegree.get? target with
  | none => .error fault
  | some 0 => .error fault
  | some (degree + 1) => .ok {
    indegree := s.indegree.insert target degree
    ready := if degree = 0 then s.ready.insert target () else s.ready }

def targetsOf (outgoing : OrderedMap κ (OrderedMap κ Unit)) (node : κ) : List κ :=
  ((outgoing.get? node).map OrderedMap.keys).getD []

/-- Takes nodes while there are any, and counts them. -/
def drain (fault : ε) (outgoing : OrderedMap κ (OrderedMap κ Unit)) :
    ℕ → State κ → ℕ → Except ε (ℕ × State κ)
  | 0, s, processed => .ok (processed, s)
  | fuel + 1, s, processed =>
    match s.ready.keys with
    | [] => .ok (processed, s)
    | node :: _ => do
      let s ← (targetsOf outgoing node).foldlM (relax fault)
        { s with ready := s.ready.erase node }
      drain fault outgoing fuel s (processed + 1)

/-- The nodes of degree zero. -/
def initialReady (indegree : OrderedMap κ ℕ) : OrderedMap κ Unit :=
  ⟨(indegree.entries.filter fun entry => entry.2 = 0).map fun entry => (entry.1, ()), by
    rw [pairwise_map]
    exact indegree.sorted.filter _⟩

/-! ### One node -/

variable {outgoing : OrderedMap κ (OrderedMap κ Unit)} {s : State κ}

/-- The edges of a node are removed one by one. -/
theorem relax_all (fault : ε) {targets : List κ} (hnodup : targets.Nodup)
    (hpos : ∀ target ∈ targets, ∃ degree, s.indegree.get? target = some (degree + 1)) :
    ∃ s', targets.foldlM (relax fault) s = .ok s'
      ∧ (∀ node, s'.indegree.get? node = if node ∈ targets then
        (s.indegree.get? node).map Nat.pred else s.indegree.get? node)
      ∧ ∀ node, node ∈ s'.ready.keys ↔
        node ∈ s.ready.keys ∨ node ∈ targets ∧ s.indegree.get? node = some 1 := by
  induction targets generalizing s with
  | nil => exact ⟨s, rfl, by simp, by simp⟩
  | cons target targets ih =>
    obtain ⟨hnew, hnodup⟩ := nodup_cons.mp hnodup
    obtain ⟨degree, hdegree⟩ := hpos target mem_cons_self
    set next : State κ := {
      indegree := s.indegree.insert target degree
      ready := if degree = 0 then s.ready.insert target () else s.ready } with hnext
    have hrelax : relax fault s target = .ok next := by
      rw [relax, hdegree]
    have hother {node : κ} (hne : node ≠ target) :
        next.indegree.get? node = s.indegree.get? node := by
      rw [hnext, OrderedMap.get?_insert, if_neg hne]
    have hne {node : κ} (hmem : node ∈ targets) : node ≠ target := fun heq => hnew (heq ▸ hmem)
    obtain ⟨s', hrun, hindegree, hready⟩ := ih hnodup (s := next) fun node hmem => by
      rw [hother (hne hmem)]
      exact hpos node (mem_cons_of_mem _ hmem)
    refine ⟨s', ?_, fun node => ?_, fun node => ?_⟩
    · rw [foldlM_cons, hrelax]
      exact hrun
    · rw [hindegree]
      by_cases heq : node = target
      · subst heq
        rw [if_neg hnew, if_pos mem_cons_self, hdegree, hnext, OrderedMap.get?_insert, if_pos rfl]
        rfl
      · simp only [mem_cons, heq, false_or, hother heq]
    · rw [hready, mem_cons]
      by_cases heq : node = target
      · subst heq
        simp only [hnew, false_and, or_false, true_and, hdegree, hnext]
        split
        · next hzero => simp [hzero, OrderedMap.mem_keys_insert]
        · next hzero => simp [hzero]
      · have hkeys : node ∈ next.ready.keys ↔ node ∈ s.ready.keys := by
          rw [hnext]
          dsimp only
          split
          · rw [OrderedMap.mem_keys_insert, or_iff_right heq]
          · rfl
        rw [hkeys, hother heq, or_iff_right heq]

/-! ### The graph -/

def Edge (outgoing : OrderedMap κ (OrderedMap κ Unit)) (node target : κ) : Prop :=
  target ∈ targetsOf outgoing node

instance (node target : κ) : Decidable (Edge outgoing node target) :=
  inferInstanceAs (Decidable (target ∈ targetsOf outgoing node))

/-- The number of edges into a node, out of nodes that are not taken. -/
def degree (outgoing : OrderedMap κ (OrderedMap κ Unit)) (taken : List κ) (node : κ) : ℕ :=
  outgoing.keys.countP fun source => source ∉ taken ∧ Edge outgoing source node

variable {target : κ} {taken : List κ}

theorem Edge.mem_keys {node : κ} (h : Edge outgoing node target) : node ∈ outgoing.keys := by
  rw [OrderedMap.mem_keys]
  unfold Edge targetsOf at h
  cases hget : outgoing.get? node with
  | none =>
    rw [hget] at h
    exact absurd h not_mem_nil
  | some targets => rfl

theorem degree_eq_zero {node : κ} :
    degree outgoing taken node = 0 ↔ ∀ source, Edge outgoing source node → source ∈ taken := by
  rw [degree, countP_eq_zero]
  constructor
  · intro h source hedge
    by_contra hnot
    exact h source hedge.mem_keys (decide_eq_true ⟨hnot, hedge⟩)
  · intro h source _ hsource
    obtain ⟨hnot, hedge⟩ := of_decide_eq_true hsource
    exact hnot (h source hedge)

/-- Taking a node lowers the degrees of its targets by one. -/
theorem degree_cons {node : κ} (hnode : node ∈ outgoing.keys)
    (hnew : node ∉ taken) : degree outgoing taken target
      = degree outgoing (node :: taken) target + if Edge outgoing node target then 1 else 0 := by
  have hperm : outgoing.keys.Perm (node :: outgoing.keys.erase node) := perm_cons_erase hnode
  have hother : (outgoing.keys.erase node).countP (fun source =>
      source ∉ taken ∧ Edge outgoing source target)
      = (outgoing.keys.erase node).countP fun source =>
        source ∉ node :: taken ∧ Edge outgoing source target := by
    refine countP_congr fun source hmem => ?_
    have hne : source ≠ node := ((outgoing.nodup_keys.mem_erase_iff).mp hmem).1
    simp [hne]
  rw [degree, degree, hperm.countP_eq, hperm.countP_eq, countP_cons, countP_cons, hother]
  simp [hnew]

/-- A new edge raises the degree of its target by one. -/
theorem degree_link {outgoing' : OrderedMap κ (OrderedMap κ Unit)} {node : κ}
    (hkeys : outgoing'.keys = outgoing.keys) (hnode : node ∈ outgoing.keys)
    (hnew : ¬Edge outgoing node target)
    (hedge : ∀ a b, Edge outgoing' a b ↔ Edge outgoing a b ∨ a = node ∧ b = target) (other : κ) :
    degree outgoing' [] other = degree outgoing [] other + if other = target then 1 else 0 := by
  have hperm : outgoing.keys.Perm (node :: outgoing.keys.erase node) := perm_cons_erase hnode
  have hsame : (outgoing.keys.erase node).countP (fun source =>
      source ∉ [] ∧ Edge outgoing' source other)
      = (outgoing.keys.erase node).countP fun source => source ∉ [] ∧ Edge outgoing source other := by
    refine countP_congr fun source hmem => ?_
    have hne : source ≠ node := ((outgoing.nodup_keys.mem_erase_iff).mp hmem).1
    simp [hedge, hne]
  rw [degree, degree, hkeys, hperm.countP_eq, hperm.countP_eq, countP_cons, countP_cons,
    hsame, Nat.add_assoc]
  by_cases heq : other = target
  · subst heq
    simp [hedge, hnew]
  · simp [hedge, heq]

/-! ### Rounds -/

/-- What holds between rounds: degrees count the edges out of nodes that are not taken, the nodes
that may be taken are those of degree zero, and all that are taken are accessible. -/
structure Inv (outgoing : OrderedMap κ (OrderedMap κ Unit)) (s : State κ) (taken : List κ) :
    Prop where
  nodup : taken.Nodup
  subset : taken ⊆ outgoing.keys
  indegree : ∀ node ∈ outgoing.keys, s.indegree.get? node = some (degree outgoing taken node)
  ready : ∀ node, node ∈ s.ready.keys ↔
    node ∈ outgoing.keys ∧ node ∉ taken ∧ degree outgoing taken node = 0
  closed : ∀ node ∈ taken, ∀ source, Edge outgoing source node → source ∈ taken
  acc : ∀ node ∈ taken, Acc (Edge outgoing) node

theorem Inv.round (fault : ε)
    (hclosed : ∀ node target, Edge outgoing node target → target ∈ outgoing.keys)
    (h : Inv outgoing s taken) {node : κ} (hready : node ∈ s.ready.keys) :
    ∃ s', (targetsOf outgoing node).foldlM (relax fault) { s with ready := s.ready.erase node }
        = .ok s' ∧ Inv outgoing s' (node :: taken) := by
  obtain ⟨hnode, hnew, hzero⟩ := (h.ready node).mp hready
  have hnodup : (targetsOf outgoing node).Nodup := by
    unfold targetsOf
    cases outgoing.get? node with
    | none => exact .nil
    | some targets => exact targets.nodup_keys
  have hloop : ¬Edge outgoing node node := fun hedge => hnew (degree_eq_zero.mp hzero node hedge)
  have htarget {target : κ} (hedge : Edge outgoing node target) :
      s.indegree.get? target = some (degree outgoing (node :: taken) target + 1) := by
    rw [h.indegree target (hclosed node target hedge), degree_cons hnode hnew, if_pos hedge]
  have hother {target : κ} (hedge : ¬Edge outgoing node target) :
      degree outgoing taken target = degree outgoing (node :: taken) target := by
    rw [degree_cons hnode hnew, if_neg hedge, Nat.add_zero]
  obtain ⟨s', hrun, hindegree, hready'⟩ := relax_all fault
    (s := { s with ready := s.ready.erase node }) hnodup fun target hedge => ⟨_, htarget hedge⟩
  refine ⟨s', hrun, nodup_cons.mpr ⟨hnew, h.nodup⟩, cons_subset.mpr ⟨hnode, h.subset⟩,
    fun target hmem => ?_, fun target => ?_, fun taken' hmem source hedge => ?_,
    fun taken' hmem => ?_⟩
  · rw [hindegree]
    by_cases hedge : target ∈ targetsOf outgoing node
    · rw [if_pos hedge, htarget hedge]
      rfl
    · rw [if_neg hedge, h.indegree target hmem, hother hedge]
  · have herased : target ∈ (s.ready.erase node).keys ↔ target ≠ node ∧ target ∈ s.ready.keys := by
      rw [OrderedMap.mem_keys, OrderedMap.mem_keys, OrderedMap.get?_erase]
      by_cases heq : target = node <;> simp [heq]
    rw [hready', herased, h.ready, mem_cons, not_or]
    by_cases hedge : target ∈ targetsOf outgoing node
    · have hne : target ≠ node := fun heq => hloop (heq ▸ hedge)
      have hpos : degree outgoing taken target ≠ 0 := by
        rw [degree_cons hnode hnew, if_pos (show Edge outgoing node target from hedge)]
        exact Nat.succ_ne_zero _
      have hmem : target ∈ outgoing.keys := hclosed node target hedge
      have htaken : target ∉ taken := fun htaken => hnew (h.closed target htaken node hedge)
      simp [hpos, hedge, htarget hedge, hmem, hne, htaken]
    · rw [← hother hedge]
      simp only [hedge, false_and, or_false]
      tauto
  · obtain rfl | hmem := mem_cons.mp hmem
    · exact mem_cons_of_mem _ (degree_eq_zero.mp hzero source hedge)
    · exact mem_cons_of_mem _ (h.closed taken' hmem source hedge)
  · obtain rfl | hmem := mem_cons.mp hmem
    · exact .intro _ fun source hedge => h.acc source (degree_eq_zero.mp hzero source hedge)
    · exact h.acc taken' hmem

/-- The sweep finds no fault, and when its fuel covers the nodes that are left it takes every node
that it can. -/
theorem Inv.drain (fault : ε)
    (hclosed : ∀ node target, Edge outgoing node target → target ∈ outgoing.keys)
    (h : Inv outgoing s taken) {fuel : ℕ} (hfuel : outgoing.size ≤ fuel + taken.length) :
    ∃ s' taken', drain fault outgoing fuel s taken.length = .ok (taken'.length, s')
      ∧ Inv outgoing s' taken' ∧ s'.ready.keys = [] := by
  induction fuel generalizing s taken with
  | zero =>
    refine ⟨s, taken, rfl, h, ?_⟩
    have hperm : taken.Perm outgoing.keys := (h.nodup.subperm h.subset).perm_of_length_le (by
      rw [OrderedMap.length_keys]
      omega)
    refine eq_nil_iff_forall_not_mem.mpr fun node hnode => ?_
    obtain ⟨hmem, hnew, -⟩ := (h.ready node).mp hnode
    exact hnew (hperm.mem_iff.mpr hmem)
  | succ fuel ih =>
    unfold Elimination.drain
    cases hready : s.ready.keys with
    | nil => exact ⟨s, taken, rfl, h, hready⟩
    | cons node rest =>
      obtain ⟨next, hround, hnext⟩ := h.round fault hclosed
        (hready ▸ mem_cons_self : node ∈ s.ready.keys)
      obtain ⟨s', taken', hrun, hinv, hdone⟩ := ih hnext (by
        rw [length_cons]
        omega)
      refine ⟨s', taken', ?_, hinv, hdone⟩
      dsimp only
      rw [hround]
      exact hrun

/-! ### Cycles -/

theorem Inv.acyclic (hclosed : ∀ node target, Edge outgoing node target → target ∈ outgoing.keys)
    (h : Inv outgoing s taken) (hready : s.ready.keys = []) :
    taken.length = outgoing.size ↔ ∀ node, ¬Relation.TransGen (Edge outgoing) node node := by
  constructor
  · intro hlength node hcycle
    have hperm : taken.Perm outgoing.keys := (h.nodup.subperm h.subset).perm_of_length_le (by
      rw [OrderedMap.length_keys, hlength])
    have hnode : node ∈ outgoing.keys := by
      obtain ⟨source, -, hedge⟩ := Relation.TransGen.tail'_iff.mp hcycle
      exact hclosed source node hedge
    have hacc : Acc (Relation.TransGen (Edge outgoing)) node :=
      (h.acc node (hperm.mem_iff.mpr hnode)).transGen
    clear hnode
    induction hacc with
    | intro node _ ih => exact ih node hcycle hcycle
  · intro hacyclic
    let before (a b : { node // node ∈ outgoing.keys }) : Prop :=
      Relation.TransGen (Edge outgoing) a b
    have : IsTrans _ before := ⟨fun _ _ _ => Relation.TransGen.trans⟩
    have : Std.Irrefl before := ⟨fun node => hacyclic node⟩
    have hwf : WellFounded before := Finite.wellFounded_of_trans_of_irrefl before
    have hall : outgoing.keys ⊆ taken := by
      intro node hnode
      by_contra hnew
      -- a least node among those that are left has no edge into it
      obtain ⟨⟨least, hmem⟩, hleft, hleast⟩ :=
        hwf.has_min { node | node.1 ∉ taken } ⟨⟨node, hnode⟩, hnew⟩
      refine not_mem_nil (hready ▸ (h.ready least).mpr ⟨hmem, hleft, ?_⟩)
      refine degree_eq_zero.mpr fun source hedge => ?_
      by_contra hsource
      exact hleast ⟨source, hedge.mem_keys⟩ hsource (.single hedge)
    have hperm : outgoing.keys.Perm taken :=
      (outgoing.nodup_keys.subperm hall).antisymm (h.nodup.subperm h.subset)
    rw [← hperm.length_eq, OrderedMap.length_keys]

/-- The sweep finds no fault, and it takes as many nodes as there are exactly when the graph has no
cycle. -/
theorem drain_spec (fault : ε) {indegree : OrderedMap κ ℕ}
    (hclosed : ∀ node target, Edge outgoing node target → target ∈ outgoing.keys)
    (hkeys : indegree.keys = outgoing.keys)
    (hindegree : ∀ node ∈ outgoing.keys, indegree.get? node = some (degree outgoing [] node)) :
    ∃ processed s, drain fault outgoing outgoing.size ⟨indegree, initialReady indegree⟩ 0
        = .ok (processed, s)
      ∧ (processed = outgoing.size ↔ ∀ node, ¬Relation.TransGen (Edge outgoing) node node) := by
  have hready (node : κ) : node ∈ (initialReady indegree).keys ↔
      node ∈ outgoing.keys ∧ degree outgoing [] node = 0 := by
    rw [OrderedMap.keys, initialReady, map_map, mem_map, ← hkeys]
    constructor
    · rintro ⟨⟨node, count⟩, hmem, rfl⟩
      obtain ⟨hmem, hzero⟩ := mem_filter.mp hmem
      have hnode : node ∈ indegree.keys := mem_map_of_mem hmem
      have hget := hindegree node (hkeys ▸ hnode)
      rw [OrderedMap.get?_eq_some.mpr hmem] at hget
      exact ⟨hnode, (Option.some.inj hget).symm.trans (of_decide_eq_true hzero)⟩
    · rintro ⟨hnode, hzero⟩
      have hget := OrderedMap.get?_eq_some.mp (hindegree node (hkeys ▸ hnode))
      exact ⟨_, mem_filter.mpr ⟨hget, decide_eq_true hzero⟩, rfl⟩
  have hinv : Inv outgoing ⟨indegree, initialReady indegree⟩ [] :=
    ⟨.nil, nil_subset _, hindegree, fun node => by simp [hready], by simp, by simp⟩
  obtain ⟨s, taken, hrun, hinv, hdone⟩ := hinv.drain fault hclosed
    (Nat.le_of_eq (Nat.add_zero outgoing.size).symm)
  exact ⟨taken.length, s, hrun, hinv.acyclic hclosed hdone⟩

end Zryna.Elimination
