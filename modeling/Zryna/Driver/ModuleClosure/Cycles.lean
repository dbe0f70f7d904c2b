import Zryna.Driver.ModuleClosure.Closure

/-!
# Cycles

The edges that were recorded, linked into a graph over the modules: repeated targets count once, and
the degrees count the importers. The sweep over this graph refuses it exactly when a module imports
itself, however indirectly.
-/

namespace Zryna.Driver.ModuleClosure

open OrderedMap List

open Checked (bind_eq_ok ite_error_eq_ok)
open Elimination (Edge)

variable {WorkerError : Type} {discovered : OrderedMap NormalizedSourcePath DiscoveredSource}
  {edges : List ResolvedEdge} {graph : ModuleGraph} {edge : ResolvedEdge}

/-- Some edge leads from a module to a target. -/
def Leads (edges : List ResolvedEdge) (importer target : NormalizedSourcePath) : Prop :=
  ∃ edge ∈ edges, edge.identity.importer = importer ∧ edge.target = target

/-- A graph has the modules as nodes, and the edges that were linked. -/
structure Linked (discovered : OrderedMap NormalizedSourcePath DiscoveredSource)
    (edges : List ResolvedEdge) (graph : ModuleGraph) : Prop where
  outgoing : graph.outgoing.keys = discovered.keys
  indegree : graph.indegree.keys = discovered.keys
  edge : ∀ importer target, Edge graph.outgoing importer target ↔ Leads edges importer target
  degree : ∀ path ∈ discovered.keys,
    graph.indegree.get? path = some (Elimination.degree graph.outgoing [] path)

theorem linked_unlinked (discovered : OrderedMap NormalizedSourcePath DiscoveredSource) :
    Linked discovered [] (unlinked discovered) := by
  have hkeys : (unlinked discovered).outgoing.keys = discovered.keys := map_map
  have hedge (importer target : NormalizedSourcePath) :
      ¬Edge (unlinked discovered).outgoing importer target := by
    unfold Edge Elimination.targetsOf
    cases hget : (unlinked discovered).outgoing.get? importer with
    | none => exact not_mem_nil
    | some targets =>
      obtain ⟨entry, -, heq⟩ := mem_map.mp (get?_eq_some.mp hget)
      cases heq
      exact not_mem_nil
  refine ⟨hkeys, map_map, fun importer target => ?_, fun path hmem => ?_⟩
  · exact iff_of_false (hedge importer target) fun ⟨_, hmem, _⟩ => not_mem_nil hmem
  · have hzero : Elimination.degree (unlinked discovered).outgoing [] path = 0 :=
      Elimination.degree_eq_zero.mpr fun source hsource => absurd hsource (hedge source path)
    obtain ⟨entry, hentry, rfl⟩ := mem_map.mp hmem
    rw [hzero, get?_eq_some]
    exact mem_map.mpr ⟨entry, hentry, rfl⟩

theorem leads_append {importer target : NormalizedSourcePath} :
    Leads (edges ++ [edge]) importer target ↔
      Leads edges importer target ∨ importer = edge.identity.importer ∧ target = edge.target := by
  unfold Leads
  simp only [mem_append, mem_singleton, or_and_right, exists_or, exists_eq_left]
  exact or_congr_right (and_congr eq_comm eq_comm)

/-- One edge between modules is linked. -/
theorem Linked.link (WorkerError : Type) (h : Linked discovered edges graph)
    (himporter : edge.identity.importer ∈ discovered.keys) (htarget : edge.target ∈ discovered.keys) :
    ∃ graph', (linkEdge graph edge : Except (ModuleClosureError WorkerError) _) = .ok graph'
      ∧ Linked discovered (edges ++ [edge]) graph' := by
  have hnode : edge.identity.importer ∈ graph.outgoing.keys := h.outgoing ▸ himporter
  obtain ⟨targets, hget⟩ := Option.isSome_iff_exists.mp (mem_keys.mp hnode)
  have hold : Edge graph.outgoing edge.identity.importer edge.target ↔
      (targets.get? edge.target).isSome := by
    rw [Edge, Elimination.targetsOf, hget]
    exact mem_keys
  unfold linkEdge
  rw [hget]
  dsimp only
  split
  · next hknown =>
    refine ⟨graph, rfl, h.outgoing, h.indegree, fun importer target => ?_, h.degree⟩
    rw [h.edge, leads_append]
    refine ⟨.inl, ?_⟩
    rintro (hleads | ⟨rfl, rfl⟩)
    · exact hleads
    · exact (h.edge _ _).mp (hold.mpr hknown)
  · next hunknown =>
    rw [h.degree edge.target htarget]
    set outgoing := graph.outgoing.insert edge.identity.importer (targets.insert edge.target ())
      with houtgoing
    have hkeys : outgoing.keys = graph.outgoing.keys := keys_insert hnode
    have hedge (a b : NormalizedSourcePath) : Edge outgoing a b ↔
        Edge graph.outgoing a b ∨ a = edge.identity.importer ∧ b = edge.target := by
      unfold Edge Elimination.targetsOf
      rw [houtgoing, get?_insert]
      by_cases heq : a = edge.identity.importer
      · rw [if_pos heq, heq, hget]
        show b ∈ (targets.insert edge.target ()).keys ↔ b ∈ targets.keys ∨ _
        rw [mem_keys_insert, or_comm, and_iff_right rfl]
      · rw [if_neg heq]
        exact (or_iff_left fun hnew => heq hnew.1).symm
    refine ⟨_, rfl, hkeys.trans h.outgoing, ?_, fun importer target => ?_, fun path hmem => ?_⟩
    · exact (keys_insert (h.indegree ▸ htarget)).trans h.indegree
    · rw [hedge, h.edge, leads_append]
    · have hdegree := Elimination.degree_link hkeys hnode (fun hedge => hunknown (hold.mp hedge))
        hedge path
      rw [get?_insert, hdegree]
      by_cases heq : path = edge.target
      · rw [if_pos heq, if_pos heq, heq]
      · rw [if_neg heq, if_neg heq, Nat.add_zero]
        exact h.degree path hmem

theorem Linked.linkAll (WorkerError : Type) {edges' : List ResolvedEdge}
    (h : Linked discovered edges graph)
    (hmem : ∀ edge ∈ edges', edge.identity.importer ∈ discovered.keys
      ∧ edge.target ∈ discovered.keys) :
    ∃ graph', edges'.foldlM linkEdge graph
        = (.ok graph' : Except (ModuleClosureError WorkerError) _)
      ∧ Linked discovered (edges ++ edges') graph' := by
  induction edges' generalizing graph edges with
  | nil => exact ⟨graph, rfl, by rwa [append_nil]⟩
  | cons edge edges' ih =>
    obtain ⟨⟨himporter, htarget⟩, hmem⟩ := forall_mem_cons.mp hmem
    obtain ⟨next, hnext, hlinked⟩ := h.link WorkerError himporter htarget
    obtain ⟨graph', hrun, hlinked⟩ := ih hlinked hmem
    refine ⟨graph', ?_, by rwa [append_assoc] at hlinked⟩
    rw [foldlM_cons, hnext]
    exact hrun

/-- A graph over the modules passes exactly when no module leads to itself. -/
theorem rejectCycles_eq_ok (hmem : ∀ edge ∈ edges, edge.identity.importer ∈ discovered.keys
      ∧ edge.target ∈ discovered.keys) :
    (rejectCycles discovered edges : Except (ModuleClosureError WorkerError) _) = .ok () ↔
      ∀ path, ¬Relation.TransGen (Leads edges) path path := by
  obtain ⟨graph, hgraph, hlinked⟩ := (linked_unlinked discovered).linkAll WorkerError hmem
  rw [nil_append] at hlinked
  have hedge : Edge graph.outgoing = Leads edges := by
    funext importer target
    exact propext (hlinked.edge importer target)
  have hclosed (importer target : NormalizedSourcePath)
      (hleads : Edge graph.outgoing importer target) : target ∈ graph.outgoing.keys := by
    obtain ⟨edge, hedge, -, rfl⟩ := (hlinked.edge importer target).mp hleads
    exact hlinked.outgoing ▸ (hmem edge hedge).2
  obtain ⟨processed, s, hdrain, hall⟩ := Elimination.drain_spec
    (invariantRejection : ModuleClosureError WorkerError) hclosed
    (hlinked.indegree.trans hlinked.outgoing.symm)
    fun path hpath => hlinked.degree path (hlinked.outgoing ▸ hpath)
  have hsize : graph.outgoing.size = discovered.size := by
    rw [← length_keys, hlinked.outgoing, length_keys]
  rw [← hedge, ← hall, hsize]
  unfold rejectCycles
  rw [hgraph]
  show (Elimination.drain invariantRejection graph.outgoing graph.outgoing.size _ 0 >>= _) = _ ↔ _
  rw [hdrain]
  show (if processed ≠ discovered.size then _ else _) = _ ↔ _
  rw [ite_error_eq_ok, not_not]
  exact and_iff_left rfl

end Zryna.Driver.ModuleClosure
