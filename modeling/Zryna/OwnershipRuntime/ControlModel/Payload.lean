import Zryna.Foundation.Arena
import Zryna.OwnershipRuntime.ControlModel.Steps

/-!
# Payload cleanup

An initialized payload is an arena of nodes, every node after its parts. `Model.payload` walks the
arena once and accepts it when it is one tree: the parts of a node come before it, no node is a
part twice, and every node but the last is a part (`PayloadChecked`).

`destruction` takes such a tree apart recursively, the last field or element first and the storage
of a vector after its elements. `payloadDrops` computes the same list with an explicit stack
(`payloadDropsLoop_node`), and it contains everything that a node of the arena owns exactly once
(`payloadDrops_exact`).
-/

namespace Zryna.OwnershipRuntime.ControlModel

open Zryna.Layout Checked List

/-! ### Destruction order -/

/-- Fields in declaration order, ascending elements, or the active payload. -/
def PayloadKind.parts : PayloadKind → List ℕ
  | .children nodes => nodes
  | .variant _ node => node.toList
  | .copy | .string | .handle _ => []

def PayloadKind.isHandle : PayloadKind → Bool
  | .handle _ => true
  | _ => false

def payloadParts (nodes : List PayloadNode) (index : ℕ) : List ℕ :=
  (nodes[index]?).elim [] fun node => node.kind.parts

section Drops

variable (layouts : VerifiedLayouts) (nodes : List PayloadNode) (index : ℕ)

/-- What a node owns itself: a String, the storage of a vector, or a handle. -/
def payloadOwned : List Drop :=
  match nodes[index]? with
  | none => []
  | some node =>
    match node.kind with
    | .string => [.node index]
    | .handle owner => [.handle owner]
    | .children _ =>
      if (typeById layouts node.ty).map VerifiedType.category = some .vec then [.node index] else []
    | .copy | .variant .. => []

/-- Reverse recursive destruction of the node. -/
def destruction : List Drop :=
  Arena.unwind (payloadParts nodes) (payloadOwned layouts nodes) index

end Drops

/-! ### The check of a payload -/

variable {layouts : VerifiedLayouts} {model : Model} {nodes : List PayloadNode}
  {index : ℕ} {uses uses' : List ℕ}

theorem payloadEdge_ok {child : ℕ} {expected : TypeId}
    (h : payloadEdge nodes index child expected uses = .ok uses') :
    child < index ∧ child < nodes.length ∧ uses.getD child 0 = 0 ∧ uses' = uses.set child 1 := by
  unfold payloadEdge at h
  split at h
  · cases h
  next hnot =>
  simp only [Bool.or_eq_true, decide_eq_true_eq, not_or, not_le, ne_eq, not_not] at hnot
  obtain ⟨⟨hlt, hty⟩, hunused⟩ := hnot
  obtain ⟨node, hnode, -⟩ := Option.map_eq_some_iff.mp hty
  exact ⟨hlt, (List.getElem?_eq_some_iff.mp hnode).1, hunused, (Except.ok.inj h).symm⟩

/-- The parts are taken by this node: each lies before it and was free. -/
structure Taken (index : ℕ) (parts uses uses' : List ℕ) : Prop where
  lt : ∀ part ∈ parts, part < index
  nodup : parts.Nodup
  free : ∀ part ∈ parts, uses.getD part 0 = 0
  length_eq : uses'.length = uses.length
  used_iff : ∀ x, uses'.getD x 0 ≠ 0 ↔ uses.getD x 0 ≠ 0 ∨ x ∈ parts

theorem taken_nil (index : ℕ) (uses : List ℕ) : Taken index [] uses uses :=
  ⟨by simp, by simp, by simp, rfl, by simp⟩

theorem payloadEdges_taken {children : List (ℕ × TypeId)} (hlength : uses.length = nodes.length)
    (h : payloadEdges nodes index children uses = .ok uses') :
    Taken index (children.map Prod.fst) uses uses' := by
  induction children generalizing uses with
  | nil =>
    cases h
    exact taken_nil index _
  | cons entry children ih =>
    obtain ⟨child, expected⟩ := entry
    rw [payloadEdges, bind_eq_ok] at h
    obtain ⟨uses₁, hedge, h⟩ := h
    obtain ⟨hlt, hlength', hfree, rfl⟩ := payloadEdge_ok hedge
    have hset (x : ℕ) : (uses.set child 1).getD x 0 ≠ 0 ↔ uses.getD x 0 ≠ 0 ∨ x = child := by
      have hchild : child < uses.length := hlength ▸ hlength'
      rw [getD_eq_getElem?_getD, getD_eq_getElem?_getD, getElem?_set]
      by_cases hx : child = x
      · subst hx
        simp [hchild]
      · simp [hx, Ne.symm hx]
    have hrest := ih (by simpa using hlength) h
    -- a part that follows was free after this one was taken
    have hother (part : ℕ) (hpart : part ∈ children.map Prod.fst) :
        uses.getD part 0 = 0 ∧ part ≠ child := by
      have := mt (hset part).mpr (not_not.mpr (hrest.free part hpart))
      exact ⟨not_not.mp (not_or.mp this).1, (not_or.mp this).2⟩
    refine ⟨?_, ?_, ?_, by simpa using hrest.length_eq, fun x => ?_⟩
    · simpa [hlt] using hrest.lt
    · rw [map_cons, nodup_cons]
      exact ⟨fun hmem => (hother child hmem).2 rfl, hrest.nodup⟩
    · intro part hpart
      rcases mem_cons.mp hpart with rfl | hpart
      · exact hfree
      · exact (hother part hpart).1
    · rw [hrest.used_iff, hset, map_cons, mem_cons, or_assoc]

/-- One round of the check: the parts of the node are taken, and its handle is new. -/
structure PayloadRound (node : PayloadNode) (index : ℕ) (table table' : PayloadTable) : Prop where
  taken : Taken index node.kind.parts table.uses table'.uses
  handle : ∀ id, node.kind = .handle id → id ∉ table.handles ∧ table'.handles = id :: table.handles
  other : node.kind.isHandle = false → table'.handles = table.handles

theorem payloadHandle_new {id : ℕ} {category : TypeCategory} {referent : Option TypeId}
    {handles handles' : List ℕ} (h : payloadHandle model id category referent handles = .ok handles') :
    id ∉ handles ∧ handles' = id :: handles := by
  unfold payloadHandle at h
  simp only [bind_eq_ok] at h
  obtain ⟨owner, -, control, -, h⟩ := h
  split at h
  · cases h
  next hnot =>
  refine ⟨fun hmem => hnot ?_, (Except.ok.inj h).symm⟩
  simp [hmem]

variable {node : PayloadNode} {table table' : PayloadTable}

theorem payloadNode_round (hlength : table.uses.length = nodes.length)
    (h : payloadNode layouts model nodes table (node, index) = .ok table') :
    PayloadRound node index table table' := by
  unfold payloadNode at h
  rw [bind_eq_ok] at h
  obtain ⟨record, -, h⟩ := h
  -- a node with parts leaves the handles alone
  have hparts {kind : PayloadKind} {uses' : List ℕ} (hkind : node.kind = kind)
      (hnot : kind.isHandle = false) (htaken : Taken index kind.parts table.uses uses')
      (htable : { table with uses := uses' } = table') : PayloadRound node index table table' := by
    subst htable hkind
    refine ⟨htaken, fun id hid => ?_, fun _ => rfl⟩
    rw [hid] at hnot
    cases hnot
  have helements {children : List ℕ} {element : TypeId} {uses' : List ℕ}
      (huses : payloadEdges nodes index (children.map fun child => (child, element)) table.uses
        = .ok uses') : Taken index children table.uses uses' := by
    have htaken := payloadEdges_taken hlength huses
    rw [map_map] at htaken
    exact (map_id children) ▸ htaken
  have hhandle {id : ℕ} (hkind : node.kind = .handle id) {category : TypeCategory}
      {referent : Option TypeId}
      (h : (do
        let handles ← payloadHandle model id category referent table.handles
        pure { table with handles }) = .ok table') : PayloadRound node index table table' := by
    rw [bind_eq_ok] at h
    obtain ⟨handles, hnew, h⟩ := h
    obtain ⟨hmem, rfl⟩ := payloadHandle_new hnew
    obtain rfl := pure_eq_ok.mp h
    refine ⟨?_, fun id' hid' => ?_, fun hnot => ?_⟩
    · rw [hkind]
      exact taken_nil _ _
    · rw [hkind] at hid'
      cases hid'
      exact ⟨hmem, rfl⟩
    · rw [hkind] at hnot
      cases hnot
  split at h
  · next hkind _ => exact hparts hkind rfl (taken_nil _ _) (by simpa using h)
  · next hkind _ => exact hparts hkind rfl (taken_nil _ _) (by simpa using h)
  · next hkind _ => exact hparts hkind rfl (taken_nil _ _) (by simpa using h)
  · next children hkind _ =>
    simp only [bind_eq_ok, pure_eq_ok, require_eq_ok, decide_eq_true_eq] at h
    obtain ⟨_, hfields, uses', huses, htable⟩ := h
    have htaken := payloadEdges_taken hlength huses
    rw [map_fst_zip (by simp [hfields])] at htaken
    exact hparts hkind rfl htaken htable
  · next children hkind _ =>
    simp only [bind_eq_ok, pure_eq_ok] at h
    obtain ⟨element, -, uses', huses, htable⟩ := h
    exact hparts hkind rfl (helements huses) htable
  · next children hkind _ =>
    simp only [bind_eq_ok, pure_eq_ok] at h
    obtain ⟨element, -, uses', huses, htable⟩ := h
    exact hparts hkind rfl (helements huses) htable
  · next child hkind _ =>
    rw [bind_eq_ok] at h
    obtain ⟨variant, -, h⟩ := h
    split at h
    · next child ty _ =>
      simp only [bind_eq_ok, pure_eq_ok] at h
      obtain ⟨uses', huses, htable⟩ := h
      have hedges : payloadEdges nodes index [(child, brand layouts ty)] table.uses = .ok uses' := by
        rw [payloadEdges, huses]
        rfl
      exact hparts hkind rfl (payloadEdges_taken hlength hedges) htable
    · exact hparts hkind rfl (taken_nil _ _) (by simpa using h)
    · cases h
  · next hkind _ => exact hhandle hkind h
  · next hkind _ => exact hhandle hkind h
  · cases h

/-- The first `k` nodes have been checked. -/
structure PayloadChecked (layouts : VerifiedLayouts) (nodes : List PayloadNode) (k : ℕ)
    (table : PayloadTable) : Prop where
  length_eq : table.uses.length = nodes.length
  down : ∀ i < k, ∀ part ∈ payloadParts nodes i, part < i
  once : ((List.range k).flatMap (payloadParts nodes)).Nodup
  used_iff : ∀ x, table.uses.getD x 0 ≠ 0 ↔ x ∈ (List.range k).flatMap (payloadParts nodes)
  owned : ((List.range k).flatMap (payloadOwned layouts nodes)).Nodup
  handle_iff : ∀ id, .handle id ∈ (List.range k).flatMap (payloadOwned layouts nodes)
    ↔ id ∈ table.handles

variable (layouts) in
/-- A node owns itself or a handle, and at most one of them. -/
theorem payloadOwned_cases (hnode : nodes[index]? = some node) :
    (∃ id, node.kind = .handle id ∧ payloadOwned layouts nodes index = [.handle id])
      ∨ node.kind.isHandle = false ∧ (payloadOwned layouts nodes index = []
        ∨ payloadOwned layouts nodes index = [.node index]) := by
  unfold payloadOwned
  rw [hnode]
  dsimp only
  cases hkind : node.kind with
  | copy => exact .inr ⟨rfl, .inl rfl⟩
  | string => exact .inr ⟨rfl, .inr rfl⟩
  | handle id => exact .inl ⟨id, rfl, rfl⟩
  | variant variant child => exact .inr ⟨rfl, .inl rfl⟩
  | children children =>
    refine .inr ⟨rfl, ?_⟩
    dsimp only
    split
    · exact .inr rfl
    · exact .inl rfl

variable {k : ℕ}

theorem node_mem_owned
    (h : .node index ∈ (List.range k).flatMap (payloadOwned layouts nodes)) : index < k := by
  obtain ⟨i, hi, hmem⟩ := mem_flatMap.mp h
  have hi := mem_range.mp hi
  cases hnode : nodes[i]? with
  | none => simp [payloadOwned, hnode] at hmem
  | some node =>
    obtain ⟨id, -, howned⟩ | ⟨-, howned | howned⟩ := payloadOwned_cases layouts hnode
      <;> rw [howned] at hmem
    · simp at hmem
    · simp at hmem
    · obtain rfl : index = i := by simpa using hmem
      exact hi

theorem PayloadChecked.step
    (h : PayloadChecked layouts nodes k table) (hnode : nodes[k]? = some node)
    (hround : PayloadRound node k table table') : PayloadChecked layouts nodes (k + 1) table' := by
  have hparts : payloadParts nodes k = node.kind.parts := by simp [payloadParts, hnode]
  have hlist {β : Type} (f : ℕ → List β) :
      (List.range (k + 1)).flatMap f = (List.range k).flatMap f ++ f k := by
    simp [range_succ]
  have htaken := hround.taken
  rw [← hparts] at htaken
  refine ⟨htaken.length_eq.trans h.length_eq, fun i hi => ?_, ?_, fun x => ?_, ?_, fun id => ?_⟩
  · obtain hi | rfl := Nat.lt_succ_iff_lt_or_eq.mp hi
    · exact h.down i hi
    · exact htaken.lt
  · rw [hlist]
    refine nodup_append.mpr ⟨h.once, htaken.nodup, fun x hx y hy heq => ?_⟩
    exact (h.used_iff x).mpr hx (heq ▸ htaken.free y hy)
  · rw [htaken.used_iff, h.used_iff, hlist, mem_append]
  · rw [hlist]
    refine nodup_append.mpr ⟨h.owned, ?_, fun x hx y hy heq => ?_⟩
    · obtain ⟨id, -, howned⟩ | ⟨-, howned | howned⟩ := payloadOwned_cases layouts hnode
        <;> simp [howned]
    · subst heq
      obtain ⟨id, hid, howned⟩ | ⟨-, howned | howned⟩ :=
        payloadOwned_cases layouts hnode <;> rw [howned] at hy
      · obtain rfl : x = .handle id := by simpa using hy
        exact (hround.handle id hid).1 ((h.handle_iff id).mp hx)
      · cases hy
      · obtain rfl : x = .node k := by simpa using hy
        exact absurd (node_mem_owned hx) (Nat.lt_irrefl k)
  · rw [hlist, mem_append, h.handle_iff]
    obtain ⟨id', hid', howned⟩ | ⟨hnot, howned | howned⟩ :=
      payloadOwned_cases layouts hnode
    · rw [howned, (hround.handle id' hid').2]
      simp [or_comm]
    · rw [howned, hround.other hnot]
      simp
    · rw [howned, hround.other hnot]
      simp

theorem payloadChecked_of_foldlM (h : nodes.zipIdx.foldlM (payloadNode layouts model nodes)
      ⟨List.replicate nodes.length 0, []⟩ = .ok table) :
    PayloadChecked layouts nodes nodes.length table := by
  have hnone (x : ℕ) : (List.replicate nodes.length 0).getD x 0 = 0 := by
    rw [getD_eq_getElem?_getD, getElem?_replicate]
    split <;> rfl
  suffices hfold : ∀ (rest done : List PayloadNode) (table₀ : PayloadTable), nodes = done ++ rest →
      PayloadChecked layouts nodes done.length table₀ →
      (rest.zipIdx done.length).foldlM (payloadNode layouts model nodes) table₀ = .ok table →
      PayloadChecked layouts nodes nodes.length table from
    hfold nodes [] _ rfl ⟨by simp, by simp, by simp,
      fun x => iff_of_false (not_not.mpr (hnone x)) (by simp), by simp, by simp⟩ h
  intro rest
  induction rest with
  | nil =>
    intro done table₀ heq hchecked h
    rw [append_nil] at heq
    cases h
    rw [heq] at hchecked ⊢
    exact hchecked
  | cons node rest ih =>
    intro done table₀ heq hchecked h
    rw [zipIdx_cons, foldlM_cons, bind_eq_ok] at h
    obtain ⟨table₁, hround, h⟩ := h
    have hnode : nodes[done.length]? = some node := by simp [heq]
    have hnext := hchecked.step hnode (payloadNode_round hchecked.length_eq hround)
    exact ih (done ++ [node]) table₁ (by simp [heq]) (by simpa using hnext) (by simpa using h)

/-! ### The loop -/

variable (layouts) in
/-- The loop takes a tree apart and goes on with what lay under it on the stack. -/
theorem payloadDropsLoop_node (hdown : ∀ i < nodes.length, ∀ part ∈ payloadParts nodes i, part < i)
    (hindex : index < nodes.length) :
    ∃ spent ≤ 2 * (Arena.subtree (payloadParts nodes) index).length, ∀ rounds stack drops,
      payloadDropsLoop layouts nodes (spent + rounds) ((index, false) :: stack) drops
        = payloadDropsLoop layouts nodes rounds stack (drops ++ destruction layouts nodes index) := by
  induction index using Nat.strong_induction_on with
  | _ index ih =>
  have hlist (parts : List ℕ) (hparts : ∀ part ∈ parts, part < index) :
      ∃ spent ≤ 2 * (parts.flatMap (Arena.subtree (payloadParts nodes))).length,
        ∀ rounds stack drops,
          payloadDropsLoop layouts nodes (spent + rounds)
              (parts.map (fun part => (part, false)) ++ stack) drops
            = payloadDropsLoop layouts nodes rounds stack
              (drops ++ parts.flatMap (destruction layouts nodes)) := by
    induction parts with
    | nil => exact ⟨0, Nat.zero_le _, fun rounds stack drops => by simp⟩
    | cons part parts ihlist =>
      have hpart := hparts part (by simp)
      obtain ⟨spent, hspent, hnode⟩ := ih part hpart (hpart.trans hindex)
      obtain ⟨spent', hspent', hrest⟩ := ihlist fun p hp => hparts p (by simp [hp])
      refine ⟨spent + spent', ?_, fun rounds stack drops => ?_⟩
      · rw [flatMap_cons, length_append]
        omega
      · rw [Nat.add_assoc, map_cons, cons_append, hnode, hrest, flatMap_cons,
          append_assoc]
  obtain ⟨node, hnode⟩ : ∃ node, nodes[index]? = some node :=
    ⟨_, getElem?_eq_getElem hindex⟩
  have hparts : payloadParts nodes index = node.kind.parts := by simp [payloadParts, hnode]
  have hdestruction : destruction layouts nodes index
      = node.kind.parts.reverse.flatMap (destruction layouts nodes)
        ++ payloadOwned layouts nodes index := by
    unfold destruction
    rw [Arena.unwind_eq _ (hdown index hindex), hparts]
  rw [Arena.subtree_eq (hdown index hindex), length_cons, hparts]
  cases hkind : node.kind with
  | copy =>
    refine ⟨1, by simp [PayloadKind.parts], fun rounds stack drops => ?_⟩
    rw [hdestruction, Nat.add_comm 1, payloadDropsLoop, hnode]
    simp [hkind, payloadOwned, hnode, PayloadKind.parts]
  | string =>
    refine ⟨1, by simp [PayloadKind.parts], fun rounds stack drops => ?_⟩
    rw [hdestruction, Nat.add_comm 1, payloadDropsLoop, hnode]
    simp [hkind, payloadOwned, hnode, PayloadKind.parts]
  | handle owner =>
    refine ⟨1, by simp [PayloadKind.parts], fun rounds stack drops => ?_⟩
    rw [hdestruction, Nat.add_comm 1, payloadDropsLoop, hnode]
    simp [hkind, payloadOwned, hnode, PayloadKind.parts]
  | variant variant child =>
    obtain ⟨spent, hspent, hrest⟩ := hlist child.toList fun part hpart =>
      hdown index hindex part (by rw [hparts, hkind]; exact hpart)
    refine ⟨spent + 1, ?_, fun rounds stack drops => ?_⟩
    · simp only [PayloadKind.parts]
      omega
    · rw [hdestruction, Nat.add_right_comm, payloadDropsLoop, hnode]
      simp only [hkind]
      rw [hrest, payloadOwned, hnode]
      cases child <;> simp [hkind, PayloadKind.parts]
  | children children =>
    -- the last child lies on top of the stack, and the storage below the children
    obtain ⟨spent, hspent, hrest⟩ := hlist children.reverse fun part hpart =>
      hdown index hindex part (by rw [hparts, hkind]; exact mem_reverse.mp hpart)
    have hlength : (children.reverse.flatMap (Arena.subtree (payloadParts nodes))).length
        = (children.flatMap (Arena.subtree (payloadParts nodes))).length :=
      ((reverse_perm children).flatMap_right _).length_eq
    rw [hlength] at hspent
    by_cases hvec : (typeById layouts node.ty).map VerifiedType.category = some .vec
    · refine ⟨spent + 1 + 1, ?_, fun rounds stack drops => ?_⟩
      · simp only [PayloadKind.parts]
        omega
      · have hrounds : spent + 1 + 1 + rounds = spent + (rounds + 1) + 1 := by omega
        rw [hdestruction, hrounds, payloadDropsLoop, hnode]
        simp only [hkind, Bool.false_eq_true, if_false, hvec, if_true]
        rw [hrest, payloadDropsLoop, hnode]
        simp [hkind, payloadOwned, hnode, hvec, PayloadKind.parts]
    · refine ⟨spent + 1, ?_, fun rounds stack drops => ?_⟩
      · simp only [PayloadKind.parts]
        omega
      · rw [hdestruction, Nat.add_right_comm, payloadDropsLoop, hnode]
        simp only [hkind, Bool.false_eq_true, if_false, hvec]
        rw [hrest]
        simp [hkind, payloadOwned, hnode, hvec, PayloadKind.parts]

theorem payloadDropsLoop_done (rounds : ℕ) (drops : List Drop) :
    payloadDropsLoop layouts nodes rounds [] drops = drops := by
  cases rounds <;> rfl

/-- **Cleanup lists are complete and ordered.** The drops of an accepted payload are its recursive
destruction from the root: what the parts of a node own, the last part first, and then what the
node owns itself, the storage of a vector after all of its elements. They hold the Strings, vector
storages and handles of the arena, each exactly once, and nothing else. -/
theorem payloadDrops_exact {ty : TypeId} {total : ℕ} {drops : List Drop}
    (h : model.payload layouts ty nodes = .ok (total, drops)) :
    drops = destruction layouts nodes (nodes.length - 1)
      ∧ (∀ i < nodes.length, destruction layouts nodes i
        = (payloadParts nodes i).reverse.flatMap (destruction layouts nodes)
          ++ payloadOwned layouts nodes i)
      ∧ drops.Nodup
      ∧ drops.Perm ((List.range nodes.length).flatMap (payloadOwned layouts nodes)) := by
  unfold Model.payload at h
  rw [bind_eq_ok] at h
  obtain ⟨_, -, h⟩ := h
  split at h
  · cases h
  next hempty =>
  split at h
  · cases h
  simp only [bind_eq_ok, pure_eq_ok, require_eq_ok, Prod.mk.injEq] at h
  obtain ⟨table, htable, _, hall, rfl, rfl⟩ := h
  have hchecked := payloadChecked_of_foldlM htable
  obtain ⟨n, hn⟩ : ∃ n, nodes.length = n + 1 :=
    Nat.exists_eq_succ_of_ne_zero fun h0 => hempty (by simpa using h0)
  have hdown := hchecked.down
  -- the arena is the tree of its last node
  have htree : (Arena.subtree (payloadParts nodes) (nodes.length - 1)).Perm
      (List.range nodes.length) := by
    have hused : ∀ i < n, i ∈ (List.range nodes.length).flatMap (payloadParts nodes) := by
      intro i hi
      rw [← hchecked.used_iff]
      have hlt : i < table.uses.length := by rw [hchecked.length_eq]; omega
      have hmem : table.uses[i] ∈ table.uses.take (nodes.length - 1) :=
        mem_take_iff_getElem.mpr ⟨i, by rw [hchecked.length_eq]; omega, rfl⟩
      have hone : table.uses[i] = 1 := by simpa using all_eq_true.mp hall _ hmem
      rw [getD_eq_getElem?_getD, getElem?_eq_getElem hlt, hone]
      decide
    have hpart := hchecked.down
    have honce := hchecked.once
    rw [hn] at hpart honce hused ⊢
    exact Arena.subtree_perm hpart honce hused
  obtain ⟨spent, hspent, hloop⟩ := payloadDropsLoop_node layouts hdown
    (show nodes.length - 1 < nodes.length by omega)
  have hdrops : payloadDrops layouts nodes = destruction layouts nodes (nodes.length - 1) := by
    have hlength : (Arena.subtree (payloadParts nodes) (nodes.length - 1)).length
        = nodes.length := by rw [htree.length_eq, length_range]
    obtain ⟨rounds, hrounds⟩ := Nat.exists_eq_add_of_le (hlength ▸ hspent)
    unfold payloadDrops
    rw [hrounds, hloop, payloadDropsLoop_done, nil_append]
  have hperm : (destruction layouts nodes (nodes.length - 1)).Perm
      ((List.range nodes.length).flatMap (payloadOwned layouts nodes)) :=
    (Arena.unwind_perm _ _).trans (htree.flatMap_right _)
  rw [hdrops]
  exact ⟨rfl, fun i hi => Arena.unwind_eq _ (hdown i hi), hperm.nodup_iff.mpr hchecked.owned, hperm⟩

/-- The types String, `Vec<String>`, `Shared<String>`, and a struct of a vector and a handle. -/
def recordLayouts : VerifiedLayouts :=
  ⟨0, [7], .linear32V1,
    [⟨0, .string, 12, 1⟩, ⟨1, .vec 0, 12, 2⟩, ⟨2, .shared 0, 4, 3⟩,
      ⟨3, .struct 0 0 [⟨0, 1⟩, ⟨1, 2⟩], 16, 4⟩], [8],
    sealed_of_ordered (by decide)⟩

/-- One live String cell with one external owner. -/
def cellModel : Model :=
  { Model.empty with
    controls := [⟨⟨[7], 0⟩, ⟨1, 1, false, true, true⟩, 16, [.node 0], 0⟩]
    owners := [⟨0, false, .external⟩] }

/-- A record of two Strings in a vector and the owner of the cell. -/
def recordPayload : List PayloadNode :=
  [⟨⟨[7], 0⟩, .string⟩, ⟨⟨[7], 0⟩, .string⟩, ⟨⟨[7], 1⟩, .children [0, 1]⟩,
   ⟨⟨[7], 2⟩, .handle 0⟩, ⟨⟨[7], 3⟩, .children [2, 3]⟩]

/-- The handle is the later field, and the storage of the vector comes after its elements. -/
theorem payloadDrops_exact_record :
    cellModel.payload recordLayouts ⟨[7], 3⟩ recordPayload
        = .ok (5, [.handle 0, .node 1, .node 0, .node 2])
      ∧ [Drop.handle 0, .node 1, .node 0, .node 2] = destruction recordLayouts recordPayload 4 :=
  ⟨rfl, (@payloadDrops_exact recordLayouts cellModel recordPayload ⟨[7], 3⟩ 5 _ rfl).1⟩

end Zryna.OwnershipRuntime.ControlModel
