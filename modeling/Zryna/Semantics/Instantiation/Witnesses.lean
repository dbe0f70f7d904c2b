import Mathlib.Data.List.Chain
import Mathlib.Data.List.GetD
import Zryna.Semantics.Instantiation.Expansion

/-!
# Canonical witnesses

`canonicalPath` marks every node once and never takes a mark back, and still finds the least simple
path by keys. The reason is the invariant `Descent`: a node that was left has no unmarked child, so
a path from it to the goal comes back to the stack (`Descent.returns`), and no simple path that
extends the stack goes through it. So every simple path from the root lies `Ahead`: it leaves the
stack for a child that is still to be tried, and those come later by key.
-/

namespace Zryna.Semantics.Instantiation.Expansion

open Relation List

section Descent

variable {forward : ℕ → List ℕ} {key : ℕ → List UInt8} {root goal n : ℕ} {visited : List Bool}
  {stack below : List (ℕ × List ℕ)} {q : List ℕ}

/-- A path along children that repeats no node. -/
structure Simple (forward : ℕ → List ℕ) (root goal : ℕ) (q : List ℕ) : Prop where
  chain : q.IsChain fun u v => v ∈ forward u
  nodup : q.Nodup
  head : q.head? = some root
  last : q.getLast? = some goal

/-- A path leaves the stack for a child that is left. -/
def Ahead (stack : List (ℕ × List ℕ)) (q : List ℕ) : Prop :=
  ∃ above id children below rest, stack = above ++ (id, children) :: below
    ∧ q = (below.map Prod.fst).reverse ++ id :: rest ∧ ∀ v ∈ rest.head?, v ∈ children

/-- A frame is a child of the one below, whose other children come later. -/
def Linked (forward : ℕ → List ℕ) (key : ℕ → List UInt8) (upper lower : ℕ × List ℕ) : Prop :=
  upper.1 ∈ forward lower.1 ∧ ∀ v ∈ lower.2, key upper.1 < key v

variable {child id : ℕ} {children : List ℕ}

theorem linked_tail (h : ((id, child :: children) :: below).IsChain (Linked forward key)) :
    ((id, children) :: below).IsChain (Linked forward key) := by
  cases below with
  | nil => exact .singleton _
  | cons frame below =>
    obtain ⟨⟨hchild, hlater⟩, hchain⟩ := isChain_cons_cons.mp h
    exact isChain_cons_cons.mpr ⟨⟨hchild, hlater⟩, hchain⟩

/-- What holds between the rounds of a descent. -/
structure Descent (forward : ℕ → List ℕ) (key : ℕ → List UInt8) (root goal n : ℕ)
    (visited : List Bool) (stack : List (ℕ × List ℕ)) : Prop where
  length : visited.length = n
  marked : visited[root]? = some true
  entered : ∀ frame ∈ stack, visited[frame.1]? = some true
  left : ∀ v : ℕ, visited[v]? = some true → v ∉ stack.map Prod.fst →
    v ≠ goal ∧ ∀ w ∈ forward v, visited[w]? = some true
  tried : ∀ frame ∈ stack, frame.2 <:+ forward frame.1
    ∧ ∀ w ∈ forward frame.1, w ∈ frame.2 ∨ visited[w]? = some true
  nodup : (stack.map Prod.fst).Nodup
  chain : stack.IsChain (Linked forward key)
  bottom : ∀ v ∈ (stack.map Prod.fst).getLast?, v = root
  ahead : ∀ q, Simple forward root goal q → Ahead stack q

/-- A path from a node that was left comes back to the stack. -/
theorem Descent.returns (h : Descent forward key root goal n visited stack) {v : ℕ} {rest : List ℕ}
    (hv : visited[v]? = some true) (hchain : (v :: rest).IsChain fun u v => v ∈ forward u)
    (hlast : (v :: rest).getLast? = some goal) : ∃ w ∈ v :: rest, w ∈ stack.map Prod.fst := by
  induction rest generalizing v with
  | nil =>
    obtain rfl : v = goal := Option.some.inj hlast
    by_contra hnone
    exact (h.left v hv fun hmem => hnone ⟨v, mem_singleton_self v, hmem⟩).1 rfl
  | cons w rest ih =>
    by_cases hmem : v ∈ stack.map Prod.fst
    · exact ⟨v, mem_cons_self, hmem⟩
    · obtain ⟨hw, hchain⟩ := isChain_cons_cons.mp hchain
      obtain ⟨u, hu, hstack⟩ := ih ((h.left v hv hmem).2 w hw) hchain
        (by rwa [getLast?_cons_cons] at hlast)
      exact ⟨u, mem_cons_of_mem v hu, hstack⟩

/-- The stack at the goal is the least of the paths ahead. -/
theorem Descent.least (h : Descent forward key root goal n visited ((goal, children) :: below))
    (hq : Simple forward root goal q) :
    ((goal :: below.map Prod.fst).reverse).map key ≤ q.map key := by
  obtain ⟨above, id, children', below', rest, hstack, rfl, hrest⟩ := h.ahead q hq
  have hlast := hq.last
  have hnodup := nodup_append.mp hq.nodup
  obtain rfl | ⟨above, ⟨child, tail⟩, rfl⟩ := eq_nil_or_concat above
  · -- the path goes on where the stack ends, so it ends there as well
    obtain ⟨hframe, rfl⟩ := List.cons.inj hstack
    cases hframe
    cases rest with
    | nil => rw [reverse_cons]
    | cons w rest =>
      rw [getLast?_append_of_ne_nil _ (cons_ne_nil _ _), getLast?_cons_cons] at hlast
      exact absurd (mem_of_getLast? hlast) (nodup_cons.mp hnodup.2.1).1
  · rw [concat_append] at hstack
    have hmap : goal :: below.map Prod.fst
        = above.map Prod.fst ++ child :: id :: below'.map Prod.fst :=
      (congrArg (List.map Prod.fst) hstack).trans map_append
    have hleast : ∀ w ∈ children', key child < key w :=
      (isChain_cons_cons.mp (isChain_append.mp (hstack ▸ h.chain)).2.1).1.2
    cases rest with
    | nil =>
      -- the goal would be on the stack twice
      obtain rfl := Option.some.inj (getLast?_concat.symm.trans hlast)
      refine absurd ?_ (nodup_cons.mp h.nodup).1
      cases above with
      | nil => exact (List.cons.inj hmap).2 ▸ mem_cons_self
      | cons frame above => exact (List.cons.inj hmap).2 ▸ by simp
    | cons w rest =>
      rw [hmap, reverse_append, reverse_cons, reverse_cons]
      simp only [append_assoc, singleton_append, map_append, map_cons]
      refine (append_left_lt (cons_lt_cons_iff.mpr (.inr ⟨rfl, ?_⟩))).le
      exact cons_lt_cons_iff.mpr (.inl (hleast w (hrest w rfl)))

/-- A visited child is passed over. -/
theorem Descent.skip
    (h : Descent forward key root goal n visited ((id, child :: children) :: below))
    (hchild : visited[child]? = some true) :
    Descent forward key root goal n visited ((id, children) :: below) where
  length := h.length
  marked := h.marked
  entered := forall_mem_cons.mpr (forall_mem_cons.mp h.entered)
  left := h.left
  tried := by
    obtain ⟨⟨hsuffix, htried⟩, hbelow⟩ := forall_mem_cons.mp h.tried
    refine forall_mem_cons.mpr ⟨⟨(suffix_cons _ _).trans hsuffix, fun w hw => ?_⟩, hbelow⟩
    obtain hw | hw := htried w hw
    · obtain rfl | hw := mem_cons.mp hw
      · exact .inr hchild
      · exact .inl hw
    · exact .inr hw
  nodup := h.nodup
  chain := linked_tail h.chain
  bottom := h.bottom
  ahead := fun q hq => by
    obtain ⟨above, id', children', below', rest, hstack, rfl, hrest⟩ := h.ahead q hq
    cases above with
    | cons frame above =>
      obtain ⟨rfl, rfl⟩ := List.cons.inj hstack
      exact ⟨_ :: above, id', children', below', rest, rfl, rfl, hrest⟩
    | nil =>
      obtain ⟨hframe, rfl⟩ := List.cons.inj hstack
      cases hframe
      refine ⟨[], id, children, below, rest, rfl, rfl, fun v hv => ?_⟩
      obtain rfl | hmem := mem_cons.mp (hrest v hv)
      · -- the child was left, or is on the stack: the path meets the stack again
        cases rest with
        | nil => cases hv
        | cons w rest =>
          cases hv
          have hsimple := nodup_append.mp hq.nodup
          have hlast := hq.last
          rw [getLast?_append_of_ne_nil _ (cons_ne_nil _ _),
            getLast?_cons_cons] at hlast
          obtain ⟨u, hu, hstack⟩ := h.returns hchild
            (isChain_cons_cons.mp (isChain_append.mp hq.chain).2.1).2 hlast
          obtain rfl | hbelow := mem_cons.mp hstack
          · exact absurd hu (nodup_cons.mp hsimple.2.1).1
          · exact absurd rfl
              (hsimple.2.2 u (mem_reverse.mpr hbelow) u (mem_cons_of_mem _ hu))
      · exact hmem

/-- A node without children that are left is left. -/
theorem Descent.leave (h : Descent forward key root goal n visited ((id, []) :: below))
    (hid : id ≠ goal) : Descent forward key root goal n visited below where
  length := h.length
  marked := h.marked
  entered := (forall_mem_cons.mp h.entered).2
  left := fun v hv hmem => by
    obtain rfl | hne := eq_or_ne v id
    · refine ⟨hid, fun w hw => ?_⟩
      exact ((forall_mem_cons.mp h.tried).1.2 w hw).resolve_left not_mem_nil
    · exact h.left v hv (not_mem_cons_of_ne_of_not_mem hne hmem)
  tried := (forall_mem_cons.mp h.tried).2
  nodup := (nodup_cons.mp h.nodup).2
  chain := h.chain.tail
  bottom := by
    cases below with
    | nil => exact nofun
    | cons frame below => exact h.bottom
  ahead := fun q hq => by
    obtain ⟨above, id', children', below', rest, hstack, rfl, hrest⟩ := h.ahead q hq
    cases above with
    | cons frame above =>
      exact ⟨above, id', children', below', rest, (List.cons.inj hstack).2, rfl, hrest⟩
    | nil =>
      obtain ⟨hframe, rfl⟩ := List.cons.inj hstack
      cases hframe
      cases rest with
      | nil => exact absurd (Option.some.inj (getLast?_concat.symm.trans hq.last)) hid
      | cons w rest => exact absurd (hrest w rfl) not_mem_nil

/-- A new child is entered. -/
theorem Descent.enter (hsorted : ∀ v, (forward v).Pairwise fun a b => key a < key b)
    (h : Descent forward key root goal n visited ((id, child :: children) :: below))
    (hchild : visited[child]? = some false) :
    Descent forward key root goal n (visited.set child true)
      ((child, forward child) :: (id, children) :: below) := by
  have hlt : child < visited.length := (List.getElem?_eq_some_iff.mp hchild).1
  have hset (v : ℕ) := getElem?_set_true (u := v) hlt
  have hkept {v : ℕ} (hv : visited[v]? = some true) : (visited.set child true)[v]? = some true :=
    (hset v).mpr (.inr hv)
  have hnew : child ∉ id :: below.map Prod.fst := by
    intro hmem
    obtain ⟨frame, hframe, hfst⟩ :=
      mem_map.mp (show child ∈ ((id, child :: children) :: below).map Prod.fst from hmem)
    have hentered := h.entered frame hframe
    rw [hfst, hchild] at hentered
    cases hentered
  obtain ⟨⟨hsuffix, htried⟩, hbelow⟩ := forall_mem_cons.mp h.tried
  have hlater := (pairwise_cons.mp ((hsorted id).sublist hsuffix.sublist)).1
  refine ⟨length_set.trans h.length, hkept h.marked, ?_, fun v hv hmem => ?_, ?_,
    nodup_cons.mpr ⟨hnew, h.nodup⟩,
    isChain_cons_cons.mpr ⟨⟨hsuffix.subset mem_cons_self, hlater⟩, linked_tail h.chain⟩,
    h.bottom, fun q hq => ?_⟩
  · rintro frame (_ | ⟨_, hframe⟩)
    · exact (hset child).mpr (.inl rfl)
    · obtain rfl | hframe := mem_cons.mp hframe
      · exact hkept (h.entered (id, child :: children) mem_cons_self)
      · exact hkept (h.entered _ (mem_cons_of_mem _ hframe))
  · obtain ⟨hne, hmem⟩ := not_or.mp (mt mem_cons.mpr hmem)
    obtain ⟨hgoal, hchildren⟩ := h.left v (((hset v).mp hv).resolve_left hne) hmem
    exact ⟨hgoal, fun w hw => hkept (hchildren w hw)⟩
  · refine forall_mem_cons.mpr ⟨⟨suffix_rfl, fun w hw => .inl hw⟩,
      forall_mem_cons.mpr ⟨⟨(suffix_cons _ _).trans hsuffix, fun w hw => ?_⟩,
        fun frame hframe => ⟨(hbelow frame hframe).1, fun w hw =>
          ((hbelow frame hframe).2 w hw).imp_right hkept⟩⟩⟩
    obtain hw | hw := htried w hw
    · obtain rfl | hw := mem_cons.mp hw
      · exact .inr ((hset w).mpr (.inl rfl))
      · exact .inl hw
    · exact .inr (hkept hw)
  · obtain ⟨above, id', children', below', rest, hstack, rfl, hrest⟩ := h.ahead q hq
    cases above with
    | cons frame above =>
      obtain ⟨rfl, rfl⟩ := List.cons.inj hstack
      exact ⟨_ :: _ :: above, id', children', below', rest, rfl, rfl, hrest⟩
    | nil =>
      obtain ⟨hframe, rfl⟩ := List.cons.inj hstack
      cases hframe
      cases rest with
      | nil => exact ⟨[_], id, children, below, [], rfl, rfl, nofun⟩
      | cons w rest =>
        obtain rfl | hw := mem_cons.mp (hrest w rfl)
        · refine ⟨[], w, forward w, (id, children) :: below, rest, rfl, by simp, fun v hv => ?_⟩
          have hchain := (isChain_cons_cons.mp hq.chain.right_of_append).2
          exact (isChain_cons.mp hchain).1 v hv
        · exact ⟨[_], id, children, below, w :: rest, rfl, rfl, fun v hv => Option.some.inj hv ▸ hw⟩

/-- A descent starts at its root. -/
theorem Descent.start (hroot : root < n) : Descent forward key root goal n
    ((List.replicate n false).set root true) [(root, forward root)] := by
  have hset (v : ℕ) := @getElem?_set_true (List.replicate n false) _ v (by rwa [length_replicate])
  refine ⟨by rw [length_set, length_replicate], (hset root).mpr (.inl rfl), ?_,
    fun v hv hmem => ?_, ?_, nodup_singleton root, .singleton _,
    fun v hv => (Option.some.inj hv).symm, fun q hq => ?_⟩
  · exact fun frame hframe => mem_singleton.mp hframe ▸ (hset root).mpr (.inl rfl)
  · obtain rfl | hfalse := (hset v).mp hv
    · exact absurd (mem_singleton_self v) hmem
    · rw [getElem?_replicate] at hfalse
      split at hfalse <;> cases hfalse
  · exact fun frame hframe => mem_singleton.mp hframe ▸ ⟨suffix_rfl, fun w hw => .inl hw⟩
  · have hchain := hq.chain
    have hhead := hq.head
    cases q with
    | nil => cases hhead
    | cons u rest =>
      obtain rfl := Option.some.inj hhead
      exact ⟨[], u, forward u, [], rest, rfl, rfl, (isChain_cons.mp hchain).1⟩

/-- **The descent finds the least simple path**, and none only where there is no path. -/
theorem descend_least (hsorted : ∀ v, (forward v).Pairwise fun a b => key a < key b)
    (hlt : ∀ v, ∀ w ∈ forward v, w < n) (h : Descent forward key root goal n visited stack) :
    match descend forward goal visited stack with
    | some p => Simple forward root goal p
      ∧ ∀ q, Simple forward root goal q → p.map key ≤ q.map key
    | none => ¬ReflTransGen (fun u v => v ∈ forward u) root goal := by
  induction visited, stack using descend.induct forward goal with
  | case1 visited =>
    rw [descend]
    intro hpath
    have hall : ∀ v, ReflTransGen (fun u v => v ∈ forward u) root v → visited[v]? = some true := by
      intro v hv
      induction hv with
      | refl => exact h.marked
      | tail _ hedge ih => exact (h.left _ ih not_mem_nil).2 _ hedge
    exact (h.left goal (hall goal hpath) not_mem_nil).1 rfl
  | case2 visited children below =>
    rw [descend.eq_def]
    simp only [if_true]
    refine ⟨⟨?_, nodup_reverse.mpr h.nodup, ?_, ?_⟩, fun q hq => h.least hq⟩
    · exact isChain_reverse.mpr ((isChain_map Prod.fst).mpr
        (h.chain.imp fun upper lower hlink => hlink.1))
    · rw [head?_reverse]
      cases hlast : (goal :: below.map Prod.fst).getLast? with
      | none => cases getLast?_eq_none_iff.mp hlast
      | some v => exact congrArg some (h.bottom v hlast)
    · rw [getLast?_reverse, head?_cons]
  | case3 visited id below hid ih =>
    rw [descend, if_neg hid]
    exact ih (h.leave hid)
  | case4 visited id below hid child children hchild ih =>
    rw [descend, if_neg hid]
    simp only [hchild, if_true]
    exact ih (h.enter hsorted hchild)
  | case5 visited id below hid child children hchild ih =>
    rw [descend, if_neg hid]
    simp only [hchild, if_false]
    have hmem : child ∈ forward id :=
      (h.tried _ mem_cons_self).1.subset mem_cons_self
    have hvisited : child < visited.length := h.length ▸ hlt id child hmem
    rw [getElem?_eq_getElem hvisited, Option.some.injEq, Bool.not_eq_false] at hchild
    exact ih (h.skip (by rw [getElem?_eq_getElem hvisited, hchild]))

end Descent

/-! ### The retained graph -/

section Graph

variable {keys : List (List UInt8)} {reverse : List (List ℕ)} {origins : List ℕ} {source : ℕ}

/-- An edge of a graph that is given by the parents of its nodes. -/
def Edge (reverse : List (List ℕ)) (u v : ℕ) : Prop := u ∈ reverse.getD v []

/-- A finite graph. -/
structure Graph (keys : List (List UInt8)) (reverse : List (List ℕ)) : Prop where
  length : reverse.length = keys.length
  parents_lt : ∀ parents ∈ reverse, ∀ u ∈ parents, u < keys.length

/-- A simple path from an origin to `source`. -/
structure WitnessPath (reverse : List (List ℕ)) (origins : List ℕ) (source : ℕ) (p : List ℕ) :
    Prop where
  chain : p.IsChain (Edge reverse)
  nodup : p.Nodup
  head : ∃ o ∈ origins, p.head? = some o
  last : p.getLast? = some source

variable {u v : ℕ}

theorem Graph.lt (h : Graph keys reverse) (hedge : Edge reverse u v) :
    u < keys.length ∧ v < keys.length := by
  by_cases hv : v < reverse.length
  · rw [Edge, getD_eq_getElem _ _ hv] at hedge
    exact ⟨h.parents_lt _ (getElem_mem hv) u hedge, h.length ▸ hv⟩
  · rw [Edge, getD_eq_default _ _ (Nat.not_lt.mp hv)] at hedge
    cases hedge

section

variable (h : Graph keys reverse) (hsource : source < keys.length)

include h hsource

theorem Graph.lt_of_path (hpath : ReflTransGen (Edge reverse) u source) : u < keys.length := by
  obtain rfl | ⟨v, hedge, -⟩ := hpath.cases_head
  · exact hsource
  · exact (h.lt hedge).1

/-- The first loop marks what leads to `source`. -/
theorem Graph.marked_iff {id : ℕ} :
    (markFrom (fun id => reverse.getD id []) (List.replicate keys.length false) [source])[id]?
      = some true ↔ ReflTransGen (Edge reverse) id source := by
  rw [mem_markFrom]
  constructor
  · intro hreached
    induction hreached with
    | seed hv _ => exact mem_singleton.mp hv ▸ .refl
    | child _ hv _ ih => exact .head hv ih
  · intro hpath
    induction hpath using ReflTransGen.head_induction_on with
    | refl => exact .seed (mem_singleton_self source) hsource
    | head hedge _ ih => exact .child ih hedge (h.lt hedge).1

/-- The children that the second loop tries. -/
def successors (keys : List (List UInt8)) (reverse : List (List ℕ)) (source id : ℕ) : List ℕ :=
  let reachable :=
    markFrom (fun id => reverse.getD id []) (List.replicate keys.length false) [source]
  ((List.range reverse.length).filter fun child => reachable[child]? = some true
    ∧ reachable[id]? = some true ∧ id ∈ reverse.getD child []).insertionSort
      fun a b => keys.getD a [] ≤ keys.getD b []

theorem Graph.mem_successors :
    v ∈ successors keys reverse source u
      ↔ Edge reverse u v ∧ ReflTransGen (Edge reverse) v source := by
  rw [successors, mem_insertionSort, mem_filter, mem_range, h.length,
    decide_eq_true_iff, h.marked_iff hsource, h.marked_iff hsource]
  constructor
  · rintro ⟨-, hv, -, hedge⟩
    exact ⟨hedge, hv⟩
  · rintro ⟨hedge, hv⟩
    exact ⟨(h.lt hedge).2, hv, .head hedge hv, hedge⟩

end

theorem Graph.sorted_successors (h : Graph keys reverse) (hkeys : keys.Nodup)
    (hsource : source < keys.length) (u : ℕ) :
    (successors keys reverse source u).Pairwise fun a b => keys.getD a [] < keys.getD b [] := by
  have hle : (successors keys reverse source u).Pairwise fun a b =>
      keys.getD a [] ≤ keys.getD b [] := pairwise_insertionSort _ _
  have hnodup : (successors keys reverse source u).Nodup :=
    (perm_insertionSort _ _).nodup_iff.mpr (nodup_range.filter _)
  refine (pairwise_and_iff.mpr ⟨hle, hnodup⟩).imp_of_mem fun ha hb hab => ?_
  have hlt {v : ℕ} (hv : v ∈ successors keys reverse source u) : v < keys.length :=
    (h.lt ((h.mem_successors hsource).mp hv).1).2
  exact hab.1.lt_of_ne fun heq => hab.2 ((getD_inj (hlt ha) (hlt hb) hkeys).mp heq)

/-- Every simple path to `source` is one along the successors. -/
theorem Graph.chain_successors (h : Graph keys reverse) (hsource : source < keys.length)
    {q : List ℕ} (hchain : q.IsChain (Edge reverse)) (hlast : q.getLast? = some source) :
    q.IsChain (fun u v => v ∈ successors keys reverse source u)
      ∧ ∀ v ∈ q.head?, ReflTransGen (Edge reverse) v source := by
  induction q with
  | nil => cases hlast
  | cons u q ih =>
    cases q with
    | nil =>
      cases hlast
      exact ⟨.singleton _, fun v hv => Option.some.inj hv ▸ .refl⟩
    | cons v q =>
      obtain ⟨hedge, hchain⟩ := isChain_cons_cons.mp hchain
      obtain ⟨hrest, hhead⟩ := ih hchain (by rwa [getLast?_cons_cons] at hlast)
      have hv := hhead v rfl
      exact ⟨isChain_cons_cons.mpr ⟨(h.mem_successors hsource).mpr ⟨hedge, hv⟩, hrest⟩,
        fun w hw => Option.some.inj hw ▸ .head hedge hv⟩

/-- The origins that lead to `source`. -/
def leading (keys : List (List UInt8)) (reverse : List (List ℕ)) (origins : List ℕ)
    (source : ℕ) : List ℕ :=
  origins.filter fun id => (markFrom (fun id => reverse.getD id [])
    (List.replicate keys.length false) [source])[id]? = some true

theorem Graph.mem_leading (h : Graph keys reverse) (hsource : source < keys.length) {o : ℕ} :
    o ∈ leading keys reverse origins source
      ↔ o ∈ origins ∧ ReflTransGen (Edge reverse) o source := by
  rw [leading, mem_filter, decide_eq_true_iff, h.marked_iff hsource]

theorem canonicalPath_eq (target : ℕ) : canonicalPath keys reverse origins source target =
    match (leading keys reverse origins source).argmin fun id => keys.getD id [] with
    | none => .ok none
    | some root =>
      match descend (successors keys reverse source) source
          ((List.replicate keys.length false).set root true)
          [(root, successors keys reverse source root)] with
      | some path => .ok (some (path ++ [target]))
      | none => .error .internalFailure := rfl

/-- There is no witness where no origin leads to `source`. -/
theorem Graph.canonicalPath_eq_none (h : Graph keys reverse) (hsource : source < keys.length)
    {target : ℕ} : canonicalPath keys reverse origins source target = .ok none
      ↔ ∀ o ∈ origins, ¬ReflTransGen (Edge reverse) o source := by
  rw [canonicalPath_eq]
  cases hroot : (leading keys reverse origins source).argmin fun id => keys.getD id [] with
  | none =>
    refine iff_of_true rfl fun o ho hpath => ?_
    exact not_mem_nil (argmin_eq_none.mp hroot ▸ (h.mem_leading hsource).mpr ⟨ho, hpath⟩)
  | some root =>
    obtain ⟨horigin, hpath⟩ := (h.mem_leading hsource).mp (argmin_mem hroot)
    refine iff_of_false ?_ fun hnone => hnone root horigin hpath
    dsimp only
    split <;> exact nofun

end Graph

/-- **The canonical witness**: no path where no origin leads to `source`, and the least simple path
from an origin to `source` by keys, with `target` behind it, where one does. -/
theorem canonicalPath_least {keys : List (List UInt8)} {reverse : List (List ℕ)} {source : ℕ}
    (hkeys : keys.Nodup) (hgraph : Graph keys reverse) (hsource : source < keys.length)
    (origins : List ℕ) (target : ℕ) :
    (canonicalPath keys reverse origins source target = .ok none
      ↔ ∀ o ∈ origins, ¬ReflTransGen (Edge reverse) o source)
    ∧ ((∃ o ∈ origins, ReflTransGen (Edge reverse) o source) →
      ∃ p, canonicalPath keys reverse origins source target = .ok (some (p ++ [target]))
        ∧ WitnessPath reverse origins source p
        ∧ ∀ q, WitnessPath reverse origins source q →
          p.map (fun id => keys.getD id []) ≤ q.map fun id => keys.getD id []) := by
  refine ⟨hgraph.canonicalPath_eq_none hsource, fun ⟨o, ho, hpath⟩ => ?_⟩
  have hmem := (hgraph.mem_leading hsource).mpr ⟨ho, hpath⟩
  rw [canonicalPath_eq]
  cases hroot : (leading keys reverse origins source).argmin fun id => keys.getD id [] with
  | none => exact absurd (argmin_eq_none.mp hroot ▸ hmem) not_mem_nil
  | some root =>
    obtain ⟨horigin, hpath⟩ := (hgraph.mem_leading hsource).mp (argmin_mem hroot)
    have hlt := hgraph.lt_of_path hsource hpath
    have hfound := descend_least (hgraph.sorted_successors hkeys hsource)
      (fun u v hv => (hgraph.lt ((hgraph.mem_successors hsource).mp hv).1).2)
      (@Descent.start _ _ _ source _ hlt)
    have hsome : ReflTransGen (fun u v => v ∈ successors keys reverse source u) root source := by
      clear hfound hroot hmem hlt horigin
      induction hpath using ReflTransGen.head_induction_on with
      | refl => exact .refl
      | head hedge hrest ih =>
        exact .head ((hgraph.mem_successors hsource).mpr ⟨hedge, hrest⟩) ih
    dsimp only
    revert hfound
    split
    · next p _ =>
      rintro ⟨hp, hleast⟩
      refine ⟨p, rfl, ⟨hp.chain.imp fun u v hv => ((hgraph.mem_successors hsource).mp hv).1,
        hp.nodup, ⟨root, horigin, hp.head⟩, hp.last⟩, fun q hq => ?_⟩
      obtain ⟨o, ho, hhead⟩ := hq.head
      obtain ⟨hchain, hlead⟩ := hgraph.chain_successors hsource hq.chain hq.last
      obtain heq | hne := eq_or_ne o root
      · exact hleast q ⟨hchain, hq.nodup, heq ▸ hhead, hq.last⟩
      · -- another origin comes later than the least one
        have hpathO := hlead o hhead
        have hle : keys.getD root [] ≤ keys.getD o [] :=
          not_lt.mp
            (not_lt_of_mem_argmin ((hgraph.mem_leading hsource).mpr ⟨ho, hpathO⟩) hroot)
        have hkey : keys.getD root [] < keys.getD o [] := hle.lt_of_ne fun heq =>
          hne ((getD_inj hlt (hgraph.lt_of_path hsource hpathO) hkeys).mp heq).symm
        obtain ⟨p', rfl⟩ := head?_eq_some_iff.mp hp.head
        obtain ⟨q', rfl⟩ := head?_eq_some_iff.mp hhead
        exact (cons_lt_cons_iff.mpr (.inl hkey)).le
    · exact fun hnone => absurd hsome hnone

/-- Of the two paths through a diamond the witness takes the one with the smaller key. -/
theorem canonicalPath_least_diamond : ∃ p,
    canonicalPath [[9], [128], [1], [3], [10]] [[], [0], [0], [1, 2], []] [0, 4] 3 4
      = .ok (some (p ++ [4]))
    ∧ p.map (fun id => [[9], [128], [1], [3], [10]].getD id []) ≤ [[(9 : UInt8)], [1], [3]] := by
  have hedge (u v : ℕ) : Edge [[], [0], [0], [1, 2], []] u v
      ↔ u ∈ [[], [0], [0], [1, 2], []].getD v [] := Iff.rfl
  have h02 : Edge [[], [0], [0], [1, 2], []] 0 2 := (hedge 0 2).mpr (by decide)
  have h23 : Edge [[], [0], [0], [1, 2], []] 2 3 := (hedge 2 3).mpr (by decide)
  have hgraph : Graph [[9], [128], [1], [3], [10]] [[], [0], [0], [1, 2], []] := ⟨rfl, by decide⟩
  obtain ⟨p, hp, -, hleast⟩ := (canonicalPath_least (by decide) hgraph (by decide) [0, 4] 4).2
    ⟨0, by decide, .head h02 (.single h23)⟩
  exact ⟨p, hp, hleast [0, 2, 3] ⟨.cons_cons h02 (.cons_cons h23 (.singleton 3)), by decide,
    ⟨0, by decide, rfl⟩, rfl⟩⟩

end Zryna.Semantics.Instantiation.Expansion
