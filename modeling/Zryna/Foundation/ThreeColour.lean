import Mathlib.Data.List.Count
import Zryna.Foundation.OrderedMap

/-!
# Three-colour depth-first search

A depth-first walk with an explicit stack, as a program without recursion writes it. A node is grey
between the moment it is entered and the moment it is left, and black after that; entering a node
pushes a mark for leaving it and then its children. A child that is grey closes a cycle.

`Walked` is the invariant: the grey nodes are those whose mark is on the stack, each a child of the
next one below, and everything above the mark of a node is a child of the topmost grey node.
Shared nodes are therefore never taken for cycles. `walk_ok` and `walk_cycle` say what the walk
finds out.
-/

namespace Zryna.ThreeColour

open List
open Function (update update_self update_of_ne)

inductive Colour where
  | white
  | grey
  | black
deriving DecidableEq

inductive Failure where
  | cycle
  | absent
deriving DecidableEq

section Path

variable {μ : Type}

/-- The nodes to leave, the last entered one first. -/
def path (stack : List (μ × Bool)) : List μ :=
  stack.filterMap fun entry => if entry.2 then some entry.1 else none

@[simp] theorem path_leave (id : μ) (stack : List (μ × Bool)) :
    path ((id, true) :: stack) = id :: path stack := rfl

@[simp] theorem path_enter (id : μ) (stack : List (μ × Bool)) :
    path ((id, false) :: stack) = path stack := rfl

@[simp] theorem path_children (children : List μ) (stack : List (μ × Bool)) :
    path (children.map (·, false) ++ stack) = path stack := by
  induction children with
  | nil => rfl
  | cons child children ih => exact ih

end Path

variable {ν : Type} [LinearOrder ν]

/-- Nodes of the graph that have not been entered. -/
def unentered (graph : OrderedMap ν (List ν)) (colour : ν → Colour) : ℕ :=
  graph.entries.countP fun entry => colour entry.1 = .white

theorem countP_update_le (entries : List (ν × List ν)) (colour : ν → Colour) (id : ν)
    {c : Colour} (hc : c ≠ .white) :
    (entries.countP fun entry => update colour id c entry.1 = .white)
      ≤ entries.countP fun entry => colour entry.1 = .white := by
  refine countP_mono_left fun entry _ h => ?_
  simp only [decide_eq_true_eq] at h ⊢
  by_cases hid : entry.1 = id
  · rw [hid, update_self] at h
    exact absurd h hc
  · rwa [update_of_ne hid] at h

theorem unentered_enter {graph : OrderedMap ν (List ν)} {colour : ν → Colour} {id : ν}
    {children : List ν} (hchildren : graph.get? id = some children) (hwhite : colour id = .white) :
    unentered graph (update colour id .grey) < unentered graph colour := by
  unfold unentered
  obtain ⟨before, after, hentries⟩ := append_of_mem (OrderedMap.get?_eq_some.mp hchildren)
  have hbefore := countP_update_le before colour id (by decide : Colour.grey ≠ .white)
  have hafter := countP_update_le after colour id (by decide : Colour.grey ≠ .white)
  rw [hentries, countP_append, countP_append, countP_cons, countP_cons]
  simp only [update_self, hwhite, decide_true, decide_false, reduceCtorEq, if_true,
    Bool.false_eq_true, if_false]
  omega

/-- Walks on from a stack of nodes to enter (`false`) and to leave (`true`). -/
def walk (graph : OrderedMap ν (List ν)) (colour : ν → Colour) (stack : List (ν × Bool)) :
    Except Failure (ν → Colour) :=
  match stack with
  | [] => .ok colour
  | (id, true) :: stack => walk graph (update colour id .black) stack
  | (id, false) :: stack =>
    match _hcolour : colour id with
    | .grey => .error .cycle
    | .black => walk graph colour stack
    | .white =>
      match _hchildren : graph.get? id with
      | none => .error .absent
      | some children =>
        walk graph (update colour id .grey)
          (children.map (·, false) ++ (id, true) :: stack)
termination_by (unentered graph colour, stack.length)
decreasing_by
  · obtain hlt | heq := Nat.lt_or_eq_of_le
      (countP_update_le graph.entries colour id (by decide : Colour.black ≠ .white))
    · exact .left _ _ hlt
    · rw [unentered, heq]
      exact .right _ (Nat.lt_succ_self _)
  · exact .right _ (Nat.lt_succ_self _)
  · exact .left _ _ (unentered_enter _hchildren _hcolour)

section Rounds

variable {graph : OrderedMap ν (List ν)} {colour : ν → Colour} {id : ν} {stack : List (ν × Bool)}

theorem walk_nil : walk graph colour [] = .ok colour := by
  rw [walk.eq_def]

theorem walk_leave : walk graph colour ((id, true) :: stack)
    = walk graph (update colour id .black) stack := by
  rw [walk.eq_def]

theorem walk_grey (h : colour id = .grey) :
    walk graph colour ((id, false) :: stack) = .error .cycle := by
  rw [walk.eq_def]
  dsimp only
  split <;> simp_all

theorem walk_black (h : colour id = .black) :
    walk graph colour ((id, false) :: stack) = walk graph colour stack := by
  rw [walk.eq_def]
  dsimp only
  split <;> simp_all

theorem walk_absent (h : colour id = .white) (hnone : graph.get? id = none) :
    walk graph colour ((id, false) :: stack) = .error .absent := by
  rw [walk.eq_def]
  dsimp only
  split
  · simp_all
  · simp_all
  · split <;> simp_all

theorem walk_enter (h : colour id = .white) {children : List ν}
    (hchildren : graph.get? id = some children) : walk graph colour ((id, false) :: stack)
      = walk graph (update colour id .grey)
        (children.map (·, false) ++ (id, true) :: stack) := by
  rw [walk.eq_def]
  dsimp only
  split
  · simp_all
  · simp_all
  · split <;> simp_all

end Rounds

/-! ### The invariant -/

/-- `b` is a child of `a`. -/
def Edge (graph : OrderedMap ν (List ν)) (a b : ν) : Prop :=
  ∃ children, graph.get? a = some children ∧ b ∈ children

/-- What may stand on a stack: the root at the bottom, a child of the last entered node elsewhere. -/
def Follows (graph : OrderedMap ν (List ν)) (root : ν) (stack : List (ν × Bool)) (id : ν) : Prop :=
  match path stack with
  | [] => id = root
  | top :: _ => Edge graph top id

def Linked (graph : OrderedMap ν (List ν)) (root : ν) : List (ν × Bool) → Prop
  | [] => True
  | (id, _) :: stack => Follows graph root stack id ∧ Linked graph root stack

theorem Linked.children {graph : OrderedMap ν (List ν)} {root id : ν} {children : List ν}
    {stack : List (ν × Bool)} (h : Linked graph root stack) (hpath : path stack = id :: ids)
    (hchildren : ∀ child ∈ children, Edge graph id child) :
    Linked graph root (children.map (·, false) ++ stack) := by
  induction children with
  | nil => exact h
  | cons child children ih =>
    obtain ⟨hchild, hrest⟩ := forall_mem_cons.mp hchildren
    refine ⟨?_, ih hrest⟩
    show Follows graph root (children.map (·, false) ++ stack) child
    rw [Follows, path_children, hpath]
    exact hchild

/-- What holds between the rounds of a walk. -/
structure Walked (graph : OrderedMap ν (List ν)) (root : ν) (colour : ν → Colour)
    (stack : List (ν × Bool)) : Prop where
  linked : Linked graph root stack
  nodup : (path stack).Nodup
  grey : ∀ id, colour id = .grey ↔ id ∈ path stack
  above : ∀ above id below, stack = above ++ (id, true) :: below → ∀ child, Edge graph id child →
    colour child = .black ∨ child ∈ above.map Prod.fst
  closed : ∀ id, colour id = .black → ∀ child, Edge graph id child → colour child = .black
  acyclic : ∀ id, colour id = .black → ¬Relation.TransGen (Edge graph) id id
  reached : ∀ id, colour id ≠ .white → Relation.ReflTransGen (Edge graph) root id
  known : ∀ id, colour id ≠ .white → (graph.get? id).isSome
  root : colour root ≠ .white ∨ (root, false) ∈ stack

namespace Walked

variable {graph : OrderedMap ν (List ν)} {root id : ν} {colour : ν → Colour}
  {stack : List (ν × Bool)}

theorem start (graph : OrderedMap ν (List ν)) (root : ν) :
    Walked graph root (fun _ => .white) [(root, false)] where
  linked := ⟨rfl, trivial⟩
  nodup := .nil
  grey := by simp [path]
  above := by
    intro above id below h
    cases above with
    | nil => cases h
    | cons entry above => simp at h
  closed := by simp
  acyclic := by simp
  reached := by simp
  known := by simp
  root := .inr mem_cons_self

theorem reached_top {leaving : Bool} (h : Walked graph root colour ((id, leaving) :: stack))
    (hpath : ∀ top ∈ path stack, colour top ≠ .white) :
    Relation.ReflTransGen (Edge graph) root id := by
  have hfollows := h.linked.1
  unfold Follows at hfollows
  cases htop : path stack with
  | nil =>
    rw [htop] at hfollows
    rw [hfollows]
  | cons top ids =>
    rw [htop] at hfollows
    exact .tail (h.reached top (hpath top (htop ▸ mem_cons_self))) hfollows

/-- From a black node only black nodes are reached. -/
theorem black_of_reached (h : Walked graph root colour stack) {a b : ν} (ha : colour a = .black)
    (hab : Relation.ReflTransGen (Edge graph) a b) : colour b = .black := by
  induction hab with
  | refl => exact ha
  | tail _ hedge ih => exact h.closed _ ih _ hedge

/-- A black node is not entered again. -/
theorem skip (h : Walked graph root colour ((id, false) :: stack)) (hblack : colour id = .black) :
    Walked graph root colour stack where
  linked := h.linked.2
  nodup := h.nodup
  grey := h.grey
  above := by
    intro above x below hstack child hchild
    obtain hcolour | hmem := h.above ((id, false) :: above) x below (by rw [hstack]; rfl) child hchild
    · exact .inl hcolour
    · obtain rfl | hmem := mem_cons.mp hmem
      · exact .inl hblack
      · exact .inr hmem
  closed := h.closed
  acyclic := h.acyclic
  reached := h.reached
  known := h.known
  root := by
    obtain hroot | hmem := h.root
    · exact .inl hroot
    · obtain heq | hmem := mem_cons.mp hmem
      · cases heq
        exact .inl (by rw [hblack]; decide)
      · exact .inr hmem

/-- A node whose children are all black turns black. -/
theorem leave (h : Walked graph root colour ((id, true) :: stack)) :
    Walked graph root (update colour id .black) stack := by
  have hnodup : id ∉ path stack ∧ (path stack).Nodup := nodup_cons.mp h.nodup
  have hgrey : colour id = .grey := (h.grey id).mpr mem_cons_self
  have hchildren : ∀ child, Edge graph id child → colour child = .black := by
    intro child hchild
    simpa using h.above [] id stack rfl child hchild
  have hkeeps {x : ν} (hx : colour x = .black) : update colour id .black x = .black := by
    by_cases hid : x = id
    · rw [hid, update_self]
    · rwa [update_of_ne hid]
  have hseen {x : ν} (hx : update colour id .black x ≠ .white) : colour x ≠ .white := by
    by_cases hid : x = id
    · rw [hid, hgrey]
      decide
    · rwa [update_of_ne hid] at hx
  refine ⟨h.linked.2, hnodup.2, fun x => ?_, fun above x below hstack child hchild => ?_,
    fun x hx child hchild => ?_, fun x hx hcycle => ?_, fun x hx => h.reached x (hseen hx),
    fun x hx => h.known x (hseen hx), ?_⟩
  · by_cases hid : x = id
    · rw [hid, update_self]
      simp [hnodup.1]
    · rw [update_of_ne hid, h.grey, path_leave, mem_cons, or_iff_right hid]
  · obtain hcolour | hmem := h.above ((id, true) :: above) x below (by rw [hstack]; rfl) child hchild
    · exact .inl (hkeeps hcolour)
    · obtain rfl | hmem := mem_cons.mp hmem
      · exact .inl (update_self ..)
      · exact .inr hmem
  · by_cases hid : x = id
    · exact hkeeps (hchildren child (hid ▸ hchild))
    · rw [update_of_ne hid] at hx
      exact hkeeps (h.closed x hx child hchild)
  · by_cases hid : x = id
    · -- the children were black before, and so is all they lead to
      subst hid
      obtain ⟨child, hchild, hback⟩ := Relation.TransGen.head'_iff.mp hcycle
      have hblack := h.black_of_reached (hchildren child hchild) hback
      rw [hgrey] at hblack
      cases hblack
    · rw [update_of_ne hid] at hx
      exact h.acyclic x hx hcycle
  · obtain hroot | hmem := h.root
    · left
      by_cases hid : root = id
      · rw [hid, update_self]
        decide
      · rwa [update_of_ne hid]
    · exact .inr (by simpa using hmem)

theorem path_ne_white (h : Walked graph root colour stack) :
    ∀ x ∈ path stack, colour x ≠ .white := by
  intro x hx
  rw [(h.grey x).mpr hx]
  decide

variable (h : Walked graph root colour ((id, false) :: stack))

include h

/-- A white node turns grey, with its children to enter. -/
theorem enter (hwhite : colour id = .white)
    {children : List ν} (hchildren : graph.get? id = some children) :
    Walked graph root (update colour id .grey)
      (children.map (·, false) ++ (id, true) :: stack) := by
  have hnot : id ∉ path stack := by
    intro hmem
    exact h.path_ne_white id hmem hwhite
  have hedge : ∀ child, Edge graph id child ↔ child ∈ children := by
    intro child
    constructor
    · rintro ⟨children', hchildren', hchild⟩
      obtain rfl := Option.some.inj (hchildren.symm.trans hchildren')
      exact hchild
    · exact fun hchild => ⟨children, hchildren, hchild⟩
  have hkeeps {x : ν} (hx : colour x = .black) : update colour id .grey x = .black := by
    rwa [update_of_ne]
    rintro rfl
    rw [hwhite] at hx
    cases hx
  have hblack {x : ν} (hx : update colour id .grey x = .black) : colour x = .black := by
    by_cases hid : x = id
    · rw [hid, update_self] at hx
      cases hx
    · rwa [update_of_ne hid] at hx
  refine ⟨?_, ?_, fun x => ?_, fun above x below hstack child hchild => ?_,
    fun x hx child hchild => hkeeps (h.closed x (hblack hx) child hchild),
    fun x hx => h.acyclic x (hblack hx), fun x hx => ?_, fun x hx => ?_, ?_⟩
  · exact Linked.children h.linked rfl fun child hchild => (hedge child).mpr hchild
  · rw [path_children, path_leave]
    exact nodup_cons.mpr ⟨hnot, h.nodup⟩
  · rw [path_children, path_leave, mem_cons]
    by_cases hid : x = id
    · simp [hid]
    · rw [update_of_ne hid, or_iff_right hid]
      exact h.grey x
  · rw [append_eq_append_iff] at hstack
    have hchildrenCase (hx : x = id) (habove : above = children.map (·, false)) :
        child ∈ above.map Prod.fst := by
      rw [habove, map_map]
      exact mem_map.mpr ⟨child, (hedge child).mp (hx ▸ hchild), rfl⟩
    obtain ⟨before, habove, hrest⟩ | ⟨after, hmap, hrest⟩ := hstack
    · cases before with
      | nil =>
        simp only [nil_append, List.cons.injEq, Prod.mk.injEq, and_true] at hrest
        exact .inr (hchildrenCase hrest.1.symm (by rw [habove, append_nil]))
      | cons entry before =>
        rw [cons_append, List.cons.injEq] at hrest
        obtain ⟨rfl, hrest⟩ := hrest
        -- the mark was on the stack before, and the entered node above it
        obtain hcolour | hmem :=
          h.above ((id, false) :: before) x below (by rw [hrest]; rfl) child hchild
        · exact .inl (hkeeps hcolour)
        · right
          rw [habove, map_append]
          exact mem_append_right _ hmem
    · cases after with
      | nil =>
        simp only [nil_append, List.cons.injEq, Prod.mk.injEq, and_true] at hrest
        exact .inr (hchildrenCase hrest.1 (by rw [hmap, append_nil]))
      | cons entry after =>
        rw [cons_append, List.cons.injEq] at hrest
        have hentry : entry ∈ children.map (·, false) := by simp [hmap]
        rw [← hrest.1] at hentry
        simp at hentry
  · by_cases hid : x = id
    · rw [hid]
      exact h.reached_top fun top htop => h.path_ne_white top htop
    · rw [update_of_ne hid] at hx
      exact h.reached x hx
  · by_cases hid : x = id
    · rw [hid, hchildren]
      rfl
    · rw [update_of_ne hid] at hx
      exact h.known x hx
  · by_cases hid : root = id
    · left
      rw [hid, update_self]
      decide
    · obtain hroot | hmem := h.root
      · exact .inl (by rwa [update_of_ne hid])
      · obtain heq | hmem := mem_cons.mp hmem
        · cases heq
          exact absurd rfl hid
        · exact .inr (mem_append_right _ (mem_cons_of_mem _ hmem))

/-- A grey node on top of the stack closes a cycle. -/
theorem cycle (hgrey : colour id = .grey) : Relation.TransGen (Edge graph) id id := by
  have hlinked : ∀ (stack : List (ν × Bool)), Linked graph root stack → id ∈ path stack →
      ∃ top ids, path stack = top :: ids ∧ Relation.ReflTransGen (Edge graph) id top := by
    intro stack hlinked hmem
    induction stack with
    | nil => cases hmem
    | cons entry stack ih =>
      obtain ⟨x, leaving⟩ := entry
      cases leaving with
      | false => exact ih hlinked.2 hmem
      | true =>
        refine ⟨x, path stack, rfl, ?_⟩
        obtain rfl | hmem := mem_cons.mp hmem
        · exact .refl
        · obtain ⟨top, ids, hpath, hreached⟩ := ih hlinked.2 hmem
          have hfollows := hlinked.1
          rw [Follows, hpath] at hfollows
          exact .tail hreached hfollows
  obtain ⟨top, ids, hpath, hreached⟩ := hlinked stack h.linked.2 ((h.grey id).mp hgrey)
  have hfollows := h.linked.1
  rw [Follows, hpath] at hfollows
  exact .tail' hreached hfollows

end Walked

/-! ### What a walk finds out -/

section Walk

variable {graph : OrderedMap ν (List ν)} {root : ν} {colour : ν → Colour}
  {stack : List (ν × Bool)}

/-- A walk keeps the invariant to its end, or stops at a cycle or at a node that does not exist. -/
theorem walk_walked (h : Walked graph root colour stack) :
    match walk graph colour stack with
    | .ok colour' => Walked graph root colour' []
    | .error .cycle => ∃ id, Relation.ReflTransGen (Edge graph) root id
        ∧ Relation.TransGen (Edge graph) id id
    | .error .absent => ∃ id, Relation.ReflTransGen (Edge graph) root id
        ∧ graph.get? id = none := by
  induction colour, stack using walk.induct graph with
  | case1 colour =>
    rw [walk_nil]
    exact h
  | case2 colour id stack ih =>
    rw [walk_leave]
    exact ih h.leave
  | case3 colour id stack hgrey =>
    rw [walk_grey hgrey]
    exact ⟨id, h.reached id (by rw [hgrey]; decide), h.cycle hgrey⟩
  | case4 colour id stack hblack ih =>
    rw [walk_black hblack]
    exact ih (h.skip hblack)
  | case5 colour id stack hwhite hnone =>
    rw [walk_absent hwhite hnone]
    exact ⟨id, h.reached_top h.path_ne_white, hnone⟩
  | case6 colour id stack hwhite children hchildren ih =>
    rw [walk_enter hwhite hchildren]
    exact ih (h.enter hwhite hchildren)

/-- A finished walk from the root: what is reached is black, exists, and lies on no cycle. -/
theorem walk_ok (hrun : walk graph (fun _ => .white) [(root, false)] = .ok colour) {id : ν} :
    (colour id = .black ↔ Relation.ReflTransGen (Edge graph) root id)
      ∧ (Relation.ReflTransGen (Edge graph) root id → (graph.get? id).isSome
        ∧ ¬Relation.TransGen (Edge graph) id id) := by
  have h := walk_walked (Walked.start graph root)
  rw [hrun] at h
  have hblack {x : ν} (hx : colour x ≠ .white) : colour x = .black := by
    cases hcolour : colour x with
    | white => exact absurd hcolour hx
    | grey => exact absurd ((h.grey x).mp hcolour) not_mem_nil
    | black => rfl
  have hroot : colour root = .black := hblack (h.root.resolve_right not_mem_nil)
  have hreached : colour id = .black ↔ Relation.ReflTransGen (Edge graph) root id :=
    ⟨fun hid => h.reached id (by rw [hid]; decide), h.black_of_reached hroot⟩
  refine ⟨hreached, fun hid => ?_⟩
  have hid' := hreached.mpr hid
  exact ⟨h.known id (by rw [hid']; decide), h.acyclic id hid'⟩

/-- A walk from the root finishes when what is reached exists and lies on no cycle. -/
theorem walk_finishes (hknown : ∀ id, Relation.ReflTransGen (Edge graph) root id →
      (graph.get? id).isSome ∧ ¬Relation.TransGen (Edge graph) id id) :
    ∃ colour, walk graph (fun _ => .white) [(root, false)] = .ok colour := by
  have h := walk_walked (Walked.start graph root)
  cases hrun : walk graph (fun _ => .white) [(root, false)] with
  | ok colour => exact ⟨colour, rfl⟩
  | error failure =>
    rw [hrun] at h
    cases failure with
    | cycle =>
      obtain ⟨id, hreached, hcycle⟩ := h
      exact absurd hcycle (hknown id hreached).2
    | absent =>
      obtain ⟨id, hreached, hnone⟩ := h
      exact absurd hnone (Option.isSome_iff_ne_none.mp (hknown id hreached).1)

end Walk

end Zryna.ThreeColour
