import Mathlib.Data.List.Dedup
import Mathlib.Data.List.Lex
import Mathlib.Data.List.Sort
import Zryna.Layout.Preflight

/-!
# Recursion by value

The fourth pass of the aggregate layout verifier, over the nodes in canonical order: a type must not
store itself by value, and types must not be nested deeper than `maxTraversalDepth`. The pass lists
the types in the order in which a depth-first walk finishes them, walks the reversed edges in the
reversed order to find the components, and computes depths along the first order.

The loops end because a round marks a node, or leaves less of the edges on the stack.
-/

namespace Zryna.Layout.Aggregate

open Raw List

/-- By-value children of every type, in increasing order. -/
def canonicalAdjacency (types : List TypeNode) : List (List ℕ) :=
  types.map fun node => (node.kind.byValueChildren.mergeSort (· ≤ ·)).dedup

section Walk

variable (adjacency : List (List ℕ))

def childrenOf (node : ℕ) : List ℕ := adjacency.getD node []

/-- Rounds that a stack can take without marking a node. -/
def stackRounds (stack : List (ℕ × ℕ)) : ℕ :=
  (stack.map fun entry => (childrenOf adjacency entry.1).length - entry.2 + 1).sum

theorem stackRounds_next {node next child : ℕ} (stack : List (ℕ × ℕ))
    (h : (childrenOf adjacency node)[next]? = some child) :
    stackRounds adjacency ((node, next + 1) :: stack)
      < stackRounds adjacency ((node, next) :: stack) := by
  have hnext := (List.getElem?_eq_some_iff.mp h).1
  simp only [stackRounds, map_cons, sum_cons]
  omega

theorem stackRounds_pop (entry : ℕ × ℕ) (stack : List (ℕ × ℕ)) :
    stackRounds adjacency stack < stackRounds adjacency (entry :: stack) := by
  simp only [stackRounds, map_cons, sum_cons]
  omega

/-- The walk from the nodes on the stack, each with the position of its next child. -/
def finishLoop (visited : List Bool) (stack : List (ℕ × ℕ)) (finish : List ℕ) :
    List Bool × List ℕ :=
  match stack with
  | [] => (visited, finish)
  | (node, next) :: stack =>
    match h : (childrenOf adjacency node)[next]? with
    | some child =>
      if visited[child]? = some false then
        finishLoop (visited.set child true) ((child, 0) :: (node, next + 1) :: stack) finish
      else finishLoop visited ((node, next + 1) :: stack) finish
    | none => finishLoop visited stack (finish ++ [node])
termination_by (visited.count false, stackRounds adjacency stack)
decreasing_by
  · next hnew => exact .left _ _ (by have := count_set_true hnew; omega)
  · exact .right _ (stackRounds_next adjacency stack h)
  · exact .right _ (stackRounds_pop adjacency _ stack)

/-- All types, in the order in which the walk finishes them. -/
def graphFinishOrder : List ℕ :=
  ((List.range adjacency.length).foldl
    (fun (visited, finish) root =>
      if visited[root]? = some false then
        finishLoop adjacency (visited.set root true) [(root, 0)] finish
      else (visited, finish))
    (List.replicate adjacency.length false, [])).2

/-- The types that store a type by value, in increasing order. -/
def parentsOf (node : ℕ) : List ℕ :=
  (List.range adjacency.length).filter fun source => node ∈ childrenOf adjacency source

section

variable (parents : List ℕ) (assigned : List Bool) (pending : List ℕ)

/-- Pushes the parents that have no component yet. -/
def pushParents : List Bool × List ℕ :=
  parents.foldl
    (fun (assigned, pending) parent =>
      if assigned[parent]? = some false then (assigned.set parent true, parent :: pending)
      else (assigned, pending))
    (assigned, pending)

theorem pushParents_rounds :
    (pushParents parents assigned pending).2.length
        + (pushParents parents assigned pending).1.count false
      = pending.length + assigned.count false := by
  unfold pushParents
  induction parents generalizing assigned pending with
  | nil => rfl
  | cons parent parents ih =>
    rw [foldl_cons]
    by_cases h : assigned[parent]? = some false
    · simp only [h, if_true]
      rw [ih, length_cons]
      have := count_set_true h
      omega
    · simp only [h, if_false]
      exact ih assigned pending

end

/-- The component of the pending nodes, along the reversed edges. -/
def componentLoop (assigned : List Bool) (pending component : List ℕ) : List Bool × List ℕ :=
  match pending with
  | [] => (assigned, component)
  | node :: pending =>
    let pushed := pushParents (parentsOf adjacency node).reverse assigned pending
    componentLoop pushed.1 pushed.2 (component ++ [node])
termination_by pending.length + assigned.count false
decreasing_by
  have := pushParents_rounds (parentsOf adjacency node).reverse assigned pending
  simp only [length_cons]
  omega

/-- One root of the second walk: its component, when the component has a cycle. -/
def visitComponent (state : List Bool × List (List ℕ)) (root : ℕ) : List Bool × List (List ℕ) :=
  let (assigned, cyclic) := state
  if assigned[root]? = some false then
    let (assigned, component) := componentLoop adjacency (assigned.set root true) [root] []
    if component.length > 1 ∨ root ∈ childrenOf adjacency root then
      (assigned, cyclic ++ [component.mergeSort (· ≤ ·)])
    else (assigned, cyclic)
  else state

def cyclicComponents : List (List ℕ) :=
  ((graphFinishOrder adjacency).reverse.foldl (visitComponent adjacency)
    (List.replicate adjacency.length false, [])).2

/-! ### The reported cycle -/

/-- Follows parents back to the start. A path has at most as many steps as there are nodes. -/
def pathTo (start : ℕ) (parent : ℕ → Option ℕ) : ℕ → ℕ → List ℕ → List ℕ
  | 0, _, path => path
  | steps + 1, cursor, path =>
    if cursor = start then path
    else match parent cursor with
      | none => path
      | some previous => pathTo start parent steps previous (cursor :: path)

/-- A path from the nodes on the stack back to the start, inside a component. -/
def cycleLoop (members : List ℕ) (start : ℕ) (visited : List Bool) (parent : ℕ → Option ℕ)
    (stack : List (ℕ × ℕ)) : Option (List ℕ) :=
  match stack with
  | [] => none
  | (node, next) :: stack =>
    match h : (childrenOf adjacency node)[next]? with
    | none => cycleLoop members start visited parent stack
    | some child =>
      if child ∈ members ∧ child = start then
        some (start :: pathTo start parent (adjacency.length + 1) node [])
      else if child ∈ members ∧ visited[child]? = some false then
        cycleLoop members start (visited.set child true)
          (fun other => if other = child then some node else parent other)
          ((child, 0) :: (node, next + 1) :: stack)
      else cycleLoop members start visited parent ((node, next + 1) :: stack)
termination_by (visited.count false, stackRounds adjacency stack)
decreasing_by
  · exact .right _ (stackRounds_pop adjacency _ stack)
  · next hnew => exact .left _ _ (by have := count_set_true hnew.2; omega)
  · exact .right _ (stackRounds_next adjacency stack h)

def deterministicComponentCycle (component : List ℕ) : List ℕ :=
  let start := component.headD 0
  if start ∈ childrenOf adjacency start then [start]
  else
    (((childrenOf adjacency start).filter (· ∈ component)).findSome? fun first =>
      cycleLoop adjacency component start
        (((List.replicate adjacency.length false).set start true).set first true)
        (fun node => if node = first then some start else none) [(first, 0)]).getD [start]

/-! ### The pass -/

/-- The depth of one more type. The verifier leaves the loop at the first limit. -/
def visitDepth (depth : ℕ → ℕ) (node : ℕ) : Report Diagnostic (ℕ → ℕ) := do
  let nodeDepth := ((childrenOf adjacency node).map depth).foldl max 0 + 1
  Report.limitIf (nodeDepth > maxTraversalDepth)
    (limitError "by-value traversal depth" maxTraversalDepth)
  pure fun other => if other = node then nodeDepth else depth other

end Walk

def rejectByValueCycles (types : List TypeNode) : Report Diagnostic Unit :=
  let adjacency := canonicalAdjacency types
  match ((cyclicComponents adjacency).mergeSort (· ≤ ·)).head? with
  | some component =>
    let cycle := deterministicComponentCycle adjacency component
    Report.push (globalError "ZRYNA-L3002"
      s!"by-value recursive layout through canonical TypeIds {cycle}"
      "place recursive ownership behind Vec, Shared, or Weak")
  | none => do
    let _ ← (graphFinishOrder adjacency).foldlM (visitDepth adjacency) fun _ => 1
    pure ()

/-! ### Types without by-value children -/

section Flat

variable {types : List TypeNode} (hflat : ∀ node ∈ types, node.kind.byValueChildren = [])
include hflat

theorem childrenOf_flat (node : ℕ) : childrenOf (canonicalAdjacency types) node = [] := by
  unfold childrenOf canonicalAdjacency
  rw [getD_eq_getElem?_getD, getElem?_map]
  cases hnode : types[node]? with
  | none => rfl
  | some typeNode => simp [hflat typeNode (mem_of_getElem? hnode)]

theorem parentsOf_flat (node : ℕ) : parentsOf (canonicalAdjacency types) node = [] := by
  unfold parentsOf
  simp [childrenOf_flat hflat]

theorem cyclicComponents_flat : cyclicComponents (canonicalAdjacency types) = [] := by
  unfold cyclicComponents
  have hvisit (state : List Bool × List (List ℕ)) (root : ℕ) (hstate : state.2 = []) :
      (visitComponent (canonicalAdjacency types) state root).2 = [] := by
    obtain ⟨assigned, cyclic⟩ := state
    unfold visitComponent
    dsimp only
    split
    · -- the component of a root without parents is the root
      have hcomponent : (componentLoop (canonicalAdjacency types) (assigned.set root true) [root]
          []).2 = [root] := by
        rw [componentLoop]
        simp only [parentsOf_flat hflat, reverse_nil, pushParents, foldl_nil]
        rw [componentLoop]
        rfl
      rw [hcomponent, childrenOf_flat hflat]
      simpa using hstate
    · exact hstate
  generalize (graphFinishOrder (canonicalAdjacency types)).reverse = order
  have hfold (state : List Bool × List (List ℕ)) (hstate : state.2 = []) :
      (order.foldl (visitComponent (canonicalAdjacency types)) state).2 = [] := by
    induction order generalizing state with
    | nil => exact hstate
    | cons root order ih => exact ih _ (hvisit state root hstate)
  exact hfold _ rfl

/-- Types that store no other type by value pass. -/
theorem clean_rejectByValueCycles_flat : (rejectByValueCycles types).Clean := by
  unfold rejectByValueCycles
  dsimp only
  rw [cyclicComponents_flat hflat]
  have hround (depth : ℕ → ℕ) (node : ℕ) :
      (visitDepth (canonicalAdjacency types) depth node).Clean := by
    unfold visitDepth
    rw [childrenOf_flat hflat]
    simp [maxTraversalDepth]
  have hfold := Report.clean_foldlM (P := fun _ => True)
    (graphFinishOrder (canonicalAdjacency types))
    (fun depth node _ => iff_of_true (hround depth node) trivial) fun _ => 1
  simpa using hfold

end Flat

end Zryna.Layout.Aggregate
