import Mathlib.Data.List.Sort
import Zryna.Ir.ControlFlow.Raw

/-!
# Graph algorithms of the `ControlFlowV1` verifier

The loops `verify_cfg` runs over the control-flow graph of one function, as the source writes
them: depth-first reachability, the iterative dominator computation over a reverse postorder, the
entry and exit times of a depth-first walk of the dominator tree, and the natural loop of a back
edge.

A graph is given by adjacency lists. Each `while` loop over an explicit stack is a structural
recursion on a step bound that the number of blocks and edges determines. The entry `usize::MAX`
of the dominator table, which stands for "not yet known", is `none`.
-/

namespace Zryna.Ir.ControlFlow

/-- Adjacency lists of a graph over `0, …, count - 1`. -/
abbrev Adjacency := List (List ℕ)

def Adjacency.at (adj : Adjacency) (node : ℕ) : List ℕ := adj.getD node []

/-- The number of edges. -/
def Adjacency.size (adj : Adjacency) : ℕ := (adj.map List.length).sum

/-! ### Reachability -/

def reachableLoop (successors : Adjacency) : ℕ → List ℕ → List Bool → List Bool
  | 0, _, reachable => reachable
  | _ + 1, [], reachable => reachable
  | fuel + 1, block :: stack, reachable =>
    if reachable.getD block false then reachableLoop successors fuel stack reachable
    else
      -- successors are pushed in reverse, so the first one is popped first
      reachableLoop successors fuel (successors.at block ++ stack) (reachable.set block true)

/-- Marks the blocks a depth-first walk from block zero visits. -/
def reachableFromEntry (successors : Adjacency) : List Bool :=
  reachableLoop successors (successors.size + 2) [0] (List.replicate successors.length false)

/-! ### Dominators -/

/-- The walk that lists blocks in postorder. The stack holds a block and the position of the next
successor to look at. -/
def postorderLoop (successors : Adjacency) : ℕ → List (ℕ × ℕ) → List Bool → List ℕ → List ℕ
  | 0, _, _, order => order
  | _ + 1, [], _, order => order
  | fuel + 1, (node, child) :: stack, visited, order =>
    match (successors.at node)[child]? with
    | some next =>
      if visited.getD next false then
        postorderLoop successors fuel ((node, child + 1) :: stack) visited order
      else
        postorderLoop successors fuel ((next, 0) :: (node, child + 1) :: stack)
          (visited.set next true) order
    | none => postorderLoop successors fuel stack visited (order ++ [node])

/-- Blocks in postorder of a depth-first walk from block zero. -/
def postorder (successors : Adjacency) : List ℕ :=
  postorderLoop successors (successors.size + successors.length + 1) [(0, 0)]
    ((List.replicate successors.length false).set 0 true) []

def positions (order : List ℕ) (count : ℕ) : List ℕ :=
  (List.range count).map fun block => order.idxOf block

/-- Dominator table under construction. -/
abbrev IdomTable := List (Option ℕ)

/-- One step up the table. A walk never leaves the known part of the table. -/
def IdomTable.parent (idom : IdomTable) (block : ℕ) : ℕ := ((idom[block]?).join).getD block

/-- Walks two blocks up the table until they meet. -/
def intersect (idom : IdomTable) (position : List ℕ) : ℕ → ℕ → ℕ → ℕ
  | 0, left, _ => left
  | fuel + 1, left, right =>
    if left = right then left
    else if position.getD left 0 > position.getD right 0 then
      intersect idom position fuel (idom.parent left) right
    else if position.getD right 0 > position.getD left 0 then
      intersect idom position fuel left (idom.parent right)
    else intersect idom position fuel left right

section

variable (predecessors : Adjacency) (position : List ℕ)

/-- The meet of the predecessors of `block` that already have an entry. -/
def dominatorCandidate (idom : IdomTable) (block : ℕ) : Option ℕ :=
  match (predecessors.at block).filter fun p => ((idom[p]?).join).isSome with
  | [] => none
  | first :: rest =>
    some (rest.foldl (fun candidate p =>
      intersect idom position (2 * position.length + 1) candidate p) first)

/-- Recompute the entry of one block, noting whether it changed. -/
def dominatorStep (state : IdomTable × Bool) (block : ℕ) : IdomTable × Bool :=
  match dominatorCandidate predecessors position state.1 block with
  | none => state
  | some candidate =>
    if (state.1[block]?).join = some candidate then state
    else (state.1.set block (some candidate), true)

/-- One round of the iteration, over the blocks of the reverse postorder after the entry. -/
def dominatorRound (blocks : List ℕ) (idom : IdomTable) : IdomTable × Bool :=
  blocks.foldl (dominatorStep predecessors position) (idom, false)

end

def dominatorLoop (predecessors : Adjacency) (position : List ℕ) (blocks : List ℕ) :
    ℕ → IdomTable → Option (List ℕ)
  | 0, _ => none
  | rounds + 1, idom =>
    let (next, changed) := dominatorRound predecessors position blocks idom
    if changed then dominatorLoop predecessors position blocks rounds next
    else next.mapM id

/-- Immediate dominators, block zero being its own. -/
def immediateDominators (successors predecessors : Adjacency) : Option (List ℕ) :=
  let count := successors.length
  let order := postorder successors
  if order.length ≠ count then none
  else
    let order := order.reverse
    let position := positions order count
    let idom := (List.replicate count none).set 0 (some 0)
    dominatorLoop predecessors position (order.drop 1) count idom

/-! ### Intervals of the dominator tree -/

/-- Children of each block in the dominator tree, in increasing order. -/
def dominatorChildren (idom : List ℕ) : Adjacency :=
  (List.range idom.length).map fun parent =>
    (List.range idom.length).filter fun block => block ≠ 0 && idom[block]? == some parent

/-- Entry and exit times of the blocks, with the clock that issued them. -/
structure Intervals where
  entry : List ℕ
  exit : List ℕ
  clock : ℕ
deriving DecidableEq

def intervalLoop (children : Adjacency) : ℕ → List (ℕ × Bool) → Intervals → Intervals
  | 0, _, times => times
  | _ + 1, [], times => times
  | fuel + 1, (node, true) :: stack, times =>
    intervalLoop children fuel stack
      { times with exit := times.exit.set node times.clock, clock := times.clock + 1 }
  | fuel + 1, (node, false) :: stack, times =>
    intervalLoop children fuel
      ((children.at node).map (fun child => (child, false)) ++ (node, true) :: stack)
      { times with entry := times.entry.set node times.clock, clock := times.clock + 1 }

/-- Entry and exit times of a depth-first walk of the dominator tree. -/
def dominatorIntervals (idom : List ℕ) : Intervals :=
  intervalLoop (dominatorChildren idom) (2 * idom.length + 1) [(0, false)]
    ⟨List.replicate idom.length 0, List.replicate idom.length 0, 0⟩

def Intervals.dominates (times : Intervals) (left right : ℕ) : Bool :=
  times.entry.getD left 0 ≤ times.entry.getD right 0
    && times.exit.getD right 0 ≤ times.exit.getD left 0

/-! ### Natural loops -/

/-- Adds to `members` every block that reaches the stack backwards without passing the header. -/
def loopMembers (predecessors : Adjacency) (header : ℕ) : ℕ → List ℕ → List Bool → List Bool
  | 0, _, members => members
  | _ + 1, [], members => members
  | fuel + 1, node :: stack, members =>
    if members.getD node false then loopMembers predecessors header fuel stack members
    else
      loopMembers predecessors header fuel
        (((predecessors.at node).filter (· ≠ header)).reverse ++ stack) (members.set node true)

/-- The member sets of the loops found so far, one for each header. -/
abbrev LoopTable := List (ℕ × List Bool)

/-- Adds the natural loop of the back edge `source → header`. -/
def LoopTable.addBackEdge (predecessors : Adjacency) (count source header : ℕ)
    (loops : LoopTable) : LoopTable :=
  let members := (loops.lookup header).getD (List.replicate count false)
  let members := members.set header true
  let members := loopMembers predecessors header (predecessors.size + 2) [source] members
  (header, members) :: loops.filter (·.1 ≠ header)

/-- The number of loops that contain a block. -/
def LoopTable.nesting (loops : LoopTable) (block : ℕ) : ℕ :=
  loops.countP fun entry => entry.2.getD block false

end Zryna.Ir.ControlFlow
