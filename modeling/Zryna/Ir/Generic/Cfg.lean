import Zryna.Foundation.Kahn
import Zryna.Ir.ControlFlow.Cfg
import Zryna.Ir.Generic.Inventory

/-!
# Control-flow graphs of closed functions

The numbering of values and blocks, the edges, the dominators, and the reducibility and nesting of
the loops of one closed function, as `cfg.rs` and `loops.rs` check them. The dominator computation is
the one of the older control-flow verifier.

`Graph.operand` is the use check: it answers with the type of a value that is defined on every path
to the use.
-/

namespace Zryna.Ir.Generic

open ControlFlow (Adjacency Intervals immediateDominators dominatorIntervals)
open Raw

/-! ### Loops -/

namespace Loops

/-- Adds to `members` every block that reaches the blocks on the stack backwards, up to marked
ones. The stack gets a block when it is marked. -/
def collect (predecessors : Adjacency) : ℕ → List ℕ → List Bool → List Bool
  | 0, _, members => members
  | _ + 1, [], members => members
  | fuel + 1, node :: pending, members =>
    let (members, pending) :=
      (predecessors.at node).foldl
        (fun (state : List Bool × List ℕ) previous =>
          if state.1.getD previous false then state
          else (state.1.set previous true, previous :: state.2))
        (members, pending)
    collect predecessors fuel pending members

/-- The pass over the edges: the forward edges, and the members of the loop of every header. A
block that is no header has no list of members. -/
structure State where
  forward : Adjacency
  loops : List (List Bool)
deriving DecidableEq

/-- A back edge adds to the loop of its header. -/
def addBackEdge (predecessors : Adjacency) (count source target : ℕ) (loops : List (List Bool)) :
    List (List Bool) :=
  let members := loops.getD target []
  let members := if members.isEmpty then List.replicate count false else members
  let members := members.set target true
  let (members, pending) :=
    if members.getD source false then (members, []) else (members.set source true, [source])
  loops.set target (collect predecessors (count + 1) pending members)

def addEdge (predecessors : Adjacency) (times : Intervals) (count source : ℕ) (state : State)
    (target : ℕ) : State :=
  if times.dominates target source then
    { state with loops := addBackEdge predecessors count source target state.loops }
  else { state with forward := state.forward.modify source (· ++ [target]) }

def addBlock (predecessors : Adjacency) (times : Intervals) (count : ℕ) (state : State)
    (entry : List ℕ × ℕ) : State :=
  entry.1.foldl (addEdge predecessors times count entry.2) state

/-- The number of loops that contain a block. -/
def nesting (loops : List (List Bool)) (node : ℕ) : ℕ := loops.countP (·.getD node false)

/-- Reducibility and loop nesting. Without its back edges the graph has to be acyclic. -/
def check (successors predecessors : Adjacency) (times : Intervals) : Except Failure Unit :=
  let count := successors.length
  let state := successors.zipIdx.foldl (addBlock predecessors times count)
    ⟨List.replicate count [], List.replicate count []⟩
  if (Kahn.run state.forward).seen ≠ count then
    .error (reject "closed CFG is irreducible after removing dominating backedges")
  else if (List.range count).any fun node =>
      DataOwnership.maxLoopNesting < nesting state.loops node then
    .error (budget "inherited loop nesting limit 128; first extra 129")
  else .ok ()

end Loops

/-! ### Values and edges -/

/-- A value of the dense arena: its type, and where it is defined. A parameter of a block has no
position. -/
structure Value where
  ty : Ty
  block : ℕ
  position : Option ℕ
deriving DecidableEq

structure Graph where
  values : List Value
  times : Intervals
deriving DecidableEq

/-- The value is defined on every path to the position. -/
def Graph.available (graph : Graph) (value : Value) (block position : ℕ) : Bool :=
  if value.block = block then value.position.all fun defined => defined < position
  else graph.times.dominates value.block block

def Graph.operand (graph : Graph) (block position : ℕ) (id : UInt32) : Except Failure Ty :=
  match graph.values[id.toNat]? with
  | none => .error (reject "unknown value operand")
  | some value =>
    if graph.available value block position then .ok value.ty
    else .error (reject "value is forward-referenced or does not dominate its use")

namespace Cfg

def ty (ty : Ty) (count : ℕ) : Except Failure Unit :=
  let within (index : UInt32) : Except Failure Unit :=
    if index.toNat ≥ count then
      .error (reject "value type is absent from the exact closed layout universe")
    else .ok ()
  match ty with
  | .stored id => within id
  | .borrow referent _ => within referent
  | .unit => .ok ()

def span (sources : SourceMap) (function at_ : UntrustedSpan) : Except Failure Unit :=
  if at_.file ≠ function.file ∨ at_.start < function.start ∨ at_.stop > function.stop
      ∨ (sources.verifySpan at_).isOk = false then
    .error (reject "body range is foreign, outside its declaration or not a UTF-8 boundary")
  else .ok ()

def definition (values : List Value) (definition : Definition) (block : ℕ) (position : Option ℕ)
    (count : ℕ) : Except Failure (List Value) :=
  if definition.id.toNat ≠ values.length then
    .error (reject "value IDs are not dense in complete block/definition order")
  else do
    ty definition.ty count
    .ok (values ++ [⟨definition.ty, block, position⟩])

/-- What the loop over the blocks keeps: the values and the edges so far. -/
structure State where
  values : List Value
  successors : Adjacency
  predecessors : Adjacency
deriving DecidableEq

/-- A list in increasing order, without repetitions. -/
def sortDedup (nodes : List ℕ) : List ℕ := (nodes.insertionSort (· ≤ ·)).dedup

variable (function : Function) (sources : SourceMap) (typeCount : ℕ)

def parameter (block : ℕ) (values : List Value) (parameter : Definition) :
    Except Failure (List Value) :=
  definition values parameter block none typeCount

def instruction (block : ℕ) (values : List Value) (entry : Instruction × ℕ) :
    Except Failure (List Value) := do
  span sources function.span entry.1.span
  definition values entry.1.result block (some entry.2) typeCount

/-- An edge out of a block is added to the successors of the block and to the predecessors of its
target. -/
def edge (block : ℕ) (state : List ℕ × Adjacency) (edge : Edge) :
    Except Failure (List ℕ × Adjacency) :=
  let target := edge.target.toNat
  if target = 0 ∨ target ≥ function.blocks.length ∨ edge.arguments.length > 256 then
    .error (reject "edge targets entry/unknown block or exceeds exact parameter arity")
  else .ok (state.1 ++ [target], state.2.modify target (· ++ [block]))

def block (state : State) (entry : Block × ℕ) : Except Failure State :=
  let (block, index) := entry
  if block.id.toNat ≠ index then .error (reject "block IDs are not dense canonical order")
  else do
    span sources function.span block.span
    let values ← block.parameters.foldlM (parameter typeCount index) state.values
    let values ←
      block.instructions.zipIdx.foldlM (instruction function sources typeCount index) values
    let (next, predecessors) ←
      (edges block.terminator).foldlM (edge function index) ([], state.predecessors)
    .ok ⟨values, state.successors ++ [sortDedup next], predecessors⟩

def build : Except Failure Graph :=
  match function.blocks with
  | [] => .error (reject "closed function has no entry block")
  | entry :: _ => do
    let state ← function.blocks.zipIdx.foldlM (block function sources typeCount)
      ⟨[], [], List.replicate function.blocks.length []⟩
    if entry.parameters.map Definition.ty ≠ function.parameters then
      .error (reject "entry parameters differ from the exact substituted signature")
    else
      let predecessors := state.predecessors.map sortDedup
      match immediateDominators state.successors predecessors with
      | none => .error (reject "CFG has unreachable claims or no complete canonical dominators")
      | some idom =>
        let times := dominatorIntervals idom
        Loops.check state.successors predecessors times
        .ok ⟨state.values, times⟩

end Cfg

end Zryna.Ir.Generic
