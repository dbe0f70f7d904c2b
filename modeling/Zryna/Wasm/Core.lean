import Zryna.Foundation.Outcome
import Zryna.Wasm.Leb128

/-!
# A core of WebAssembly

The part of WebAssembly 1.0 that works on `i32` locals and structured control with empty block
types: syntax, evaluation, and the binary format of function bodies.

Evaluation is structural in the code. Fuel bounds two things only: how often a loop is re-entered
and how deep calls nest. Running out of fuel is the outcome `timeout`; a trap is a fault, and so is
code that validation would reject (`Fault.invalid`). A function that diverges is one that runs out
of every fuel.

A branch is a signal that travels outwards through the enclosing constructs: a block or a
conditional turns a branch to itself into normal completion, a loop turns it into another round.
-/

namespace Zryna.Wasm

abbrev I32 := BitVec 32

/-! ### Syntax -/

/-- Binary operations. Comparisons leave `1` or `0`. -/
inductive BinaryOp where
  | eq
  | ne
  | ltS
  | gtS
  | leS
  | geS
  | add
  | sub
  | mul
  | or
deriving DecidableEq

/-- Instructions. Blocks, loops and conditionals have the empty block type. -/
inductive Instr where
  | unreachable
  | block (body : List Instr)
  | loop (body : List Instr)
  | ifElse (thenBody elseBody : List Instr)
  | br (depth : BitVec 32)
  | brIf (depth : BitVec 32)
  | ret
  | call (index : BitVec 32)
  | localGet (index : BitVec 32)
  | localSet (index : BitVec 32)
  | const (value : I32)
  | binary (op : BinaryOp)

/-- A function with one `i32` result. -/
structure Func where
  parameters : ℕ
  locals : ℕ
  body : List Instr

/-! ### Evaluation -/

/-- A truth value on the stack. -/
def ofBool (b : Bool) : I32 := if b then 1 else 0

def BinaryOp.apply : BinaryOp → I32 → I32 → I32
  | .eq, lhs, rhs => ofBool (lhs == rhs)
  | .ne, lhs, rhs => ofBool (lhs != rhs)
  | .ltS, lhs, rhs => ofBool (lhs.slt rhs)
  | .gtS, lhs, rhs => ofBool (rhs.slt lhs)
  | .leS, lhs, rhs => ofBool (lhs.sle rhs)
  | .geS, lhs, rhs => ofBool (rhs.sle lhs)
  | .add, lhs, rhs => lhs + rhs
  | .sub, lhs, rhs => lhs - rhs
  | .mul, lhs, rhs => lhs * rhs
  | .or, lhs, rhs => lhs ||| rhs

/-- Why an evaluation stopped without a result. -/
inductive Fault where
  | trap
  | invalid
deriving DecidableEq

/-- Locals and operand stack of an activation. The top of the stack is the head of the list. -/
structure Frame where
  locals : List I32
  stack : List I32
deriving DecidableEq

/-- How a piece of code completed. -/
inductive Signal where
  | next
  | branch (depth : ℕ)
  | exit (value : I32)
deriving DecidableEq

abbrev Completion := Outcome Fault (Frame × Signal)

/-- Leaves a block or a conditional whose outside stack is `stack`. A branch to the construct
completes it and discards the operands above `stack`. -/
def leaveBlock (stack : List I32) : Frame × Signal → Completion
  | (frame, .next) =>
    if frame.stack = [] then .done (⟨frame.locals, stack⟩, .next) else .fault .invalid
  | (frame, .branch 0) => .done (⟨frame.locals, stack⟩, .next)
  | (frame, .branch (depth + 1)) => .done (frame, .branch depth)
  | (frame, .exit value) => .done (frame, .exit value)

/-- Rounds of a loop. A branch to the loop starts the next round, for at most `fuel` rounds. -/
def loopRounds (round : List I32 → Completion) (stack : List I32) : ℕ → List I32 → Completion
  | 0, _ => .timeout
  | fuel + 1, locals => do
    let (frame, signal) ← round locals
    match signal with
    | .next => if frame.stack = [] then .done (⟨frame.locals, stack⟩, .next) else .fault .invalid
    | .branch 0 => loopRounds round stack fuel frame.locals
    | .branch (depth + 1) => .done (frame, .branch depth)
    | .exit value => .done (frame, .exit value)

section Exec

variable (funcs : List Func) (invoke : ℕ → List I32 → Outcome Fault I32) (fuel : ℕ)

mutual

/-- One instruction. -/
def execInstr : Instr → Frame → Completion
  | .unreachable, _ => .fault .trap
  | .block body, frame => do
    let completion ← exec body ⟨frame.locals, []⟩
    leaveBlock frame.stack completion
  | .loop body, frame =>
    loopRounds (fun locals => exec body ⟨locals, []⟩) frame.stack fuel frame.locals
  | .ifElse thenBody elseBody, frame =>
    match frame.stack with
    | [] => .fault .invalid
    | condition :: stack => do
      let completion ←
        if condition ≠ 0 then exec thenBody ⟨frame.locals, []⟩
        else exec elseBody ⟨frame.locals, []⟩
      leaveBlock stack completion
  | .br depth, frame => .done (frame, .branch depth.toNat)
  | .brIf depth, frame =>
    match frame.stack with
    | [] => .fault .invalid
    | condition :: stack =>
      if condition ≠ 0 then .done (⟨frame.locals, stack⟩, .branch depth.toNat)
      else .done (⟨frame.locals, stack⟩, .next)
  | .ret, frame =>
    match frame.stack with
    | [] => .fault .invalid
    | value :: _ => .done (frame, .exit value)
  | .call index, frame =>
    match funcs[index.toNat]? with
    | none => .fault .invalid
    | some func =>
      if frame.stack.length < func.parameters then .fault .invalid
      else do
        let value ← invoke index.toNat (frame.stack.take func.parameters).reverse
        .done (⟨frame.locals, value :: frame.stack.drop func.parameters⟩, .next)
  | .localGet index, frame =>
    match frame.locals[index.toNat]? with
    | none => .fault .invalid
    | some value => .done (⟨frame.locals, value :: frame.stack⟩, .next)
  | .localSet index, frame =>
    match frame.stack with
    | [] => .fault .invalid
    | value :: stack =>
      if index.toNat < frame.locals.length then
        .done (⟨frame.locals.set index.toNat value, stack⟩, .next)
      else .fault .invalid
  | .const value, frame => .done (⟨frame.locals, value :: frame.stack⟩, .next)
  | .binary op, frame =>
    match frame.stack with
    | rhs :: lhs :: stack => .done (⟨frame.locals, op.apply lhs rhs :: stack⟩, .next)
    | _ => .fault .invalid

/-- A sequence of instructions, left as soon as one does not complete normally. -/
def exec : List Instr → Frame → Completion
  | [], frame => .done (frame, .next)
  | instr :: rest, frame => do
    let (frame, signal) ← execInstr instr frame
    match signal with
    | .next => exec rest frame
    | signal => .done (frame, signal)

end

/-- The body of a function: its result is the returned value, or the only value left on the
stack. -/
def execBody (func : Func) (arguments : List I32) : Outcome Fault I32 := do
  let (frame, signal) ←
    exec funcs invoke fuel func.body ⟨arguments ++ List.replicate func.locals 0, []⟩
  match signal, frame.stack with
  | .next, [value] => .done value
  | .branch 0, value :: _ => .done value
  | .exit value, _ => .done value
  | _, _ => .fault .invalid

end Exec

/-- Calls a function. At fuel `n + 1` every loop has `n + 1` rounds, and calls have fuel `n`. -/
def invoke (funcs : List Func) : ℕ → ℕ → List I32 → Outcome Fault I32
  | 0, _, _ => .timeout
  | fuel + 1, index, arguments =>
    match funcs[index]? with
    | none => .fault .invalid
    | some func =>
      if arguments.length ≠ func.parameters then .fault .invalid
      else execBody funcs (invoke funcs fuel) (fuel + 1) func arguments

/-! ### Sequences -/

section Exec

variable {funcs : List Func} {call : ℕ → List I32 → Outcome Fault I32} {fuel : ℕ}

@[simp] theorem exec_nil (frame : Frame) :
    exec funcs call fuel [] frame = .done (frame, .next) := rfl

theorem exec_cons (instr : Instr) (rest : List Instr) (frame : Frame) :
    exec funcs call fuel (instr :: rest) frame
      = execInstr funcs call fuel instr frame >>= fun completion =>
        match completion.2 with
        | .next => exec funcs call fuel rest completion.1
        | signal => .done (completion.1, signal) := rfl

theorem execInstr_get {index : BitVec 32} {frame : Frame} {value : I32}
    (h : frame.locals[index.toNat]? = some value) :
    execInstr funcs call fuel (.localGet index) frame
      = .done (⟨frame.locals, value :: frame.stack⟩, .next) := by
  rw [execInstr, h]

/-- An instruction that completes normally. -/
theorem exec_cons_next {instr : Instr} {rest : List Instr} {frame frame' : Frame}
    (h : execInstr funcs call fuel instr frame = .done (frame', .next)) :
    exec funcs call fuel (instr :: rest) frame = exec funcs call fuel rest frame' := by
  rw [exec_cons, h]
  rfl

theorem exec_append (xs ys : List Instr) (frame : Frame) :
    exec funcs call fuel (xs ++ ys) frame
      = exec funcs call fuel xs frame >>= fun completion =>
        match completion.2 with
        | .next => exec funcs call fuel ys completion.1
        | signal => .done (completion.1, signal) := by
  induction xs generalizing frame with
  | nil => simp
  | cons x xs ih =>
    rw [List.cons_append, exec_cons, exec_cons]
    cases execInstr funcs call fuel x frame with
    | timeout => rfl
    | fault e => rfl
    | done completion =>
      obtain ⟨frame', signal⟩ := completion
      cases signal with
      | next => exact ih frame'
      | branch depth => rfl
      | exit value => rfl

/-- A prefix that completes normally. -/
theorem exec_append_next {xs ys : List Instr} {frame frame' : Frame}
    (h : exec funcs call fuel xs frame = .done (frame', .next)) :
    exec funcs call fuel (xs ++ ys) frame = exec funcs call fuel ys frame' := by
  rw [exec_append, h]
  rfl

end Exec

end Zryna.Wasm
