import Zryna.Backend.WebAssembly.BoundedBytes
import Zryna.Ir.ControlFlow.Numbering

/-!
# WebAssembly emission of verified `ControlFlowV1`

Every function becomes one WebAssembly function. Its control-flow graph is flattened into one
loop over guarded blocks: the `state` local holds the number of the block to run, each guarded
block leaves at once when the state is another number, and a terminator either returns or stores
the next number and branches back to the loop. The values of the function are the first locals,
then come scratch locals for the arguments of an edge, then the state.

`encodeControlFlowFunction` is the emitter of the source, byte by byte. `functionCode` is the code
that these bytes stand for, and `decodeBody_encodeControlFlowFunction` connects the two.
-/

namespace Zryna.Backend.WebAssembly

open Zryna.Wasm Zryna.Ir Zryna.Ir.ControlFlow

/-! ### Layout -/

def controlFlowProfileError (function : FunctionId) : Diagnostic :=
  Diagnostic.error "ZRYNA-W2001" none
    (s!"verified function {function.module}:{function.declaration} contains a type or identity "
      ++ "outside the WebAssembly M2 proof profile")
    "report this compiler invariant failure with the smallest reproducible Zryna source"

structure FunctionLocalLayout where
  scratchBase : BitVec 32
  state : BitVec 32
  declaredCount : BitVec 32
deriving DecidableEq

/-- The largest number of block parameters. -/
def scratchCount (function : Function) : ℕ := largestParameterCount function

def functionLocalLayout (function : Function) : Except Diagnostic FunctionLocalLayout := do
  if valueCount function + scratchCount function + 1 ≤ usizeMax then do
    let declaredCount := blockValueCount function + scratchCount function + 1
    let scratchBase ← toU32 (valueCount function)
    let state ← toU32 (valueCount function + scratchCount function)
    let declaredCount ← toU32 declaredCount
    pure ⟨scratchBase, state, declaredCount⟩
  else .error controlFlowIndexError

def verifyControlFlowSignature (function : Function) : Except Diagnostic Unit :=
  if (∀ parameter ∈ function.parameters, parameter.ty ≠ .unit) ∧ function.result ≠ .unit then
    .ok ()
  else .error (controlFlowProfileError function.id)

/-- The tables of a module. Maps are kept as lists of their insertions. -/
structure ControlFlowLayout where
  functions : List VerifiedFunction
  functionIndices : List (FunctionId × BitVec 32)
  typeParameterCounts : List ℕ
  functionTypeIndices : List (BitVec 32)
  exports : List (String × BitVec 32)
  localCounts : List (BitVec 32)

/-- The index of a function. The last insertion of a key counts. -/
def ControlFlowLayout.functionIndex (layout : ControlFlowLayout) (id : FunctionId) :
    Option (BitVec 32) :=
  (layout.functionIndices.reverse.find? fun entry => entry.1 = id).map Prod.snd

/-- The index of a callee, which every sealed call has. -/
def ControlFlowLayout.requireIndex (layout : ControlFlowLayout) (callee : FunctionId) :
    Except Diagnostic (BitVec 32) :=
  match layout.functionIndex callee with
  | some index => .ok index
  | none => .error (controlFlowProfileError callee)

/-- The tables collected while walking the functions. -/
structure LayoutTables where
  typeIndices : List (ℕ × BitVec 32) := []
  typeParameterCounts : List ℕ := []
  functionTypeIndices : List (BitVec 32) := []
  exports : List (String × BitVec 32) := []
  localCounts : List (BitVec 32) := []

/-- One type per number of parameters, numbered in order of first use. -/
def LayoutTables.typeIndex (tables : LayoutTables) (parameterCount : ℕ) :
    Except Diagnostic (LayoutTables × BitVec 32) :=
  match tables.typeIndices.find? fun entry => entry.1 = parameterCount with
  | some (_, index) => .ok (tables, index)
  | none => do
    let index ← toU32 tables.typeParameterCounts.length
    pure ({ tables with
      typeIndices := tables.typeIndices ++ [(parameterCount, index)]
      typeParameterCounts := tables.typeParameterCounts ++ [parameterCount] }, index)

/-- The export of a function, under its logical name. -/
def exportEntries (view : VerifiedFunction) (functionIndex : ℕ) :
    Except Diagnostic (List (String × BitVec 32)) :=
  match view.publicExport with
  | none => pure []
  | some publicExport => do
    let index ← toU32 functionIndex
    pure [(publicExport.logicalName, index)]

def LayoutTables.add (tables : LayoutTables) (entry : VerifiedFunction × ℕ) :
    Except Diagnostic LayoutTables := do
  let (view, functionIndex) := entry
  verifyControlFlowSignature view.function
  let (tables, typeIndex) ← tables.typeIndex view.function.parameters.length
  let exports ← exportEntries view functionIndex
  let locals ← functionLocalLayout view.function
  pure { tables with
    functionTypeIndices := tables.functionTypeIndices ++ [typeIndex]
    exports := tables.exports ++ exports
    localCounts := tables.localCounts ++ [locals.declaredCount] }

def ControlFlowLayout.new (program : VerifiedProgram) : Except Diagnostic ControlFlowLayout := do
  let functions := program.functions
  let functionIndices ← functions.zipIdx.mapM fun (view, index) => do
    let index ← toU32 index
    pure (view.function.id, index)
  let tables ← functions.zipIdx.foldlM LayoutTables.add {}
  pure {
    functions := functions
    functionIndices := functionIndices
    typeParameterCounts := tables.typeParameterCounts
    functionTypeIndices := tables.functionTypeIndices
    exports := tables.exports
    localCounts := tables.localCounts }

/-! ### The emitter -/

open BoundedBytes

/-- A value identity as a local index. Identities are `u32` in the source. -/
def valueIndex (id : ℕ) : BitVec 32 := BitVec.ofNat 32 id

/-- Traps unless the parameter is `0` or `1`. -/
def emitBoolParameterGuard (value : ℕ) : Emit Unit := do
  localGet (valueIndex value)
  i32Const 0
  instruction 0x46
  localGet (valueIndex value)
  i32Const 1
  instruction 0x46
  instruction 0x72
  instruction 0x04
  byte 0x40
  instruction 0x05
  instruction 0x00
  instruction 0x0b

/-- Two operands and an opcode. -/
def emitBinary (lhs rhs : ℕ) (opcode : Byte) : Emit Unit := do
  localGet (valueIndex lhs)
  localGet (valueIndex rhs)
  instruction opcode

section

variable (program : ControlFlowLayout)

/-- The operation of an instruction, which leaves its result on the stack. -/
def encodeControlFlowOperation : InstructionKind → Emit Unit
  | .boolLiteral value => i32Const (if value then 1 else 0)
  | .i32Literal value => i32Const value
  | .i32Add lhs rhs => emitBinary lhs rhs 0x6a
  | .i32Sub lhs rhs => emitBinary lhs rhs 0x6b
  | .i32Mul lhs rhs => emitBinary lhs rhs 0x6c
  | .i32Neg operand => do
    i32Const 0
    localGet (valueIndex operand)
    instruction 0x6b
  | .eq lhs rhs => emitBinary lhs rhs 0x46
  | .ne lhs rhs => emitBinary lhs rhs 0x47
  | .i32LtS lhs rhs => emitBinary lhs rhs 0x48
  | .i32LeS lhs rhs => emitBinary lhs rhs 0x4c
  | .i32GtS lhs rhs => emitBinary lhs rhs 0x4a
  | .i32GeS lhs rhs => emitBinary lhs rhs 0x4e
  | .directCall callee arguments => do
    forM arguments fun argument => localGet (valueIndex argument)
    let functionIndex ← program.requireIndex callee
    instruction 0x10
    u32 functionIndex

def encodeControlFlowInstruction (kind : InstructionKind) (result : ℕ)
    (program : ControlFlowLayout) : Emit Unit := do
  encodeControlFlowOperation program kind
  localSet (valueIndex result)

def checkedAdd (base : BitVec 32) (offset : ℕ) : Except Diagnostic (BitVec 32) := do
  let offset ← toU32 offset
  toU32 (base.toNat + offset.toNat)

def encodeControlFlowEdge (target : ℕ) (arguments : List ℕ) (blockParameters : List (List ℕ))
    (locals : FunctionLocalLayout) : Emit Unit := do
  -- all arguments go to the scratch locals before any parameter is written
  forM arguments.zipIdx fun (argument, index) => do
    localGet (valueIndex argument)
    let scratch ← checkedAdd locals.scratchBase index
    localSet scratch
  forM (blockParameters.getD target []).zipIdx fun (parameter, index) => do
    let scratch ← checkedAdd locals.scratchBase index
    localGet scratch
    localSet (valueIndex parameter)
  let number ← toI32 target
  i32Const number
  localSet locals.state

def encodeControlFlowTerminator (kind : Terminator) (blockParameters : List (List ℕ))
    (locals : FunctionLocalLayout) : Emit Unit :=
  match kind with
  | .return value => do
    localGet (valueIndex value)
    instruction 0x0f
  | .jump target arguments => do
    encodeControlFlowEdge target arguments blockParameters locals
    branch 0x0c 1
  | .branch condition trueTarget trueArguments falseTarget falseArguments => do
    localGet (valueIndex condition)
    instruction 0x04
    byte 0x40
    encodeControlFlowEdge trueTarget trueArguments blockParameters locals
    branch 0x0c 2
    instruction 0x05
    encodeControlFlowEdge falseTarget falseArguments blockParameters locals
    branch 0x0c 2
    instruction 0x0b

/-- The terminator of a block. A verified block has exactly one. -/
def encodeBlockTerminator (block : Block) (blockParameters : List (List ℕ))
    (locals : FunctionLocalLayout) : Emit Unit :=
  match block.terminators with
  | [] => pure ()
  | terminator :: _ => encodeControlFlowTerminator terminator.kind blockParameters locals

/-- One guarded block. -/
def encodeControlFlowBlock (blockParameters : List (List ℕ))
    (locals : FunctionLocalLayout) (block : Block) : Emit Unit := do
  instruction 0x02
  byte 0x40
  localGet locals.state
  let number ← toI32 block.id
  i32Const number
  instruction 0x47
  branch 0x0d 0
  forM block.instructions fun instruction =>
    encodeControlFlowInstruction instruction.kind instruction.result.id program
  encodeBlockTerminator block blockParameters locals
  instruction 0x0b

def emitBoolParameterGuards (view : VerifiedFunction) : Emit Unit :=
  if view.publicExport.isSome then
    forM view.function.parameters fun parameter =>
      if parameter.ty = .bool then emitBoolParameterGuard parameter.id else pure ()
  else pure ()

/-- One group of `i32` locals, unless there are none. -/
def emitLocalDeclarations (locals : FunctionLocalLayout) : Emit Unit :=
  if locals.declaredCount = 0 then byte 0x00
  else do
    byte 0x01
    u32 locals.declaredCount
    byte 0x7f

/-- The body of a function after its local declarations. -/
def encodeControlFlowBody (view : VerifiedFunction) (program : ControlFlowLayout)
    (locals : FunctionLocalLayout) : Emit Unit := do
  emitBoolParameterGuards view
  instruction 0x03
  byte 0x40
  forM view.function.blocks
    (encodeControlFlowBlock program (blockParameters view.function) locals)
  instruction 0x00
  instruction 0x0b
  i32Const 0
  instruction 0x0b

def encodeControlFlowFunction (view : VerifiedFunction) (program : ControlFlowLayout)
    (byteBudget : ℕ) : Except Diagnostic (List Byte) := do
  let locals ← functionLocalLayout view.function
  finish byteBudget do
    emitLocalDeclarations locals
    encodeControlFlowBody view program locals

/-! ### The emitted code -/

/-- Copies the arguments of an edge into the parameters of its target and sets the state. -/
def edgeCode (target : ℕ) (arguments : List ℕ) (blockParameters : List (List ℕ))
    (locals : FunctionLocalLayout) : List Instr :=
  (arguments.zipIdx.flatMap fun (argument, index) =>
      [.localGet (valueIndex argument),
        .localSet (BitVec.ofNat 32 (locals.scratchBase.toNat + index))])
    ++ ((blockParameters.getD target []).zipIdx.flatMap fun (parameter, index) =>
      [.localGet (BitVec.ofNat 32 (locals.scratchBase.toNat + index)),
        .localSet (valueIndex parameter)])
    ++ [.const (BitVec.ofNat 32 target), .localSet locals.state]

def terminatorCode (kind : Terminator) (blockParameters : List (List ℕ))
    (locals : FunctionLocalLayout) : List Instr :=
  match kind with
  | .return value => [.localGet (valueIndex value), .ret]
  | .jump target arguments => edgeCode target arguments blockParameters locals ++ [.br 1]
  | .branch condition trueTarget trueArguments falseTarget falseArguments =>
    [.localGet (valueIndex condition),
      .ifElse (edgeCode trueTarget trueArguments blockParameters locals ++ [.br 2])
        (edgeCode falseTarget falseArguments blockParameters locals ++ [.br 2])]

def binaryCode (lhs rhs : ℕ) (op : BinaryOp) : List Instr :=
  [.localGet (valueIndex lhs), .localGet (valueIndex rhs), .binary op]

def operationCode : InstructionKind → List Instr
  | .boolLiteral value => [.const (ofBool value)]
  | .i32Literal value => [.const value]
  | .i32Add lhs rhs => binaryCode lhs rhs .add
  | .i32Sub lhs rhs => binaryCode lhs rhs .sub
  | .i32Mul lhs rhs => binaryCode lhs rhs .mul
  | .i32Neg operand => [.const 0, .localGet (valueIndex operand), .binary .sub]
  | .eq lhs rhs => binaryCode lhs rhs .eq
  | .ne lhs rhs => binaryCode lhs rhs .ne
  | .i32LtS lhs rhs => binaryCode lhs rhs .ltS
  | .i32LeS lhs rhs => binaryCode lhs rhs .leS
  | .i32GtS lhs rhs => binaryCode lhs rhs .gtS
  | .i32GeS lhs rhs => binaryCode lhs rhs .geS
  | .directCall callee arguments =>
    (arguments.map fun argument => .localGet (valueIndex argument))
      ++ [.call ((program.functionIndex callee).getD 0)]

def instructionCode (i : Instruction) : List Instr :=
  operationCode program i.kind ++ [.localSet (valueIndex i.result.id)]

/-- What a guarded block runs when it is selected. -/
def selectedCode (blockParameters : List (List ℕ))
    (locals : FunctionLocalLayout) (block : Block) : List Instr :=
  block.instructions.flatMap (instructionCode program)
    ++ match block.terminators with
      | [] => []
      | terminator :: _ => terminatorCode terminator.kind blockParameters locals

def blockCode (blockParameters : List (List ℕ))
    (locals : FunctionLocalLayout) (block : Block) : Instr :=
  .block ([.localGet locals.state, .const (BitVec.ofNat 32 block.id), .binary .ne, .brIf 0]
    ++ selectedCode program blockParameters locals block)

def guardCode (value : ℕ) : List Instr :=
  [.localGet (valueIndex value), .const 0, .binary .eq, .localGet (valueIndex value), .const 1,
    .binary .eq, .binary .or, .ifElse [] [.unreachable]]

def guardsCode (view : VerifiedFunction) : List Instr :=
  if view.publicExport.isSome then
    view.function.parameters.flatMap fun parameter =>
      if parameter.ty = .bool then guardCode parameter.id else []
  else []

def functionCode (view : VerifiedFunction) (program : ControlFlowLayout)
    (locals : FunctionLocalLayout) : List Instr :=
  guardsCode view ++ [.loop (view.function.blocks.map
    (blockCode program (blockParameters view.function) locals) ++ [.unreachable]), .const 0]

/-! ### The bytes are the code -/

theorem eq_of_toU32 {n : ℕ} {v : BitVec 32} (h : toU32 n = .ok v) :
    n < 2 ^ 32 ∧ v = BitVec.ofNat 32 n := by
  unfold toU32 at h
  split at h
  · cases h
    exact ⟨‹_›, rfl⟩
  · cases h

theorem eq_of_toI32 {n : ℕ} {v : BitVec 32} (h : toI32 n = .ok v) : v = BitVec.ofNat 32 n := by
  unfold toI32 at h
  split at h
  · cases h
    rfl
  · cases h

theorem eq_of_checkedAdd {base v : BitVec 32} {offset : ℕ} (h : checkedAdd base offset = .ok v) :
    v = BitVec.ofNat 32 (base.toNat + offset) := by
  unfold checkedAdd at h
  cases ho : toU32 offset with
  | error e => rw [ho] at h; cases h
  | ok o =>
    rw [ho] at h
    obtain ⟨hlt, rfl⟩ := eq_of_toU32 ho
    obtain ⟨-, rfl⟩ := eq_of_toU32 h
    rw [BitVec.toNat_ofNat, Nat.mod_eq_of_lt hlt]

theorem emitsCode_edge (target : ℕ) (arguments : List ℕ) (parameters : List (List ℕ))
    (locals : FunctionLocalLayout) :
    EmitsCode (encodeControlFlowEdge target arguments parameters locals)
      (edgeCode target arguments parameters locals) := by
  unfold encodeControlFlowEdge edgeCode
  rw [List.append_assoc]
  refine EmitsCode.bind (EmitsCode.forM fun x _ => ?_)
    (EmitsCode.bind (EmitsCode.forM fun x _ => ?_) (EmitsCode.lift fun number hnumber => ?_))
  · refine EmitsCode.bind (emitsCode_localGet _) (EmitsCode.lift fun scratch hs => ?_)
    rw [eq_of_checkedAdd hs]
    exact emitsCode_localSet _
  · refine EmitsCode.lift fun scratch hs => ?_
    rw [eq_of_checkedAdd hs]
    exact EmitsCode.bind (emitsCode_localGet _) (emitsCode_localSet _)
  · rw [eq_of_toI32 hnumber]
    exact EmitsCode.bind (emitsCode_i32Const _) (emitsCode_localSet _)

theorem emitsCode_ret : EmitsCode (instruction 0x0f) [.ret] := by
  simpa [EmitsCode, encodeInstr] using emits_instruction 0x0f

theorem emitsCode_unreachable : EmitsCode (instruction 0x00) [.unreachable] := by
  simpa [EmitsCode, encodeInstr] using emits_instruction 0x00

theorem emitsCode_terminator (kind : Terminator) (parameters : List (List ℕ))
    (locals : FunctionLocalLayout) :
    EmitsCode (encodeControlFlowTerminator kind parameters locals)
      (terminatorCode kind parameters locals) := by
  cases kind with
  | «return» value => exact EmitsCode.bind (emitsCode_localGet _) emitsCode_ret
  | jump target arguments => exact EmitsCode.bind (emitsCode_edge _ _ _ _) (emitsCode_br 1)
  | branch condition trueTarget trueArguments falseTarget falseArguments =>
    have htrue := emitsCode_edge trueTarget trueArguments parameters locals
    have hfalse := emitsCode_edge falseTarget falseArguments parameters locals
    have := Emits.bind (emitsCode_localGet (valueIndex condition))
      (Emits.bind (emits_instruction 0x04) (Emits.bind (emits_byte 0x40)
        (Emits.bind htrue (Emits.bind (emitsCode_br 2) (Emits.bind (emits_instruction 0x05)
          (Emits.bind hfalse (Emits.bind (emitsCode_br 2) (emits_instruction 0x0b))))))))
    simpa [EmitsCode, terminatorCode, encodeInstr, encodeControlFlowTerminator] using this

theorem emitsCode_emitBinary (lhs rhs : ℕ) (op : BinaryOp) :
    EmitsCode (emitBinary lhs rhs op.opcode) (binaryCode lhs rhs op) :=
  EmitsCode.bind (emitsCode_localGet _) (EmitsCode.bind (emitsCode_localGet _) (emitsCode_binary op))

theorem emitsCode_operation (kind : InstructionKind) :
    EmitsCode (encodeControlFlowOperation program kind) (operationCode program kind) := by
  cases kind with
  | boolLiteral value => cases value <;> exact emitsCode_i32Const _
  | i32Literal value => exact emitsCode_i32Const _
  | i32Add lhs rhs => exact emitsCode_emitBinary lhs rhs .add
  | i32Sub lhs rhs => exact emitsCode_emitBinary lhs rhs .sub
  | i32Mul lhs rhs => exact emitsCode_emitBinary lhs rhs .mul
  | i32Neg operand =>
    exact EmitsCode.bind (emitsCode_i32Const _)
      (EmitsCode.bind (emitsCode_localGet _) (emitsCode_binary .sub))
  | eq lhs rhs => exact emitsCode_emitBinary lhs rhs .eq
  | ne lhs rhs => exact emitsCode_emitBinary lhs rhs .ne
  | i32LtS lhs rhs => exact emitsCode_emitBinary lhs rhs .ltS
  | i32LeS lhs rhs => exact emitsCode_emitBinary lhs rhs .leS
  | i32GtS lhs rhs => exact emitsCode_emitBinary lhs rhs .gtS
  | i32GeS lhs rhs => exact emitsCode_emitBinary lhs rhs .geS
  | directCall callee arguments =>
    rw [encodeControlFlowOperation, operationCode, List.map_eq_flatMap]
    refine EmitsCode.bind (EmitsCode.forM fun x _ => emitsCode_localGet _)
      (EmitsCode.lift fun index hindex => ?_)
    have hget : (program.functionIndex callee).getD 0 = index := by
      unfold ControlFlowLayout.requireIndex at hindex
      split at hindex
      · next i hi =>
        cases hindex
        rw [hi]
        rfl
      · cases hindex
    rw [hget]
    have := (emits_instruction 0x10).bind (emits_u32 index)
    simpa [EmitsCode, encodeInstr] using this

theorem emitsCode_instruction (i : Instruction) :
    EmitsCode (encodeControlFlowInstruction i.kind i.result.id program)
      (instructionCode program i) :=
  EmitsCode.bind (emitsCode_operation _ _) (emitsCode_localSet _)

theorem emitsCode_block (parameters : List (List ℕ))
    (locals : FunctionLocalLayout) (block : Block) :
    EmitsCode (encodeControlFlowBlock program parameters locals block)
      [blockCode program parameters locals block] := by
  have hterm : EmitsCode (encodeBlockTerminator block parameters locals)
      (match block.terminators with
        | [] => []
        | terminator :: _ => terminatorCode terminator.kind parameters locals) := by
    unfold encodeBlockTerminator
    cases block.terminators with
    | nil => exact EmitsCode.pure
    | cons terminator rest => exact emitsCode_terminator _ _ _
  have hbody : EmitsCode
      (forM block.instructions fun i => encodeControlFlowInstruction i.kind i.result.id program)
      (block.instructions.flatMap (instructionCode program)) :=
    EmitsCode.forM fun i _ => emitsCode_instruction program i
  have hguard : ∀ number, toI32 block.id = .ok number → Emits (do
      i32Const number
      instruction 0x47
      branch 0x0d 0
      forM block.instructions fun i => encodeControlFlowInstruction i.kind i.result.id program
      encodeBlockTerminator block parameters locals
      instruction 0x0b)
      (encodeInstrs ([.const (BitVec.ofNat 32 block.id), .binary .ne, .brIf 0]
        ++ selectedCode program parameters locals block) ++ [0x0b]) := by
    intro number hnumber
    rw [eq_of_toI32 hnumber]
    have := Emits.bind (emitsCode_i32Const (BitVec.ofNat 32 block.id))
      (Emits.bind (emitsCode_binary .ne) (Emits.bind (emitsCode_brIf 0)
        (Emits.bind hbody (Emits.bind hterm (emits_instruction 0x0b)))))
    simpa [selectedCode, encodeInstr, BinaryOp.opcode] using this
  have := Emits.bind (emits_instruction 0x02) (Emits.bind (emits_byte 0x40)
    (Emits.bind (emitsCode_localGet locals.state) (Emits.lift hguard)))
  simpa [EmitsCode, blockCode, encodeInstr, encodeControlFlowBlock] using this

end

theorem emitsCode_guard (value : ℕ) :
    EmitsCode (emitBoolParameterGuard value) (guardCode value) := by
  have := Emits.bind (emitsCode_localGet (valueIndex value)) (Emits.bind (emitsCode_i32Const 0)
    (Emits.bind (emitsCode_binary .eq) (Emits.bind (emitsCode_localGet (valueIndex value))
      (Emits.bind (emitsCode_i32Const 1) (Emits.bind (emitsCode_binary .eq)
        (Emits.bind (emitsCode_binary .or) (Emits.bind (emits_instruction 0x04)
          (Emits.bind (emits_byte 0x40) (Emits.bind (emits_instruction 0x05)
            (Emits.bind (emits_instruction 0x00) (emits_instruction 0x0b)))))))))))
  simpa [EmitsCode, guardCode, encodeInstr, BinaryOp.opcode, emitBoolParameterGuard] using this

theorem emitsCode_guards (view : VerifiedFunction) :
    EmitsCode (emitBoolParameterGuards view) (guardsCode view) := by
  unfold emitBoolParameterGuards guardsCode
  split
  · refine EmitsCode.forM fun parameter _ => ?_
    split
    · exact emitsCode_guard _
    · exact EmitsCode.pure
  · exact EmitsCode.pure

theorem emits_body (view : VerifiedFunction) (program : ControlFlowLayout)
    (locals : FunctionLocalLayout) :
    Emits (encodeControlFlowBody view program locals)
      (encodeInstrs (functionCode view program locals) ++ [0x0b]) := by
  have hblocks : EmitsCode (forM view.function.blocks
      (encodeControlFlowBlock program (blockParameters view.function) locals))
      (view.function.blocks.map (blockCode program (blockParameters view.function) locals)) := by
    rw [List.map_eq_flatMap]
    exact EmitsCode.forM fun block _ => emitsCode_block _ _ _ block
  have := Emits.bind (emitsCode_guards view) (Emits.bind (emits_instruction 0x03)
    (Emits.bind (emits_byte 0x40) (Emits.bind hblocks (Emits.bind emitsCode_unreachable
      (Emits.bind (emits_instruction 0x0b)
        (Emits.bind (emitsCode_i32Const 0) (emits_instruction 0x0b)))))))
  simpa [functionCode, encodeInstr, encodeControlFlowBody] using this

theorem eq_of_functionLocalLayout {function : Function} {locals : FunctionLocalLayout}
    (h : functionLocalLayout function = .ok locals) :
    locals.scratchBase.toNat = valueCount function
      ∧ locals.state.toNat = valueCount function + scratchCount function
      ∧ locals.declaredCount.toNat = blockValueCount function + scratchCount function + 1
      ∧ valueCount function + scratchCount function < 2 ^ 32 := by
  unfold functionLocalLayout at h
  split at h
  · cases hb : toU32 (valueCount function) with
    | error e => simp [hb, bind, Except.bind] at h
    | ok base =>
      cases hs : toU32 (valueCount function + scratchCount function) with
      | error e => simp [hb, hs, bind, Except.bind] at h
      | ok state =>
        cases hd : toU32 (blockValueCount function + scratchCount function + 1) with
        | error e => simp [hb, hs, hd, bind, Except.bind] at h
        | ok declared =>
          simp only [hb, hs, hd, bind, Except.bind, pure, Except.pure, Except.ok.injEq] at h
          subst h
          obtain ⟨hbl, rfl⟩ := eq_of_toU32 hb
          obtain ⟨hsl, rfl⟩ := eq_of_toU32 hs
          obtain ⟨hdl, rfl⟩ := eq_of_toU32 hd
          simp only [BitVec.toNat_ofNat, Nat.mod_eq_of_lt hbl, Nat.mod_eq_of_lt hsl,
            Nat.mod_eq_of_lt hdl, true_and]
          exact hsl
  · cases h

/-- **Emitted bytes.** A body that was emitted decodes to the code of the function. -/
theorem decodeBody_encodeControlFlowFunction {view : VerifiedFunction}
    {program : ControlFlowLayout} {byteBudget : ℕ} {bytes : List Byte}
    (h : encodeControlFlowFunction view program byteBudget = .ok bytes) :
    ∃ locals, functionLocalLayout view.function = .ok locals
      ∧ decodeBody bytes = some (locals.declaredCount.toNat, functionCode view program locals) := by
  unfold encodeControlFlowFunction at h
  cases hl : functionLocalLayout view.function with
  | error e => rw [hl] at h; cases h
  | ok locals =>
    rw [hl] at h
    refine ⟨locals, rfl, ?_⟩
    obtain ⟨-, -, hdeclared, -⟩ := eq_of_functionLocalLayout hl
    -- the state local is always declared
    have hne : locals.declaredCount ≠ 0 := by
      intro h0
      rw [h0] at hdeclared
      simp at hdeclared
    have hlocals : Emits (emitLocalDeclarations locals)
        ([0x01] ++ (encodeUnsigned locals.declaredCount ++ [0x7f])) := by
      unfold emitLocalDeclarations
      rw [if_neg hne]
      exact Emits.bind (emits_byte 0x01) (Emits.bind (emits_u32 _) (emits_byte 0x7f))
    have hbytes := bytes_of_finish (Emits.bind hlocals (emits_body view program locals)) h
    rw [hbytes, ← decodeBody_encode]
    simp

end Zryna.Backend.WebAssembly
