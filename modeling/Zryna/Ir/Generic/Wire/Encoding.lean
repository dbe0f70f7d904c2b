import Zryna.Foundation.Wire
import Zryna.Ir.Generic.Inventory

/-!
# Writing closed generic programs

The writer of the separately versioned wire format: canonical field order and closed tags, with the
byte ceiling of the message and the ceiling on list elements. Allocation failure is not modelled.
-/

namespace Zryna.Ir.Generic.Wire

open Layout.Generic (Digest)
open Raw

/-- The domain at the front of a message, before the version: `ZRYNA-GENERIC-IR-V1` and a zero. -/
def header : List UInt8 :=
  [0x5a, 0x52, 0x59, 0x4e, 0x41, 0x2d, 0x47, 0x45, 0x4e, 0x45, 0x52, 0x49, 0x43, 0x2d, 0x49, 0x52,
    0x2d, 0x56, 0x31, 0x00]

def version : UInt32 := 1

/-- Most bytes of a message. -/
def maxBytes : ℕ := 32 * 1024 * 1024

/-- Most list elements of a message. -/
def maxChildren : ℕ := 1048576

abbrev Writer := Zryna.Wire.Writer maxBytes maxChildren

namespace Encoding

def bytes (writer : Writer) (bytes : List UInt8) : Except Failure Writer :=
  if h : (writer.bytes ++ bytes).length > maxBytes then
    .error (budget "successor wire byte ceiling exceeded")
  else .ok ⟨writer.bytes ++ bytes, writer.children, not_lt.mp h, writer.children_le⟩

section

variable (writer : Writer)

def byte (value : UInt8) : Except Failure Writer := bytes writer [value]

def u32 (value : UInt32) : Except Failure Writer :=
  bytes writer (laneBytes value)

/-- A length or a count as a lane. -/
def lane (length : ℕ) : Except Failure UInt32 :=
  if length < 2 ^ 32 then .ok (.ofNat length) else .error .internalFailure

def count (writer : Writer) (count : ℕ) : Except Failure Writer :=
  if h : writer.children + count > maxChildren then
    .error (budget "successor wire child ceiling exceeded")
  else do
    let counted : Writer :=
      ⟨writer.bytes, writer.children + count, writer.bytes_le, not_lt.mp h⟩
    u32 counted (← lane count)

def blob (value : List UInt8) : Except Failure Writer := do
  let writer ← u32 writer (← lane value.length)
  bytes writer value

def boolean (value : Bool) : Except Failure Writer :=
  byte writer (if value then 1 else 0)

def span (value : UntrustedSpan) : Except Failure Writer := do
  let writer ← u32 writer value.file
  let writer ← u32 writer value.start
  u32 writer value.stop

def ty : Ty → Except Failure Writer
  | .stored id => do
    let writer ← byte writer 0
    u32 writer id
  | .unit => byte writer 1
  | .borrow referent exclusive => do
    let writer ← byte writer 2
    let writer ← u32 writer referent
    boolean writer exclusive

def definition (value : Definition) : Except Failure Writer := do
  let writer ← u32 writer value.id
  ty writer value.ty

def ids (values : List UInt32) : Except Failure Writer := do
  let writer ← count writer values.length
  values.foldlM u32 writer

/-- A value that may be missing, after a flag. -/
def optional {α : Type} (write : Writer → α → Except Failure Writer) (writer : Writer)
    (value : Option α) : Except Failure Writer := do
  let writer ← boolean writer value.isSome
  match value with
  | some value => write writer value
  | none => .ok writer

def optionalId : Writer → Option UInt32 → Except Failure Writer := optional u32

def edge (value : Edge) : Except Failure Writer := do
  let writer ← u32 writer value.target
  ids writer value.arguments

def operation : Operation → Except Failure Writer
  | .boolLiteral value => do
    let writer ← byte writer 1
    boolean writer value
  | .i32Literal value => do
    let writer ← byte writer 2
    u32 writer value.toUInt32
  | .unit => byte writer 3
  | .copy value => do
    let writer ← byte writer 4
    u32 writer value
  | .i32Add left right => do
    let writer ← byte writer 5
    let writer ← u32 writer left
    u32 writer right
  | .closedGenericCall target arguments => do
    let writer ← byte writer 6
    let writer ← u32 writer target
    ids writer arguments
  | .sourceCall module function arguments => do
    let writer ← byte writer 7
    let writer ← u32 writer module
    let writer ← u32 writer function
    ids writer arguments
  | .closedEnumConstruct ty ordinal payload => do
    let writer ← byte writer 8
    let writer ← u32 writer ty
    let writer ← u32 writer ordinal
    optionalId writer payload

def modeTag : MatchMode → UInt8
  | .value => 0
  | .sharedBorrow => 1
  | .exclusiveBorrow => 2

def binding : Writer → Option Definition → Except Failure Writer := optional definition

def arm (value : Arm) : Except Failure Writer := do
  let writer ← u32 writer value.ordinal
  let writer ← binding writer value.binding
  edge writer value.edge

def terminator : Terminator → Except Failure Writer
  | .return value => do
    let writer ← byte writer 1
    u32 writer value
  | .jump next => do
    let writer ← byte writer 2
    edge writer next
  | .branch condition yes no => do
    let writer ← byte writer 3
    let writer ← u32 writer condition
    let writer ← edge writer yes
    edge writer no
  | .closedEnumMatch ty scrutinee mode arms => do
    let writer ← byte writer 4
    let writer ← u32 writer ty
    let writer ← u32 writer scrutinee
    let writer ← byte writer (modeTag mode)
    let writer ← count writer arms.length
    arms.foldlM arm writer

def module (value : Module) : Except Failure Writer := do
  let writer ← u32 writer value.id
  u32 writer value.functions

def declaration (value : Raw.Declaration) : Except Failure Writer := do
  let writer ← u32 writer value.module
  let writer ← u32 writer value.function
  let writer ← u32 writer value.parameters
  span writer value.span

def instruction (value : Instruction) : Except Failure Writer := do
  let writer ← definition writer value.result
  let writer ← span writer value.span
  operation writer value.operation

def block (value : Block) : Except Failure Writer := do
  let writer ← u32 writer value.id
  let writer ← count writer value.parameters.length
  let writer ← value.parameters.foldlM definition writer
  let writer ← count writer value.instructions.length
  let writer ← value.instructions.foldlM instruction writer
  let writer ← span writer value.span
  terminator writer value.terminator

def utf8 (name : String) : List UInt8 := name.toByteArray.data.toList

def exportName (name : String) : Except Failure Writer := blob writer (utf8 name)

def publicExport : Writer → Option String → Except Failure Writer := optional exportName

def function (value : Function) : Except Failure Writer := do
  let writer ← blob writer value.key
  let writer ← span writer value.span
  let writer ← publicExport writer value.publicExport
  let writer ← count writer value.parameters.length
  let writer ← value.parameters.foldlM ty writer
  let writer ← ty writer value.result
  let writer ← count writer value.blocks.length
  value.blocks.foldlM block writer

/-- The domain and the version at the front of a message. -/
def domain : Except Failure Writer := do
  let writer ← bytes writer header
  u32 writer version

def program (value : Program) : Except Failure Writer := do
  let writer ← domain writer
  let writer ← count writer value.modules.length
  let writer ← value.modules.foldlM module writer
  let writer ← count writer value.declarations.length
  let writer ← value.declarations.foldlM declaration writer
  let writer ← count writer value.typeKeys.length
  let writer ← value.typeKeys.foldlM blob writer
  let writer ← bytes writer value.universeIdentity.1
  let writer ← bytes writer value.linear32.1
  let writer ← bytes writer value.linuxX8664.1
  let writer ← count writer value.functions.length
  value.functions.foldlM function writer

end

def encode (value : Program) : Except Failure (List UInt8) := do
  let writer ← program (Zryna.Wire.Writer.new maxBytes maxChildren) value
  .ok writer.bytes

end Encoding

/-- Encodes raw claims. Rejects inherited budgets and messages beyond the byte ceiling. -/
def encode (program : Program) : Except Failure (List UInt8) := do
  Inventory.preflight program
  Encoding.encode program

end Zryna.Ir.Generic.Wire
