import Zryna.Wasm.Core

/-!
# The binary format of function bodies

`encodeInstrs` writes instructions as bytes and `decodeInstrs` reads them back, up to the `end` or
`else` that closes the sequence. `decodeBody` reads a whole function body: its local declarations
and its instructions. Decoding what was encoded gives the instructions back
(`decodeInstrs_encode`).
-/

namespace Zryna.Wasm

open List

/-! ### Encoding -/

def BinaryOp.opcode : BinaryOp → Byte
  | .eq => 0x46
  | .ne => 0x47
  | .ltS => 0x48
  | .gtS => 0x4a
  | .leS => 0x4c
  | .geS => 0x4e
  | .add => 0x6a
  | .sub => 0x6b
  | .mul => 0x6c
  | .or => 0x72

mutual

/-- The bytes of an instruction. -/
def encodeInstr : Instr → List Byte
  | .unreachable => [0x00]
  | .block body => [0x02, 0x40] ++ encodeInstrs body ++ [0x0b]
  | .loop body => [0x03, 0x40] ++ encodeInstrs body ++ [0x0b]
  | .ifElse thenBody elseBody =>
    [0x04, 0x40] ++ encodeInstrs thenBody ++ [0x05] ++ encodeInstrs elseBody ++ [0x0b]
  | .br depth => 0x0c :: encodeUnsigned depth
  | .brIf depth => 0x0d :: encodeUnsigned depth
  | .ret => [0x0f]
  | .call index => 0x10 :: encodeUnsigned index
  | .localGet index => 0x20 :: encodeUnsigned index
  | .localSet index => 0x21 :: encodeUnsigned index
  | .const value => 0x41 :: encodeSigned value
  | .binary op => [op.opcode]

/-- The bytes of a sequence. -/
def encodeInstrs : List Instr → List Byte
  | [] => []
  | instr :: rest => encodeInstr instr ++ encodeInstrs rest

end

@[simp] theorem encodeInstrs_nil : encodeInstrs [] = [] := rfl

@[simp] theorem encodeInstrs_cons (instr : Instr) (rest : List Instr) :
    encodeInstrs (instr :: rest) = encodeInstr instr ++ encodeInstrs rest := rfl

@[simp] theorem encodeInstrs_append (xs ys : List Instr) :
    encodeInstrs (xs ++ ys) = encodeInstrs xs ++ encodeInstrs ys := by
  induction xs with
  | nil => simp
  | cons x xs ih => simp [ih]

/-! ### Decoding -/

/-- What closed a sequence. -/
inductive Closer where
  | end
  | else
deriving DecidableEq

def decodeIndex (bytes : List Byte) : Option (BitVec 32 × List Byte) :=
  (decodeUnsigned 32 bytes).map fun (value, rest) => (BitVec.ofNat 32 value, rest)

/-- A constant and the bytes after it. -/
def decodeConst (bytes : List Byte) : Option (I32 × List Byte) :=
  (decodeSigned 32 bytes).map fun (value, rest) => (BitVec.ofInt 32 value, rest)

def decodeBinaryOp (byte : Byte) : Option BinaryOp :=
  [BinaryOp.eq, .ne, .ltS, .gtS, .leS, .geS, .add, .sub, .mul, .or].find? (·.opcode = byte)

/-- Instructions up to the byte that closes their sequence. Every instruction costs one unit of
fuel, so the length of the input is enough. -/
def decodeInstrs : ℕ → List Byte → Option (List Instr × Closer × List Byte)
  | 0, _ => none
  | _ + 1, [] => none
  | fuel + 1, opcode :: bytes =>
    let continueWith (instr : Instr) (bytes : List Byte) :
        Option (List Instr × Closer × List Byte) :=
      (decodeInstrs fuel bytes).map fun (rest, closer, bytes) => (instr :: rest, closer, bytes)
    if opcode = 0x0b then some ([], .end, bytes)
    else if opcode = 0x05 then some ([], .else, bytes)
    else if opcode = 0x00 then continueWith .unreachable bytes
    else if opcode = 0x02 ∨ opcode = 0x03 then
      match bytes with
      | 0x40 :: bytes =>
        match decodeInstrs fuel bytes with
        | some (body, .end, bytes) =>
          continueWith (if opcode = 0x02 then .block body else .loop body) bytes
        | _ => none
      | _ => none
    else if opcode = 0x04 then
      match bytes with
      | 0x40 :: bytes =>
        match decodeInstrs fuel bytes with
        | some (thenBody, .else, bytes) =>
          match decodeInstrs fuel bytes with
          | some (elseBody, .end, bytes) => continueWith (.ifElse thenBody elseBody) bytes
          | _ => none
        | some (thenBody, .end, bytes) => continueWith (.ifElse thenBody []) bytes
        | none => none
      | _ => none
    else if opcode = 0x0c then
      (decodeIndex bytes).bind fun (depth, bytes) => continueWith (.br depth) bytes
    else if opcode = 0x0d then
      (decodeIndex bytes).bind fun (depth, bytes) => continueWith (.brIf depth) bytes
    else if opcode = 0x0f then continueWith .ret bytes
    else if opcode = 0x10 then
      (decodeIndex bytes).bind fun (index, bytes) => continueWith (.call index) bytes
    else if opcode = 0x20 then
      (decodeIndex bytes).bind fun (index, bytes) => continueWith (.localGet index) bytes
    else if opcode = 0x21 then
      (decodeIndex bytes).bind fun (index, bytes) => continueWith (.localSet index) bytes
    else if opcode = 0x41 then
      (decodeConst bytes).bind fun (value, bytes) => continueWith (.const value) bytes
    else
      (decodeBinaryOp opcode).bind fun op => continueWith (.binary op) bytes

/-- Groups of `i32` locals: their number in total. -/
def decodeLocals : ℕ → List Byte → Option (ℕ × List Byte)
  | 0, bytes => some (0, bytes)
  | groups + 1, bytes =>
    (decodeUnsigned 32 bytes).bind fun (count, bytes) =>
      match bytes with
      | 0x7f :: bytes =>
        (decodeLocals groups bytes).map fun (others, bytes) => (count + others, bytes)
      | _ => none

/-- A function body: its number of locals and its instructions. -/
def decodeBody (bytes : List Byte) : Option (ℕ × List Instr) :=
  (decodeUnsigned 32 bytes).bind fun (groups, bytes) =>
    (decodeLocals groups bytes).bind fun (locals, bytes) =>
      match decodeInstrs bytes.length bytes with
      | some (body, .end, []) => some (locals, body)
      | _ => none

/-! ### Round trip -/

theorem decodeIndex_encode (value : BitVec 32) (rest : List Byte) :
    decodeIndex (encodeUnsigned value ++ rest) = some (value, rest) := by
  simp [decodeIndex, decodeUnsigned_encode]

theorem decodeConst_encode (value : I32) (rest : List Byte) :
    decodeConst (encodeSigned value ++ rest) = some (value, rest) := by
  simp [decodeConst, decodeSigned_encode]

def Closer.byte : Closer → Byte
  | .end => 0x0b
  | .else => 0x05

theorem byte_end : Closer.end.byte = 0x0b := rfl

theorem byte_else : Closer.else.byte = 0x05 := rfl

/-- **Round trip.** Decoding an encoded sequence stops at its closing byte. -/
theorem decodeInstrs_encode (fuel : ℕ) : ∀ (instrs : List Instr) (closer : Closer)
    (rest : List Byte), (encodeInstrs instrs).length < fuel →
      decodeInstrs fuel (encodeInstrs instrs ++ closer.byte :: rest)
        = some (instrs, closer, rest) := by
  induction fuel with
  | zero => intro instrs closer rest h; omega
  | succ fuel ih =>
    intro instrs closer rest hlen
    cases instrs with
    | nil => cases closer <;> rfl
    | cons instr instrs =>
      rw [encodeInstrs_cons, length_append] at hlen
      rw [encodeInstrs_cons, append_assoc]
      have htail : (encodeInstrs instrs).length < fuel →
          decodeInstrs fuel (encodeInstrs instrs ++ closer.byte :: rest)
            = some (instrs, closer, rest) := ih instrs closer rest
      cases instr with
      | unreachable =>
        simp only [encodeInstr, length_cons, length_nil] at hlen
        simp [encodeInstr, decodeInstrs, htail (by omega)]
      | ret =>
        simp only [encodeInstr, length_cons, length_nil] at hlen
        simp [encodeInstr, decodeInstrs, htail (by omega)]
      | block body | loop body =>
        simp only [encodeInstr, length_append, length_cons, length_nil] at hlen
        have hbody := ih body .end (encodeInstrs instrs ++ closer.byte :: rest) (by omega)
        rw [byte_end] at hbody
        simp [encodeInstr, decodeInstrs, hbody, htail (by omega)]
      | ifElse thenBody elseBody =>
        simp only [encodeInstr, length_append, length_cons, length_nil] at hlen
        have helse := ih elseBody .end (encodeInstrs instrs ++ closer.byte :: rest) (by omega)
        have hthen := ih thenBody .else
          (encodeInstrs elseBody ++ 0x0b :: (encodeInstrs instrs ++ closer.byte :: rest)) (by omega)
        rw [byte_end] at helse
        rw [byte_else] at hthen
        simp [encodeInstr, decodeInstrs, hthen, helse, htail (by omega)]
      | br index | brIf index | call index | localGet index | localSet index =>
        simp only [encodeInstr, length_cons] at hlen
        simp [encodeInstr, decodeInstrs, decodeIndex_encode, htail (by omega)]
      | const value =>
        simp only [encodeInstr, length_cons] at hlen
        simp [encodeInstr, decodeInstrs, decodeConst_encode, htail (by omega)]
      | binary op =>
        simp only [encodeInstr, length_cons, length_nil] at hlen
        cases op <;>
          simp [encodeInstr, decodeInstrs, BinaryOp.opcode, decodeBinaryOp, htail (by omega)]

theorem decodeBody_encode (locals : BitVec 32) (body : List Instr) :
    decodeBody (0x01 :: encodeUnsigned locals ++ 0x7f :: (encodeInstrs body ++ [0x0b]))
      = some (locals.toNat, body) := by
  have hone : ∀ bytes : List Byte, decodeUnsigned 32 (0x01 :: bytes) = some (1, bytes) :=
    fun _ => rfl
  have hbody := decodeInstrs_encode (encodeInstrs body ++ [0x0b]).length body .end [] (by simp)
  rw [byte_end] at hbody
  simp only [decodeBody, cons_append, hone, Option.bind_some, decodeLocals,
    decodeUnsigned_encode, Option.map_some, Nat.add_zero, hbody]

end Zryna.Wasm
