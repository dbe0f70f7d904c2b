import Zryna.Ir.Generic.Wire.Encoding

/-!
# Reading closed generic programs

The bounded reader of the wire format. Counts are checked against a ceiling of their field, against
the list elements that are left, and against the bytes that the elements take at least. What is left
of the input stands for the cursor.
-/

namespace Zryna.Ir.Generic.Wire

open Layout.Generic (Digest)
open Raw

abbrev Reader := Zryna.Wire.Reader maxChildren

def invalid : Failure := reject "malformed separately versioned successor IR wire claim"

namespace Decoding

def take (reader : Reader) (length : ℕ) : Except Failure (List UInt8 × Reader) :=
  if reader.rest.length < length then .error invalid
  else .ok (reader.rest.take length,
    ⟨reader.rest.drop length, reader.children, reader.children_le⟩)

section

variable (reader : Reader)

def byte : Except Failure (UInt8 × Reader) := do
  match ← take reader 1 with
  | ([value], reader) => .ok (value, reader)
  | _ => .error invalid

def u32 : Except Failure (UInt32 × Reader) := do
  let (bytes, reader) ← take reader 4
  match takeLane bytes with
  | some (value, _) => .ok (value, reader)
  | none => .error invalid

def boolean : Except Failure (Bool × Reader) := do
  let (value, reader) ← byte reader
  match value with
  | 0 => .ok (false, reader)
  | 1 => .ok (true, reader)
  | _ => .error invalid

def array : Except Failure (Digest × Reader) := do
  let (bytes, reader) ← take reader 32
  if h : bytes.length = 32 then .ok (⟨bytes, h⟩, reader) else .error invalid

def blob (limit : ℕ) (reader : Reader) : Except Failure (List UInt8 × Reader) := do
  let (length, reader) ← u32 reader
  if length.toNat > limit then .error (budget "successor wire field byte ceiling exceeded")
  else take reader length.toNat

def vector {α : Type} (limit minimum : ℕ) (read : Reader → Except Failure (α × Reader))
    (reader : Reader) : Except Failure (List α × Reader) := do
  let (count, reader) ← u32 reader
  if h : count.toNat > limit ∨ reader.children + count.toNat > maxChildren then
    .error (budget "successor wire child/count ceiling exceeded")
  else if count.toNat * minimum > reader.rest.length then .error invalid
  else
    Zryna.Wire.readMany read count.toNat
      ⟨reader.rest, reader.children + count.toNat, not_lt.mp (not_or.mp h).2⟩

def span : Except Failure (UntrustedSpan × Reader) := do
  let (file, reader) ← u32 reader
  let (start, reader) ← u32 reader
  let (stop, reader) ← u32 reader
  .ok (⟨file, start, stop⟩, reader)

def ty : Except Failure (Ty × Reader) := do
  let (tag, reader) ← byte reader
  match tag with
  | 0 => do
    let (id, reader) ← u32 reader
    .ok (.stored id, reader)
  | 1 => .ok (.unit, reader)
  | 2 => do
    let (referent, reader) ← u32 reader
    let (exclusive, reader) ← boolean reader
    .ok (.borrow referent exclusive, reader)
  | _ => .error invalid

def definition : Except Failure (Definition × Reader) := do
  let (id, reader) ← u32 reader
  let (ty, reader) ← ty reader
  .ok (⟨id, ty⟩, reader)

def ids : Reader → Except Failure (List UInt32 × Reader) := vector 256 4 u32

/-- A value that may be missing, after a flag. -/
def optional {α : Type} (read : Reader → Except Failure (α × Reader)) (reader : Reader) :
    Except Failure (Option α × Reader) := do
  match ← boolean reader with
  | (true, reader) =>
    let (value, reader) ← read reader
    .ok (some value, reader)
  | (false, reader) => .ok (none, reader)

def optionalId : Reader → Except Failure (Option UInt32 × Reader) := optional u32

def edge : Except Failure (Edge × Reader) := do
  let (target, reader) ← u32 reader
  let (arguments, reader) ← ids reader
  .ok (⟨target, arguments⟩, reader)

def operation : Except Failure (Operation × Reader) := do
  let (tag, reader) ← byte reader
  match tag with
  | 1 => do
    let (value, reader) ← boolean reader
    .ok (.boolLiteral value, reader)
  | 2 => do
    let (value, reader) ← u32 reader
    .ok (.i32Literal value.toInt32, reader)
  | 3 => .ok (.unit, reader)
  | 4 => do
    let (value, reader) ← u32 reader
    .ok (.copy value, reader)
  | 5 => do
    let (left, reader) ← u32 reader
    let (right, reader) ← u32 reader
    .ok (.i32Add left right, reader)
  | 6 => do
    let (target, reader) ← u32 reader
    let (arguments, reader) ← ids reader
    .ok (.closedGenericCall target arguments, reader)
  | 7 => do
    let (module, reader) ← u32 reader
    let (function, reader) ← u32 reader
    let (arguments, reader) ← ids reader
    .ok (.sourceCall module function arguments, reader)
  | 8 => do
    let (ty, reader) ← u32 reader
    let (ordinal, reader) ← u32 reader
    let (payload, reader) ← optionalId reader
    .ok (.closedEnumConstruct ty ordinal payload, reader)
  | _ => .error invalid

def mode : Except Failure (MatchMode × Reader) := do
  let (tag, reader) ← byte reader
  match tag with
  | 0 => .ok (.value, reader)
  | 1 => .ok (.sharedBorrow, reader)
  | 2 => .ok (.exclusiveBorrow, reader)
  | _ => .error invalid

def binding : Reader → Except Failure (Option Definition × Reader) := optional definition

def arm : Except Failure (Arm × Reader) := do
  let (ordinal, reader) ← u32 reader
  let (binding, reader) ← binding reader
  let (edge, reader) ← edge reader
  .ok (⟨ordinal, binding, edge⟩, reader)

def terminator : Except Failure (Terminator × Reader) := do
  let (tag, reader) ← byte reader
  match tag with
  | 1 => do
    let (value, reader) ← u32 reader
    .ok (.return value, reader)
  | 2 => do
    let (next, reader) ← edge reader
    .ok (.jump next, reader)
  | 3 => do
    let (condition, reader) ← u32 reader
    let (yes, reader) ← edge reader
    let (no, reader) ← edge reader
    .ok (.branch condition yes no, reader)
  | 4 => do
    let (ty, reader) ← u32 reader
    let (scrutinee, reader) ← u32 reader
    let (mode, reader) ← mode reader
    let (arms, reader) ← vector 1024 10 arm reader
    .ok (.closedEnumMatch ty scrutinee mode arms, reader)
  | _ => .error invalid

def module : Except Failure (Module × Reader) := do
  let (id, reader) ← u32 reader
  let (functions, reader) ← u32 reader
  .ok (⟨id, functions⟩, reader)

def declaration : Except Failure (Raw.Declaration × Reader) := do
  let (module, reader) ← u32 reader
  let (function, reader) ← u32 reader
  let (parameters, reader) ← u32 reader
  let (span, reader) ← span reader
  .ok (⟨module, function, parameters, span⟩, reader)

def instruction : Except Failure (Instruction × Reader) := do
  let (result, reader) ← definition reader
  let (span, reader) ← span reader
  let (operation, reader) ← operation reader
  .ok (⟨result, span, operation⟩, reader)

def block : Except Failure (Block × Reader) := do
  let (id, reader) ← u32 reader
  let (parameters, reader) ← vector 256 5 definition reader
  let (instructions, reader) ← vector 16384 18 instruction reader
  let (span, reader) ← span reader
  let (terminator, reader) ← terminator reader
  .ok (⟨id, parameters, instructions, span, terminator⟩, reader)

/-- A string from bytes that have to be well-formed UTF-8. -/
def fromUtf8 (bytes : List UInt8) : Except Failure String :=
  match String.fromUTF8? ⟨bytes.toArray⟩ with
  | some name => .ok name
  | none => .error invalid

def exportName : Except Failure (String × Reader) := do
  let (bytes, reader) ← blob 256 reader
  let name ← fromUtf8 bytes
  .ok (name, reader)

def publicExport : Reader → Except Failure (Option String × Reader) := optional exportName

def function : Except Failure (Function × Reader) := do
  let (key, reader) ← blob 4096 reader
  let (span, reader) ← span reader
  let (publicExport, reader) ← publicExport reader
  let (parameters, reader) ← vector 256 1 ty reader
  let (result, reader) ← ty reader
  let (blocks, reader) ← vector 4096 25 block reader
  .ok (⟨key, span, publicExport, parameters, result, blocks⟩, reader)

/-- The domain and the version at the front of a message. -/
def domain : Except Failure Reader := do
  let (found, reader) ← take reader header.length
  if found ≠ header then .error invalid
  else do
    let (found, reader) ← u32 reader
    if found ≠ version then .error invalid else .ok reader

def program : Except Failure (Program × Reader) := do
  let reader ← domain reader
  let (modules, reader) ← vector 4096 8 module reader
  let (declarations, reader) ← vector 16384 24 declaration reader
  let (typeKeys, reader) ← vector 65536 5 (blob 4096) reader
  let (universeIdentity, reader) ← array reader
  let (linear32, reader) ← array reader
  let (linuxX8664, reader) ← array reader
  let (functions, reader) ← vector 16384 26 function reader
  .ok (⟨modules, declarations, typeKeys, universeIdentity, linear32, linuxX8664, functions⟩,
    reader)

end

def decode (bytes : List UInt8) : Except Failure Program := do
  let (program, reader) ← program (Zryna.Wire.Reader.new maxChildren bytes)
  if reader.rest ≠ [] then .error invalid else .ok program

end Decoding

/-- Decodes a complete message of the domain and the version. -/
def decode (bytes : List UInt8) : Except Failure Program :=
  if bytes.length > maxBytes then .error (budget "successor wire bytes exceed 32 MiB")
  else do
    let program ← Decoding.decode bytes
    Inventory.preflight program
    .ok program

end Zryna.Ir.Generic.Wire
