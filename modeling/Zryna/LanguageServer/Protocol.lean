import Mathlib.Data.Int.Notation
import Zryna.Driver.DiagnosticSessions.Queries

/-!
# Messages of the language server

JSON-RPC messages as the server decodes and writes them, objects with their members in key order.
Reading a message out of bytes is a parameter; the checks after it are here. A `RequestId` carries
the key that the server files its request under.
-/

namespace Zryna.LanguageServer

open Json (Value)

def maxProtocolIdBytes : ℕ := 120
def maxSafeInteger : ℕ := 2 ^ 53 - 1

/-! ### Members of values -/

/-- The member of an object. -/
def get (value : Value) (key : String) : Option Value :=
  match value with
  | .object members => (members.find? fun member => member.1 = key).map Prod.snd
  | _ => none

def asStr : Value → Option String
  | .string text => some text
  | _ => none

def asArray : Value → Option (List Value)
  | .array items => some items
  | _ => none

/-- The value of decimal digits. -/
def decimal (text : List Char) : ℕ := text.foldl (fun n c => 10 * n + (c.toNat - 48)) 0

def asU64 : Value → Option ℕ
  | .number text =>
    if text ≠ [] ∧ text.all Char.isDigit ∧ decimal text < 2 ^ 64 then some (decimal text) else none
  | _ => none

/-! ### Request ids -/

/-- The key of a request id: strings and integers do not share keys. -/
def requestKey : Value → Option String
  | .string value =>
    if value ≠ "" ∧ utf8Length value.toList ≤ maxProtocolIdBytes
        ∧ value.toList.all fun c => c.toNat < 128 then some ("s:" ++ value)
    else none
  | .number text =>
    if text ≠ [] ∧ text.all Char.isDigit ∧ decimal text ≤ maxSafeInteger then
      some ("n:" ++ toString (decimal text))
    else match text with
      | '-' :: digits =>
        if digits ≠ [] ∧ digits.all Char.isDigit ∧ decimal digits ≠ 0
            ∧ decimal digits ≤ maxSafeInteger then some ("n:-" ++ toString (decimal digits))
        else none
      | _ => none
  | _ => none

/-- A request id, as it is on the wire and as the server files it. -/
structure RequestId where
  wire : Value
  internal : String
  valid : requestKey wire = some internal

def decodeId (value : Value) : Option RequestId :=
  match h : requestKey value with
  | none => none
  | some internal => some ⟨value, internal, h⟩

/-! ### Incoming messages -/

structure Incoming where
  id : Option RequestId
  method : String
  params : Option Value

structure WireIncoming where
  jsonrpc : String
  id : Option Value
  method : String
  params : Option Value

/-! ### Outgoing messages -/

/-- An integer as a JSON value. -/
def int (n : ℤ) : Value := .number (toString n).toList

def response (id : RequestId) (result : Value) : Value :=
  .object [("id", id.wire), ("jsonrpc", .string "2.0"), ("result", result)]

def error (id : Option RequestId) (code : ℤ) (message : String) : Value :=
  .object [("error", .object [("code", int code), ("message", .string message)]),
    ("id", (id.map RequestId.wire).getD .null), ("jsonrpc", .string "2.0")]

def errorWithData (id : Option RequestId) (code : ℤ) (message data : String) : Value :=
  .object [("error", .object [("code", int code), ("data", .object [("code", .string data)]),
      ("message", .string message)]),
    ("id", (id.map RequestId.wire).getD .null), ("jsonrpc", .string "2.0")]

def notification (method : String) (params : Value) : Value :=
  .object [("jsonrpc", .string "2.0"), ("method", .string method), ("params", params)]

def logMessage (message : String) : Value :=
  notification "window/logMessage" (.object [("message", .string message), ("type", int 1)])

def logInvalid : Value := logMessage "rejected malformed language-server notification"

def parseError : Value := error none (-32700) "Parse error"
def invalidRequest : Value := error none (-32600) "Invalid Request"
def invalidParams (id : Option RequestId) : Value := error id (-32602) "Invalid params"
def methodNotFound (id : Option RequestId) : Value := error id (-32601) "Method not found"

def emptyParams : Option Value → Bool
  | none => true
  | some .null => true
  | some (.object members) => members.isEmpty
  | some _ => false

/-! ### Decoding -/

/-- Decodes one complete payload; nesting is bounded as in the requests of a session. -/
def decode (wireIncoming : List UInt8 → Option WireIncoming) (bytes : List UInt8) :
    Except Value Incoming :=
  if Driver.DiagnosticSessions.exceedsDepth bytes then .error invalidRequest
  else match wireIncoming bytes with
    | none => .error parseError
    | some wire =>
      if wire.jsonrpc ≠ "2.0" ∨ wire.method = "" ∨ utf8Length wire.method.toList > 128
          ∨ ¬wire.method.toList.all fun c => c.toNat < 128 then
        .error invalidRequest
      else match wire.id with
        | none => .ok ⟨none, wire.method, wire.params⟩
        | some value =>
          match decodeId value with
          | none => .error invalidRequest
          | some id => .ok ⟨some id, wire.method, wire.params⟩

/-! ### Ids of messages -/

/-- A message carries an id. -/
def Carries (value wire : Value) : Prop := get value "id" = some wire

section Carries

variable {id : RequestId} {result : Value} {code : ℤ} {message data : String}

theorem carries_response : Carries (response id result) id.wire := rfl

theorem carries_error : Carries (error (some id) code message) id.wire := rfl

theorem carries_errorWithData : Carries (errorWithData (some id) code message data) id.wire := rfl

theorem decodeId_wire : decodeId id.wire = some id := by
  obtain ⟨wire, internal, valid⟩ := id
  unfold decodeId
  split
  · next h => exact absurd (valid.symm.trans h) (by simp)
  · next h =>
    obtain rfl := Option.some.inj (valid.symm.trans h)
    rfl

end Carries

end Zryna.LanguageServer
