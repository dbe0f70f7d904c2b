import Zryna.Foundation.Json
import Zryna.Source
import Zryna.Wasm.Binary

/-!
# Bounded byte buffers

`BoundedBytes` of `zryna-backend-webassembly`: a byte buffer that refuses to grow past its limit.
Emission is a state computation over the buffer that stops at the first refusal. `Emits m chunk`
says that `m`, when it succeeds, appends exactly `chunk`, and `Appends m chunk` says besides that it
succeeds where the chunk fits. Every operation of the buffer has such a description, and
descriptions compose (`boundedBytes_exact`).

Allocation failure, which the source reports as an exceeded budget, is not modelled.
-/

namespace Zryna.Backend.WebAssembly

open Zryna.Wasm List

/-! ### Diagnostics -/

def controlFlowIndexError : Diagnostic :=
  Diagnostic.error "ZRYNA-W2002" none
    "verified M2 WebAssembly indexes exceeded the core binary index space"
    "report this compiler invariant failure with the smallest reproducible Zryna source"

def controlFlowBudgetError (limit : ℕ) : Diagnostic :=
  Diagnostic.error "ZRYNA-W2005" none
    s!"deterministic M2 core WebAssembly exceeds its {limit} byte emission budget"
    "reduce the verified ControlFlowV1 program below the WebAssembly artifact budget"

/-! ### The buffer -/

structure BoundedBytes where
  bytes : List Byte
  limit : ℕ
deriving DecidableEq

abbrev Emit := StateT BoundedBytes (Except Diagnostic)

/-- A checked conversion to `u32`. -/
def toU32 (value : ℕ) : Except Diagnostic (BitVec 32) :=
  if value < 2 ^ 32 then .ok (BitVec.ofNat 32 value) else .error controlFlowIndexError

/-- A checked conversion to `i32`. -/
def toI32 (value : ℕ) : Except Diagnostic (BitVec 32) :=
  if value < 2 ^ 31 then .ok (BitVec.ofNat 32 value) else .error controlFlowIndexError

namespace BoundedBytes

def new (limit : ℕ) : BoundedBytes := ⟨[], limit⟩

def extend (chunk : List Byte) : Emit Unit := fun self =>
  if self.bytes.length + chunk.length > self.limit then .error (controlFlowBudgetError self.limit)
  else .ok ((), { self with bytes := self.bytes ++ chunk })

def byte (byte : Byte) : Emit Unit := extend [byte]

def instruction (opcode : Byte) : Emit Unit := byte opcode

/-- The loop of `u32`. Five rounds shift all bits out. -/
def u32Loop : ℕ → BitVec 32 → Emit Unit
  | 0, _ => pure ()
  | rounds + 1, value => do
    let low := lowGroup value
    let value := value >>> 7
    if value ≠ 0 then do
      byte (low ||| 0x80)
      u32Loop rounds value
    else byte low

def u32 (value : BitVec 32) : Emit Unit := u32Loop 5 value

/-- The source's `section`. -/
def sectionOf (id : Byte) (payload : List Byte) : Emit Unit := do
  byte id
  u32 (← toU32 payload.length)
  extend payload

def name (name : String) : Emit Unit := do
  u32 (← toU32 (Json.utf8Bytes name.toList).length)
  extend (Json.utf8Bytes name.toList)

/-- The loop of `i32`. Five rounds shift all bits but the sign out. -/
def i32Loop : ℕ → BitVec 32 → Emit Unit
  | 0, _ => pure ()
  | rounds + 1, value => do
    let low := lowGroup value
    let value := value.sshiftRight 7
    let sign := low &&& 0x40 ≠ 0
    let done := value = 0 ∧ ¬ sign ∨ value = -1 ∧ sign
    if ¬ done then do
      byte (low ||| 0x80)
      i32Loop rounds value
    else byte low

def i32 (value : BitVec 32) : Emit Unit := i32Loop 5 value

def i32Const (value : BitVec 32) : Emit Unit := do
  instruction 0x41
  i32 value

def localGet (index : BitVec 32) : Emit Unit := do
  instruction 0x20
  u32 index

def localSet (index : BitVec 32) : Emit Unit := do
  instruction 0x21
  u32 index

def branch (opcode : Byte) (depth : BitVec 32) : Emit Unit := do
  instruction opcode
  u32 depth

end BoundedBytes

/-- Runs an emission from an empty buffer and returns its bytes. -/
def finish (limit : ℕ) (emission : Emit Unit) : Except Diagnostic (List Byte) :=
  (emission (BoundedBytes.new limit)).map fun result => result.2.bytes

/-! ### What an emission appends -/

/-- On success, `m` appends exactly `chunk`. -/
def Emits (m : Emit Unit) (chunk : List Byte) : Prop :=
  ∀ s s', m s = .ok ((), s') → s'.bytes = s.bytes ++ chunk

theorem bytes_of_finish {limit : ℕ} {m : Emit Unit} {chunk bytes : List Byte} (h : Emits m chunk)
    (hm : finish limit m = .ok bytes) : bytes = chunk := by
  unfold finish at hm
  cases hrun : m (BoundedBytes.new limit) with
  | error d => rw [hrun] at hm; cases hm
  | ok result =>
    rw [hrun] at hm
    obtain ⟨⟨⟩, s'⟩ := result
    have := h _ _ hrun
    cases hm
    simpa [BoundedBytes.new] using this

theorem Emits.pure : Emits (pure ()) [] := by
  intro s s' h
  cases h
  simp

/-- Consecutive emissions. -/
theorem Emits.bind {m k : Emit Unit} {c d : List Byte} (hm : Emits m c) (hk : Emits k d) :
    Emits (m >>= fun _ => k) (c ++ d) := by
  intro s s' h
  change (m s >>= fun result => k result.2) = .ok ((), s') at h
  cases hrun : m s with
  | error e => rw [hrun] at h; cases h
  | ok result =>
    obtain ⟨⟨⟩, t⟩ := result
    rw [hrun] at h
    rw [hk t s' h, hm s t hrun, append_assoc]

/-- A checked computation before an emission. -/
theorem Emits.lift {α : Type} {x : Except Diagnostic α} {k : α → Emit Unit} {c : List Byte}
    (hk : ∀ a, x = .ok a → Emits (k a) c) : Emits (liftM x >>= k) c := by
  intro s s' h
  cases x with
  | error e => cases h
  | ok a => exact hk a rfl s s' h

/-- `m` appends exactly `chunk` where it fits, and otherwise reports the exceeded budget. -/
def Appends (m : Emit Unit) (chunk : List Byte) : Prop :=
  ∀ s, m s = if s.bytes.length + chunk.length ≤ s.limit
    then .ok ((), { s with bytes := s.bytes ++ chunk }) else .error (controlFlowBudgetError s.limit)

namespace Appends

variable {m k : Emit Unit} {c d : List Byte}

theorem emits (h : Appends m c) : Emits m c := by
  intro s s' hrun
  rw [h s] at hrun
  split at hrun
  · cases hrun
    rfl
  · cases hrun

theorem bind (hm : Appends m c) (hk : Appends k d) : Appends (m >>= fun _ => k) (c ++ d) := by
  intro s
  show (m s >>= fun result => k result.2) = _
  rw [hm s, length_append]
  split
  · show k { s with bytes := s.bytes ++ c } = _
    rw [hk, length_append, Nat.add_assoc, append_assoc]
  · next hlong => exact (if_neg fun h => hlong (by omega)).symm

/-- A length is written where it is a `u32`. -/
theorem counted {count : ℕ} (h : count < 2 ^ 32)
    (hm : Appends (BoundedBytes.u32 (BitVec.ofNat 32 count)) c) (hk : Appends k d) :
    Appends (do BoundedBytes.u32 (← toU32 count); k) (c ++ d) := by
  rw [toU32, if_pos h]
  exact hm.bind hk

end Appends

theorem appends_extend (chunk : List Byte) : Appends (BoundedBytes.extend chunk) chunk := by
  intro s
  unfold BoundedBytes.extend
  simp only [gt_iff_lt, ← not_le, ite_not]

theorem appends_byte (byte : Byte) : Appends (BoundedBytes.byte byte) [byte] :=
  appends_extend [byte]

theorem appends_u32 (value : BitVec 32) :
    Appends (BoundedBytes.u32 value) (encodeUnsigned value) := by
  have key (rounds : ℕ) (value : BitVec 32) (hpos : rounds ≠ 0) (h : value.toNat < 128 ^ rounds) :
      Appends (BoundedBytes.u32Loop rounds value) (encodeUnsignedLoop rounds value) := by
    induction rounds generalizing value with
    | zero => exact absurd rfl hpos
    | succ rounds ih =>
      rw [BoundedBytes.u32Loop, encodeUnsignedLoop]
      split
      · next hz =>
        refine (appends_byte _).bind (ih _ ?_ ?_)
        · rintro rfl
          exact hz ((ushiftRight_eq_zero_iff value).mpr h)
        · rw [toNat_ushiftRight_seven]
          exact Nat.div_lt_of_lt_mul (pow_succ' 128 rounds ▸ h)
      · next hz =>
        rw [if_pos (not_not.mp hz)]
        exact appends_byte _
  exact key 5 value (by decide) (value.isLt.trans (by decide))

theorem appends_i32 (value : BitVec 32) :
    Appends (BoundedBytes.i32 value) (encodeSigned value) := by
  have key (rounds : ℕ) (value : BitVec 32) (hpos : rounds ≠ 0)
      (hge : -64 * 128 ^ (rounds - 1) ≤ value.toInt) (hlt : value.toInt < 64 * 128 ^ (rounds - 1)) :
      Appends (BoundedBytes.i32Loop rounds value) (encodeSignedLoop rounds value) := by
    induction rounds generalizing value with
    | zero => exact absurd rfl hpos
    | succ rounds ih =>
      rw [BoundedBytes.i32Loop, encodeSignedLoop]
      split
      · next hmore =>
        rw [signed_done_iff] at hmore
        obtain _ | rounds := rounds
        · exact absurd ⟨by simpa using hge, by simpa using hlt⟩ hmore
        · rw [Nat.add_sub_cancel, pow_succ] at hge hlt
          rw [Nat.add_sub_cancel] at ih
          refine (appends_byte _).bind (ih _ (Nat.succ_ne_zero _) ?_ ?_) <;>
            rw [toInt_sshiftRight_seven] <;> omega
      · next hdone =>
        rw [if_pos (not_not.mp hdone)]
        exact appends_byte _
  exact key 5 value (by decide) (le_trans (by decide) value.le_toInt)
    (value.toInt_lt.trans (by decide))

theorem emits_byte (byte : Byte) : Emits (BoundedBytes.byte byte) [byte] :=
  (appends_byte byte).emits

theorem emits_instruction (opcode : Byte) : Emits (BoundedBytes.instruction opcode) [opcode] :=
  emits_byte opcode

theorem emits_u32 (value : BitVec 32) : Emits (BoundedBytes.u32 value) (encodeUnsigned value) :=
  (appends_u32 value).emits

/-- On success, `m` appends the code of `instrs`. -/
def EmitsCode (m : Emit Unit) (instrs : List Instr) : Prop := Emits m (encodeInstrs instrs)

theorem EmitsCode.pure : EmitsCode (pure ()) [] := by
  unfold EmitsCode
  rw [encodeInstrs_nil]
  exact Emits.pure

theorem EmitsCode.bind {m k : Emit Unit} {xs ys : List Instr} (hm : EmitsCode m xs)
    (hk : EmitsCode k ys) : EmitsCode (m >>= fun _ => k) (xs ++ ys) := by
  unfold EmitsCode
  rw [encodeInstrs_append]
  exact Emits.bind hm hk

theorem EmitsCode.lift {α : Type} {x : Except Diagnostic α} {k : α → Emit Unit}
    {xs : List Instr} (hk : ∀ a, x = .ok a → EmitsCode (k a) xs) : EmitsCode (liftM x >>= k) xs :=
  Emits.lift hk

theorem EmitsCode.forM {α : Type} {f : α → Emit Unit} {code : α → List Instr} {xs : List α}
    (h : ∀ x ∈ xs, EmitsCode (f x) (code x)) : EmitsCode (forM xs f) (xs.flatMap code) := by
  induction xs with
  | nil => exact EmitsCode.pure
  | cons x xs ih =>
    rw [forM_cons, flatMap_cons]
    exact (h x (by simp)).bind (ih fun y hy => h y (by simp [hy]))

theorem emitsCode_i32Const (value : BitVec 32) :
    EmitsCode (BoundedBytes.i32Const value) [.const value] := by
  have := (emits_instruction 0x41).bind (appends_i32 value).emits
  simpa [EmitsCode, encodeInstr, BoundedBytes.i32Const] using this

theorem emitsCode_localGet (index : BitVec 32) :
    EmitsCode (BoundedBytes.localGet index) [.localGet index] := by
  have := (emits_instruction 0x20).bind (emits_u32 index)
  simpa [EmitsCode, encodeInstr, BoundedBytes.localGet] using this

theorem emitsCode_localSet (index : BitVec 32) :
    EmitsCode (BoundedBytes.localSet index) [.localSet index] := by
  have := (emits_instruction 0x21).bind (emits_u32 index)
  simpa [EmitsCode, encodeInstr, BoundedBytes.localSet] using this

theorem emitsCode_br (depth : BitVec 32) :
    EmitsCode (BoundedBytes.branch 0x0c depth) [.br depth] := by
  have := (emits_instruction 0x0c).bind (emits_u32 depth)
  simpa [EmitsCode, encodeInstr, BoundedBytes.branch] using this

theorem emitsCode_brIf (depth : BitVec 32) :
    EmitsCode (BoundedBytes.branch 0x0d depth) [.brIf depth] := by
  have := (emits_instruction 0x0d).bind (emits_u32 depth)
  simpa [EmitsCode, encodeInstr, BoundedBytes.branch] using this

theorem emitsCode_binary (op : BinaryOp) :
    EmitsCode (BoundedBytes.instruction op.opcode) [.binary op] := by
  simpa [EmitsCode, encodeInstr] using emits_instruction op.opcode

/-! ### Length prefixes -/

/-- A length that is written behind `before` splits off exactly the payload. -/
def Delimits (m : Emit Unit) (before payload : List Byte) : Prop :=
  if payload.length < 2 ^ 32 then
    ∃ count, Appends m (before ++ (count ++ payload)) ∧ ∀ rest,
      (decodeUnsigned 32 (count ++ (payload ++ rest))).map (fun (length, bytes) =>
        bytes.splitAt length) = some (payload, rest)
  else ∀ s, ∃ d, m s = .error d

theorem splitAt_decode {payload : List Byte} (h : payload.length < 2 ^ 32) (rest : List Byte) :
    (decodeUnsigned 32 (encodeUnsigned (BitVec.ofNat 32 payload.length) ++ (payload ++ rest))).map
      (fun (length, bytes) => bytes.splitAt length) = some (payload, rest) := by
  rw [decodeUnsigned_encode, Option.map_some, BitVec.toNat_ofNat, Nat.mod_eq_of_lt h]
  simp

theorem delimits_section (id : Byte) (payload : List Byte) :
    Delimits (BoundedBytes.sectionOf id payload) [id] payload := by
  unfold Delimits
  split
  · next h =>
    exact ⟨_, (appends_byte id).bind (.counted h (appends_u32 _) (appends_extend payload)),
      splitAt_decode h⟩
  · next h =>
    intro s
    show ∃ d, (BoundedBytes.byte id s >>= fun result => (do
      BoundedBytes.u32 (← toU32 payload.length); BoundedBytes.extend payload : Emit Unit) result.2)
        = .error d
    rw [appends_byte id s, toU32, if_neg h]
    split <;> exact ⟨_, rfl⟩

theorem delimits_name (text : String) :
    Delimits (BoundedBytes.name text) [] (Json.utf8Bytes text.toList) := by
  unfold Delimits
  split
  · next h =>
    have happends :=
      Appends.counted h (appends_u32 _) (appends_extend (Json.utf8Bytes text.toList))
    exact ⟨encodeUnsigned _, happends, splitAt_decode h⟩
  · next h =>
    unfold BoundedBytes.name
    rw [toU32, if_neg h]
    exact fun s => ⟨_, rfl⟩

/-- **Emitted integers.** Every operation of a buffer appends exactly its bytes where they fit, and
otherwise fails. Integers are written in their shortest form, and the lengths of sections and names
delimit the payload. -/
theorem boundedBytes_exact :
    (∀ value, Appends (BoundedBytes.u32 value) (encodeUnsigned value)
        ∧ Shortest (decodeUnsigned 32) value.toNat (encodeUnsigned value))
      ∧ (∀ value, Appends (BoundedBytes.i32 value) (encodeSigned value)
        ∧ Shortest (decodeSigned 32) value.toInt (encodeSigned value))
      ∧ (∀ chunk, Appends (BoundedBytes.extend chunk) chunk)
      ∧ (∀ byte, Appends (BoundedBytes.byte byte) [byte]
        ∧ Appends (BoundedBytes.instruction byte) [byte])
      ∧ (∀ index, Appends (BoundedBytes.localGet index) (0x20 :: encodeUnsigned index)
        ∧ Appends (BoundedBytes.localSet index) (0x21 :: encodeUnsigned index)
        ∧ ∀ opcode, Appends (BoundedBytes.branch opcode index) (opcode :: encodeUnsigned index))
      ∧ (∀ value, Appends (BoundedBytes.i32Const value) (0x41 :: encodeSigned value))
      ∧ (∀ id payload, Delimits (BoundedBytes.sectionOf id payload) [id] payload)
      ∧ ∀ text, Delimits (BoundedBytes.name text) [] (Json.utf8Bytes text.toList) := by
  refine ⟨fun value => ⟨appends_u32 value, shortest_encodeUnsigned value⟩,
    fun value => ⟨appends_i32 value, shortest_encodeSigned value⟩, appends_extend,
    fun byte => ⟨appends_byte byte, appends_byte byte⟩, fun index => ?_,
    fun value => (appends_byte 0x41).bind (appends_i32 value), delimits_section, delimits_name⟩
  exact ⟨(appends_byte 0x20).bind (appends_u32 index), (appends_byte 0x21).bind (appends_u32 index),
    fun opcode => (appends_byte opcode).bind (appends_u32 index)⟩

end Zryna.Backend.WebAssembly
