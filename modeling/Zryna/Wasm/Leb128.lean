import Mathlib.Data.BitVec
import Mathlib.Tactic.NormNum

/-!
# LEB128 integers

The variable-length integers of the WebAssembly binary format: groups of seven bits, least
significant first, every byte but the last with its high bit set. `decodeUnsigned` and
`decodeSigned` are the grammars of the format for a given bit width. `encodeUnsigned` and
`encodeSigned` are the usual encoders of 32-bit integers, which stop at the first group after
which the rest of the value is determined. Encoding and then decoding gives the value back and
leaves the following bytes alone, and every other encoding of the value is longer (`Shortest`).
-/

namespace Zryna.Wasm

open Option

abbrev Byte := UInt8

/-! ### Decoders -/

/-- An unsigned integer of at most `bits` bits, and the bytes after it. -/
def decodeUnsigned (bits : ℕ) : List Byte → Option (ℕ × List Byte)
  | [] => none
  | byte :: rest =>
    if byte.toNat < 128 then
      if byte.toNat < 2 ^ bits then some (byte.toNat, rest) else none
    else if bits > 7 then
      (decodeUnsigned (bits - 7) rest).map fun (high, rest) => (byte.toNat - 128 + 128 * high, rest)
    else none

/-- A signed integer of at most `bits` bits, and the bytes after it. -/
def decodeSigned (bits : ℕ) : List Byte → Option (ℤ × List Byte)
  | [] => none
  | byte :: rest =>
    if byte.toNat < 64 then
      if byte.toNat < 2 ^ (bits - 1) then some (byte.toNat, rest) else none
    else if byte.toNat < 128 then
      if 128 ≤ byte.toNat + 2 ^ (bits - 1) then some ((byte.toNat : ℤ) - 128, rest) else none
    else if bits > 7 then
      (decodeSigned (bits - 7) rest).map fun (high, rest) =>
        ((byte.toNat : ℤ) - 128 + 128 * high, rest)
    else none

/-! ### Encoders -/

/-- The low seven bits of a value, as a byte. -/
def lowGroup (value : BitVec 32) : Byte := UInt8.ofBitVec ((value &&& 0x7f#32).setWidth 8)

/-- Emits groups until the rest of the value is zero, for at most `rounds` groups. -/
def encodeUnsignedLoop : ℕ → BitVec 32 → List Byte
  | 0, _ => []
  | rounds + 1, value =>
    let byte := lowGroup value
    let value := value >>> 7
    if value = 0 then [byte] else (byte ||| 0x80) :: encodeUnsignedLoop rounds value

/-- Five groups hold every 32-bit value. -/
def encodeUnsigned (value : BitVec 32) : List Byte := encodeUnsignedLoop 5 value

/-- Emits groups until the rest of the value is the sign of the last group, for at most `rounds`
groups. -/
def encodeSignedLoop : ℕ → BitVec 32 → List Byte
  | 0, _ => []
  | rounds + 1, value =>
    let byte := lowGroup value
    let value := value.sshiftRight 7
    let sign := byte &&& 0x40 ≠ 0
    if value = 0 ∧ ¬ sign ∨ value = -1 ∧ sign then [byte]
    else (byte ||| 0x80) :: encodeSignedLoop rounds value

/-- Five groups hold every 32-bit value. -/
def encodeSigned (value : BitVec 32) : List Byte := encodeSignedLoop 5 value

/-! ### Groups -/

theorem toNat_lowGroup (value : BitVec 32) : (lowGroup value).toNat = value.toNat % 128 := by
  have h : (value &&& 0x7f#32).toNat = value.toNat % 128 := by
    rw [BitVec.toNat_and]
    exact Nat.and_two_pow_sub_one_eq_mod value.toNat 7
  simp only [lowGroup, UInt8.toNat_ofBitVec, BitVec.toNat_setWidth, h]
  omega

theorem toNat_continued (byte : Byte) (h : byte.toNat < 128) :
    (byte ||| 0x80).toNat = byte.toNat + 128 := by
  rw [UInt8.toNat_or]
  have := Nat.two_pow_add_eq_or_of_lt (i := 7) h 1
  rw [show (0x80 : UInt8).toNat = 2 ^ 7 * 1 from rfl, Nat.or_comm, ← this]
  omega

theorem sign_iff (byte : Byte) (h : byte.toNat < 128) : byte &&& 0x40 ≠ 0 ↔ 64 ≤ byte.toNat := by
  have key : ∀ n < 128, (n &&& 64 ≠ 0 ↔ 64 ≤ n) := by decide
  rw [← key _ h, ne_eq, ne_eq, ← UInt8.toNat_inj, UInt8.toNat_and]
  rfl

theorem toInt_emod_lowGroup (value : BitVec 32) :
    ((lowGroup value).toNat : ℤ) = value.toInt % 128 := by
  rw [toNat_lowGroup, BitVec.toInt_eq_toNat_cond]
  split <;> omega

theorem toInt_sshiftRight_seven (value : BitVec 32) :
    (value.sshiftRight 7).toInt = value.toInt / 128 := by
  rw [BitVec.toInt_sshiftRight, Int.shiftRight_eq_div_pow]
  rfl

theorem toNat_ushiftRight_seven (value : BitVec 32) : (value >>> 7).toNat = value.toNat / 128 := by
  simp [BitVec.toNat_ushiftRight, Nat.shiftRight_eq_div_pow]

/-- The unsigned loop stops at a value of one group. -/
theorem ushiftRight_eq_zero_iff (value : BitVec 32) : value >>> 7 = 0 ↔ value.toNat < 128 := by
  rw [← BitVec.toNat_inj, toNat_ushiftRight_seven]
  exact Nat.div_eq_zero_iff_lt (by decide)

/-- The signed loop stops at a value of one group, whose sign is that of the group. -/
theorem signed_done_iff (value : BitVec 32) :
    (value.sshiftRight 7 = 0 ∧ ¬lowGroup value &&& 0x40 ≠ 0
      ∨ value.sshiftRight 7 = -1 ∧ lowGroup value &&& 0x40 ≠ 0)
      ↔ -64 ≤ value.toInt ∧ value.toInt < 64 := by
  have hlow := toInt_emod_lowGroup value
  have hzero : value.sshiftRight 7 = 0 ↔ value.toInt / 128 = 0 := by
    rw [← toInt_sshiftRight_seven, ← BitVec.toInt_inj]
    rfl
  have hminus : value.sshiftRight 7 = -1 ↔ value.toInt / 128 = -1 := by
    rw [← toInt_sshiftRight_seven, ← BitVec.toInt_inj]
    rfl
  rw [sign_iff _ (by omega), hzero, hminus]
  omega

/-! ### Round trips -/

theorem decodeUnsigned_encodeLoop (rest : List Byte) (rounds : ℕ) :
    ∀ (bits : ℕ) (value : BitVec 32), 0 < bits → bits ≤ 7 * rounds → value.toNat < 2 ^ bits →
      decodeUnsigned bits (encodeUnsignedLoop rounds value ++ rest) = some (value.toNat, rest) := by
  induction rounds with
  | zero => intro bits value hpos hle; omega
  | succ rounds ih =>
    intro bits value hpos hle hlt
    have hlow := toNat_lowGroup value
    have hlt128 : (lowGroup value).toNat < 128 := by omega
    have hshift := toNat_ushiftRight_seven value
    rw [encodeUnsignedLoop]
    simp only [ushiftRight_eq_zero_iff]
    split
    · -- the last group is the value
      have hval : (lowGroup value).toNat = value.toNat := by omega
      rw [List.singleton_append, decodeUnsigned, if_pos hlt128, if_pos (hval ▸ hlt), hval]
    · next hbig =>
      have hbits : 7 < bits := by
        by_contra hcon
        have : 2 ^ bits ≤ 2 ^ 7 := Nat.pow_le_pow_right (by decide) (by omega)
        omega
      have hpow : 2 ^ bits = 2 ^ (bits - 7) * 128 := by
        rw [← Nat.pow_sub_mul_pow 2 hbits.le]
      have hrec := ih (bits - 7) (value >>> 7) (by omega) (by omega)
        (by rw [hshift]; exact Nat.div_lt_of_lt_mul (by omega))
      have hbyte := toNat_continued (lowGroup value) hlt128
      rw [List.cons_append, decodeUnsigned, if_neg (by omega), if_pos hbits, hrec, map_some,
        hshift, hbyte, hlow]
      simp only [Option.some.injEq, Prod.mk.injEq, and_true]
      omega

/-- Reading back an unsigned integer. -/
theorem decodeUnsigned_encode (value : BitVec 32) (rest : List Byte) :
    decodeUnsigned 32 (encodeUnsigned value ++ rest) = some (value.toNat, rest) :=
  decodeUnsigned_encodeLoop rest 5 32 value (by decide) (by decide) value.isLt

theorem decodeSigned_encodeLoop (rest : List Byte) (rounds : ℕ) :
    ∀ (bits : ℕ) (value : BitVec 32), 0 < bits → bits ≤ 7 * rounds →
      -2 ^ (bits - 1) ≤ value.toInt → value.toInt < 2 ^ (bits - 1) →
      decodeSigned bits (encodeSignedLoop rounds value ++ rest) = some (value.toInt, rest) := by
  induction rounds with
  | zero => intro bits value hpos hle; omega
  | succ rounds ih =>
    intro bits value hpos hle hge hlt
    have hlow := toInt_emod_lowGroup value
    have hlt128 : (lowGroup value).toNat < 128 := by omega
    have hshift := toInt_sshiftRight_seven value
    have hcast : ((2 ^ (bits - 1) : ℕ) : ℤ) = 2 ^ (bits - 1) := by norm_cast
    rw [encodeSignedLoop]
    simp only [signed_done_iff]
    split
    · -- the rest of the value is the sign of the last group
      rw [List.singleton_append, decodeSigned]
      by_cases hpositive : 0 ≤ value.toInt
      · have hval : ((lowGroup value).toNat : ℤ) = value.toInt := by omega
        rw [if_pos (by omega), if_pos (by omega), hval]
      · have hval : ((lowGroup value).toNat : ℤ) - 128 = value.toInt := by omega
        rw [if_neg (by omega), if_pos hlt128, if_pos (by omega), hval]
    · next hmore =>
      have hbits : 7 < bits := by
        by_contra hcon
        have : 2 ^ (bits - 1) ≤ 2 ^ 6 := Nat.pow_le_pow_right (by decide) (by omega)
        omega
      have hpow : 2 ^ (bits - 1) = 2 ^ (bits - 7 - 1) * 128 := by
        rw [show bits - 1 = bits - 7 - 1 + 7 by omega, pow_add]
        rfl
      have hcast' : ((2 ^ (bits - 7 - 1) : ℕ) : ℤ) = 2 ^ (bits - 7 - 1) := by norm_cast
      have hrec := ih (bits - 7) (value.sshiftRight 7) (by omega) (by omega) (by omega) (by omega)
      have hbyte := toNat_continued (lowGroup value) hlt128
      rw [List.cons_append, decodeSigned, if_neg (by omega), if_neg (by omega), if_pos hbits, hrec,
        map_some, hshift, hbyte]
      simp only [Option.some.injEq, Prod.mk.injEq, and_true]
      push_cast
      omega

/-- Reading back a signed integer. -/
theorem decodeSigned_encode (value : BitVec 32) (rest : List Byte) :
    decodeSigned 32 (encodeSigned value ++ rest) = some (value.toInt, rest) :=
  decodeSigned_encodeLoop rest 5 32 value (by decide) (by decide) value.le_toInt value.toInt_lt

/-! ### Shortest encodings -/

/-- Every other encoding of the value is longer. -/
structure Shortest {α : Type} (decode : List Byte → Option (α × List Byte)) (value : α)
    (bytes : List Byte) : Prop where
  decodes : ∀ rest, decode (bytes ++ rest) = some (value, rest)
  length_le : bytes.length ≤ 5
  least : ∀ other, decode other = some (value, []) → other = bytes ∨ bytes.length < other.length

theorem length_encodeLoop (rounds : ℕ) (value : BitVec 32) :
    (encodeUnsignedLoop rounds value).length ≤ rounds
      ∧ (encodeSignedLoop rounds value).length ≤ rounds := by
  induction rounds generalizing value with
  | zero => exact ⟨Nat.le_refl 0, Nat.le_refl 0⟩
  | succ rounds ih =>
    rw [encodeUnsignedLoop, encodeSignedLoop]
    constructor <;> split
    · exact Nat.le_add_left 1 rounds
    · exact Nat.succ_le_succ (ih _).1
    · exact Nat.le_add_left 1 rounds
    · exact Nat.succ_le_succ (ih _).2

theorem shortest_cons {byte first : Byte} {other bytes : List Byte}
    (hfirst : byte.toNat = first.toNat)
    (ih : other = bytes ∨ bytes.length < other.length) :
    byte :: other = first :: bytes ∨ (first :: bytes).length < (byte :: other).length :=
  ih.imp (congrArg₂ List.cons (UInt8.toNat_inj.mp hfirst)) Nat.succ_lt_succ

theorem shortest_encodeUnsignedLoop {other : List Byte} {bits : ℕ} (rounds : ℕ)
    (value : BitVec 32) (h : decodeUnsigned bits other = some (value.toNat, [])) :
    other = encodeUnsignedLoop rounds value
      ∨ (encodeUnsignedLoop rounds value).length < other.length := by
  induction other generalizing bits rounds value with
  | nil => cases h
  | cons byte other ih =>
    cases rounds with
    | zero => exact .inr (Nat.succ_pos _)
    | succ rounds =>
      have hlow := toNat_lowGroup value
      have hshift := toNat_ushiftRight_seven value
      have hcontinued := toNat_continued (lowGroup value) (by omega)
      have hbyte := byte.toNat_lt
      rw [decodeUnsigned] at h
      rw [encodeUnsignedLoop]
      simp only [ushiftRight_eq_zero_iff]
      split at h
      · -- the last group
        split at h
        · obtain ⟨hvalue, rfl⟩ := Prod.mk.inj (Option.some.inj h)
          rw [if_pos (by omega)]
          exact shortest_cons (by omega) (.inl rfl)
        · cases h
      · split at h
        · obtain ⟨⟨high, rest⟩, hhigh, heq⟩ := map_eq_some_iff.mp h
          obtain ⟨hvalue, rfl⟩ := Prod.mk.inj heq
          split
          · -- a group that adds nothing
            cases other with
            | nil => cases hhigh
            | cons => exact .inr (by simp)
          · exact shortest_cons (by omega)
              (ih rounds _ (by rw [hhigh, hshift]; congr 2; omega))
        · cases h

theorem shortest_encodeSignedLoop {other : List Byte} {bits : ℕ} (rounds : ℕ)
    (value : BitVec 32) (h : decodeSigned bits other = some (value.toInt, [])) :
    other = encodeSignedLoop rounds value
      ∨ (encodeSignedLoop rounds value).length < other.length := by
  induction other generalizing bits rounds value with
  | nil => cases h
  | cons byte other ih =>
    cases rounds with
    | zero => exact .inr (Nat.succ_pos _)
    | succ rounds =>
      have hlow := toInt_emod_lowGroup value
      have hshift := toInt_sshiftRight_seven value
      have hcontinued := toNat_continued (lowGroup value) (by omega)
      have hbyte := byte.toNat_lt
      rw [decodeSigned] at h
      rw [encodeSignedLoop]
      simp only [signed_done_iff]
      split at h
      · -- the last group of a value that is not negative
        split at h
        · obtain ⟨hvalue, rfl⟩ := Prod.mk.inj (Option.some.inj h)
          rw [if_pos (by omega)]
          exact shortest_cons (by omega) (.inl rfl)
        · cases h
      split at h
      · -- the last group of a negative value
        split at h
        · obtain ⟨hvalue, rfl⟩ := Prod.mk.inj (Option.some.inj h)
          rw [if_pos (by omega)]
          exact shortest_cons (by omega) (.inl rfl)
        · cases h
      split at h
      · obtain ⟨⟨high, rest⟩, hhigh, heq⟩ := map_eq_some_iff.mp h
        obtain ⟨hvalue, rfl⟩ := Prod.mk.inj heq
        split
        · -- a group that adds nothing
          cases other with
          | nil => cases hhigh
          | cons => exact .inr (by simp)
        · exact shortest_cons (by omega)
            (ih rounds _ (by rw [hhigh, hshift]; congr 2; omega))
      · cases h

theorem shortest_encodeUnsigned (value : BitVec 32) :
    Shortest (decodeUnsigned 32) value.toNat (encodeUnsigned value) :=
  ⟨decodeUnsigned_encode value, (length_encodeLoop 5 value).1,
    fun _ h => shortest_encodeUnsignedLoop 5 value h⟩

theorem shortest_encodeSigned (value : BitVec 32) :
    Shortest (decodeSigned 32) value.toInt (encodeSigned value) :=
  ⟨decodeSigned_encode value, (length_encodeLoop 5 value).2,
    fun _ h => shortest_encodeSignedLoop 5 value h⟩

end Zryna.Wasm
